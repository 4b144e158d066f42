import EnvCompose.Proofs.Manifest.Assignment

/-!
# Sections of a manifest

A section is what stands under a single name. Merging a value into a section is merging a mapping
with that one section into the body.
-/
namespace EnvCompose.Manifest
open Yaml Merge

theorem beq_iff {a b : Manifest} : (a == b) = true ↔
    (Value.map a.body == .map b.body) = true ∧ (Value.map a.extra == .map b.extra) = true := by
  rw [← Bool.and_eq_true]
  rfl

variable {name : String}

@[simp] theorem lookup_nil (v : Value) : lookup [] v = some v := rfl

theorem lookup_cons (name : String) (names : List String) (v : Value) :
    lookup (name :: names) v =
      v.entries?.bind fun m => (entryNamed? m name).bind fun e => lookup names e.2 := rfl

/-- What holds of a document and passes on to what its mappings hold, whatever tags these carry,
holds of all that is found in it. -/
theorem get?_of {P : Value → Prop} (htagged : ∀ tag v, P (.tagged tag v) → P v)
    (hvalues : ∀ m, P (.map m) → ∀ e ∈ m, P e.2) {m : Manifest} (h : P (.map m.body))
    (path : String) : ∀ v ∈ m.get? path, P v := by
  have hlookup (names : List String) : ∀ v, P v → ∀ w ∈ lookup names v, P w := by
    induction names with
    | nil => simp
    | cons name names ih =>
      intro v hv w hw
      rw [lookup_cons] at hw
      obtain ⟨entries, hentries, hw⟩ := Option.bind_eq_some_iff.mp hw
      obtain ⟨e, he, hw⟩ := Option.bind_eq_some_iff.mp hw
      have hmap := Value.of_entries? htagged hv hentries
      exact ih e.2 (hvalues entries hmap e (List.mem_of_find?_eq_some he)) w hw
  intro v hv
  unfold get? at hv
  split at hv
  · cases hv
  · exact hlookup _ (.map m.body) h v hv

theorem lookup_cons_map (hn : IsName name) (names : List String) (m : Mapping) :
    lookup (name :: names) (.map m) = (valueFor? m (.str name)).bind (lookup names) := by
  rw [valueFor?, entryFor?_of_isName hn, lookup_cons]
  cases he : entryNamed? m name <;> simp [Value.entries?, Value.untagged, he]

theorem get?_section (hp : namesOn name = [name]) (hn : IsName name) (m : Manifest) :
    m.get? name = valueFor? m.body (.str name) := by
  rw [get?, hp]
  dsimp only
  rw [lookup_cons_map hn]
  cases valueFor? m.body (.str name) <;> rfl

theorem valueFor?_set_section {other : String} (hp : namesOn name = [name]) (hn : IsName name)
    (ho : IsName other) (m : Manifest) (v : Value) :
    valueFor? (m.set name v).body (.str other) =
      if name = other then some v else valueFor? m.body (.str other) := by
  rw [set, hp]
  exact valueFor?_assign hn ho [] v

theorem set_section_body (hp : namesOn name = [name]) (hn : IsName name) (m : Manifest) (v : Value) :
    (m.set name v).body = m.body.insert (keyFor m.body name) v := by
  rw [set, hp]
  exact assign_cons hn [] v

section Merging

variable {m : Mapping}

private theorem keyMatches_of_absent (hm : (Value.map m).proper = true)
    (h : entryFor? m (.str name) = none) : ∀ e ∈ m, keyMatches e.1 (.str name) = false := by
  intro e he
  have hk := (((Value.proper_map m).mp hm).2 e he).1
  rw [entryFor?_eq_find?, List.find?_eq_none] at h
  exact Bool.eq_false_iff.mpr fun hmatch => h e he (keyMatches_symm hk (by simp) hmatch)

private theorem insert_keyFor_of_absent (hn : IsName name) (hm : (Value.map m).proper = true)
    (h : entryFor? m (.str name) = none) (v : Value) :
    m.insert (keyFor m name) v = m ++ [(.str name, v)] := by
  have hkey : keyFor m name = .str name := by simp [keyFor, ← entryFor?_of_isName hn, h]
  have hfresh : ∀ e ∈ m, (e.1 == .str name) = false := fun e he =>
    Bool.eq_false_iff.mpr fun heq => by
      have hno := keyMatches_of_absent hm h e he
      rw [Value.eq_str_of_beq heq, keyMatches_refl] at hno
      cases hno
  rw [hkey, Mapping.insert_of_absent v hfresh]

/-- In a tidy mapping a name is that of one entry only. -/
theorem eq_of_keyMatches (hm : Tidy (.map m)) {e f : Value × Value}
    (h : entryFor? m (.str name) = some e) (hf : f ∈ m)
    (hname : keyMatches f.1 (.str name) = true) : f = e := by
  have hk := (((Value.proper_map m).mp hm.proper).2 f hf).1
  have hfe := entryFor?_of_mem hm hf (by simp) (keyMatches_symm hk (by simp) hname)
  exact Option.some.inj (hfe.symm.trans h)

/-- In a tidy mapping an assignment reaches all there is under the name. -/
theorem insert_keyFor_of_present (hn : IsName name) (hm : Tidy (.map m)) {e : Value × Value}
    (h : entryFor? m (.str name) = some e) (v : Value) : m.insert (keyFor m name) v =
      m.map fun f => if keyMatches f.1 (.str name) then (f.1, v) else f := by
  obtain ⟨s, hs, hmatch, hfirst⟩ := keyFor_eq_str hn m
  have hin : ∃ f ∈ m, (f.1 == .str s) = true := ⟨e, mem_of_entryFor? h, by simp [hfirst e h]⟩
  rw [hs, Mapping.insert_eq_map hm.proper (by simp) hin]
  refine List.map_congr_left fun f hf => ?_
  by_cases hfs : (f.1 == .str s) = true
  · have hname := keyMatches_symm (by simp) (by simp) hmatch
    simp [Value.eq_str_of_beq hfs, hname]
  · have hno : keyMatches f.1 (.str name) = false := Bool.eq_false_iff.mpr fun hname => by
      obtain rfl := eq_of_keyMatches hm h hf hname
      exact hfs (by simp [hfirst f h])
    simp [hfs, hno]

private theorem mergeEntry_singleton (s : Strategy) (key v : Value) (e : Value × Value) :
    mergeEntry s [(key, v)] e = if keyMatches e.1 key then mergePair s e (key, v) else e := by
  rw [mergeEntry, entryFor?_eq_find?, List.find?_singleton]
  cases keyMatches e.1 key <;> rfl

/-- A mapping of one entry that is merged in adds it where its name is absent. -/
theorem mergeMappings_singleton_of_absent (hm : Tidy (.map m)) (s : Strategy) {v : Value}
    (hv : Tidy v) (h : entryFor? m (.str name) = none) :
    mergeMappings s m [(.str name, v)] = m ++ [(.str name, v)] := by
  have hone : Tidy (.map [(.str name, v)]) := tidy_map.mpr ⟨by simp, by simpa using hv⟩
  have hsame : m.map (mergeEntry s [(.str name, v)]) = m := by
    rw [List.map_congr_left fun e he => by
      rw [mergeEntry_singleton, keyMatches_of_absent hm.proper h e he]]
    exact List.map_id' _
  rw [mergeMappings_eq_mergedEntries hm hone.proper, mergedEntries, hsame]
  simp [h]

/-- A mapping of one entry that is merged in changes the one entry of its name. -/
theorem mergeMappings_singleton_of_present (hm : Tidy (.map m)) (s : Strategy) {v : Value}
    (hv : Tidy v) {e : Value × Value} (h : entryFor? m (.str name) = some e) :
    mergeMappings s m [(.str name, v)] =
      m.map fun f => if keyMatches f.1 (.str name) then mergePair s e (.str name, v) else f := by
  have hone : Tidy (.map [(.str name, v)]) := tidy_map.mpr ⟨by simp, by simpa using hv⟩
  have hnone : [(Value.str name, v)].filter (fun f => (entryFor? m f.1).isNone) = [] := by simp [h]
  rw [mergeMappings_eq_mergedEntries hm hone.proper, mergedEntries, hnone, List.append_nil]
  refine List.map_congr_left fun f hf => ?_
  rw [mergeEntry_singleton]
  by_cases hname : keyMatches f.1 (.str name) = true
  · rw [if_pos hname, if_pos hname, eq_of_keyMatches hm h hf hname]
  · rw [if_neg hname, if_neg hname]

section Sections

variable (hp : namesOn name = [name]) (hn : IsName name) {m : Manifest} (hm : Tidy (.map m.body))
include hp hn hm

private theorem mergeSection_body_of_absent (s : Strategy) {v : Value}
    (h : entryFor? m.body (.str name) = none) :
    (m.mergeSection name v s).body = m.body ++ [(.str name, v)] := by
  rw [mergeSection, set_section_body hp hn, get?_section hp hn, valueFor?, h]
  exact insert_keyFor_of_absent hn hm.proper h v

private theorem mergeSection_body_of_present (s : Strategy) {v : Value} {e : Value × Value}
    (h : entryFor? m.body (.str name) = some e) : (m.mergeSection name v s).body =
      m.body.map fun f => if keyMatches f.1 (.str name) then (e.1, Merge.merge s e.2 v) else f := by
  rw [mergeSection, set_section_body hp hn, get?_section hp hn, valueFor?, h,
    insert_keyFor_of_present hn hm h]
  refine List.map_congr_left fun f hf => ?_
  by_cases hname : keyMatches f.1 (.str name) = true
  · rw [if_pos hname, if_pos hname, eq_of_keyMatches hm h hf hname]
    rfl
  · rw [if_neg hname, if_neg hname]

/-- Merging a value into a section merges a mapping of that section into the body, unless the section
has a marked key that wins. -/
theorem mergeSection_body {s : Strategy} {v : Value} (hv : Tidy v)
    (hmark : ∀ e ∈ entryFor? m.body (.str name), isMarked (s.winner e.1 (.str name)) = false) :
    (m.mergeSection name v s).body = mergeMappings s m.body [(.str name, v)] := by
  cases h : entryFor? m.body (.str name) with
  | none =>
    rw [mergeSection_body_of_absent hp hn hm s h, mergeMappings_singleton_of_absent hm s hv h]
  | some e =>
    rw [mergeSection_body_of_present hp hn hm s h, mergeMappings_singleton_of_present hm s hv h,
      mergePair, hmark e h]
    rfl

end Sections

end Merging

/-- A value with what it was before merged back, if both are there. -/
def restored (before now : Option Value) : Option Value :=
  match before, now with
  | some old, some v => some (Merge.merge .restore v old)
  | _, now => now

theorem restoreSections_extra (m : Manifest) (snapshot : Mapping) :
    (m.restoreSections snapshot).extra = m.extra := by
  have hone (m : Manifest) (e : Value × Value) : (m.restoreSection e).extra = m.extra := by
    unfold restoreSection
    split
    · rfl
    · split <;> rfl
  induction snapshot generalizing m with
  | nil => rfl
  | cons e snapshot ih => exact (ih (m.restoreSection e)).trans (hone m e)

theorem valueFor?_restoreSection {other : String} (hp : namesOn name = [name]) (hn : IsName name)
    (ho : IsName other) (m : Manifest) (old : Value) :
    valueFor? (m.restoreSection (.str name, old)).body (.str other) =
      if name = other then restored (some old) (valueFor? m.body (.str other))
      else valueFor? m.body (.str other) := by
  have htext : (Value.str name).text? = some name := rfl
  unfold restoreSection
  simp only [htext, get?_section hp hn]
  by_cases heq : name = other
  · subst heq
    cases hv : valueFor? m.body (.str name) with
    | none => simp [hv, restored]
    | some v => simp [valueFor?_set_section hp hn ho, restored]
  · cases valueFor? m.body (.str name) with
    | none => simp [heq]
    | some v => simp [valueFor?_set_section hp hn ho, heq]

/-- The section of a name, unless there is nothing in it. -/
def heldSection (m : Manifest) (name : String) : Option Value :=
  (m.get? name).filter fun v => !v.isBlank

/-- Restoring sections of different names merges back each of them and leaves the rest alone. -/
theorem valueFor?_restoreSections {names : List String} (hp : ∀ name ∈ names, namesOn name = [name])
    (hn : ∀ name ∈ names, IsName name) (hdistinct : names.Nodup) {other : String}
    (ho : IsName other) (m before : Manifest) :
    valueFor? (m.restoreSections (names.filterMap fun name =>
        (before.heldSection name).map fun v => (.str name, v))).body (.str other) =
      if other ∈ names then restored (before.heldSection other) (valueFor? m.body (.str other))
      else valueFor? m.body (.str other) := by
  induction names generalizing m with
  | nil => rfl
  | cons name names ih =>
    rw [List.forall_mem_cons] at hp hn
    obtain ⟨hnew, hdistinct⟩ := List.nodup_cons.mp hdistinct
    cases hheld : before.heldSection name with
    | none =>
      rw [List.filterMap_cons_none (by simp [hheld]), ih hp.2 hn.2 hdistinct]
      by_cases heq : other = name
      · subst heq
        simp [hnew, hheld, restored]
      · simp [heq]
    | some old =>
      rw [List.filterMap_cons_some (by simp [hheld]; rfl)]
      rw [restoreSections, List.foldl_cons, ← restoreSections, ih hp.2 hn.2 hdistinct,
        valueFor?_restoreSection hp.1 hn.1 ho]
      by_cases heq : other = name
      · subst heq
        simp [hnew, hheld]
      · simp [heq, Ne.symm heq]

end EnvCompose.Manifest
