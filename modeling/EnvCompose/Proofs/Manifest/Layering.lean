import EnvCompose.Proofs.Manifest.Changes

/-!
# Changes as a layer of their own

Changes that are made in an old document, which is merged back afterwards, come to the same as the
changes made in an empty document with the old one merged on top.
-/
namespace EnvCompose.Manifest
open Yaml Merge

section Keys

variable {m : Mapping} {name : String}

/-- A key goes by a name, or no text is found under it. -/
theorem named_or_unnamed (key : Value) : (∃ name, IsName name ∧ keyMatches key (.str name) = true) ∨
    ∀ s, keyMatches key (.str s) = false := by
  cases hk : keyName? key with
  | none =>
    refine .inr fun s => Bool.eq_false_iff.mpr fun h => ?_
    rcases keyMatches_iff.mp h with ⟨name, hname, -⟩ | ⟨-, hs, -⟩
    · simp [hk] at hname
    · simp [keyName?] at hs
  | some name =>
    have hname : IsName name := keyName?_str_of_keyName? hk
    exact .inl ⟨name, hname, keyMatches_iff.mpr (.inl ⟨name, hk, hname⟩)⟩

/-- What is found under a name is a value under the key that an assignment goes to. -/
theorem entryFor?_eq_map (hn : IsName name) (m : Mapping) : entryFor? m (.str name) =
    (valueFor? m (.str name)).map fun v => (keyFor m name, v) := by
  rw [valueFor?, keyFor, ← entryFor?_of_isName hn]
  cases entryFor? m (.str name) <;> rfl

private theorem keyFor_of_none (hn : IsName name) (h : valueFor? m (.str name) = none) :
    keyFor m name = .str name := by
  rw [valueFor?, Option.map_eq_none_iff, entryFor?_of_isName hn] at h
  rw [keyFor, h]
  rfl

/-- A key without a marker is its name. -/
theorem keyFor_of_unmarked (hn : IsName name) (h : isMarked (keyFor m name) = false) :
    keyFor m name = .str name := by
  obtain ⟨s, hs, hmatch, -⟩ := keyFor_eq_str hn m
  rw [hs] at h ⊢
  exact Value.eq_str_of_beq (beq_of_keyMatches (isMarked_of_isName hn) h hmatch)

private theorem keyFor_assign {first : String} (hf : IsName first) (hn : IsName name)
    (rest : List String)
    (v : Value) : keyFor (assign m (first :: rest) v) name = keyFor m name := by
  have hkey (m : Mapping) : keyFor m name = ((entryFor? m (.str name)).map (·.1)).getD (.str name) := by
    rw [keyFor, entryFor?_of_isName hn]
  rw [hkey, hkey]
  by_cases heq : first = name
  · subst heq
    rw [entryFor?_assign_self hf, ← hkey]
    rfl
  · rw [entryFor?_assign_of_ne hf (keyMatches_names hn hf (Ne.symm heq))]

end Keys

namespace Change

variable {changes : List Change} {name : String} {m : Mapping}

theorem keyFor_foldl_assign (hnames : ∀ a ∈ changes, ∀ n ∈ a.1, IsName n)
    (hne : ∀ a ∈ changes, a.1 ≠ []) (hn : IsName name) (m : Mapping) :
    keyFor (changes.foldl (fun m a => assign m a.1 a.2) m) name = keyFor m name := by
  induction changes generalizing m with
  | nil => rfl
  | cons a changes ih =>
    rw [List.forall_mem_cons] at hnames hne
    obtain ⟨first, rest, hpath⟩ := List.exists_cons_of_ne_nil hne.1
    rw [List.foldl_cons, ih hnames.2 hne.2, hpath,
      keyFor_assign (hnames.1 first (by simp [hpath])) hn]

/-- Changes in a document are laid in it entry by entry: each entry stays under its key. -/
theorem entryFor?_foldl_assign (hnames : ∀ a ∈ changes, ∀ n ∈ a.1, IsName n)
    (hne : ∀ a ∈ changes, a.1 ≠ []) (hn : IsName name) (m : Mapping) :
    entryFor? (changes.foldl (fun m a => assign m a.1 a.2) m) (.str name) =
      (apply (below name changes) (valueFor? m (.str name))).map fun v => (keyFor m name, v) := by
  rw [entryFor?_eq_map hn, keyFor_foldl_assign hnames hne hn, valueFor?_foldl_assign hnames hne hn]

theorem entryFor?_foldl_assign_of_unnamed (hnames : ∀ a ∈ changes, ∀ n ∈ a.1, IsName n) {key : Value}
    (h : ∀ s, keyMatches key (.str s) = false) (m : Mapping) :
    entryFor? (changes.foldl (fun m a => assign m a.1 a.2) m) key = entryFor? m key := by
  induction changes generalizing m with
  | nil => rfl
  | cons a changes ih =>
    rw [List.forall_mem_cons] at hnames
    rw [List.foldl_cons, ih hnames.2]
    rcases a with ⟨_ | ⟨first, rest⟩, v⟩
    · rfl
    · exact entryFor?_assign_of_ne (hnames.1 first (by simp)) (h first) rest v

/-- What merging back makes of the entries under a key, either of which may be missing. -/
def entryRestored : Option (Value × Value) → Option (Value × Value) → Option (Value × Value)
  | some e, some f => some (if isMarked f.1 then f else (e.1, Merge.merge .restore e.2 f.2))
  | some e, none => some e
  | none, f => f

theorem entryFor?_restore {base old : Mapping} (hb : Tidy (.map base)) (ho : Tidy (.map old))
    {key : Value} (hk : key.proper = true) : entryFor? (mergeMappings .restore base old) key =
      entryRestored (entryFor? base key) (entryFor? old key) := by
  rw [entryFor?_mergeMappings hb.proper ho.proper hk]
  rfl

theorem entryRestored_self {e : Option (Value × Value)} (h : ∀ f ∈ e, Tidy f.2) :
    entryRestored e e = e := by
  cases e with
  | none => rfl
  | some f => simp [entryRestored, merge_self (h f rfl)]

private theorem entryRestored_of_marked {key : Value} (h : isMarked key = true)
    (e : Option (Value × Value)) (v : Value) :
    entryRestored e (some (key, v)) = some (key, v) := by
  cases e <;> simp [entryRestored, h]

theorem entryRestored_of_unmarked {key : Value} (h : isMarked key = false) (other v w : Value) :
    entryRestored (some (other, v)) (some (key, w)) = some (other, Merge.merge .restore v w) := by
  simp [entryRestored, h]

/-- Whether an old value merged back over what changes make of it is the old value over what they
make of nothing, or the old value alone where there are no changes. -/
def LieBelow (changes : List Change) (old : Value) : Prop :=
  ∀ new, apply changes (some old) = some new → (Merge.merge .restore new old ==
    (apply changes none).elim old fun v => Merge.merge .restore v old) = true

/-- Under one name the entries are the same if the changes there lie below the value there. -/
private theorem sameEntry_of_lieBelow {key : Value} {old : Option Value}
    (hold : ∀ v ∈ old, LieBelow changes v)
    (hkey : old = none ∨ isMarked key = false → key = .str name) :
    SameEntry
      (entryRestored ((apply changes old).map fun v => (key, v)) (old.map fun v => (key, v)))
      (entryRestored ((apply changes none).map fun v => (.str name, v))
        (old.map fun v => (key, v))) := by
  cases old with
  | none =>
    rw [hkey (.inl rfl)]
    exact SameEntry.refl _
  | some v =>
    obtain ⟨new, hnew⟩ := exists_apply_some changes v
    have hsame := hold v rfl new hnew
    rw [hnew, Option.map_some, Option.map_some]
    cases hmark : isMarked key with
    | true =>
      rw [entryRestored_of_marked hmark, entryRestored_of_marked hmark]
      exact SameEntry.refl _
    | false =>
      rw [entryRestored_of_unmarked hmark]
      cases hnone : apply changes none with
      | none =>
        rw [hnone] at hsame
        exact .some ⟨beq_self_eq_true _, hsame⟩
      | some w =>
        rw [hnone] at hsame
        rw [Option.map_some, entryRestored_of_unmarked hmark, hkey (.inr hmark)]
        exact .some ⟨beq_self_eq_true _, hsame⟩

/-- In a mapping the changes lie below if those under each name lie below the value there. -/
theorem merge_foldl_assign_beq (h : Separate changes) (hvalues : ∀ a ∈ changes, Tidy a.2)
    (hne : ∀ a ∈ changes, a.1 ≠ []) (hm : Tidy (.map m))
    (hbelow : ∀ name, ∀ v ∈ valueFor? m (.str name), LieBelow (below name changes) v) :
    (Value.map (mergeMappings .restore (changes.foldl (fun m a => assign m a.1 a.2) m) m) ==
      .map (mergeMappings .restore (changes.foldl (fun m a => assign m a.1 a.2) []) m)) = true := by
  have hnil : Tidy (.map []) := tidy_map.mpr ⟨.nil, by simp⟩
  have hinside := foldl_assign_closed closed_tidy h.names hvalues hm
  have halone := foldl_assign_closed closed_tidy h.names hvalues hnil
  refine map_beq_map_of_entryFor? (hinside.mergeMappings .restore hm)
    (halone.mergeMappings .restore hm) fun key hk => ?_
  rw [entryFor?_restore hinside hm hk, entryFor?_restore halone hm hk]
  rcases named_or_unnamed key with ⟨name, hn, hkey⟩ | hunnamed
  · have hcongr (m : Mapping) := entryFor?_congr m hk (Value.proper_str name) hkey
    rw [hcongr, hcongr, hcongr, entryFor?_foldl_assign h.names hne hn,
      entryFor?_foldl_assign h.names hne hn, entryFor?_eq_map hn m]
    refine sameEntry_of_lieBelow (hbelow name) fun hcase => ?_
    exact hcase.elim (keyFor_of_none hn) (keyFor_of_unmarked hn)
  · rw [entryFor?_foldl_assign_of_unnamed h.names hunnamed,
      entryFor?_foldl_assign_of_unnamed h.names hunnamed]
    have hempty : entryFor? [] key = none := by rw [entryFor?_eq_find?]; rfl
    rw [hempty]
    rw [entryRestored_self fun f hf => hm.value (mem_of_entryFor? hf)]
    exact SameEntry.refl _

theorem tidy_below (hvalues : ∀ a ∈ changes, Tidy a.2) (name : String) :
    ∀ a ∈ below name changes, Tidy a.2 := fun a ha => hvalues (name :: a.1, a.2) (mem_below.mp ha)

/-- What is no mapping takes the place of whatever has come of changes. -/
theorem lieBelow_of_not_map {old : Value} (h : ∀ m, old ≠ .map m) (changes : List Change) :
    LieBelow changes old := by
  intro new _
  rw [merge_restore_of_not_map (.inr h)]
  cases apply changes none with
  | none => exact beq_self_eq_true _
  | some v =>
    rw [Option.elim_some, merge_restore_of_not_map (.inr h)]
    exact beq_self_eq_true _

/-- Changes that do not see one another lie below every tidy document they are made in. -/
theorem lieBelow (h : Separate changes) (hvalues : ∀ a ∈ changes, Tidy a.2) {old : Value}
    (hold : Tidy old) : LieBelow changes old := by
  induction old using Value.members_induction generalizing changes with
  | map m ih =>
    intro new hnew
    by_cases hempty : changes = []
    · subst hempty
      obtain rfl := Option.some.inj hnew
      rw [merge_self hold]
      exact beq_self_eq_true _
    · by_cases hwhole : ∃ v, ([], v) ∈ changes
      · obtain ⟨v, hv⟩ := hwhole
        rw [h.eq_singleton hv] at hnew ⊢
        obtain rfl := Option.some.inj hnew
        exact beq_self_eq_true _
      · have hne : ∀ a ∈ changes, a.1 ≠ [] := by
          rintro ⟨path, v⟩ ha rfl
          exact hwhole ⟨v, ha⟩
        rw [apply_map hne] at hnew
        obtain rfl := Option.some.inj hnew
        rw [apply_of_blank (by simp) hne hempty, apply_map hne, Option.elim_some, merge_map, merge_map]
        refine merge_foldl_assign_beq h hvalues hne hold fun name v hv => ?_
        obtain ⟨e, he, rfl⟩ := Option.map_eq_some_iff.mp hv
        have hmem := mem_of_entryFor? he
        exact (ih e hmem).2 (h.below name) (tidy_below hvalues name) (hold.value hmem)
  | scalar v hv =>
    exact lieBelow_of_not_map (by rintro m rfl; simp [Value.isScalar] at hv) changes
  | seq | tagged => exact lieBelow_of_not_map (by simp) changes

end Change
end EnvCompose.Manifest
