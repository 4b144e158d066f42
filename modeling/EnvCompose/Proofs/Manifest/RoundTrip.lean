import EnvCompose.Manifest.Sections
import EnvCompose.Proofs.Environment.Overrides
import EnvCompose.Proofs.Manifest.Closure
import EnvCompose.Proofs.Yaml.Comments

/-!
# Reading back what has been rendered

Whatever has been done to a manifest, its other entries never hold the key of its body. So the
document that is written has the body and the other entries, and what is read back is the same
manifest, with a header above it or without.
-/
namespace EnvCompose
open Yaml Merge

namespace Yaml

private theorem Mapping.exists_key_of_remove {m rest : Mapping} {key v : Value}
    (h : m.remove key = (some v, rest)) : ∃ e ∈ m, (e.1 == key) = true := by
  unfold remove at h
  split at h
  · rename_i i last hi hlast
    obtain ⟨hlt, hkey, -⟩ := List.findIdx?_eq_some_iff_getElem.mp hi
    exact ⟨m[i], List.getElem_mem hlt, hkey⟩
  · cases h

/-- In a proper mapping the entries before and after that of a key have other keys. -/
private theorem Mapping.others_ne {before after : Mapping} {e : Value × Value}
    (h : (Value.map (before ++ e :: after)).proper = true) {key : Value} (hk : key.proper = true)
    (hkey : (e.1 == key) = true) : ∀ f ∈ before ++ after, (f.1 == key) = false := by
  obtain ⟨hdistinct, hproper⟩ := (Value.proper_map _).mp h
  obtain ⟨-, hright, hacross⟩ := List.pairwise_append.mp hdistinct
  intro f hf
  refine Bool.eq_false_iff.mpr fun hfk => ?_
  rcases List.mem_append.mp hf with hf | hf
  · have hback := Value.beq_symm (hproper e (by simp)).1 hk hkey
    have hne := hacross f hf e (by simp)
    simp [Value.beq_trans hfk hback] at hne
  · have hback := Value.beq_symm (hproper f (by simp [hf])).1 hk hfk
    have hne := (List.pairwise_cons.mp hright).1 f hf
    simp [Value.beq_trans hkey hback] at hne

/-- Taking out an entry moves the last one into its place, unless it is the same. -/
private theorem Mapping.remove_append_cons {before after : Mapping} {e : Value × Value}
    {key : Value} (hbefore : ∀ f ∈ before, (f.1 == key) = false) (hkey : (e.1 == key) = true) :
    ∃ moved, remove (before ++ e :: after) key = (some e.2, before ++ moved) ∧
      moved.Perm after := by
  have hindex : (before ++ e :: after).findIdx? (·.1 == key) = some before.length := by
    refine List.findIdx?_eq_some_iff_getElem.mpr ⟨by simp, by simpa using hkey, fun j hj => ?_⟩
    rw [List.getElem_append_left hj, hbefore _ (List.getElem_mem hj)]
    simp
  rcases List.eq_nil_or_concat after with rfl | ⟨front, last, rfl⟩
  · exact ⟨[], by simp [remove, hindex], .refl []⟩
  · rw [List.concat_eq_append] at hindex ⊢
    have hlast : (before ++ e :: (front ++ [last])).getLast? = some last := by
      rw [← List.cons_append, ← List.append_assoc, List.getLast?_concat]
    have hset : ((before ++ e :: (front ++ [last])).set before.length last).dropLast =
        before ++ last :: front := by
      rw [List.set_append_right _ _ (Nat.le_refl _), Nat.sub_self, List.set_cons_zero,
        ← List.cons_append, ← List.append_assoc, List.dropLast_concat]
    have hlen : before.length + 1 ≠ (before ++ e :: (front ++ [last])).length := by
      simp
    refine ⟨last :: front, ?_, (List.perm_append_singleton last front).symm⟩
    unfold remove
    rw [hindex, hlast]
    simp only [if_neg hlen, hset]
    simp

/-- Taking out a key that is there gives its value and leaves the entries with other keys. -/
theorem Mapping.remove_of_mem {m : Mapping} (h : (Value.map m).proper = true) {e : Value × Value}
    (he : e ∈ m) {key : Value} (hk : key.proper = true) (hkey : (e.1 == key) = true) :
    (m.remove key).1 = some e.2 ∧
      ∀ f, f ∈ (m.remove key).2 ↔ f ∈ m ∧ (f.1 == key) = false := by
  obtain ⟨before, after, rfl⟩ := List.append_of_mem he
  have hothers := Mapping.others_ne h hk hkey
  obtain ⟨moved, hremove, hperm⟩ := Mapping.remove_append_cons
    (fun f hf => hothers f (List.mem_append_left _ hf)) hkey
  rw [hremove]
  refine ⟨rfl, fun f => ?_⟩
  rw [(hperm.append_left before).mem_iff]
  constructor
  · intro hf
    refine ⟨?_, hothers f hf⟩
    rcases List.mem_append.mp hf with hf | hf <;> simp [hf]
  · rintro ⟨hf, hfk⟩
    rcases List.mem_append.mp hf with hf | hf
    · exact List.mem_append_left _ hf
    · refine List.mem_append_right _ ((List.mem_cons.mp hf).resolve_left ?_)
      rintro rfl
      simp [hkey] at hfk

end Yaml

namespace Manifest

private theorem bodyKey_proper : bodyKey.proper = true := Value.proper_str "spack"

/-- What every manifest keeps to: no mapping in it has two equal keys, and its other entries do not
hold the key of its body. -/
structure WellFormed (m : Manifest) : Prop where
  body_proper : (Value.map m.body).proper = true
  extra_proper : (Value.map m.extra).proper = true
  body_apart : ∀ e ∈ m.extra, e.1 ≠ bodyKey

/-- The manifests that come of the empty one and of documents by any changes. Values and snapshots
that are put in are any in which no mapping has two equal keys. -/
inductive Reachable : Manifest → Prop
  | empty : Reachable .empty
  | parse {text : String} {m : Manifest} (h : Manifest.parse text = .ok m) : Reachable m
  | set {m : Manifest} (h : Reachable m) (path : String) {v : Value} (hv : v.proper = true) :
    Reachable (m.set path v)
  | setIncludes {m : Manifest} (h : Reachable m) (names : List String) :
    Reachable (m.setIncludes names)
  | merge {m other : Manifest} (h : Reachable m) (ho : Reachable other) (s : Strategy) :
    Reachable (m.merge other s)
  | mergeSection {m : Manifest} (h : Reachable m) (name : String) {v : Value}
    (hv : v.proper = true) (s : Strategy) : Reachable (m.mergeSection name v s)
  | restoreSections {m : Manifest} (h : Reachable m) {snapshot : Mapping}
    (hs : (Value.map snapshot).proper = true) : Reachable (m.restoreSections snapshot)
  | unmark {m : Manifest} (h : Reachable m) : Reachable m.unmark

namespace WellFormed

variable {m : Manifest}

theorem empty : WellFormed .empty := ⟨rfl, rfl, by simp [Manifest.empty]⟩

theorem set (h : WellFormed m) (path : String) {v : Value} (hv : v.proper = true) :
    WellFormed (m.set path v) where
  body_proper := closed_proper.set h.body_proper path hv
  extra_proper := h.extra_proper
  body_apart := h.body_apart

theorem setIncludes (h : WellFormed m) (names : List String) : WellFormed (m.setIncludes names) :=
  h.set "include" (by simp)

theorem merge {other : Manifest} (h : WellFormed m) (ho : WellFormed other) (s : Strategy) :
    WellFormed (m.merge other s) where
  body_proper := closed_proper.merged s h.body_proper ho.body_proper
  extra_proper := closed_proper.merged s h.extra_proper ho.extra_proper
  body_apart := forall_key_mergeMappings (P := fun key => key ≠ bodyKey) h.body_apart ho.body_apart

theorem mergeSection (h : WellFormed m) (name : String) {v : Value} (hv : v.proper = true)
    (s : Strategy) : WellFormed (m.mergeSection name v s) where
  body_proper := closed_proper.mergeSection h.body_proper name hv s
  extra_proper := h.extra_proper
  body_apart := h.body_apart

theorem restoreSections (h : WellFormed m) {snapshot : Mapping}
    (hs : ∀ e ∈ snapshot, e.2.proper = true) : WellFormed (m.restoreSections snapshot) where
  body_proper := closed_proper.restoreSections h.body_proper hs
  extra_proper := by
    rw [restoreSections_extra]
    exact h.extra_proper
  body_apart := by
    rw [restoreSections_extra]
    exact h.body_apart

theorem foldl_set (h : WellFormed m) {edits : List (String × Value)}
    (he : ∀ a ∈ edits, a.2.proper = true) :
    WellFormed (edits.foldl (fun m a => m.set a.1 a.2) m) := by
  induction edits generalizing m with
  | nil => exact h
  | cons a edits ih =>
    rw [List.forall_mem_cons] at he
    exact ih (h.set a.1 he.1) he.2

theorem configSections (h : WellFormed m) : ∀ e ∈ m.configSections, e.2.proper = true := by
  intro e he
  obtain ⟨name, -, hsection⟩ := List.mem_filterMap.mp he
  obtain ⟨v, hv, rfl⟩ := Option.map_eq_some_iff.mp hsection
  exact closed_proper.get? h.body_proper name v (Option.filter_eq_some_iff.mp hv).1

theorem unmark (h : WellFormed m) : WellFormed m.unmark where
  body_proper := closed_proper.unmarked h.body_proper
  extra_proper := h.extra_proper
  body_apart := h.body_apart

private theorem document_distinct (h : WellFormed m) :
    Mapping.Distinct ((bodyKey, .map m.body) :: m.extra) := by
  refine List.pairwise_cons.mpr ⟨fun e he => Bool.eq_false_iff.mpr fun heq => ?_,
    ((Value.proper_map m.extra).mp h.extra_proper).1⟩
  exact h.body_apart e he (Value.eq_str_of_str_beq heq)

theorem toValue_eq (h : WellFormed m) : m.toValue = .map ((bodyKey, .map m.body) :: m.extra) :=
  congrArg Value.map (Mapping.ofList_eq_self h.document_distinct)

theorem document_proper (h : WellFormed m) :
    (Value.map ((bodyKey, .map m.body) :: m.extra)).proper = true := by
  refine (Value.proper_map _).mpr ⟨h.document_distinct, List.forall_mem_cons.mpr ⟨?_, ?_⟩⟩
  · exact ⟨bodyKey_proper, h.body_proper⟩
  · exact ((Value.proper_map m.extra).mp h.extra_proper).2

/-- A document that equals a manifest's holds an equal manifest. -/
theorem ofValue_of_beq (h : WellFormed m) {v : Value} (hv : v.proper = true)
    (heq : (v == m.toValue) = true) : ∃ m', ofValue v = .ok m' ∧ (m' == m) = true := by
  rw [h.toValue_eq] at heq
  have hsymm := Value.beq_symm hv h.document_proper heq
  obtain ⟨entries, rfl⟩ := Value.eq_map_of_map_beq hsymm
  have hthere := ((Value.map_beq_map _ _).mp heq).2
  have hback := ((Value.map_beq_map _ _).mp hsymm).2
  obtain ⟨⟨key, value⟩, he, hkey, hvalue⟩ := hback (bodyKey, .map m.body) (by simp)
  obtain rfl : key = bodyKey := Value.eq_str_of_str_beq hkey
  obtain ⟨body, rfl⟩ := Value.eq_map_of_map_beq hvalue
  obtain ⟨hfound, hrest⟩ :=
    Mapping.remove_of_mem hv he bodyKey_proper (beq_self_eq_true bodyKey)
  have hproper := Mapping.remove_proper hv bodyKey
  refine ⟨⟨body, (Mapping.remove entries bodyKey).2⟩, ?_, beq_iff.mpr ⟨?_, ?_⟩⟩
  · have hremove : Mapping.remove entries bodyKey =
        (some (.map body), (Mapping.remove entries bodyKey).2) := Prod.ext hfound rfl
    rw [ofValue, hremove]
  · exact Value.beq_symm h.body_proper (((Value.proper_map entries).mp hv).2 _ he).2 hvalue
  · refine Value.map_beq_map_of_entries hproper h.extra_proper (fun e he => ?_) fun f hf => ?_
    · obtain ⟨he, hne⟩ := (hrest e).mp he
      obtain ⟨f, hf, hef⟩ := hthere e he
      rcases List.mem_cons.mp hf with rfl | hf
      · rw [hef.1] at hne
        cases hne
      · exact ⟨f, hf, hef⟩
    · obtain ⟨e, he, hfe⟩ := hback f (List.mem_cons_of_mem _ hf)
      refine ⟨e, (hrest e).mpr ⟨he, Bool.eq_false_iff.mpr fun heb => ?_⟩, hfe⟩
      exact h.body_apart f hf (Value.eq_str_of_beq (Value.beq_trans hfe.1 heb))

/-- A document that is read holds the key of the body once. -/
theorem of_parse {text : String} (h : Manifest.parse text = .ok m) : WellFormed m := by
  obtain ⟨hbody, hextra⟩ := proper_of_parse h
  refine ⟨hbody, hextra, ?_⟩
  unfold Manifest.parse at h
  split at h
  · cases h
  · rename_i v hv
    have hproper := Value.proper_of_parse hv
    obtain ⟨entries, w, rfl, hremove⟩ : ∃ entries w, v = .map entries ∧
        Mapping.remove entries bodyKey = (some w, m.extra) := by
      unfold ofValue at h
      split at h
      · rename_i entries
        refine ⟨entries, ?_⟩
        split at h
        all_goals
          cases h
          try exact ⟨_, rfl, ‹_›⟩
      · cases h
    obtain ⟨e, he, hkey⟩ := Mapping.exists_key_of_remove hremove
    obtain ⟨-, hrest⟩ := Mapping.remove_of_mem hproper he bodyKey_proper hkey
    intro f hf heq
    rw [hremove] at hrest
    have hne := ((hrest f).mp hf).2
    rw [heq] at hne
    simp [bodyKey] at hne

end WellFormed

theorem Reachable.wellFormed {m : Manifest} (h : Reachable m) : WellFormed m := by
  induction h with
  | empty => exact .empty
  | parse h => exact .of_parse h
  | set _ path hv ih => exact ih.set path hv
  | setIncludes _ names ih => exact ih.setIncludes names
  | merge _ _ s ih iho => exact ih.merge iho s
  | mergeSection _ name hv s ih => exact ih.mergeSection name hv s
  | restoreSections _ hs ih =>
    exact ih.restoreSections fun e he => (((Value.proper_map _).mp hs).2 e he).2
  | unmark _ ih => exact ih.unmark

/-- Whether the reader takes back what the writer makes of a document. -/
def readsBack (v : Value) : Bool :=
  match v.render with
  | .error _ => false
  | .ok text => match Value.parse text with
    | .error _ => false
    | .ok w => w == v

theorem readsBack_iff {v : Value} : readsBack v = true ↔
    ∃ text, v.render = .ok text ∧ ∃ w, Value.parse text = .ok w ∧ (w == v) = true := by
  unfold readsBack
  cases v.render with
  | error e => simp
  | ok text => cases h : Value.parse text <;> simp [h]

/-- Every manifest that can come about is read back as it was rendered, whatever stands in the
header above it. -/
theorem parse_render {m : Manifest} (h : Reachable m) (hback : readsBack m.toValue = true)
    {header : Option String} (hheader : ∀ text ∈ header, isHeaderText text.toList = true) :
    ∃ text, m.render header = .ok text ∧ ∃ m', Manifest.parse text = .ok m' ∧ (m' == m) = true := by
  obtain ⟨document, hrender, v, hparse, heq⟩ := readsBack_iff.mp hback
  obtain ⟨m', hm', hsame⟩ := h.wellFormed.ofValue_of_beq (Value.proper_of_parse hparse) heq
  have hread : Value.parse ((header.map commentLines).getD "" ++ document) = .ok v := by
    cases header with
    | none => simpa using hparse
    | some text => exact Value.parse_commentLines (hheader text rfl) hparse
  refine ⟨(header.map commentLines).getD "" ++ document, by simp [Manifest.render, hrender], m', ?_,
    hsame⟩
  simp [Manifest.parse, hread, hm', Except.mapError]

section Witness

/-- A manifest with a pin, a list of includes and a section with a marked key. -/
def pinnedWithIncludes : Manifest :=
  ((Manifest.empty.set "packages:zlib" (.seq [.str "1.3"])).setIncludes
    ["site", "common"]).mergeSection "config" (.map [(.str "view:", .bool false)]) .layer

theorem parse_render_pinnedWithIncludes : Reachable pinnedWithIncludes ∧
    readsBack pinnedWithIncludes.toValue = true ∧ isHeaderText "made\r\nby hand\n".toList = true ∧
      ∃ text, pinnedWithIncludes.render (some "made\r\nby hand\n") = .ok text ∧
        ∃ m', Manifest.parse text = .ok m' ∧ (m' == pinnedWithIncludes) = true := by
  have hreach : Reachable pinnedWithIncludes := by
    have hset := Reachable.empty.set "packages:zlib" (v := .seq [.str "1.3"]) (by decide)
    exact (hset.setIncludes ["site", "common"]).mergeSection "config" (by decide) .layer
  have hback : readsBack pinnedWithIncludes.toValue = true := by decide +kernel
  have hheader : isHeaderText "made\r\nby hand\n".toList = true := by decide
  exact ⟨hreach, hback, hheader, parse_render hreach hback (by simpa using hheader)⟩

end Witness

end Manifest
end EnvCompose
