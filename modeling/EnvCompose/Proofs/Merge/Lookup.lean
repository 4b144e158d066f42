import EnvCompose.Merge.Basic
import EnvCompose.Proofs.Yaml.Mapping
import Mathlib.Data.List.Find

/-!
# What a merged mapping has under a key

Two keys match if they go by the same name or, where they have none, are equal. This is an
equivalence on proper keys. What a merged mapping has under a key depends only on what its two
sides have under it, whatever else they hold and in whatever order.
-/
namespace EnvCompose.Merge
open Yaml Mapping

/-- Whether a lookup of the first key stops at the second. -/
def keyMatches (key other : Value) : Bool :=
  match keyName? key with
  | some name => keyName? other == some name
  | none => other == key

theorem entryFor?_eq_find? (m : Mapping) (key : Value) :
    entryFor? m key = List.find? (fun e => keyMatches key e.1) m := by
  unfold entryFor? keyMatches
  cases keyName? key <;> rfl

theorem keyMatches_of_entryFor? {m : Mapping} {key : Value} {e : Value × Value}
    (h : entryFor? m key = some e) : keyMatches key e.1 = true := by
  rw [entryFor?_eq_find?] at h
  exact List.find?_some (p := fun e : Value × Value => keyMatches key e.1) h

theorem mem_of_entryFor? {m : Mapping} {key : Value} {e : Value × Value}
    (h : entryFor? m key = some e) : e ∈ m := by
  rw [entryFor?_eq_find?] at h
  exact List.mem_of_find?_eq_some h

private theorem keyName?_eq_none_of_beq {a b : Value} (ha : keyName? a = none)
    (h : (b == a) = true) : keyName? b = none := by
  cases b with
  | str s => rw [Value.eq_str_of_str_beq h] at ha; simp [keyName?] at ha
  | _ => rfl

theorem keyMatches_iff {a b : Value} : keyMatches a b = true ↔
    (∃ name, keyName? a = some name ∧ keyName? b = some name) ∨
      (keyName? a = none ∧ keyName? b = none ∧ (b == a) = true) := by
  unfold keyMatches
  cases ha : keyName? a with
  | some name => simp
  | none => simpa using keyName?_eq_none_of_beq ha

theorem keyMatches_refl (a : Value) : keyMatches a a = true := by
  unfold keyMatches
  cases keyName? a <;> simp

theorem keyMatches_symm {a b : Value} (ha : a.proper = true) (hb : b.proper = true)
    (h : keyMatches a b = true) : keyMatches b a = true := by
  rcases keyMatches_iff.mp h with ⟨name, hna, hnb⟩ | ⟨hna, hnb, hab⟩
  · exact keyMatches_iff.mpr (.inl ⟨name, hnb, hna⟩)
  · exact keyMatches_iff.mpr (.inr ⟨hnb, hna, Value.beq_symm hb ha hab⟩)

theorem keyMatches_trans {a b c : Value} (h : keyMatches a b = true) (h' : keyMatches b c = true) :
    keyMatches a c = true := by
  rcases keyMatches_iff.mp h with ⟨name, hna, hnb⟩ | ⟨hna, hnb, hab⟩
  · rcases keyMatches_iff.mp h' with ⟨name', hnb', hnc⟩ | ⟨hnb', -, -⟩
    · rw [hnb] at hnb'
      exact keyMatches_iff.mpr (.inl ⟨name, hna, hnc.trans hnb'.symm⟩)
    · simp [hnb] at hnb'
  · rcases keyMatches_iff.mp h' with ⟨name', hnb', -⟩ | ⟨-, hnc, hbc⟩
    · simp [hnb] at hnb'
    · exact keyMatches_iff.mpr (.inr ⟨hna, hnc, Value.beq_trans hbc hab⟩)

theorem keyMatches_of_beq {a b : Value} (ha : a.proper = true) (hb : b.proper = true)
    (h : (a == b) = true) : keyMatches a b = true := by
  cases hna : keyName? a with
  | some name =>
    cases a with
    | str s => rw [Value.eq_str_of_str_beq h]; exact keyMatches_refl _
    | _ => simp [keyName?] at hna
  | none =>
    have hba := Value.beq_symm ha hb h
    exact keyMatches_iff.mpr (.inr ⟨hna, keyName?_eq_none_of_beq hna hba, hba⟩)

theorem keyMatches_congr {a b c : Value} (ha : a.proper = true) (hb : b.proper = true)
    (h : keyMatches a b = true) : keyMatches a c = keyMatches b c :=
  Bool.eq_iff_iff.mpr ⟨keyMatches_trans (keyMatches_symm ha hb h), keyMatches_trans h⟩

theorem keyMatches_congr_right {a b c : Value} (hb : b.proper = true) (hc : c.proper = true)
    (h : keyMatches b c = true) : keyMatches a b = keyMatches a c :=
  Bool.eq_iff_iff.mpr ⟨fun hab => keyMatches_trans hab h,
    fun hac => keyMatches_trans hac (keyMatches_symm hb hc h)⟩

theorem entryFor?_congr {a b : Value} (m : Mapping) (ha : a.proper = true) (hb : b.proper = true)
    (h : keyMatches a b = true) : entryFor? m a = entryFor? m b := by
  rw [entryFor?_eq_find?, entryFor?_eq_find?]
  exact List.find?_congr fun e _ => keyMatches_congr ha hb h

/-- What becomes of two entries that match: the winner's where its key is marked, and else the
merged value under the key of the base. -/
def mergePair (s : Strategy) (e f : Value × Value) : Value × Value :=
  if isMarked (s.winner e.1 f.1) then s.winner e f else (e.1, merge s e.2 f.2)

/-- An entry of the base with what the overlay has under its key. -/
def mergeEntry (s : Strategy) (overlay : Mapping) (e : Value × Value) : Value × Value :=
  match entryFor? overlay e.1 with
  | none => e
  | some f => mergePair s e f

theorem mergeEntry_of_none {s : Strategy} {overlay : Mapping} {e : Value × Value}
    (h : entryFor? overlay e.1 = none) : mergeEntry s overlay e = e := by
  rw [mergeEntry, h]

theorem mergeEntry_of_some {s : Strategy} {overlay : Mapping} {e f : Value × Value}
    (h : entryFor? overlay e.1 = some f) : mergeEntry s overlay e = mergePair s e f := by
  rw [mergeEntry, h]

private theorem mergeBase_eq_map (s : Strategy) (base : List (Value × Value)) (overlay : Mapping) :
    mergeBase s base overlay = base.map (mergeEntry s overlay) := by
  induction base with
  | nil => simp [mergeBase]
  | cons e base ih =>
    rw [mergeBase, ih, List.map_cons, mergeEntry]
    congr 1
    cases entryFor? overlay e.1 with
    | none => rfl
    | some f => rcases s with ⟨_ | _, q⟩ <;> rfl

private theorem mergePair_key (s : Strategy) (e f : Value × Value) :
    (mergePair s e f).1 = e.1 ∨ (mergePair s e f).1 = f.1 := by
  unfold mergePair Strategy.winner
  cases s.precedence <;> dsimp only <;> split <;> simp

/-- The entries of a merged mapping, the last one of two with equal keys to be kept. -/
def mergedEntries (s : Strategy) (base overlay : Mapping) : List (Value × Value) :=
  base.map (mergeEntry s overlay) ++ overlay.filter fun e => (entryFor? base e.1).isNone

theorem mergeMappings_eq (s : Strategy) (base overlay : Mapping) :
    mergeMappings s base overlay = Mapping.ofList (mergedEntries s base overlay) := by
  rw [mergeMappings, mergeBase_eq_map, mergedEntries]

section Lookup

variable {s : Strategy} {base overlay : Mapping}

/-- An entry keeps the name of its key, or a key that equals its own, when it is merged. -/
theorem mergeEntry_matches (s : Strategy) (overlay : Mapping) (e : Value × Value) :
    keyMatches e.1 (mergeEntry s overlay e).1 = true := by
  unfold mergeEntry
  cases hf : entryFor? overlay e.1 with
  | none => exact keyMatches_refl e.1
  | some f =>
    rcases mergePair_key s e f with h | h
    · simp only [h, keyMatches_refl]
    · simpa only [h] using keyMatches_of_entryFor? hf

private theorem forall_key_mergeEntry {P : Value → Prop} (hb : ∀ e ∈ base, P e.1)
    (ho : ∀ f ∈ overlay, P f.1) : ∀ e ∈ base, P (mergeEntry s overlay e).1 := by
  intro e he
  unfold mergeEntry
  cases hf : entryFor? overlay e.1 with
  | none => exact hb e he
  | some f =>
    rcases mergePair_key s e f with h | h
    · simpa only [h] using hb e he
    · simpa only [h] using ho f (mem_of_entryFor? hf)

/-- The keys of merged mappings are keys of one of them. -/
theorem forall_key_mergedEntries {P : Value → Prop} (hb : ∀ e ∈ base, P e.1)
    (ho : ∀ f ∈ overlay, P f.1) : ∀ e ∈ mergedEntries s base overlay, P e.1 := by
  intro e he
  rcases List.mem_append.mp he with he | he
  · obtain ⟨f, hf, rfl⟩ := List.mem_map.mp he
    exact forall_key_mergeEntry hb ho f hf
  · exact ho e (List.mem_filter.mp he).1

theorem forall_key_mergeMappings {P : Value → Prop} (hb : ∀ e ∈ base, P e.1)
    (ho : ∀ e ∈ overlay, P e.1) : ∀ e ∈ mergeMappings s base overlay, P e.1 := by
  intro e he
  rw [mergeMappings_eq] at he
  exact (Mapping.forall_mem_ofList (Q := fun _ => True)
    (fun f hf => ⟨forall_key_mergedEntries hb ho f hf, trivial⟩) e he).1

/-- The values of merged mappings are values of one of them or merged from both. -/
theorem forall_value_mergedEntries {P : Value → Prop} (hb : ∀ e ∈ base, P e.2)
    (ho : ∀ f ∈ overlay, P f.2) (hmerge : ∀ e ∈ base, ∀ f ∈ overlay, P (merge s e.2 f.2)) :
    ∀ e ∈ mergedEntries s base overlay, P e.2 := by
  intro r hr
  rcases List.mem_append.mp hr with hr | hr
  · obtain ⟨e, he, rfl⟩ := List.mem_map.mp hr
    unfold mergeEntry
    cases hf : entryFor? overlay e.1 with
    | none => exact hb e he
    | some f =>
      have hmem := mem_of_entryFor? hf
      unfold mergePair Strategy.winner
      cases s.precedence <;> dsimp only <;> split
      · exact hb e he
      · exact hmerge e he f hmem
      · exact ho f hmem
      · exact hmerge e he f hmem
  · exact ho r (List.mem_filter.mp hr).1

variable (hb : (Value.map base).proper = true) (ho : (Value.map overlay).proper = true)
include hb ho

theorem mergeEntry_key_proper {e : Value × Value} (he : e ∈ base) :
    (mergeEntry s overlay e).1.proper = true := by
  rw [Value.proper_map] at hb ho
  exact forall_key_mergeEntry (P := fun key => key.proper = true) (fun e he => (hb.2 e he).1)
    (fun f hf => (ho.2 f hf).1) e he

theorem mergedEntries_key_proper {e : Value × Value} (he : e ∈ mergedEntries s base overlay) :
    e.1.proper = true := by
  rw [Value.proper_map] at hb ho
  exact forall_key_mergedEntries (P := fun key => key.proper = true) (fun e he => (hb.2 e he).1)
    (fun f hf => (ho.2 f hf).1) e he

private theorem mergeEntry_value_of_beq {e f : Value × Value} (he : e ∈ base) (hf : f ∈ base)
    (h : ((mergeEntry s overlay e).1 == (mergeEntry s overlay f).1) = true) :
    (mergeEntry s overlay e).2 = (mergeEntry s overlay f).2 := by
  obtain ⟨hdistinct, hmembers⟩ := (Value.proper_map _).mp hb
  have hsame (heq : (e.1 == f.1) = true) : e = f := hdistinct.eq_of_beq hmembers he hf heq
  have hkeys : keyMatches e.1 f.1 = true := by
    have hkey := keyMatches_of_beq (mergeEntry_key_proper hb ho he)
      (mergeEntry_key_proper hb ho hf) h
    have hback := keyMatches_symm (hmembers f hf).1 (mergeEntry_key_proper hb ho hf)
      (mergeEntry_matches s overlay f)
    exact keyMatches_trans (mergeEntry_matches s overlay e) (keyMatches_trans hkey hback)
  have hfound := entryFor?_congr overlay (hmembers e he).1 (hmembers f hf).1 hkeys
  unfold mergeEntry at h ⊢
  rw [hfound] at h ⊢
  cases hg : entryFor? overlay f.1 with
  | none =>
    rw [hg] at h
    rw [hsame h]
  | some g =>
    rw [hg] at h
    unfold mergePair Strategy.winner at h ⊢
    cases hp : s.precedence with
    | base =>
      simp only [hp] at h ⊢
      rw [hsame (by revert h; split <;> split <;> exact id)]
    | overlay =>
      simp only [hp] at h ⊢
      split
      · rfl
      · rename_i hm
        simp only [hm] at h
        rw [hsame h]

/-- Equal keys among the entries of a merged mapping have equal values, so none is lost. -/
theorem mergedEntries_value_of_beq {e f : Value × Value} (he : e ∈ mergedEntries s base overlay)
    (hf : f ∈ mergedEntries s base overlay) (h : (e.1 == f.1) = true) : e.2 = f.2 := by
  obtain ⟨hdistinct, hmembers⟩ := (Value.proper_map _).mp ho
  have hmatch := keyMatches_of_beq (mergedEntries_key_proper hb ho he)
    (mergedEntries_key_proper hb ho hf) h
  have hapart {a b : Value × Value} (ha : a ∈ base)
      (hb' : b ∈ overlay.filter fun e => (entryFor? base e.1).isNone)
      (hab : keyMatches b.1 (mergeEntry s overlay a).1 = true) : False := by
    obtain ⟨hb', hnone⟩ := List.mem_filter.mp hb'
    rw [Option.isNone_iff_eq_none, entryFor?_eq_find?, List.find?_eq_none] at hnone
    refine hnone a ha (keyMatches_trans hab ?_)
    exact keyMatches_symm (((Value.proper_map _).mp hb).2 a ha).1 (mergeEntry_key_proper hb ho ha)
      (mergeEntry_matches s overlay a)
  rcases List.mem_append.mp he with he' | he' <;> rcases List.mem_append.mp hf with hf' | hf'
  · obtain ⟨a, ha, rfl⟩ := List.mem_map.mp he'
    obtain ⟨b, hb', rfl⟩ := List.mem_map.mp hf'
    exact mergeEntry_value_of_beq hb ho ha hb' h
  · obtain ⟨a, ha, rfl⟩ := List.mem_map.mp he'
    exact (hapart ha hf' (keyMatches_symm (mergedEntries_key_proper hb ho he)
      (mergedEntries_key_proper hb ho hf) hmatch)).elim
  · obtain ⟨a, ha, rfl⟩ := List.mem_map.mp hf'
    exact (hapart ha he' hmatch).elim
  · rw [hdistinct.eq_of_beq hmembers (List.mem_filter.mp he').1 (List.mem_filter.mp hf').1 h]

/-- What a merged mapping has under a key is what its two sides have under it, merged. -/
theorem entryFor?_mergeMappings {key : Value} (hk : key.proper = true) :
    entryFor? (mergeMappings s base overlay) key =
      match entryFor? base key, entryFor? overlay key with
      | some e, some f => some (mergePair s e f)
      | some e, none => some e
      | none, f => f := by
  have hkeys : ∀ e ∈ base, keyMatches key (mergeEntry s overlay e).1 = keyMatches key e.1 :=
    fun e he => (keyMatches_congr_right (((Value.proper_map _).mp hb).2 e he).1
      (mergeEntry_key_proper hb ho he) (mergeEntry_matches s overlay e)).symm
  have hbase : List.find? (fun e => keyMatches key e.1) (base.map (mergeEntry s overlay)) =
      (entryFor? base key).map (mergeEntry s overlay) := by
    rw [List.find?_map, entryFor?_eq_find?]
    exact congrArg _ (List.find?_congr hkeys)
  rw [entryFor?_eq_find?, mergeMappings_eq, find?_ofList]
  rotate_left
  · exact fun e he f hf h => keyMatches_congr_right (mergedEntries_key_proper hb ho he)
      (mergedEntries_key_proper hb ho hf) (keyMatches_of_beq (mergedEntries_key_proper hb ho he)
        (mergedEntries_key_proper hb ho hf) h)
  · exact fun e he f hf h => mergedEntries_value_of_beq hb ho he hf h
  rw [mergedEntries, List.find?_append, hbase]
  cases he : entryFor? base key with
  | some e =>
    have hcongr := entryFor?_congr overlay hk (((Value.proper_map _).mp hb).2 e
      (mem_of_entryFor? he)).1 (keyMatches_of_entryFor? he)
    simp only [Option.map_some, Option.some_or, mergeEntry, ← hcongr]
    cases entryFor? overlay key <;> rfl
  | none =>
    -- An entry under this key is new to the base, so the filter leaves it in.
    have hnew : ∀ f ∈ overlay, decide ((entryFor? base f.1).isNone = true ∧
        keyMatches key f.1 = true) = keyMatches key f.1 := by
      intro f hf
      cases hm : keyMatches key f.1 with
      | false => simp
      | true =>
        rw [← entryFor?_congr base hk (((Value.proper_map _).mp ho).2 f hf).1 hm, he]
        rfl
    rw [List.find?_filter, List.find?_congr hnew, entryFor?_eq_find?]
    rfl

end Lookup
end EnvCompose.Merge
