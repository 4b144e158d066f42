import EnvCompose.Proofs.Merge.Tidy

/-!
# Merging back what is there already

A value that is merged back over a copy of itself should change nothing. It does if no two keys of
one name meet: a lookup stops at the first key of a name, so that key speaks for the others too.
-/
namespace EnvCompose.Merge
open Yaml

mutual
/-- Whether a base has what an overlay would restore. For each key of the base the first entry of
that name in the overlay counts: if its key is marked the two entries are the same, and else its
value is there in turn. -/
def agrees : Value → Value → Bool
  | .map base, .map overlay =>
    overlay.all (fun f => (entryFor? base f.1).isSome) && agreesEach base overlay
  | base, overlay => overlay == base

def agreesEach : List (Value × Value) → Mapping → Bool
  | [], _ => true
  | (key, value) :: rest, overlay =>
    (match entryFor? overlay key with
      | none => true
      | some (overlayKey, overlayValue) =>
        if isMarked overlayKey then overlayKey == key && overlayValue == value
        else agrees value overlayValue) && agreesEach rest overlay
end

private theorem agreesEach_iff {base : List (Value × Value)} {overlay : Mapping} :
    agreesEach base overlay = true ↔ ∀ e ∈ base, ∀ f, entryFor? overlay e.1 = some f →
      (isMarked f.1 = true → (f.1 == e.1) = true ∧ (f.2 == e.2) = true) ∧
        (isMarked f.1 = false → agrees e.2 f.2 = true) := by
  induction base with
  | nil => simp [agreesEach]
  | cons e base ih =>
    rw [agreesEach, Bool.and_eq_true, ih, List.forall_mem_cons]
    refine and_congr_left' ?_
    cases entryFor? overlay e.1 with
    | none => simp
    | some f => cases hm : isMarked f.1 <;> simp [hm]

theorem agrees_map {base overlay : Mapping} : agrees (.map base) (.map overlay) = true ↔
    (∀ f ∈ overlay, (entryFor? base f.1).isSome = true) ∧
      ∀ e ∈ base, ∀ f, entryFor? overlay e.1 = some f →
        (isMarked f.1 = true → (f.1 == e.1) = true ∧ (f.2 == e.2) = true) ∧
          (isMarked f.1 = false → agrees e.2 f.2 = true) := by
  rw [agrees, Bool.and_eq_true, List.all_eq_true, agreesEach_iff]

private theorem agrees_of_not_map {base overlay : Value}
    (h : (∀ m, base ≠ .map m) ∨ ∀ m, overlay ≠ .map m) : agrees base overlay = (overlay == base) := by
  cases base <;> cases overlay <;> simp_all [agrees]

private theorem mergePair_restore (e f : Value × Value) :
    mergePair .restore e f = if isMarked f.1 then f else (e.1, merge .restore e.2 f.2) := rfl

section Mappings

variable {base overlay : Mapping} (hb : (Value.map base).proper = true)
  (ho : (Value.map overlay).proper = true)
include hb ho

/-- What agrees with the base is merged into it entry by entry. -/
private theorem mergeMappings_beq_of_agrees
    (ih : ∀ e ∈ base, ∀ f ∈ overlay, agrees e.2 f.2 = true →
      (merge .restore e.2 f.2 == e.2) = true)
    (h : agrees (.map base) (.map overlay) = true) :
    (Value.map (mergeMappings .restore base overlay) == .map base) = true := by
  obtain ⟨hdistinct, hmem⟩ := (Value.proper_map base).mp hb
  obtain ⟨hall, heach⟩ := agrees_map.mp h
  have hsame : ∀ e ∈ base, ((mergeEntry .restore overlay e).1 == e.1) = true ∧
      ((mergeEntry .restore overlay e).2 == e.2) = true := by
    intro e he
    cases hf : entryFor? overlay e.1 with
    | none =>
      rw [mergeEntry_of_none hf]
      exact ⟨beq_self_eq_true _, beq_self_eq_true _⟩
    | some f =>
      obtain ⟨hmarked, hplain⟩ := heach e he f hf
      rw [mergeEntry_of_some hf, mergePair_restore]
      cases hm : isMarked f.1 with
      | true => exact hmarked hm
      | false => exact ⟨beq_self_eq_true _, ih e he f (mem_of_entryFor? hf) (hplain hm)⟩
  have hapart : Mapping.Distinct (base.map (mergeEntry .restore overlay)) := by
    refine List.pairwise_map.mpr (hdistinct.imp_of_mem fun {e f} he hf hne => ?_)
    refine Bool.eq_false_iff.mpr fun heq => ?_
    have hback := Value.beq_symm (mergeEntry_key_proper hb ho he) (hmem e he).1 (hsame e he).1
    have := Value.beq_trans (Value.beq_trans hback heq) (hsame f hf).1
    simp [hne] at this
  rw [mergeMappings_eq, mergedEntries, filter_isNone_eq_nil hall, List.append_nil,
    Mapping.ofList_eq_self hapart, Value.map_beq_map]
  refine ⟨List.length_map _, fun e' he' => ?_⟩
  obtain ⟨e, he, rfl⟩ := List.mem_map.mp he'
  exact ⟨e, he, hsame e he⟩

/-- Every entry to be merged is in the result, under an equal key. -/
private theorem exists_mem_mergeMappings (s : Strategy) {e : Value × Value}
    (he : e ∈ mergedEntries s base overlay) :
    ∃ r ∈ mergeMappings s base overlay, (e.1 == r.1) = true ∧ r.2 = e.2 := by
  have hcongr : ∀ a ∈ mergedEntries s base overlay, ∀ b ∈ mergedEntries s base overlay,
      (a.1 == b.1) = true → (e.1 == a.1) = (e.1 == b.1) := by
    intro a ha b hb' hab
    have hak := mergedEntries_key_proper hb ho ha
    have hbk := mergedEntries_key_proper hb ho hb'
    exact Bool.eq_iff_iff.mpr ⟨fun h => Value.beq_trans h hab,
      fun h => Value.beq_trans h (Value.beq_symm hak hbk hab)⟩
  have hfound := Mapping.find?_ofList (p := fun key => e.1 == key) hcongr fun a ha b hb' hab =>
    mergedEntries_value_of_beq hb ho ha hb' hab
  cases hr : List.find? (fun f => e.1 == f.1) (mergedEntries s base overlay) with
  | none =>
    have := List.find?_eq_none.mp hr e he
    simp at this
  | some r =>
    have hkey : (e.1 == r.1) = true := List.find?_some (p := fun f : Value × Value => e.1 == f.1) hr
    have hmem := List.mem_of_find?_eq_some hr
    rw [hr] at hfound
    refine ⟨r, ?_, hkey, (mergedEntries_value_of_beq hb ho he hmem hkey).symm⟩
    rw [mergeMappings_eq]
    exact List.mem_of_find?_eq_some hfound

/-- A marked entry that takes the place of one of the base has its key. -/
private theorem beq_of_kept {e f l : Value × Value} (he : e ∈ base)
    (hf : entryFor? overlay e.1 = some f) (hm : isMarked f.1 = true)
    (hl : l ∈ base.map (mergeEntry .restore overlay)) (h : (e.1 == l.1) = true) :
    (e.1 == f.1) = true := by
  obtain ⟨hdistinct, hmem⟩ := (Value.proper_map base).mp hb
  have hover := ((Value.proper_map overlay).mp ho).2
  obtain ⟨e', he', rfl⟩ := List.mem_map.mp hl
  cases hf' : entryFor? overlay e'.1 with
  | none =>
    rw [mergeEntry_of_none hf'] at h
    obtain rfl := hdistinct.eq_of_beq hmem he he' h
    simp [hf] at hf'
  | some f' =>
    rw [mergeEntry_of_some hf', mergePair_restore] at h
    cases hm' : isMarked f'.1 with
    | true =>
      rw [hm', if_pos rfl] at h
      have hfk := (hover f' (mem_of_entryFor? hf')).1
      have hname := keyMatches_trans (keyMatches_of_entryFor? hf')
        (keyMatches_symm (hmem e he).1 hfk (keyMatches_of_beq (hmem e he).1 hfk h))
      rw [entryFor?_congr overlay (hmem e' he').1 (hmem e he).1 hname, hf] at hf'
      obtain rfl := Option.some.inj hf'
      exact h
    | false =>
      rw [hm', if_neg (by simp)] at h
      obtain rfl := hdistinct.eq_of_beq hmem he he' h
      rw [hf] at hf'
      obtain rfl := Option.some.inj hf'
      simp [hm] at hm'

/-- Where restoring changes nothing, what is merged stands in the base under an equal key. -/
private theorem exists_kept
    (h : (Value.map (mergeMappings .restore base overlay) == .map base) = true)
    {l : Value × Value} (hl : l ∈ mergedEntries .restore base overlay) :
    ∃ e ∈ base, (l.1 == e.1) = true ∧ (l.2 == e.2) = true := by
  have hthere := ((Value.map_beq_map _ _).mp h).2
  obtain ⟨r, hr, hkey, hvalue⟩ := exists_mem_mergeMappings hb ho .restore hl
  obtain ⟨e, he, hre, hve⟩ := hthere r hr
  exact ⟨e, he, Value.beq_trans hkey hre, hvalue ▸ hve⟩

/-- Where restoring changes nothing, the base has every key of what is restored. -/
private theorem isSome_of_kept
    (h : (Value.map (mergeMappings .restore base overlay) == .map base) = true) :
    ∀ f ∈ overlay, (entryFor? base f.1).isSome = true := by
  have hmem := ((Value.proper_map base).mp hb).2
  have hover := ((Value.proper_map overlay).mp ho).2
  intro f hf
  by_contra hnew
  obtain ⟨e, he, hkey, -⟩ := exists_kept hb ho h (List.mem_append_right _ (List.mem_filter.mpr
    ⟨hf, by simpa [Option.isNone_iff_eq_none] using hnew⟩))
  rw [entryFor?_eq_find?, Bool.not_eq_true, Option.isSome_eq_false_iff,
    Option.isNone_iff_eq_none, List.find?_eq_none] at hnew
  exact hnew e he (keyMatches_of_beq (hover f hf).1 (hmem e he).1 hkey)

/-- Where restoring changes nothing, a marked entry that takes the place of one has its key. -/
private theorem key_beq_of_kept
    (h : (Value.map (mergeMappings .restore base overlay) == .map base) = true)
    {e f : Value × Value} (he : e ∈ base) (hf : entryFor? overlay e.1 = some f)
    (hm : isMarked f.1 = true) : (e.1 == f.1) = true := by
  have hproper : (Value.map (mergeMappings .restore base overlay)).proper = true :=
    merge_map .restore base overlay ▸ merge_proper .restore hb ho
  -- The key of the base is still there, and only the marked one can stand for it.
  obtain ⟨r, hr, her, -⟩ := ((Value.map_beq_map _ _).mp (Value.beq_symm hproper hb h)).2 e he
  rw [mergeMappings_eq] at hr
  obtain ⟨⟨l, hl, hlr⟩, -⟩ := Mapping.forall_mem_ofList
    (P := fun key => ∃ l ∈ mergedEntries .restore base overlay, l.1 = key)
    (Q := fun _ => True) (fun l hl => ⟨⟨l, hl, rfl⟩, trivial⟩) r hr
  have hleft : l ∈ base.map (mergeEntry .restore overlay) := by
    refine (List.mem_append.mp hl).resolve_right fun hright => ?_
    obtain ⟨hmeml, hnew⟩ := List.mem_filter.mp hright
    have := isSome_of_kept hb ho h l hmeml
    simp_all
  exact beq_of_kept hb ho he hf hm hleft (hlr ▸ her)

private theorem agrees_of_mergeMappings_beq
    (ih : ∀ e ∈ base, ∀ f ∈ overlay, (merge .restore e.2 f.2 == e.2) = true →
      agrees e.2 f.2 = true)
    (h : (Value.map (mergeMappings .restore base overlay) == .map base) = true) :
    agrees (.map base) (.map overlay) = true := by
  obtain ⟨hdistinct, hmem⟩ := (Value.proper_map base).mp hb
  have hover := ((Value.proper_map overlay).mp ho).2
  refine agrees_map.mpr ⟨isSome_of_kept hb ho h, fun e he f hf => ?_⟩
  obtain ⟨e', he', hkey, hvalue⟩ := exists_kept hb ho h
    (List.mem_append_left _ (List.mem_map_of_mem (f := mergeEntry .restore overlay) he))
  rw [mergeEntry_of_some hf, mergePair_restore] at hkey hvalue
  constructor
  · intro hm
    rw [hm, if_pos rfl] at hkey hvalue
    have hef := key_beq_of_kept hb ho h he hf hm
    obtain rfl := hdistinct.eq_of_beq hmem he he' (Value.beq_trans hef hkey)
    exact ⟨Value.beq_symm (hmem e he).1 (hover f (mem_of_entryFor? hf)).1 hef, hvalue⟩
  · intro hm
    rw [hm, if_neg (by simp)] at hkey hvalue
    obtain rfl := hdistinct.eq_of_beq hmem he he' hkey
    exact ih e he f (mem_of_entryFor? hf) hvalue

end Mappings

/-- Restoring changes nothing exactly where the base agrees with what is restored. -/
theorem merge_restore_beq_iff {base overlay : Value} (hb : base.proper = true)
    (ho : overlay.proper = true) :
    (merge .restore base overlay == base) = true ↔ agrees base overlay = true := by
  have hnot {base overlay : Value} (h : (∀ m, base ≠ .map m) ∨ ∀ m, overlay ≠ .map m) :
      (merge .restore base overlay == base) = true ↔ agrees base overlay = true := by
    rw [merge_of_not_map _ h, agrees_of_not_map h]
    rfl
  induction base using Value.members_induction generalizing overlay with
  | scalar v hv => exact hnot (.inl (by rintro m rfl; simp [Value.isScalar] at hv))
  | seq | tagged => exact hnot (.inl (by simp))
  | map base ih =>
    by_cases hmap : ∃ m, overlay = .map m
    · obtain ⟨overlay, rfl⟩ := hmap
      have ih' : ∀ e ∈ base, ∀ f ∈ overlay,
          (merge .restore e.2 f.2 == e.2) = true ↔ agrees e.2 f.2 = true := fun e he f hf =>
        (ih e he).2 (((Value.proper_map base).mp hb).2 e he).2
          (((Value.proper_map overlay).mp ho).2 f hf).2
      rw [merge_map]
      exact ⟨agrees_of_mergeMappings_beq hb ho fun e he f hf => (ih' e he f hf).mp,
        mergeMappings_beq_of_agrees hb ho fun e he f hf => (ih' e he f hf).mpr⟩
    · exact hnot (.inr (by simpa using hmap))

/-- A document in which no two keys go by one name agrees with itself. -/
theorem Tidy.agrees_self {v : Value} (h : Tidy v) : agrees v v = true := by
  induction v using Value.members_induction with
  | scalar v hv =>
    rw [agrees_of_not_map (.inl (by rintro m rfl; simp [Value.isScalar] at hv))]
    exact beq_self_eq_true v
  | seq | tagged =>
    rw [agrees_of_not_map (.inl (by simp))]
    exact beq_self_eq_true _
  | map m ih =>
    refine agrees_map.mpr ⟨fun e he => by simp [h.entryFor?_self he], fun e he f hf => ?_⟩
    rw [h.entryFor?_self he] at hf
    obtain rfl := Option.some.inj hf
    exact ⟨fun _ => ⟨beq_self_eq_true _, beq_self_eq_true _⟩, fun _ => (ih e he).2 (h.value he)⟩

end EnvCompose.Merge
