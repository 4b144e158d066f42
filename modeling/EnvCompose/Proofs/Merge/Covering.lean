import EnvCompose.Proofs.Merge.Absorption

/-!
# Markers that a layer covers

A layer without markers that is laid first and last settles every place where it has something. The
markers of what is merged in between are left where the layer has nothing, and where a marked key
has taken the place of its own.
-/
namespace EnvCompose.Merge
open Yaml

def markFreeEntry (e : Value × Value) : Bool := !isMarked e.1 && markFree e.2

theorem markFree_seq (items : List Value) : markFree (.seq items) = items.all markFree := by
  rw [Bool.eq_iff_iff, markFree, Value.everyMapping_seq, List.all_eq_true]
  rfl

theorem markFree_map (m : Mapping) : markFree (.map m) = m.all markFreeEntry := by
  rw [Bool.eq_iff_iff, markFree, Value.everyMapping_map, noMarks, List.all_eq_true,
    List.all_eq_true, ← forall₂_and]
  refine forall₂_congr fun e _ => ?_
  rw [markFreeEntry, Bool.and_eq_true]
  rfl

mutual
/-- Whether a layer that is laid below a document and on top of it again leaves no marked key of
the document. Items that the layer has too are gone, and so is what is not of the layer's kind. -/
def coversMarks : Value → Value → Bool
  | .map layer, .map between =>
    coversMarksEach layer between &&
      between.all fun f => (entryFor? layer f.1).isSome || markFreeEntry f
  | .seq items, .seq others => others.all fun v => items.contains v || markFree v
  | _, _ => true

def coversMarksEach : List (Value × Value) → Mapping → Bool
  | [], _ => true
  | (key, value) :: rest, between =>
    (match entryFor? between key with
      | none => true
      | some (otherKey, other) => !isMarked otherKey && coversMarks value other) &&
        coversMarksEach rest between
end

theorem coversMarks_of_ne {layer between : Value}
    (hmap : (∀ m, layer ≠ .map m) ∨ ∀ m, between ≠ .map m)
    (hseq : (∀ xs, layer ≠ .seq xs) ∨ ∀ xs, between ≠ .seq xs) :
    coversMarks layer between = true := by
  cases layer <;> cases between <;> simp_all [coversMarks]

private theorem coversMarksEach_eq_all (layer : List (Value × Value)) (between : Mapping) :
    coversMarksEach layer between = layer.all fun e =>
      (entryFor? between e.1).all fun f => !isMarked f.1 && coversMarks e.2 f.2 := by
  induction layer with
  | nil => rfl
  | cons e layer ih =>
    rw [coversMarksEach, ih, List.all_cons]
    cases entryFor? between e.1 <;> rfl

theorem coversMarks_map {layer between : Mapping} : coversMarks (.map layer) (.map between) = true ↔
    (∀ e ∈ layer, ∀ f, entryFor? between e.1 = some f →
      isMarked f.1 = false ∧ coversMarks e.2 f.2 = true) ∧
        ∀ f ∈ between, entryFor? layer f.1 = none → markFreeEntry f = true := by
  rw [coversMarks, coversMarksEach_eq_all, Bool.and_eq_true, List.all_eq_true, List.all_eq_true]
  refine and_congr (forall₂_congr fun e _ => ?_) (forall₂_congr fun f _ => ?_)
  · cases entryFor? between e.1 <;> simp
  · cases entryFor? layer f.1 <;> simp

section Covered

variable {layer between : Mapping} (hl : Unmarked (.map layer))
include hl

private theorem mergeEntry_layer_key (e : Value × Value) : (mergeEntry .layer layer e).1 = e.1 := by
  cases hf : entryFor? layer e.1 with
  | none => rw [mergeEntry_of_none hf]
  | some f =>
    have hmark := ((unmarked_map.mp hl).2 f (mem_of_entryFor? hf)).1.2
    rw [mergeEntry_of_some hf, mergePair_layer_of_unmarked hmark]

/-- An entry of the layer is laid on top of what there is under its name. -/
theorem mergeEntry_layer_of_mem {e r : Value × Value} (he : e ∈ layer) (hr : r.1.proper = true)
    (h : keyMatches e.1 r.1 = true) :
    mergeEntry .layer layer r = (r.1, merge .layer r.2 e.2) := by
  obtain ⟨⟨hkey, hmark⟩, -⟩ := (unmarked_map.mp hl).2 e he
  have hfound := entryFor?_of_mem hl.toTidy he hr (keyMatches_symm hkey hr h)
  rw [mergeEntry_of_some hfound, mergePair_layer_of_unmarked hmark]

variable (hb : (Value.map between).proper = true)
include hb

private theorem mergedEntries_layer_proper :
    (Value.map (mergedEntries .layer layer between)).proper = true := by
  rw [← mergeMappings_eq_mergedEntries hl.toTidy hb, ← merge_map]
  exact merge_proper .layer hl.proper hb

/-- Laid first and last, a layer is merged entry by entry, whatever names the document repeats. -/
theorem mergeMappings_layer_covered :
    mergeMappings .layer (mergeMappings .layer layer between) layer =
      mergedEntries .layer (mergedEntries .layer layer between) layer := by
  have hproper := mergedEntries_layer_proper hl hb
  rw [mergeMappings_eq_mergedEntries hl.toTidy hb]
  refine mergeMappings_eq_mergedEntries_of_distinct hproper hl.proper (List.pairwise_map.mpr ?_)
  simp only [mergeEntry_layer_key hl]
  exact ((Value.proper_map _).mp hproper).1

private theorem markFreeEntry_covered {e : Value × Value} (he : e ∈ layer) :
    markFreeEntry (mergeEntry .layer layer (mergeEntry .layer between e)) = true ↔
      ∀ f, entryFor? between e.1 = some f → isMarked f.1 = false ∧
        markFree (merge .layer (merge .layer e.2 f.2) e.2) = true := by
  obtain ⟨⟨-, hmark⟩, hvalue⟩ := (unmarked_map.mp hl).2 e he
  have hover := mergeEntry_layer_of_mem hl he (mergeEntry_key_proper hl.proper hb he)
    (mergeEntry_matches .layer between e)
  rw [hover, markFreeEntry, Bool.and_eq_true]
  cases hf : entryFor? between e.1 with
  | none =>
    simp [mergeEntry_of_none hf, hmark, merge_self hvalue.toTidy, hvalue.mark_free]
  | some f =>
    rw [mergeEntry_of_some hf]
    cases hm : isMarked f.1 with
    | true => simp [mergePair_layer_of_marked hm, hm]
    | false => simp [mergePair_layer_of_unmarked hm, hm, hmark]

private theorem markFree_covered_map (ih : ∀ e ∈ layer, ∀ f ∈ between,
      markFree (merge .layer (merge .layer e.2 f.2) e.2) = coversMarks e.2 f.2) :
    markFree (.map (mergeMappings .layer (mergeMappings .layer layer between) layer)) =
      coversMarks (.map layer) (.map between) := by
  have hown : ∀ e ∈ layer, markFreeEntry e = true := by
    simpa [markFree_map] using hl.mark_free
  rw [Bool.eq_iff_iff, mergeMappings_layer_covered hl hb, markFree_map, List.all_eq_true,
    coversMarks_map, mergedEntries, List.forall_mem_append, List.forall_mem_map]
  rw [and_iff_left fun e he => hown e (List.mem_filter.mp he).1]
  rw [mergedEntries, List.forall_mem_append, List.forall_mem_map]
  refine and_congr (forall₂_congr fun e he => ?_) ?_
  · rw [markFreeEntry_covered hl hb he]
    refine forall₂_congr fun f hf => ?_
    rw [ih e he f (mem_of_entryFor? hf)]
  · constructor
    · intro h f hf hnone
      have := h f (List.mem_filter.mpr ⟨hf, by simp [hnone]⟩)
      rwa [mergeEntry_of_none hnone] at this
    · intro h f hf
      obtain ⟨hf, hnone⟩ := List.mem_filter.mp hf
      rw [Option.isNone_iff_eq_none] at hnone
      rw [mergeEntry_of_none hnone]
      exact h f hf hnone

end Covered

/-- Of a sequence in between, the items that the layer lacks come after the layer's own. -/
theorem markFree_covered_seq {items : List Value} (hl : Unmarked (.seq items))
    (others : List Value) :
    markFree (merge .layer (merge .layer (.seq items) (.seq others)) (.seq items)) =
      coversMarks (.seq items) (.seq others) := by
  have hown : ∀ v ∈ items, markFree v = true := by simpa [markFree_seq] using hl.mark_free
  rw [merge_layer_seq, merge_layer_seq, combine_absorb, combine, Bool.eq_iff_iff, markFree_seq,
    coversMarks, List.all_eq_true, List.all_eq_true, List.forall_mem_append, and_iff_right hown]
  refine ⟨fun h v hv => ?_, fun h v hv => ?_⟩
  · cases hin : items.contains v with
    | true => rfl
    | false => exact h v (List.mem_filter.mpr ⟨hv, by simp [hin]⟩)
  · obtain ⟨hv, hnew⟩ := List.mem_filter.mp hv
    rw [Bool.not_eq_true'] at hnew
    simpa only [hnew, Bool.false_or] using h v hv

/-- What markers are left of a document between a layer and the same layer again. -/
theorem markFree_covered {layer between : Value} (hl : Unmarked layer)
    (hb : between.proper = true) :
    markFree (merge .layer (merge .layer layer between) layer) = coversMarks layer between := by
  have hsettled {layer between : Value} (hl : Unmarked layer)
      (hmap : (∀ m, layer ≠ .map m) ∨ ∀ m, between ≠ .map m)
      (hseq : (∀ xs, layer ≠ .seq xs) ∨ ∀ xs, between ≠ .seq xs) :
      markFree (merge .layer (merge .layer layer between) layer) = coversMarks layer between := by
    rw [coversMarks_of_ne hmap hseq, merge_layer_of_ne hmap hseq,
      merge_layer_of_ne hmap.symm hseq.symm, hl.mark_free]
  induction layer using Value.members_induction generalizing between with
  | scalar v hv =>
    exact hsettled hl (.inl (by rintro m rfl; simp [Value.isScalar] at hv))
      (.inl (by rintro m rfl; simp [Value.isScalar] at hv))
  | tagged tag v => exact hsettled hl (.inl (by simp)) (.inl (by simp))
  | seq items =>
    by_cases hseq : ∃ others, between = .seq others
    · obtain ⟨others, rfl⟩ := hseq
      exact markFree_covered_seq hl others
    · exact hsettled hl (.inl (by simp)) (.inr (by simpa using hseq))
  | map layer ih =>
    by_cases hmap : ∃ m, between = .map m
    · obtain ⟨between, rfl⟩ := hmap
      rw [merge_map, merge_map]
      refine markFree_covered_map hl hb fun e he f hf => (ih e he).2 ?_ ?_
      · exact ((unmarked_map.mp hl).2 e he).2
      · exact (((Value.proper_map between).mp hb).2 f hf).2
    · exact hsettled hl (.inr (by simpa using hmap)) (.inl (by simp))

theorem coversMarks_of_unmarked {layer between : Value} (hl : Unmarked layer)
    (hb : Unmarked between) : coversMarks layer between = true := by
  rw [← markFree_covered hl hb.proper]
  exact ((hl.merge .layer hb).merge .layer hl).mark_free

end EnvCompose.Merge
