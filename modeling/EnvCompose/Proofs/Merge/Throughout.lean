import EnvCompose.Proofs.Merge.Absorption

/-!
# Tidy documents, keys included

A key of a mapping can be a mapping itself. A document is tidy throughout if the mappings in its keys
are tidy too. Merging copies such keys and taking markers off leaves them alone, so both keep it.
-/
namespace EnvCompose.Merge
open Yaml

mutual
/-- Whether no mapping in the document, its keys included, has two keys that go by one name. -/
def collisionFreeThroughout : Value → Bool
  | .seq items => collisionFreeItems items
  | .map entries => distinctNames entries && collisionFreeEntries entries
  | .tagged _ v => collisionFreeThroughout v
  | .null | .bool _ | .int _ | .float _ | .str _ => true

def collisionFreeItems : List Value → Bool
  | [] => true
  | v :: items => collisionFreeThroughout v && collisionFreeItems items

def collisionFreeEntries : List (Value × Value) → Bool
  | [] => true
  | (k, v) :: entries =>
    collisionFreeThroughout k && collisionFreeThroughout v && collisionFreeEntries entries
end

theorem collisionFreeThroughout_seq (items : List Value) :
    collisionFreeThroughout (.seq items) = true ↔
      ∀ v ∈ items, collisionFreeThroughout v = true := by
  rw [collisionFreeThroughout]
  induction items with
  | nil => simp [collisionFreeItems]
  | cons v items ih => simp [collisionFreeItems, ih]

private theorem collisionFreeEntries_iff (m : Mapping) : collisionFreeEntries m = true ↔
    ∀ e ∈ m, collisionFreeThroughout e.1 = true ∧ collisionFreeThroughout e.2 = true := by
  induction m with
  | nil => simp [collisionFreeEntries]
  | cons e m ih => simp only [collisionFreeEntries, Bool.and_eq_true, ih, List.forall_mem_cons]

theorem collisionFreeThroughout_map (m : Mapping) : collisionFreeThroughout (.map m) = true ↔
    distinctNames m = true ∧ ∀ e ∈ m, collisionFreeThroughout e.1 = true ∧
      collisionFreeThroughout e.2 = true := by
  rw [collisionFreeThroughout, Bool.and_eq_true, collisionFreeEntries_iff]

theorem collisionFree_of_throughout {v : Value} (h : collisionFreeThroughout v = true) :
    collisionFree v = true := by
  induction v using Value.members_induction with
  | scalar v hv => exact Value.everyMapping_of_isScalar hv
  | seq items ih =>
    rw [collisionFreeThroughout_seq] at h
    exact (Value.everyMapping_seq items).mpr fun v hv => ih v hv (h v hv)
  | map m ih =>
    rw [collisionFreeThroughout_map] at h
    exact (Value.everyMapping_map m).mpr ⟨h.1, fun e he => (ih e he).2 (h.2 e he).2⟩
  | tagged tag v ih =>
    rw [collisionFreeThroughout] at h
    exact (Value.everyMapping_tagged tag v).trans (ih h)

structure TidyThroughout (v : Value) : Prop where
  proper : v.proper = true
  collision_free : collisionFreeThroughout v = true

theorem TidyThroughout.tidy {v : Value} (h : TidyThroughout v) : Tidy v :=
  ⟨h.proper, collisionFree_of_throughout h.collision_free⟩

theorem tidyThroughout_str (s : String) : TidyThroughout (.str s) :=
  ⟨Value.proper_str s, by rw [collisionFreeThroughout]⟩

theorem tidyThroughout_seq {items : List Value} :
    TidyThroughout (.seq items) ↔ ∀ v ∈ items, TidyThroughout v := by
  constructor
  · rintro ⟨hproper, hfree⟩ v hv
    exact ⟨(Value.proper_seq items).mp hproper v hv,
      (collisionFreeThroughout_seq items).mp hfree v hv⟩
  · intro h
    exact ⟨(Value.proper_seq items).mpr fun v hv => (h v hv).proper,
      (collisionFreeThroughout_seq items).mpr fun v hv => (h v hv).collision_free⟩

theorem tidyThroughout_tagged {tag : String} {v : Value} :
    TidyThroughout (.tagged tag v) ↔ TidyThroughout v := by
  constructor <;> rintro ⟨hproper, hfree⟩
  · exact ⟨by simpa using hproper, by rwa [collisionFreeThroughout] at hfree⟩
  · exact ⟨by simpa using hproper, by rwa [collisionFreeThroughout]⟩

theorem tidyThroughout_map {m : Mapping} : TidyThroughout (.map m) ↔
    Tidy (.map m) ∧ ∀ e ∈ m, TidyThroughout e.1 ∧ TidyThroughout e.2 := by
  constructor
  · intro h
    obtain ⟨-, hmem⟩ := (Value.proper_map m).mp h.proper
    obtain ⟨-, hfree⟩ := (collisionFreeThroughout_map m).mp h.collision_free
    exact ⟨h.tidy, fun e he => ⟨⟨(hmem e he).1, (hfree e he).1⟩, (hmem e he).2, (hfree e he).2⟩⟩
  · rintro ⟨htidy, hmem⟩
    obtain ⟨hnames, -⟩ := (Value.everyMapping_map m).mp htidy.collision_free
    exact ⟨htidy.proper, (collisionFreeThroughout_map m).mpr ⟨hnames, fun e he =>
      ⟨(hmem e he).1.collision_free, (hmem e he).2.collision_free⟩⟩⟩

private theorem tidyThroughout_unmarked {key : Value} (h : TidyThroughout key) :
    TidyThroughout (unmarked key) := by
  cases hname : keyName? key with
  | some name =>
    rw [unmarked_eq_str hname]
    exact tidyThroughout_str name
  | none => rwa [unmarked_eq_self_of_none hname]

theorem tidyThroughout_unmark {v : Value} (h : TidyThroughout v) : TidyThroughout (unmark v) := by
  induction v using Value.members_induction with
  | scalar v hv => rwa [unmark_of_isScalar hv]
  | seq items ih =>
    rw [unmark_seq, tidyThroughout_seq]
    exact List.forall_mem_map.mpr fun v hv => ih v hv (tidyThroughout_seq.mp h v hv)
  | map m ih =>
    obtain ⟨-, hmem⟩ := tidyThroughout_map.mp h
    have htidy := (unmark_unmarked h.proper).toTidy
    rw [unmark_map] at htidy ⊢
    refine tidyThroughout_map.mpr ⟨htidy, Mapping.forall_mem_ofList ?_⟩
    exact List.forall_mem_map.mpr fun e he =>
      ⟨tidyThroughout_unmarked (hmem e he).1, (ih e he).2 (hmem e he).2⟩
  | tagged tag v ih =>
    rw [unmark, tidyThroughout_tagged]
    exact ih (tidyThroughout_tagged.mp h)

/-- Mappings that are tidy throughout are merged to such a mapping, whose keys are keys of one of
them. -/
theorem TidyThroughout.mergeMappings {s : Strategy} {base overlay : Mapping}
    (hb : TidyThroughout (.map base)) (ho : TidyThroughout (.map overlay))
    (hvalues : ∀ e ∈ mergedEntries s base overlay, TidyThroughout e.2) :
    TidyThroughout (.map (mergeMappings s base overlay)) := by
  refine tidyThroughout_map.mpr ⟨hb.tidy.mergeMappings s ho.tidy, ?_⟩
  have hkeys := forall_key_mergedEntries (s := s) (P := TidyThroughout)
    (fun e he => ((tidyThroughout_map.mp hb).2 e he).1)
    fun e he => ((tidyThroughout_map.mp ho).2 e he).1
  rw [mergeMappings_eq]
  exact Mapping.forall_mem_ofList fun e he => ⟨hkeys e he, hvalues e he⟩

end EnvCompose.Merge
