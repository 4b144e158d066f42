import EnvCompose.Proofs.Merge.Unmark

/-!
# Markers are taken off in one pass

A document is plain if its mappings have neither marked nor equal keys. Without its markers every
document is plain, however many spellings of a name it had, and a plain document stays as it is. So
taking the markers off is a projection: the documents it leaves alone are those it can give.
-/
namespace EnvCompose
open Yaml

namespace Yaml.Value

private theorem everyMapping_and {p q : Mapping → Bool} {v : Value} :
    v.everyMapping (fun m => p m && q m) = true ↔
      v.everyMapping p = true ∧ v.everyMapping q = true := by
  induction v using members_induction with
  | scalar v hv => simp [everyMapping_of_isScalar hv]
  | seq items ih =>
    simp only [everyMapping_seq, ← forall₂_and]
    exact forall₂_congr ih
  | map m ih =>
    simp only [everyMapping_map, Bool.and_eq_true]
    rw [and_and_and_comm, ← forall₂_and]
    exact and_congr_right fun _ => forall₂_congr fun e he => (ih e he).2
  | tagged tag v ih => simpa using ih

private theorem everyMapping_distinct_of_proper {v : Value} (h : v.proper = true) :
    v.everyMapping (fun m => decide m.Distinct) = true := by
  induction v using members_induction with
  | scalar v hv => exact everyMapping_of_isScalar hv
  | seq items ih =>
    rw [proper_seq] at h
    exact (everyMapping_seq items).mpr fun v hv => ih v hv (h v hv)
  | map m ih =>
    rw [proper_map] at h
    exact (everyMapping_map m).mpr ⟨decide_eq_true h.1, fun e he => (ih e he).2 (h.2 e he).2⟩
  | tagged tag v ih =>
    rw [everyMapping_tagged]
    exact ih (by simpa using h)

end Yaml.Value

namespace Merge

/-- Whether no mapping in the document has a marked key or two equal keys. -/
def plain (v : Value) : Bool := v.everyMapping fun m => noMarks m && decide m.Distinct

private theorem markFree_of_plain {v : Value} (h : plain v = true) : markFree v = true :=
  (Value.everyMapping_and.mp h).1

/-- The mappings of a proper document have no equal keys to begin with. -/
theorem plain_iff_markFree {v : Value} (h : v.proper = true) :
    plain v = true ↔ markFree v = true :=
  Value.everyMapping_and.trans (and_iff_left (Value.everyMapping_distinct_of_proper h))

theorem plain_map {m : Mapping} : plain (.map m) = true ↔
    m.Distinct ∧ ∀ e ∈ m, isMarked e.1 = false ∧ plain e.2 = true := by
  rw [plain, Value.everyMapping_map, Bool.and_eq_true, decide_eq_true_eq, noMarks,
    List.all_eq_true, and_comm (a := ∀ e ∈ m, _), and_assoc, ← forall₂_and]
  simp only [Bool.not_eq_true', plain]

/-- Keys that become equal are put together, so none is left twice. -/
theorem plain_unmark (v : Value) : plain (unmark v) = true := by
  induction v using Value.members_induction with
  | scalar v hv =>
    rw [unmark_of_isScalar hv]
    exact Value.everyMapping_of_isScalar hv
  | seq items ih =>
    rw [unmark_seq]
    exact (Value.everyMapping_seq _).mpr (List.forall_mem_map.mpr ih)
  | map m ih =>
    rw [unmark_map, plain_map]
    refine ⟨Mapping.distinct_ofList _, Mapping.forall_mem_ofList
      (P := fun key => isMarked key = false) (Q := fun v => plain v = true) ?_⟩
    exact List.forall_mem_map.mpr fun e he => ⟨isMarked_unmarked e.1, (ih e he).2⟩
  | tagged tag v ih =>
    rw [unmark]
    exact (Value.everyMapping_tagged tag _).trans ih

/-- In a plain mapping every entry is put back where it was. -/
theorem unmark_of_plain {v : Value} (h : plain v = true) : unmark v = v := by
  induction v using Value.members_induction with
  | scalar v hv => exact unmark_of_isScalar hv
  | seq items ih =>
    have hitems := (Value.everyMapping_seq items).mp h
    rw [unmark_seq, List.map_congr_left fun v hv => ih v hv (hitems v hv), List.map_id']
  | map m ih =>
    obtain ⟨hdistinct, hmem⟩ := plain_map.mp h
    have hsame : m.map (fun e => (unmarked e.1, unmark e.2)) = m := by
      refine (List.map_congr_left fun e he => ?_).trans (List.map_id' m)
      obtain ⟨hkey, hvalue⟩ := hmem e he
      rw [unmarked_eq_self hkey, (ih e he).2 hvalue]
    rw [unmark_map, hsame, Mapping.ofList_eq_self hdistinct]
  | tagged tag v ih => rw [unmark, ih ((Value.everyMapping_tagged tag v).symm.trans h)]

/-- Whatever spellings of a name its keys have, a document is free of markers after one pass, and a
second pass changes nothing. A proper document stays as it is just if it had no markers. -/
theorem unmark_projects (v : Value) : markFree (unmark v) = true ∧ unmark (unmark v) = unmark v ∧
    (v.proper = true → (unmark v = v ↔ markFree v = true)) := by
  refine ⟨markFree_of_plain (plain_unmark v), unmark_of_plain (plain_unmark v), fun h => ?_⟩
  rw [← plain_iff_markFree h]
  constructor
  · intro hsame
    rw [← hsame]
    exact plain_unmark v
  · exact unmark_of_plain

section Witness

/-- Three spellings of one name below a tag, a key of two colons and one of a single colon, which
carries no marker. -/
def spellings : Value :=
  .map [(.str ":", .bool true), (.str "::", .null), (.str "specs", .seq [.tagged "pin" (.map
    [(.str "x:", .int 1), (.str "y", .int 2), (.str "x", .int 3), (.str "x::", .int 4)])])]

/-- The first spelling keeps its place and the last one its value. -/
def spelledOnce : Value :=
  .map [(.str ":", .bool true), (.str "", .null), (.str "specs", .seq [.tagged "pin" (.map
    [(.str "x", .int 4), (.str "y", .int 2)])])]

theorem unmark_projects_spelledOnce : spelledOnce.proper = true ∧ markFree spelledOnce = true ∧
    unmark spelledOnce = spelledOnce ∧ spellings.proper = true ∧ unmark spellings = spelledOnce ∧
      unmark spellings ≠ spellings := by
  have honce : spelledOnce.proper = true := by decide
  have hfree : markFree spelledOnce = true := by decide
  have hproper : spellings.proper = true := by decide
  have hmarked : markFree spellings = false := by decide
  refine ⟨honce, hfree, ((unmark_projects spelledOnce).2.2 honce).mpr hfree, hproper, rfl, ?_⟩
  rw [Ne, (unmark_projects spellings).2.2 hproper, hmarked]
  simp

end Witness

end Merge
end EnvCompose
