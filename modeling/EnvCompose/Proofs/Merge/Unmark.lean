import EnvCompose.Proofs.Merge.Tidy
import EnvCompose.Manifest.Sections

/-!
# Documents without override markers

An unmarked string goes by itself, so unmarked keys that match are equal. Taking the markers off a
proper document makes it tidy and free of them.
-/
namespace EnvCompose.Merge
open Yaml

private theorem trimColons_eq_self {s : String} (h : s.toList.getLast? ≠ some ':') :
    trimColons s = s := by
  rw [trimColons]
  cases hr : s.toList.reverse with
  | nil => simpa using hr.symm
  | cons c rest =>
    have hlast : s.toList.getLast? = some c := by rw [← List.head?_reverse, hr]; rfl
    have hc : (c == ':') = false := by
      rw [hlast] at h
      simpa using h
    rw [List.dropWhile_cons_of_neg (by simp [hc]), ← hr]
    simp

theorem getLast?_trimColons (s : String) : (trimColons s).toList.getLast? ≠ some ':' := by
  rw [trimColons, String.toList_ofList, List.getLast?_reverse]
  have := List.head?_dropWhile_not (fun c : Char => c == ':') s.toList.reverse
  intro h
  simp [h] at this

theorem isMarked_str {s : String} :
    isMarked (.str s) = true ↔ s.length > 1 ∧ s.toList.getLast? = some ':' := by
  simp [isMarked]

/-- An unmarked string goes by itself. -/
theorem keyName?_of_unmarked {s : String} (h : isMarked (.str s) = false) :
    keyName? (.str s) = some s := by
  rw [keyName?]
  split
  · rename_i hlen
    rw [trimColons_eq_self]
    intro hlast
    simp [isMarked_str.mpr ⟨hlen, hlast⟩] at h
  · rfl

theorem isMarked_unmarked (key : Value) : isMarked (unmarked key) = false := by
  cases key with
  | str s =>
    unfold unmarked
    dsimp only
    split
    · exact Bool.eq_false_iff.mpr fun h => getLast?_trimColons s (isMarked_str.mp h).2
    · exact Bool.eq_false_iff.mpr ‹_›
  | _ => rfl

theorem unmarked_eq_self {key : Value} (h : isMarked key = false) : unmarked key = key := by
  cases key with
  | str s => simp [unmarked, h]
  | _ => rfl

theorem unmarked_eq_str {key : Value} {name : String} (h : keyName? key = some name) :
    unmarked key = .str name := by
  cases key with
  | str s =>
    cases hmark : isMarked (.str s) with
    | true =>
      have hname : trimColons s = name := by simpa [keyName?, (isMarked_str.mp hmark).1] using h
      simp [unmarked, hmark, hname]
    | false =>
      rw [keyName?_of_unmarked hmark] at h
      rw [unmarked_eq_self hmark, Option.some.inj h]
  | _ => simp [keyName?] at h

theorem unmarked_eq_self_of_none {key : Value} (h : keyName? key = none) : unmarked key = key := by
  cases key with
  | str s => simp [keyName?] at h
  | _ => rfl

/-- A name goes by itself. -/
theorem keyName?_str_of_keyName? {key : Value} {name : String} (h : keyName? key = some name) :
    keyName? (.str name) = some name := by
  refine keyName?_of_unmarked ?_
  rw [← unmarked_eq_str h]
  exact isMarked_unmarked key

@[simp] theorem keyName?_unmarked (key : Value) : keyName? (unmarked key) = keyName? key := by
  cases h : keyName? key with
  | some name => rw [unmarked_eq_str h, keyName?_str_of_keyName? h]
  | none => rw [unmarked_eq_self_of_none h, h]

theorem unmarked_proper {key : Value} (h : key.proper = true) : (unmarked key).proper = true := by
  cases key with
  | str s =>
    unfold unmarked
    dsimp only
    split <;> exact Value.proper_str _
  | _ => exact h

theorem beq_of_keyMatches {a b : Value} (ha : isMarked a = false) (hb : isMarked b = false)
    (h : keyMatches a b = true) : (b == a) = true := by
  rcases keyMatches_iff.mp h with ⟨name, hna, hnb⟩ | ⟨-, -, hba⟩
  · cases a with
    | str s =>
      cases b with
      | str t =>
        rw [keyName?_of_unmarked ha] at hna
        rw [keyName?_of_unmarked hb] at hnb
        obtain rfl := Option.some.inj (hna.trans hnb.symm)
        exact beq_self_eq_true _
      | _ => simp [keyName?] at hnb
    | _ => simp [keyName?] at hna
  · exact hba

structure Unmarked (v : Value) : Prop extends Tidy v where
  mark_free : markFree v = true

/-- In a mapping without marked keys it is enough that no two keys are equal. -/
theorem unmarked_map {m : Mapping} : Unmarked (.map m) ↔ m.Distinct ∧
    ∀ e ∈ m, (e.1.proper = true ∧ isMarked e.1 = false) ∧ Unmarked e.2 := by
  constructor
  · rintro ⟨htidy, hfree⟩
    obtain ⟨hmarks, hvalues⟩ := (Value.everyMapping_map m).mp hfree
    refine ⟨((Value.proper_map m).mp htidy.proper).1, fun e he => ⟨⟨htidy.key_proper he, ?_⟩,
      htidy.value he, hvalues e he⟩⟩
    simpa using List.all_eq_true.mp hmarks e he
  · rintro ⟨hdistinct, hmem⟩
    refine ⟨tidy_map.mpr ⟨hdistinct.imp_of_mem fun he hf h => ?_, fun e he =>
      ⟨(hmem e he).1.1, (hmem e he).2.toTidy⟩⟩, (Value.everyMapping_map m).mpr
      ⟨List.all_eq_true.mpr fun e he => by simp [(hmem e he).1.2], fun e he =>
        (hmem e he).2.mark_free⟩⟩
    refine Bool.eq_false_iff.mpr fun hm => ?_
    have := Value.beq_symm (hmem _ hf).1.1 (hmem _ he).1.1
      (beq_of_keyMatches (hmem _ he).1.2 (hmem _ hf).1.2 hm)
    simp [h] at this

theorem unmarked_seq {items : List Value} : Unmarked (.seq items) ↔ ∀ v ∈ items, Unmarked v := by
  constructor
  · rintro ⟨htidy, hfree⟩ v hv
    exact ⟨tidy_seq.mp htidy v hv, (Value.everyMapping_seq items).mp hfree v hv⟩
  · intro h
    exact ⟨tidy_seq.mpr fun v hv => (h v hv).toTidy,
      (Value.everyMapping_seq items).mpr fun v hv => (h v hv).mark_free⟩

theorem unmarked_tagged {tag : String} {v : Value} : Unmarked (.tagged tag v) ↔ Unmarked v := by
  constructor <;> rintro ⟨htidy, hmarks⟩
  · exact ⟨tidy_tagged.mp htidy, by simpa [markFree] using hmarks⟩
  · exact ⟨tidy_tagged.mpr htidy, by simpa [markFree] using hmarks⟩

/-- Unmarked keys that differ have different names, so a document without markers is tidy. -/
theorem unmarked_iff {v : Value} : Unmarked v ↔ v.proper = true ∧ markFree v = true := by
  refine ⟨fun h => ⟨h.proper, h.mark_free⟩, ?_⟩
  rintro ⟨hproper, hfree⟩
  induction v using Value.members_induction with
  | scalar v hv => exact ⟨⟨hproper, Value.everyMapping_of_isScalar hv⟩, hfree⟩
  | seq items ih =>
    rw [Value.proper_seq] at hproper
    rw [markFree, Value.everyMapping_seq] at hfree
    exact unmarked_seq.mpr fun v hv => ih v hv (hproper v hv) (hfree v hv)
  | map m ih =>
    obtain ⟨hdistinct, hmem⟩ := (Value.proper_map m).mp hproper
    obtain ⟨hmarks, hvalues⟩ := (Value.everyMapping_map m).mp hfree
    refine unmarked_map.mpr ⟨hdistinct, fun e he => ⟨⟨(hmem e he).1, ?_⟩, ?_⟩⟩
    · simpa using List.all_eq_true.mp hmarks e he
    · exact (ih e he).2 (hmem e he).2 (hvalues e he)
  | tagged tag v ih =>
    exact unmarked_tagged.mpr (ih (by simpa using hproper) (by simpa [markFree] using hfree))

theorem Unmarked.merge (s : Strategy) {base overlay : Value} (hb : Unmarked base)
    (ho : Unmarked overlay) : Unmarked (merge s base overlay) := by
  refine merge_closed (fun _ => unmarked_seq) (fun m hm e he => ((unmarked_map.mp hm).2 e he).2)
    (fun base overlay hb ho hvalues => ?_) hb ho
  have hkeys := forall_key_mergedEntries (s := s)
    (P := fun key => key.proper = true ∧ isMarked key = false)
    (fun e he => ((unmarked_map.mp hb).2 e he).1) fun e he => ((unmarked_map.mp ho).2 e he).1
  rw [mergeMappings_eq, unmarked_map]
  exact ⟨Mapping.distinct_ofList _, Mapping.forall_mem_ofList
    (P := fun key => key.proper = true ∧ isMarked key = false) (Q := Unmarked)
    fun e he => ⟨hkeys e he, hvalues e he⟩⟩

theorem Unmarked.mergeMappings (s : Strategy) {base overlay : Mapping} (hb : Unmarked (.map base))
    (ho : Unmarked (.map overlay)) : Unmarked (.map (mergeMappings s base overlay)) := by
  rw [← merge_map]
  exact hb.merge s ho

theorem viaMark_of_unmarked {v : Value} (h : Unmarked v) (path : List Value) :
    viaMark path v = false := by
  induction path generalizing v with
  | nil => rfl
  | cons key path ih =>
    cases v with
    | map m =>
      rw [viaMark]
      cases he : entryFor? m key with
      | none => rfl
      | some e =>
        obtain ⟨⟨-, hmark⟩, hvalue⟩ := (unmarked_map.mp h).2 e (mem_of_entryFor? he)
        simp [hmark, ih hvalue]
    | _ => rfl

private theorem unmarkItems_eq_map (items : List Value) : unmarkItems items = items.map unmark := by
  induction items with
  | nil => rfl
  | cons v items ih => rw [unmarkItems, ih, List.map_cons]

theorem unmarkEntries_eq_map (m : List (Value × Value)) :
    unmarkEntries m = m.map fun e => (unmarked e.1, unmark e.2) := by
  induction m with
  | nil => rfl
  | cons e m ih => rw [unmarkEntries, ih, List.map_cons]

theorem unmark_of_isScalar {v : Value} (h : v.isScalar = true) : unmark v = v := by
  cases v <;> simp_all [Value.isScalar, unmark]

theorem unmark_seq (items : List Value) : unmark (.seq items) = .seq (items.map unmark) := by
  rw [unmark, unmarkItems_eq_map]

theorem unmark_map (m : Mapping) :
    unmark (.map m) = .map (Mapping.ofList (m.map fun e => (unmarked e.1, unmark e.2))) := by
  rw [unmark, unmarkEntries_eq_map]

/-- What is left of a proper document without its markers is tidy and has none. -/
theorem unmark_unmarked {v : Value} (h : v.proper = true) : Unmarked (unmark v) := by
  induction v using Value.members_induction with
  | scalar v hv =>
    rw [unmark_of_isScalar hv]
    exact ⟨⟨h, Value.everyMapping_of_isScalar hv⟩, Value.everyMapping_of_isScalar hv⟩
  | seq items ih =>
    rw [unmark_seq, unmarked_seq]
    exact List.forall_mem_map.mpr fun v hv => ih v hv ((Value.proper_seq items).mp h v hv)
  | map m ih =>
    rw [unmark_map, unmarked_map]
    refine ⟨Mapping.distinct_ofList _, Mapping.forall_mem_ofList
      (P := fun key => key.proper = true ∧ isMarked key = false) (Q := Unmarked) fun e he => ?_⟩
    obtain ⟨f, hf, rfl⟩ := List.mem_map.mp he
    obtain ⟨hkey, hvalue⟩ := ((Value.proper_map m).mp h).2 f hf
    exact ⟨⟨unmarked_proper hkey, isMarked_unmarked f.1⟩, (ih f hf).2 hvalue⟩
  | tagged tag v ih =>
    rw [unmark, unmarked_tagged]
    exact ih (by simpa using h)

/-- The body of a manifest without its markers. -/
theorem unmarked_body {m : Manifest} (h : (Value.map m.body).proper = true) :
    Unmarked (.map m.unmark.body) := by
  have := unmark_unmarked h
  rwa [unmark] at this

/-- An unmarked document that is a mapping, tagged or not, has entries that are unmarked. -/
theorem Unmarked.entries {v : Value} (h : Unmarked v) {m : Mapping} (hm : v.entries? = some m) :
    Unmarked (.map m) :=
  Value.of_entries? (fun _ _ => unmarked_tagged.mp) h hm

end EnvCompose.Merge
