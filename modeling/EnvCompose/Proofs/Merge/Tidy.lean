import EnvCompose.Proofs.Merge.Precedence

/-!
# Tidy documents

A proper document is tidy if no two keys of a mapping in it go by one name. A merge of tidy
documents is tidy, and what has been freed of override markers is tidy and free of them.
-/
namespace EnvCompose
open Yaml

namespace Yaml.Value

mutual
/-- Whether every mapping in the document passes a test. Keys are not looked into. -/
def everyMapping (test : Mapping → Bool) : Value → Bool
  | .seq items => everyItem test items
  | .map entries => test entries && everyEntry test entries
  | .tagged _ v => everyMapping test v
  | .null | .bool _ | .int _ | .float _ | .str _ => true

def everyItem (test : Mapping → Bool) : List Value → Bool
  | [] => true
  | v :: items => everyMapping test v && everyItem test items

def everyEntry (test : Mapping → Bool) : List (Value × Value) → Bool
  | [] => true
  | (_, v) :: entries => everyMapping test v && everyEntry test entries
end

variable {test : Mapping → Bool}

theorem everyMapping_of_isScalar {v : Value} (h : v.isScalar = true) :
    v.everyMapping test = true := by
  cases v <;> simp_all [isScalar, everyMapping]

@[simp] theorem everyMapping_seq (items : List Value) :
    (Value.seq items).everyMapping test = true ↔ ∀ v ∈ items, v.everyMapping test = true := by
  rw [everyMapping]
  induction items with
  | nil => simp [everyItem]
  | cons v items ih => simp [everyItem, ih]

@[simp] theorem everyMapping_map (m : Mapping) : (Value.map m).everyMapping test = true ↔
    test m = true ∧ ∀ e ∈ m, e.2.everyMapping test = true := by
  rw [everyMapping, Bool.and_eq_true]
  suffices h : everyEntry test m = true ↔ ∀ e ∈ m, e.2.everyMapping test = true by rw [h]
  induction m with
  | nil => simp [everyEntry]
  | cons e m ih => simp only [everyEntry, Bool.and_eq_true, ih, List.forall_mem_cons]

@[simp] theorem everyMapping_tagged (tag : String) (v : Value) :
    (Value.tagged tag v).everyMapping test = v.everyMapping test := by rw [everyMapping]

end Yaml.Value

namespace Merge

def sameName (a b : Value) : Bool :=
  match keyName? a, keyName? b with
  | some s, some t => s == t
  | _, _ => false

def distinctNames (m : Mapping) : Bool := decide (m.Pairwise fun e f => sameName e.1 f.1 = false)

def noMarks (m : Mapping) : Bool := m.all fun e => !isMarked e.1

/-- Whether no mapping in the document has two keys that go by one name. -/
def collisionFree (v : Value) : Bool := v.everyMapping distinctNames

/-- Whether no mapping in the document has a marked key. -/
def markFree (v : Value) : Bool := v.everyMapping noMarks

structure Tidy (v : Value) : Prop where
  proper : v.proper = true
  collision_free : collisionFree v = true

theorem sameName_iff {a b : Value} :
    sameName a b = true ↔ ∃ name, keyName? a = some name ∧ keyName? b = some name := by
  unfold sameName
  cases keyName? a <;> cases keyName? b <;> simp
  exact eq_comm

theorem keyMatches_eq_false_iff {a b : Value} (ha : a.proper = true) (hb : b.proper = true) :
    keyMatches a b = false ↔ (a == b) = false ∧ sameName a b = false := by
  constructor
  · intro h
    refine ⟨Bool.eq_false_iff.mpr fun hab => ?_, Bool.eq_false_iff.mpr fun hab => ?_⟩
    · simp [keyMatches_of_beq ha hb hab] at h
    · simp [keyMatches_iff.mpr (.inl (sameName_iff.mp hab))] at h
  · rintro ⟨hne, hname⟩
    refine Bool.eq_false_iff.mpr fun h => ?_
    rcases keyMatches_iff.mp h with hsame | ⟨-, -, hba⟩
    · simp [sameName_iff.mpr hsame] at hname
    · simp [Value.beq_symm hb ha hba] at hne

/-- No two keys match in a tidy mapping. -/
theorem tidy_map {m : Mapping} : Tidy (.map m) ↔
    (m.Pairwise fun e f => keyMatches e.1 f.1 = false) ∧ ∀ e ∈ m, e.1.proper = true ∧ Tidy e.2 := by
  constructor
  · rintro ⟨hproper, hfree⟩
    obtain ⟨hdistinct, hmem⟩ := (Value.proper_map m).mp hproper
    obtain ⟨hnames, hvalues⟩ := (Value.everyMapping_map m).mp hfree
    refine ⟨List.Pairwise.imp_of_mem (fun he hf h => ?_)
      (hdistinct.and (of_decide_eq_true hnames)), fun e he => ⟨(hmem e he).1, (hmem e he).2,
      hvalues e he⟩⟩
    exact (keyMatches_eq_false_iff (hmem _ he).1 (hmem _ hf).1).mpr h
  · rintro ⟨hapart, hmem⟩
    have hkeys := hapart.imp_of_mem fun he hf h =>
      (keyMatches_eq_false_iff (hmem _ he).1 (hmem _ hf).1).mp h
    refine ⟨(Value.proper_map m).mpr ⟨hkeys.imp And.left, fun e he =>
      ⟨(hmem e he).1, (hmem e he).2.proper⟩⟩, (Value.everyMapping_map m).mpr
      ⟨decide_eq_true (hkeys.imp And.right), fun e he => (hmem e he).2.collision_free⟩⟩

section Entries

variable {m : Mapping} (h : Tidy (.map m)) {e : Value × Value} (he : e ∈ m)
include h he

theorem Tidy.key_proper : e.1.proper = true := ((tidy_map.mp h).2 e he).1

theorem Tidy.value : Tidy e.2 := ((tidy_map.mp h).2 e he).2

end Entries

theorem tidy_str (s : String) : Tidy (.str s) := ⟨by simp, Value.everyMapping_of_isScalar rfl⟩

theorem tidy_seq {items : List Value} : Tidy (.seq items) ↔ ∀ v ∈ items, Tidy v := by
  constructor
  · rintro ⟨hproper, hfree⟩ v hv
    exact ⟨(Value.proper_seq items).mp hproper v hv, (Value.everyMapping_seq items).mp hfree v hv⟩
  · intro h
    exact ⟨(Value.proper_seq items).mpr fun v hv => (h v hv).proper,
      (Value.everyMapping_seq items).mpr fun v hv => (h v hv).collision_free⟩

theorem tidy_tagged {tag : String} {v : Value} : Tidy (.tagged tag v) ↔ Tidy v := by
  constructor <;> rintro ⟨hproper, hfree⟩
  · exact ⟨by simpa using hproper, by simpa [collisionFree] using hfree⟩
  · exact ⟨by simpa using hproper, by simpa [collisionFree] using hfree⟩

theorem entryFor?_of_mem {m : Mapping} (h : Tidy (.map m)) {e : Value × Value} (he : e ∈ m)
    {key : Value} (hk : key.proper = true) (hm : keyMatches key e.1 = true) :
    entryFor? m key = some e := by
  obtain ⟨hapart, hmem⟩ := tidy_map.mp h
  rw [entryFor?_congr m hk (hmem e he).1 hm, entryFor?_eq_find?]
  induction m with
  | nil => simp at he
  | cons a m ih =>
    obtain ⟨hhead, htail⟩ := List.pairwise_cons.mp hapart
    rcases List.mem_cons.mp he with rfl | he'
    · simp [keyMatches_refl]
    · have hkey : keyMatches e.1 a.1 = false := Bool.eq_false_iff.mpr fun hea => by
        have := keyMatches_symm (hmem e he).1 (hmem a (by simp)).1 hea
        simp [hhead e he'] at this
      have hmem' := fun f hf => hmem f (List.mem_cons_of_mem a hf)
      simpa [hkey] using ih (tidy_map.mpr ⟨htail, hmem'⟩) he' htail hmem'

theorem Tidy.entryFor?_self {m : Mapping} (h : Tidy (.map m)) {e : Value × Value} (he : e ∈ m) :
    entryFor? m e.1 = some e :=
  entryFor?_of_mem h he (h.key_proper he) (keyMatches_refl e.1)

/-- An overlay whose keys the base has all adds no entry. -/
theorem filter_isNone_eq_nil {base overlay : Mapping}
    (h : ∀ f ∈ overlay, (entryFor? base f.1).isSome = true) :
    overlay.filter (fun f => (entryFor? base f.1).isNone) = [] :=
  List.filter_eq_nil_iff.mpr fun f hf => by simp [Option.isSome_iff_ne_none.mp (h f hf)]

section Merging

variable {s : Strategy} {base overlay : Mapping}

section Proper

variable (hb : (Value.map base).proper = true) (ho : (Value.map overlay).proper = true)
include hb ho

/-- What an overlay adds matches nothing that has come of the base. -/
theorem mergedEntries_across : ∀ e ∈ base.map (mergeEntry s overlay),
    ∀ f ∈ overlay.filter (fun f => (entryFor? base f.1).isNone), keyMatches e.1 f.1 = false := by
  intro e' he' f hf
  obtain ⟨e, he, rfl⟩ := List.mem_map.mp he'
  obtain ⟨hf, hnew⟩ := List.mem_filter.mp hf
  have hep := (((Value.proper_map base).mp hb).2 e he).1
  rw [Option.isNone_iff_eq_none, entryFor?_eq_find?, List.find?_eq_none] at hnew
  rw [← keyMatches_congr hep (mergeEntry_key_proper hb ho he) (mergeEntry_matches s overlay e)]
  exact Bool.eq_false_iff.mpr fun h =>
    hnew e he (keyMatches_symm hep (((Value.proper_map overlay).mp ho).2 f hf).1 h)

/-- No entry is lost if those of the base keep their keys apart. -/
theorem mergeMappings_eq_mergedEntries_of_distinct
    (h : Mapping.Distinct (base.map (mergeEntry s overlay))) :
    mergeMappings s base overlay = mergedEntries s base overlay := by
  rw [mergeMappings_eq]
  refine Mapping.ofList_eq_self (List.pairwise_append.mpr ⟨h,
    ((Value.proper_map overlay).mp ho).1.filter _, fun e he f hf => ?_⟩)
  have hep := mergedEntries_key_proper hb ho (List.mem_append_left _ he)
  have hfp := mergedEntries_key_proper (s := s) hb ho (List.mem_append_right _ hf)
  exact ((keyMatches_eq_false_iff hep hfp).mp (mergedEntries_across hb ho e he f hf)).1

end Proper

private theorem mergeEntries_apart (hb : Tidy (.map base))
    (ho : (Value.map overlay).proper = true) :
    (base.map (mergeEntry s overlay)).Pairwise fun e f => keyMatches e.1 f.1 = false := by
  obtain ⟨hapart, hmem⟩ := tidy_map.mp hb
  have hkey := fun e (he : e ∈ base) => mergeEntry_key_proper (s := s) hb.proper ho he
  refine List.pairwise_map.mpr (hapart.imp_of_mem fun {e f} he hf h => ?_)
  rw [← keyMatches_congr (hmem e he).1 (hkey e he) (mergeEntry_matches s overlay e),
    ← keyMatches_congr_right (hmem f hf).1 (hkey f hf) (mergeEntry_matches s overlay f), h]

/-- Merging into a tidy mapping replaces no entry by another. -/
theorem mergeMappings_eq_mergedEntries (hb : Tidy (.map base))
    (ho : (Value.map overlay).proper = true) :
    mergeMappings s base overlay = mergedEntries s base overlay := by
  refine mergeMappings_eq_mergedEntries_of_distinct hb.proper ho
    ((mergeEntries_apart hb ho).imp_of_mem fun he hf h => ?_)
  have hkey := fun e he => mergedEntries_key_proper (e := e) (s := s) hb.proper ho
    (List.mem_append_left _ he)
  exact ((keyMatches_eq_false_iff (hkey _ he) (hkey _ hf)).mp h).1

end Merging

/-- Where one side is no mapping, what is merged is settled between winner and loser. -/
theorem merge_of_not_map (s : Strategy) {base overlay : Value}
    (h : (∀ m, base ≠ .map m) ∨ ∀ m, overlay ≠ .map m) : merge s base overlay =
      Merge.settled s (s.winner base overlay) (some (s.loser base overlay : Value)) false := by
  rw [merge_eq_mergeSides]
  refine mergeSides_of_not_map s ?_
  unfold Strategy.winner Strategy.loser
  cases s.precedence with
  | base => exact h
  | overlay => exact h.symm

theorem winner_cases {α : Type} (s : Strategy) (a b : α) :
    (s.winner a b = a ∧ s.loser a b = b) ∨ (s.winner a b = b ∧ s.loser a b = a) := by
  unfold Strategy.winner Strategy.loser
  cases s.precedence <;> simp

theorem winner_self {α : Type} (s : Strategy) (a : α) : s.winner a a = a := by
  rcases winner_cases s a a with ⟨h, -⟩ | ⟨h, -⟩ <;> exact h

theorem loser_self {α : Type} (s : Strategy) (a : α) : s.loser a a = a := by
  rcases winner_cases s a a with ⟨-, h⟩ | ⟨-, h⟩ <;> exact h

section Closure

variable {P : Value → Prop} {s : Strategy} (hseq : ∀ items, P (.seq items) ↔ ∀ v ∈ items, P v)
include hseq

private theorem settled_closed {w l : Value} (hw : P w) (hl : P l) (marked : Bool) :
    P (settled s w (some l) marked) := by
  unfold settled
  split
  · rename_i hothers
    cases hothers
    rw [hseq] at hw hl ⊢
    intro v hv
    rcases List.mem_append.mp hv with hv | hv
    · exact hw v hv
    · exact hl v (List.mem_filter.mp hv).1
  · exact hw

variable (hvalues : ∀ m, P (.map m) → ∀ e ∈ m, P e.2)
  (hmap : ∀ base overlay : Mapping, P (.map base) → P (.map overlay) →
    (∀ e ∈ mergedEntries s base overlay, P e.2) → P (.map (mergeMappings s base overlay)))
include hvalues hmap

/-- A merge keeps what is kept by sequences and by the mappings it builds. -/
theorem merge_closed {base overlay : Value} (hb : P base) (ho : P overlay) :
    P (merge s base overlay) := by
  have hnot {base overlay : Value} (hb : P base) (ho : P overlay)
      (h : (∀ m, base ≠ .map m) ∨ ∀ m, overlay ≠ .map m) : P (merge s base overlay) := by
    rw [merge_of_not_map s h]
    rcases winner_cases s base overlay with ⟨hw, hl⟩ | ⟨hw, hl⟩ <;> rw [hw, hl]
    · exact settled_closed hseq hb ho false
    · exact settled_closed hseq ho hb false
  induction base using Value.members_induction generalizing overlay with
  | scalar v hv => exact hnot hb ho (.inl (by rintro m rfl; simp [Value.isScalar] at hv))
  | seq | tagged => exact hnot hb ho (.inl (by simp))
  | map base ih =>
    by_cases hmaps : ∃ m, overlay = .map m
    · obtain ⟨overlay, rfl⟩ := hmaps
      rw [merge_map]
      refine hmap base overlay hb ho (forall_value_mergedEntries (hvalues base hb)
        (hvalues overlay ho) fun e he f hf => ?_)
      exact (ih e he).2 (hvalues base hb e he) (hvalues overlay ho f hf)
    · exact hnot hb ho (.inr (by simpa using hmaps))

end Closure

/-- A merge of proper documents is proper, whatever names their keys share. -/
theorem merge_proper (s : Strategy) {base overlay : Value} (hb : base.proper = true)
    (ho : overlay.proper = true) : (merge s base overlay).proper = true := by
  refine merge_closed (P := fun v => v.proper = true) Value.proper_seq
    (fun m hm e he => (((Value.proper_map m).mp hm).2 e he).2) (fun base overlay hb ho hvalues => ?_)
    hb ho
  rw [mergeMappings_eq, Value.proper_map]
  exact ⟨Mapping.distinct_ofList _, Mapping.forall_mem_ofList (P := fun key => key.proper = true)
    (Q := fun v => v.proper = true) fun e he => ⟨mergedEntries_key_proper hb ho he, hvalues e he⟩⟩

theorem Tidy.merge (s : Strategy) {base overlay : Value} (hb : Tidy base) (ho : Tidy overlay) :
    Tidy (merge s base overlay) := by
  refine merge_closed (fun _ => tidy_seq) (fun m hm e he => hm.value he)
    (fun base overlay hb ho hvalues => ?_) hb ho
  rw [mergeMappings_eq_mergedEntries hb ho.proper, tidy_map]
  exact ⟨List.pairwise_append.mpr ⟨mergeEntries_apart hb ho.proper, (tidy_map.mp ho).1.filter _,
    mergedEntries_across hb.proper ho.proper⟩, fun e he =>
      ⟨mergedEntries_key_proper hb.proper ho.proper he, hvalues e he⟩⟩

end Merge
end EnvCompose
