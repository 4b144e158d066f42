import EnvCompose.Proofs.Merge.Unmark
import Mathlib.Data.Option.Basic

/-!
# A layer that is laid twice

Layers are merged from the weakest to the strongest. If the strongest layer has been laid first as
well, with weaker layers without override markers on top of it, its first use leaves no trace.
-/
namespace EnvCompose.Merge
open Yaml

section Sequences

variable (first second third : List Value)

private theorem filter_combine : (combine second first).filter (fun v => !first.contains v) =
    second.filter fun v => !first.contains v := by
  have hnone : (first.filter fun v => !second.contains v).filter (fun v => !first.contains v) = [] := by
    refine List.filter_eq_nil_iff.mpr fun v hv => ?_
    have : first.contains v = true :=
      List.contains_iff_exists_mem_beq.mpr ⟨v, (List.mem_filter.mp hv).1, beq_self_eq_true v⟩
    simp [this]
  rw [combine, List.filter_append, hnone, List.append_nil]

theorem combine_absorb : combine first (combine second first) = combine first second := by
  rw [combine, filter_combine, combine]

theorem combine_self : combine first first = first := by
  have hnil : combine [] first = first := by simp [combine]
  have := combine_absorb first []
  rw [hnil] at this
  simpa [combine] using this

private theorem combine_congr {first second third : List Value}
    (h : second.filter (fun v => !first.contains v) = third.filter fun v => !first.contains v)
    (between : List Value) :
    combine first (combine between second) = combine first (combine between third) := by
  have hswap (items : List Value) : (items.filter fun v => !between.contains v).filter
      (fun v => !first.contains v) =
        (items.filter fun v => !first.contains v).filter fun v => !between.contains v := by
    simp only [List.filter_filter, Bool.and_comm]
  simp only [combine, List.filter_append, hswap, h]

end Sequences

/-- Whether there is an entry on both sides with equal keys and values, or on neither. -/
def SameEntry : Option (Value × Value) → Option (Value × Value) → Prop :=
  Option.Rel fun e f => (e.1 == f.1) = true ∧ (e.2 == f.2) = true

theorem SameEntry.refl (e : Option (Value × Value)) : SameEntry e e := by
  cases e with
  | none => exact .none
  | some e => exact .some ⟨beq_self_eq_true e.1, beq_self_eq_true e.2⟩

theorem SameEntry.symm {a b : Option (Value × Value)}
    (ha : ∀ e ∈ a, e.1.proper = true ∧ e.2.proper = true)
    (hb : ∀ e ∈ b, e.1.proper = true ∧ e.2.proper = true) (h : SameEntry a b) : SameEntry b a := by
  cases h with
  | none => exact .none
  | some h =>
    exact .some ⟨Value.beq_symm (ha _ rfl).1 (hb _ rfl).1 h.1,
      Value.beq_symm (ha _ rfl).2 (hb _ rfl).2 h.2⟩

/-- Tidy mappings are equal if the same is found under every key. -/
theorem map_beq_map_of_entryFor? {m n : Mapping} (hm : Tidy (.map m)) (hn : Tidy (.map n))
    (h : ∀ key, key.proper = true → SameEntry (entryFor? m key) (entryFor? n key)) :
    (Value.map m == .map n) = true := by
  have hhalf {a b : Mapping} (ha : Tidy (.map a))
      (hab : ∀ key, key.proper = true → SameEntry (entryFor? a key) (entryFor? b key)) :
      ∀ e ∈ a, ∃ f ∈ b, (e.1 == f.1) = true ∧ (e.2 == f.2) = true := by
    intro e he
    have hsame := hab e.1 (ha.key_proper he)
    rw [ha.entryFor?_self he] at hsame
    cases hf : entryFor? b e.1 with
    | none => rw [hf] at hsame; cases hsame
    | some f =>
      rw [hf] at hsame
      cases hsame with
      | some hef => exact ⟨f, mem_of_entryFor? hf, hef⟩
  have hproper {a : Mapping} (ha : Tidy (.map a)) (key : Value) :
      ∀ e ∈ entryFor? a key, e.1.proper = true ∧ e.2.proper = true := fun e he =>
    ⟨ha.key_proper (mem_of_entryFor? he), (ha.value (mem_of_entryFor? he)).proper⟩
  exact Value.map_beq_map_of_entries hm.proper hn.proper (hhalf hm h)
    (hhalf hn fun key hk => (h key hk).symm (hproper hm key) (hproper hn key))

/-- Equal tidy mappings have the same under every key. -/
theorem sameEntry_of_beq {a b : Mapping} (ha : Tidy (.map a)) (hb : Tidy (.map b))
    (h : (Value.map a == .map b) = true) {key : Value} (hk : key.proper = true) :
    SameEntry (entryFor? a key) (entryFor? b key) := by
  have hhalf {m n : Mapping} (hm : Tidy (.map m)) (hn : Tidy (.map n))
      (hmn : (Value.map m == .map n) = true) {e : Value × Value} (he : entryFor? m key = some e) :
      ∃ f, entryFor? n key = some f ∧ (e.1 == f.1) = true ∧ (e.2 == f.2) = true := by
    obtain ⟨f, hf, hkey, hvalue⟩ := ((Value.map_beq_map m n).mp hmn).2 e (mem_of_entryFor? he)
    have hmatch := keyMatches_of_beq (hm.key_proper (mem_of_entryFor? he)) (hn.key_proper hf) hkey
    refine ⟨f, entryFor?_of_mem hn hf hk ?_, hkey, hvalue⟩
    exact keyMatches_trans (keyMatches_of_entryFor? he) hmatch
  cases he : entryFor? a key with
  | some e =>
    obtain ⟨f, hf, hef⟩ := hhalf ha hb h he
    rw [hf]
    exact .some hef
  | none =>
    cases hf : entryFor? b key with
    | none => exact .none
    | some f =>
      obtain ⟨e, he', -⟩ := hhalf hb ha (Value.beq_symm ha.proper hb.proper h) hf
      rw [he] at he'
      cases he'

/-- A layer on top of those below it, where either may be missing. -/
def onTop : Option Value → Option Value → Option Value
  | some below, some layer => some (merge .layer below layer)
  | some below, none => some below
  | none, layer => layer

/-- A layer hides what is below it, unless both are mappings or both sequences. -/
theorem merge_layer_of_ne {below layer : Value}
    (hmap : (∀ m, below ≠ .map m) ∨ ∀ m, layer ≠ .map m)
    (hseq : (∀ items, below ≠ .seq items) ∨ ∀ items, layer ≠ .seq items) :
    merge .layer below layer = layer := by
  cases below <;> cases layer <;> simp_all [merge, Strategy.layer, Strategy.winner]

theorem merge_layer_seq (below items : List Value) :
    merge .layer (.seq below) (.seq items) = .seq (combine items below) := by
  simp [merge, Strategy.layer, Strategy.winner, Strategy.loser]

theorem Tidy.mergeMappings (s : Strategy) {base overlay : Mapping} (hb : Tidy (.map base))
    (ho : Tidy (.map overlay)) : Tidy (.map (mergeMappings s base overlay)) := by
  rw [← merge_map]
  exact hb.merge s ho

/-- Over an unmarked key the value is laid on top of what the base has under its own key. -/
theorem mergePair_layer_of_unmarked {e f : Value × Value} (h : isMarked f.1 = false) :
    mergePair .layer e f = (e.1, merge .layer e.2 f.2) := by
  simp [mergePair, Strategy.layer, Strategy.winner, h]

theorem mergePair_layer_of_marked {e f : Value × Value} (h : isMarked f.1 = true) :
    mergePair .layer e f = f := by
  simp [mergePair, Strategy.layer, Strategy.winner, h]

section Mappings

def entryOnTop : Option (Value × Value) → Option (Value × Value) → Option (Value × Value)
  | some e, some f => some (mergePair .layer e f)
  | some e, none => some e
  | none, f => f

private theorem entryFor?_layer {base overlay : Mapping} (hb : Tidy (.map base))
    (ho : Tidy (.map overlay))
    {key : Value} (hk : key.proper = true) : entryFor? (mergeMappings .layer base overlay) key =
      entryOnTop (entryFor? base key) (entryFor? overlay key) := by
  rw [entryFor?_mergeMappings hb.proper ho.proper hk]
  rfl

/-- The first use of an entry leaves no trace: over a marked key nothing below it is left, and under
any other key it leaves none in the value. -/
private theorem entryOnTop_absorb {e : Value × Value} {below between : Option (Value × Value)}
    (hb : ∀ f ∈ below, isMarked f.1 = false) (ht : ∀ g ∈ between, isMarked g.1 = false)
    (hkey : isMarked e.1 = false → ∀ f, f ∈ below ∨ f ∈ between → (e.1 == f.1) = true)
    (hvalue : (onTop (onTop (onTop (some e.2) (below.map (·.2))) (between.map (·.2))) (some e.2) ==
      onTop (onTop (below.map (·.2)) (between.map (·.2))) (some e.2)) = true) :
    SameEntry (entryOnTop (entryOnTop (entryOnTop (some e) below) between) (some e))
      (entryOnTop (entryOnTop below between) (some e)) := by
  cases hmark : isMarked e.1 with
  | true =>
    cases below <;> cases between <;> simp only [entryOnTop, mergePair_layer_of_marked hmark] <;>
      exact SameEntry.refl _
  | false =>
    have hself (e' : Value × Value) := mergePair_layer_of_unmarked (e := e') hmark
    cases below with
    | none =>
      cases between with
      | none =>
        simp only [entryOnTop, hself]
        exact .some ⟨beq_self_eq_true e.1, by simpa [onTop] using hvalue⟩
      | some g =>
        simp only [entryOnTop, hself, mergePair_layer_of_unmarked (ht g rfl)]
        exact .some ⟨hkey hmark g (.inr rfl), by simpa [onTop] using hvalue⟩
    | some f =>
      have hkeys := hkey hmark f (.inl rfl)
      cases between with
      | none =>
        simp only [entryOnTop, hself, mergePair_layer_of_unmarked (hb f rfl)]
        exact .some ⟨hkeys, by simpa [onTop] using hvalue⟩
      | some g =>
        simp only [entryOnTop, hself, mergePair_layer_of_unmarked (hb f rfl),
          mergePair_layer_of_unmarked (ht g rfl)]
        exact .some ⟨hkeys, by simpa [onTop] using hvalue⟩

variable {layer below between : Mapping}

/-- The first use of a layer leaves no trace if it leaves none in what stands under its keys. -/
private theorem mergeMappings_absorb (hl : Tidy (.map layer)) (hb : Unmarked (.map below))
    (ht : Unmarked (.map between))
    (ih : ∀ e ∈ layer, ∀ b t : Option Value, (∀ v ∈ b, Unmarked v) → (∀ v ∈ t, Unmarked v) →
      (onTop (onTop (onTop (some e.2) b) t) (some e.2) == onTop (onTop b t) (some e.2)) = true) :
    (Value.map (mergeMappings .layer (mergeMappings .layer (mergeMappings .layer layer below)
      between) layer) ==
        .map (mergeMappings .layer (mergeMappings .layer below between) layer)) = true := by
  have hlb := hl.mergeMappings .layer hb.toTidy
  have hlbt := hlb.mergeMappings .layer ht.toTidy
  have hbt := hb.toTidy.mergeMappings .layer ht.toTidy
  refine map_beq_map_of_entryFor? (hlbt.mergeMappings .layer hl) (hbt.mergeMappings .layer hl)
    fun key hk => ?_
  rw [entryFor?_layer hlbt hl hk, entryFor?_layer hlb ht.toTidy hk, entryFor?_layer hl hb.toTidy hk,
    entryFor?_layer hbt hl hk, entryFor?_layer hb.toTidy ht.toTidy hk]
  cases he : entryFor? layer key with
  | none => cases entryFor? below key <;> cases entryFor? between key <;> exact SameEntry.refl _
  | some e =>
    have hentry {m : Mapping} (hm : Unmarked (.map m)) : ∀ f ∈ entryFor? m key,
        (f.1.proper = true ∧ isMarked f.1 = false) ∧ Unmarked f.2 :=
      fun f hf => (unmarked_map.mp hm).2 f (mem_of_entryFor? hf)
    have hvalue {m : Mapping} (hm : Unmarked (.map m)) :
        ∀ v ∈ (entryFor? m key).map (·.2), Unmarked v := by
      intro v hv
      obtain ⟨f, hf, rfl⟩ := Option.map_eq_some_iff.mp hv
      exact (hentry hm f hf).2
    have hkey {m : Mapping} (hm : Unmarked (.map m)) (hmark : isMarked e.1 = false) :
        ∀ f ∈ entryFor? m key, (e.1 == f.1) = true := by
      intro f hf
      have hproper := (hentry hm f hf).1
      refine beq_of_keyMatches hproper.2 hmark (keyMatches_trans ?_ (keyMatches_of_entryFor? he))
      exact keyMatches_symm hk hproper.1 (keyMatches_of_entryFor? hf)
    refine entryOnTop_absorb (fun f hf => (hentry hb f hf).1.2) (fun g hg => (hentry ht g hg).1.2)
      (fun hmark f hf => ?_) (ih e (mem_of_entryFor? he) _ _ (hvalue hb) (hvalue ht))
    exact hf.elim (hkey hb hmark f) (hkey ht hmark f)

end Mappings

/-- The items of a sequence, none of anything else. -/
def sequenceOf : Option Value → List Value
  | some (.seq items) => items
  | _ => []

theorem onTop_seq (below : Option Value) (items : List Value) :
    onTop below (some (.seq items)) = some (.seq (combine items (sequenceOf below))) := by
  rcases below with _ | v
  · simp [onTop, sequenceOf, combine]
  · cases v <;> simp [onTop, sequenceOf, combine, merge, Strategy.layer, Strategy.winner,
      Strategy.loser]

theorem sequenceOf_onTop_seq (items : List Value) (below : Option Value) :
    (sequenceOf (onTop (some (.seq items)) below)).filter (fun v => !items.contains v) =
      (sequenceOf below).filter fun v => !items.contains v := by
  rcases below with _ | v
  · simpa [combine_self, combine, sequenceOf, onTop] using combine_self items
  · cases v <;> simp [onTop, sequenceOf, merge, Strategy.layer, Strategy.winner, Strategy.loser,
      filter_combine]

/-- What differs only in items that the last layer has makes no difference below another layer. -/
private theorem sequenceOf_onTop_congr {items : List Value} {a b : Option Value}
    (h : (sequenceOf a).filter (fun v => !items.contains v) =
      (sequenceOf b).filter fun v => !items.contains v) (between : Option Value) :
    combine items (sequenceOf (onTop a between)) = combine items (sequenceOf (onTop b between)) := by
  rcases between with _ | t
  · have hnone (x : Option Value) : onTop x none = x := by cases x <;> rfl
    rw [hnone, hnone, combine, h, combine]
  · by_cases hseq : ∃ ts, t = .seq ts
    · obtain ⟨ts, rfl⟩ := hseq
      simp only [onTop_seq, sequenceOf]
      exact combine_congr h ts
    · have hnil (x : Option Value) : sequenceOf (onTop x (some t)) = [] := by
        rcases x with _ | v
        · cases t <;> simp_all [onTop, sequenceOf]
        · cases v <;> cases t <;> simp_all [onTop, sequenceOf, merge, Strategy.layer, Strategy.winner]
      rw [hnil, hnil]

/-- A layer that is neither a mapping nor a sequence hides all that is below it. -/
private theorem onTop_of_ne {layer : Value} (hmap : ∀ m, layer ≠ .map m)
    (hseq : ∀ items, layer ≠ .seq items) (below : Option Value) :
    onTop below (some layer) = some layer := by
  cases below with
  | none => rfl
  | some v => exact congrArg some (merge_layer_of_ne (.inr hmap) (.inr hseq))

theorem mergeMappings_nil {m : Mapping} (h : Tidy (.map m)) (s : Strategy) :
    mergeMappings s m [] = m := by
  have hnil : Tidy (.map []) := tidy_map.mpr ⟨.nil, by simp⟩
  have hentry (e : Value × Value) : mergeEntry s [] e = e := by
    unfold mergeEntry
    rw [entryFor?_eq_find?]
    rfl
  rw [mergeMappings_eq_mergedEntries h hnil.proper, mergedEntries, List.map_congr_left fun e _ => hentry e]
  simp

private theorem nil_mergeMappings {m : Mapping} (h : Tidy (.map m)) (s : Strategy) :
    mergeMappings s [] m = m := by
  have hnil : Tidy (.map []) := tidy_map.mpr ⟨.nil, by simp⟩
  rw [mergeMappings_eq_mergedEntries hnil h.proper, mergedEntries]
  simp [entryFor?_eq_find?]

theorem mergePair_self {s : Strategy} {e : Value × Value} (h : merge s e.2 e.2 = e.2) :
    mergePair s e e = e := by
  simp only [mergePair, winner_self, h, ite_self]

/-- A layer on top of itself changes nothing. -/
theorem merge_self {v : Value} (h : Tidy v) (s : Strategy) : merge s v v = v := by
  induction v using Value.members_induction with
  | scalar v hv => cases v <;> simp_all [Value.isScalar, merge, winner_self]
  | tagged tag v => simp [merge, winner_self]
  | seq items => cases hq : s.sequences <;> simp [merge, hq, winner_self, loser_self, combine_self]
  | map m ih =>
    have hentry : ∀ e ∈ m, mergeEntry s m e = e := by
      intro e he
      rw [mergeEntry_of_some (h.entryFor?_self he)]
      exact mergePair_self ((ih e he).2 (h.value he))
    have hnew : m.filter (fun e => (entryFor? m e.1).isNone) = [] :=
      filter_isNone_eq_nil fun e he => by simp [h.entryFor?_self he]
    rw [merge_map, mergeMappings_eq_mergedEntries h h.proper, mergedEntries, hnew, List.append_nil,
      List.map_congr_left hentry, List.map_id']

private theorem missing_or (v : Option Value) :
    v = none ∨ (∃ m, v = some (.map m)) ∨ ∃ w, v = some w ∧ ∀ m, w ≠ .map m := by
  rcases v with _ | v
  · simp
  · cases v <;> simp

private theorem onTop_of_not_map {layer : Mapping} {v : Value} (hv : ∀ m, v ≠ .map m) :
    onTop (some (.map layer)) (some v) = some v :=
  congrArg some (merge_layer_of_ne (.inr hv) (.inl (by simp)))

/-- A mapping that is absorbed below its values is so itself, where either layer between may be
missing. -/
private theorem onTop_absorb_map {layer : Mapping} (hl : Tidy (.map layer))
    (ih : ∀ e ∈ layer, ∀ b t : Option Value, (∀ v ∈ b, Unmarked v) → (∀ v ∈ t, Unmarked v) →
      (onTop (onTop (onTop (some e.2) b) t) (some e.2) == onTop (onTop b t) (some e.2)) = true)
    {below between : Option Value} (hb : ∀ v ∈ below, Unmarked v)
    (ht : ∀ v ∈ between, Unmarked v) :
    (onTop (onTop (onTop (some (.map layer)) below) between) (some (.map layer)) ==
      onTop (onTop below between) (some (.map layer))) = true := by
  have hnil : Unmarked (.map []) := unmarked_map.mpr ⟨.nil, by simp⟩
  have habsorb {b t : Mapping} (hb : Unmarked (.map b)) (ht : Unmarked (.map t)) :=
    mergeMappings_absorb hl hb ht ih
  -- Where a layer is missing, an empty mapping does as well.
  rcases missing_or below with rfl | ⟨b, rfl⟩ | ⟨v, rfl, hv⟩
  · rcases missing_or between with rfl | ⟨t, rfl⟩ | ⟨v, rfl, hv⟩
    · have := habsorb hnil hnil
      simpa [onTop, merge_map, mergeMappings_nil hl, nil_mergeMappings hl,
        nil_mergeMappings hnil.toTidy] using this
    · have ht := ht _ rfl
      have := habsorb hnil ht
      simpa [onTop, merge_map, mergeMappings_nil hl, nil_mergeMappings ht.toTidy] using this
    · rw [show onTop (some (.map layer)) none = some (.map layer) from rfl, onTop_of_not_map hv]
      exact beq_self_eq_true _
  · have hb := hb _ rfl
    rcases missing_or between with rfl | ⟨t, rfl⟩ | ⟨v, rfl, hv⟩
    · have := habsorb hb hnil
      simpa [onTop, merge_map, mergeMappings_nil (hl.mergeMappings .layer hb.toTidy),
        mergeMappings_nil hb.toTidy] using this
    · simpa [onTop, merge_map] using habsorb hb (ht _ rfl)
    · have hmap : onTop (some (.map layer)) (some (.map b)) =
          some (.map (mergeMappings .layer layer b)) := congrArg some (merge_map _ _ _)
      rw [onTop_of_not_map hv, hmap, onTop_of_not_map hv]
      exact beq_self_eq_true _
  · rw [onTop_of_not_map hv]
    exact beq_self_eq_true _

theorem onTop_absorb {layer : Value} (hl : Tidy layer) {below between : Option Value}
    (hb : ∀ v ∈ below, Unmarked v) (ht : ∀ v ∈ between, Unmarked v) :
    (onTop (onTop (onTop (some layer) below) between) (some layer) ==
      onTop (onTop below between) (some layer)) = true := by
  induction layer using Value.members_induction generalizing below between with
  | scalar v hv =>
    have hmap : ∀ m, v ≠ .map m := by rintro m rfl; simp [Value.isScalar] at hv
    have hseq : ∀ items, v ≠ .seq items := by rintro m rfl; simp [Value.isScalar] at hv
    rw [onTop_of_ne hmap hseq, onTop_of_ne hmap hseq]
    exact beq_self_eq_true _
  | tagged tag v =>
    rw [onTop_of_ne (by simp) (by simp), onTop_of_ne (by simp) (by simp)]
    exact beq_self_eq_true _
  | seq items =>
    rw [onTop_seq, onTop_seq, sequenceOf_onTop_congr (sequenceOf_onTop_seq items below)]
    exact beq_self_eq_true _
  | map layer ih =>
    exact onTop_absorb_map hl (fun e he b t hb ht => (ih e he).2 (hl.value he) hb ht) hb ht

/-- A layer that is laid first and last is as good as laid last only. -/
theorem merge_merge_absorb {layer below between : Mapping} (hl : Tidy (.map layer))
    (hb : Unmarked (.map below)) (ht : Unmarked (.map between)) :
    (Value.map (mergeMappings .layer (mergeMappings .layer (mergeMappings .layer layer below)
      between) layer) ==
        .map (mergeMappings .layer (mergeMappings .layer below between) layer)) = true := by
  have hb' : ∀ v ∈ some (Value.map below), Unmarked v := by simpa using hb
  have ht' : ∀ v ∈ some (Value.map between), Unmarked v := by simpa using ht
  simpa [onTop, merge_map] using onTop_absorb hl hb' ht'

end EnvCompose.Merge
