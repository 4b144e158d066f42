import EnvCompose.Proofs.Merge.Lookup

/-!
# Precedence

What a merged document has at a path, told by what its winner and its loser have there. The rule
speaks of one path at a time and knows nothing of how the merged mappings are put together.
-/
namespace EnvCompose.Merge
open Yaml

def valueFor? (m : Mapping) (key : Value) : Option Value := (entryFor? m key).map (·.2)

/-- What a document has at a path of keys. Paths go through mappings without a tag and find their
keys as a merge does. -/
def valueAt? : List Value → Value → Option Value
  | [], v => some v
  | key :: path, .map m => (valueFor? m key).bind (valueAt? path)
  | _ :: _, _ => none

/-- Whether some step of the path finds a marked key in the document. -/
def viaMark : List Value → Value → Bool
  | key :: path, .map m => (entryFor? m key).any fun e => isMarked e.1 || viaMark path e.2
  | _, _ => false

/-- Whether the document hides what a lesser one has at the path: a start of the path leads in it to
something other than a mapping, or through a marked key. -/
def Hides (v : Value) (path : List Value) : Prop :=
  ∃ start, start <+: path ∧ ∃ w, valueAt? start v = some w ∧
    ((∀ m, w ≠ .map m) ∨ viaMark start v = true)

/-- What the winner's value becomes, which is no mapping: of two sequences to be combined the
winner's takes up the items that only the loser's has. -/
def settled (s : Strategy) (value : Value) (other : Option Value) (viaMark : Bool) : Value :=
  match s.sequences, value, other, viaMark with
  | .combine, .seq items, some (.seq others), false =>
    .seq (items ++ others.filter fun v => !items.contains v)
  | _, _, _, _ => value

structure Precedes (s : Strategy) (winner loser result : Value) (path : List Value) : Prop where
  /-- The result has what the winner has, and a value that is no mapping without change or settled
  with the loser's. -/
  kept : ∀ w, valueAt? path winner = some w → ∃ r, valueAt? path result = some r ∧
    ((∀ m, w ≠ .map m) → r = settled s w (valueAt? path loser) (viaMark path winner))
  /-- What only the loser has stays, unless the winner hides it. -/
  filled : valueAt? path winner = none → ∀ l, valueAt? path loser = some l →
    (¬Hides winner path → valueAt? path result = some l) ∧
      (Hides winner path → valueAt? path result = none)
  /-- What neither has is not there. -/
  nothing_else : valueAt? path winner = none → valueAt? path loser = none →
    valueAt? path result = none

/-- A merge of the loser and the winner, in whichever order the strategy takes them. -/
def mergeSides (s : Strategy) (winner loser : Value) : Value :=
  match s.precedence with
  | .base => merge s winner loser
  | .overlay => merge s loser winner

theorem merge_eq_mergeSides (s : Strategy) (base overlay : Value) :
    merge s base overlay = mergeSides s (s.winner base overlay) (s.loser base overlay) := by
  unfold mergeSides Strategy.winner Strategy.loser
  cases s.precedence <;> rfl

@[simp] theorem valueAt?_nil (v : Value) : valueAt? [] v = some v := rfl

@[simp] theorem valueAt?_cons_map (key : Value) (path : List Value) (m : Mapping) :
    valueAt? (key :: path) (.map m) = (valueFor? m key).bind (valueAt? path) := rfl

theorem valueAt?_cons_of_not_map {key : Value} {path : List Value} {v : Value}
    (h : ∀ m, v ≠ .map m) : valueAt? (key :: path) v = none := by
  cases v with
  | map m => exact (h m rfl).elim
  | _ => rfl

theorem mergeSides_of_not_map (s : Strategy) {winner loser : Value}
    (h : (∀ m, winner ≠ .map m) ∨ ∀ m, loser ≠ .map m) :
    mergeSides s winner loser = settled s winner (some loser) false := by
  rcases s with ⟨_ | _, _ | _⟩ <;> cases winner <;> cases loser <;>
    simp_all [mergeSides, merge, settled, Strategy.winner, Strategy.loser, combine]

/-- Two mappings merge to a mapping, key by key: the winner's value alone under a marked key. -/
theorem mergeSides_map (s : Strategy) {winner loser : Mapping}
    (hw : (Value.map winner).proper = true) (hl : (Value.map loser).proper = true) :
    ∃ result, mergeSides s (.map winner) (.map loser) = .map result ∧
      ∀ key, key.proper = true → valueFor? result key =
        match entryFor? winner key, entryFor? loser key with
        | some w, some l => some (if isMarked w.1 then w.2 else mergeSides s w.2 l.2)
        | some w, none => some w.2
        | none, l => l.map (·.2) := by
  unfold mergeSides
  cases hp : s.precedence with
  | base =>
    refine ⟨mergeMappings s winner loser, merge_map s winner loser, fun key hk => ?_⟩
    rw [valueFor?, entryFor?_mergeMappings hw hl hk]
    cases entryFor? winner key <;> cases entryFor? loser key <;>
      simp only [Option.map_some, Option.map_none, mergePair, Strategy.winner, hp]
    split <;> rfl
  | overlay =>
    refine ⟨mergeMappings s loser winner, merge_map s loser winner, fun key hk => ?_⟩
    rw [valueFor?, entryFor?_mergeMappings hl hw hk]
    cases entryFor? winner key <;> cases entryFor? loser key <;>
      simp only [Option.map_some, Option.map_none, mergePair, Strategy.winner, hp]
    split <;> rfl

private theorem hides_of_not_map {v : Value} (h : ∀ m, v ≠ .map m) (path : List Value) :
    Hides v path :=
  ⟨[], List.nil_prefix, v, rfl, .inl h⟩

/-- A mapping hides nothing at the empty path; further on it hides what its value under the first
key hides, and all of it where that key is marked. -/
theorem hides_cons_map {m : Mapping} {key : Value} {path : List Value} :
    Hides (.map m) (key :: path) ↔
      ∃ e, entryFor? m key = some e ∧ (isMarked e.1 = true ∨ Hides e.2 path) := by
  constructor
  · rintro ⟨start, hstart, w, hw, hcase⟩
    cases start with
    | nil =>
      obtain rfl := Option.some.inj hw
      simp [viaMark] at hcase
    | cons k start =>
      obtain ⟨rfl, hprefix⟩ := List.cons_prefix_cons.mp hstart
      rw [valueAt?_cons_map, valueFor?] at hw
      cases he : entryFor? m k with
      | none => simp [he] at hw
      | some e =>
        simp only [he, Option.map_some, Option.bind_some] at hw
        simp only [viaMark, he, Option.any_some, Bool.or_eq_true] at hcase
        refine ⟨e, rfl, ?_⟩
        rcases hcase with hmap | hmark | hvia
        · exact .inr ⟨start, hprefix, w, hw, .inl hmap⟩
        · exact .inl hmark
        · exact .inr ⟨start, hprefix, w, hw, .inr hvia⟩
  · rintro ⟨e, he, hmark | ⟨start, hstart, w, hw, hcase⟩⟩
    · refine ⟨[key], by simp, e.2, by simp [valueFor?, he], .inr ?_⟩
      simp [viaMark, he, hmark]
    · refine ⟨key :: start, List.cons_prefix_cons.mpr ⟨rfl, hstart⟩, w, ?_, ?_⟩
      · simpa [valueFor?, he] using hw
      · simpa [viaMark, he] using hcase.imp_right .inr

private theorem settled_of_viaMark (s : Strategy) (w : Value) (l : Option Value) :
    settled s w l true = w := by
  unfold settled
  split <;> simp_all

private theorem settled_none (s : Strategy) (w : Value) (marked : Bool) :
    settled s w none marked = w := by
  unfold settled
  split <;> simp_all

private theorem settled_ne_map (s : Strategy) {w : Value} (h : ∀ m, w ≠ .map m) (l : Option Value)
    (marked : Bool) : ∀ m, settled s w l marked ≠ .map m := by
  unfold settled
  split <;> simp_all

theorem maps_or_not (a b : Value) : (∃ m n, a = .map m ∧ b = .map n) ∨
    ((∀ m, a ≠ .map m) ∨ ∀ n, b ≠ .map n) := by
  cases a <;> cases b <;> simp

/-- A side that is no mapping ends every path but the empty one. -/
private theorem precedes_of_not_map (s : Strategy) {winner loser : Value}
    (h : (∀ m, winner ≠ .map m) ∨ ∀ m, loser ≠ .map m) (path : List Value) :
    Precedes s winner loser (mergeSides s winner loser) path := by
  rw [mergeSides_of_not_map s h]
  cases path with
  | nil => exact ⟨fun w hw => ⟨_, rfl, fun _ => by simp_all [viaMark]⟩, by simp, by simp⟩
  | cons key path =>
    by_cases hw : ∀ m, winner ≠ .map m
    · have hnone := @valueAt?_cons_of_not_map key path _ hw
      have hr := @valueAt?_cons_of_not_map key path _
        (settled_ne_map s hw (some loser) false)
      exact ⟨fun w h => by simp [hnone] at h, fun _ l _ =>
        ⟨fun h => (h (hides_of_not_map hw _)).elim, fun _ => hr⟩, fun _ _ => hr⟩
    · have hl := @valueAt?_cons_of_not_map key path _ (h.resolve_left hw)
      have hr : settled s winner (some loser) false = winner := by
        unfold settled
        split <;> simp_all
      rw [hr]
      exact ⟨fun w h => ⟨w, h, fun _ => by rw [hl, settled_none]⟩,
        fun _ l h => by simp [hl] at h, fun h _ => h⟩

/-- Under a key that both mappings have, the rule holds if it holds of the values there, or if the
winner's key is marked. -/
private theorem precedes_cons_of_both {s : Strategy} {winner loser result : Mapping} {key : Value}
    {path : List Value} {w l : Value × Value} (hw : entryFor? winner key = some w)
    (hl : entryFor? loser key = some l)
    (hr : valueFor? result key = some (if isMarked w.1 then w.2 else mergeSides s w.2 l.2))
    (hrest : Precedes s w.2 l.2 (mergeSides s w.2 l.2) path) :
    Precedes s (.map winner) (.map loser) (.map result) (key :: path) := by
  have hwv : valueAt? (key :: path) (.map winner) = valueAt? path w.2 := by simp [valueFor?, hw]
  have hlv : valueAt? (key :: path) (.map loser) = valueAt? path l.2 := by simp [valueFor?, hl]
  have hrv : valueAt? (key :: path) (.map result) =
      valueAt? path (if isMarked w.1 then w.2 else mergeSides s w.2 l.2) := by simp [hr]
  have hvia : viaMark (key :: path) (.map winner) = (isMarked w.1 || viaMark path w.2) := by
    simp [viaMark, hw]
  have hhides : Hides (.map winner) (key :: path) ↔ isMarked w.1 = true ∨ Hides w.2 path := by
    simp [hides_cons_map, hw]
  cases hm : isMarked w.1 with
  | true =>
    simp only [hm, if_true, Bool.true_or, true_or, iff_true] at hrv hvia hhides
    refine ⟨fun v hv => ⟨v, by rw [hrv, ← hwv, hv], fun _ => by rw [hvia, settled_of_viaMark]⟩,
      fun hnone v _ => ⟨fun h => (h hhides).elim, fun _ => by rw [hrv, ← hwv, hnone]⟩,
      fun hnone _ => by rw [hrv, ← hwv, hnone]⟩
  | false =>
    simp only [hm, Bool.false_eq_true, if_false, Bool.false_or, false_or] at hrv hvia hhides
    refine ⟨?_, ?_, ?_⟩
    · rw [hwv, hlv, hrv, hvia]
      exact hrest.kept
    · rw [hwv, hlv, hrv, hhides]
      exact hrest.filled
    · rw [hwv, hlv, hrv]
      exact hrest.nothing_else

/-- Under a key that one mapping alone has, the rule holds if the result has the same there. -/
private theorem precedes_cons_of_one {s : Strategy} {winner loser result : Mapping} {key : Value}
    {path : List Value} (h : valueFor? winner key = none ∨ valueFor? loser key = none)
    (hr : valueFor? result key = (valueFor? winner key).or (valueFor? loser key)) :
    Precedes s (.map winner) (.map loser) (.map result) (key :: path) := by
  rcases h with hw | hl
  · have hwv : valueAt? (key :: path) (.map winner) = none := by simp [hw]
    have hrv : valueAt? (key :: path) (.map result) = valueAt? (key :: path) (.map loser) := by
      simp [hr, hw]
    have hhides : ¬Hides (.map winner) (key :: path) := by
      rw [valueFor?, Option.map_eq_none_iff] at hw
      simp [hides_cons_map, hw]
    exact ⟨fun w h => by simp [hwv] at h,
      fun _ l h => ⟨fun _ => hrv.trans h, fun h' => (hhides h').elim⟩, fun _ h => hrv.trans h⟩
  · have hlv : valueAt? (key :: path) (.map loser) = none := by simp [hl]
    have hrv : valueAt? (key :: path) (.map result) = valueAt? (key :: path) (.map winner) := by
      simp [hr, hl]
    exact ⟨fun w h => ⟨w, hrv.trans h, fun _ => by rw [hlv, settled_none]⟩,
      fun _ l h => by simp [hlv] at h, fun h _ => hrv.trans h⟩

theorem mergeSides_precedes (s : Strategy) {winner loser : Value} (hw : winner.proper = true)
    (hl : loser.proper = true) {path : List Value} (hp : ∀ key ∈ path, key.proper = true) :
    Precedes s winner loser (mergeSides s winner loser) path := by
  induction path generalizing winner loser with
  | nil =>
    rcases maps_or_not winner loser with ⟨wm, lm, rfl, rfl⟩ | hnot
    · refine ⟨fun w h => ⟨_, rfl, fun hne => ?_⟩, by simp, by simp⟩
      obtain rfl := Option.some.inj h
      exact (hne wm rfl).elim
    · exact precedes_of_not_map s hnot []
  | cons key path ih =>
    rcases maps_or_not winner loser with ⟨wm, lm, rfl, rfl⟩ | hnot
    · obtain ⟨result, hr, hvalue⟩ := mergeSides_map s hw hl
      specialize hvalue key (hp key (by simp))
      rw [hr]
      cases hew : entryFor? wm key with
      | none =>
        refine precedes_cons_of_one (.inl (by simp [valueFor?, hew])) ?_
        rw [hvalue, hew]
        simp [valueFor?, hew]
      | some w =>
        cases hel : entryFor? lm key with
        | none =>
          refine precedes_cons_of_one (.inr (by simp [valueFor?, hel])) ?_
          rw [hvalue, hew, hel]
          simp [valueFor?, hew]
        | some l =>
          rw [hew, hel] at hvalue
          have hwm := ((Value.proper_map wm).mp hw).2 w (mem_of_entryFor? hew)
          have hlm := ((Value.proper_map lm).mp hl).2 l (mem_of_entryFor? hel)
          exact precedes_cons_of_both hew hel hvalue
            (ih hwm.2 hlm.2 fun k hk => hp k (List.mem_cons_of_mem _ hk))
    · exact precedes_of_not_map s hnot _

/-- At every path a merge follows the rule of precedence between its winner and its loser. Two keys
of one name in a mapping do no harm: the first alone is found. -/
theorem merge_follows_precedence (s : Strategy) {base overlay : Value}
    (hb : base.proper = true) (ho : overlay.proper = true) {path : List Value}
    (hp : ∀ key ∈ path, key.proper = true) :
    Precedes s (s.winner base overlay) (s.loser base overlay) (merge s base overlay) path := by
  rw [merge_eq_mergeSides]
  unfold Strategy.winner Strategy.loser
  cases s.precedence with
  | base => exact mergeSides_precedes s hb ho hp
  | overlay => exact mergeSides_precedes s ho hb hp

section Witness

/-- Compilers are listed below a key that the overlay leaves unmarked. -/
def listedBase : Value :=
  .map [(.str "packages:", .map [(.str "all", .seq [.str "gcc", .str "clang"])])]

def listedOverlay : Value :=
  .map [(.str "packages", .map [(.str "all", .seq [.str "intel", .str "gcc"])])]

theorem merge_follows_precedence_listed :
    listedBase.proper = true ∧ listedOverlay.proper = true ∧
      (∀ key ∈ [Value.str "packages", .str "all"], key.proper = true) ∧
      Precedes .layer listedOverlay listedBase (merge .layer listedBase listedOverlay)
        [.str "packages", .str "all"] ∧
      valueAt? [.str "packages", .str "all"] (merge .layer listedBase listedOverlay) =
        some (.seq [.str "intel", .str "gcc", .str "clang"]) :=
  ⟨by decide, by decide, by decide,
    merge_follows_precedence .layer (by decide) (by decide) (by decide), by rfl⟩

end Witness

end EnvCompose.Merge
