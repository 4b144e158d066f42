import EnvCompose.Proofs.Merge.Absorption

/-!
# Grouping layers

A stack of layers may be merged from either end, unless a layer in the middle parts two collections
of one kind. From below, the upper one then starts anew; from above, the two upper layers are merged
first, and what parts them is hidden before it can part them from the lowest.
-/
namespace EnvCompose.Merge
open Yaml

/-- Whether a layer takes up members of what is below it: both are mappings, or both are sequences
and those are combined. -/
def joins (s : Strategy) : Value → Value → Bool
  | .map _, .map _ => true
  | .seq _, .seq _ => s.sequences == .combine
  | _, _ => false

/-- Whether at every path that all three documents have the middle one joins what the outer two
join. -/
def Uninterrupted (s : Strategy) (a b c : Value) : Prop :=
  ∀ path : List Value, (∀ key ∈ path, key.proper = true) → ∀ u v w, valueAt? path a = some u →
    valueAt? path b = some v → valueAt? path c = some w → joins s u w = true → joins s u v = true

private theorem contains_combine (first second : List Value) (v : Value) :
    (combine first second).contains v = (first.contains v || second.contains v) := by
  rw [combine, List.contains_append]
  cases hv : first.contains v with
  | true => rfl
  | false =>
    rw [Bool.false_or, Bool.false_or, Bool.eq_iff_iff]
    simp only [List.contains_iff_exists_mem_beq, List.mem_filter, Bool.not_eq_true']
    refine exists_congr fun w => and_congr_left fun hvw => and_iff_left_of_imp fun _ => ?_
    -- What equals an item of the first list is in that list too.
    refine Bool.eq_false_iff.mpr fun hw => ?_
    obtain ⟨u, hu, hwu⟩ := List.contains_iff_exists_mem_beq.mp hw
    exact Bool.eq_false_iff.mp hv
      (List.contains_iff_exists_mem_beq.mpr ⟨u, hu, Value.beq_trans hvw hwu⟩)

theorem combine_assoc (first second third : List Value) :
    combine (combine first second) third = combine first (combine second third) := by
  have hleft : combine (combine first second) third = combine first second ++
      third.filter fun v => !first.contains v && !second.contains v := by
    simp only [combine.eq_1 (combine first second), contains_combine, Bool.not_or]
  rw [hleft]
  simp only [combine, List.filter_append, List.filter_filter, List.append_assoc]

section Joining

variable {s : Strategy}

theorem joins_map {m : Mapping} {v : Value} : joins s (.map m) v = true ↔ ∃ n, v = .map n := by
  cases v <;> simp [joins]

theorem joins_seq {items : List Value} {v : Value} :
    joins s (.seq items) v = true ↔ s.sequences = .combine ∧ ∃ others, v = .seq others := by
  cases v <;> simp [joins]

theorem joins_trans {a b c : Value} (hab : joins s a b = true) (hbc : joins s b c = true) :
    joins s a c = true := by
  cases a <;> cases b <;> cases c <;> simp_all [joins]

theorem merge_eq_winner {a b : Value} (h : joins s a b = false) :
    merge s a b = s.winner a b := by
  rcases s with ⟨_ | _, _ | _⟩ <;> cases a <;> cases b <;> simp_all [joins, merge, Strategy.winner]

theorem merge_seq_eq_combine (hq : s.sequences = .combine) (xs ys : List Value) :
    merge s (.seq xs) (.seq ys) = .seq (combine (s.winner xs ys) (s.loser xs ys)) := by
  rw [merge, hq]

variable (hs : s.precedence = .overlay)
include hs

/-- A layer that does not join what is below it hides it. -/
theorem merge_of_not_joins {a b : Value} (h : joins s a b = false) : merge s a b = b := by
  rw [merge_eq_winner h, Strategy.winner, hs]

/-- What is merged has the kind of the upper layer, from above and from below. -/
theorem joins_merge_left (a b c : Value) : joins s (merge s a b) c = joins s b c := by
  cases h : joins s a b with
  | false => rw [merge_of_not_joins hs h]
  | true => cases a <;> cases b <;> simp_all [joins, merge] <;> cases c <;> rfl

theorem joins_merge_right (a b c : Value) : joins s a (merge s b c) = joins s a c := by
  cases h : joins s b c with
  | false => rw [merge_of_not_joins hs h]
  | true => cases b <;> cases c <;> simp_all [joins, merge] <;> cases a <;> rfl

/-- Where the outer layers do not join, the upper one starts anew or the middle one does. -/
theorem merge_assoc_of_not_joins {a b c : Value} (h : joins s a c = false) :
    merge s (merge s a b) c = merge s a (merge s b c) := by
  rw [merge_of_not_joins hs (b := merge s b c) (by rw [joins_merge_right hs, h])]
  cases hbc : joins s b c with
  | false => rw [merge_of_not_joins hs hbc, merge_of_not_joins hs (by rw [joins_merge_left hs, hbc])]
  | true =>
    have hab : joins s a b = false := Bool.eq_false_iff.mpr fun hab => by
      simp [joins_trans hab hbc] at h
    rw [merge_of_not_joins hs hab]

end Joining

theorem uninterrupted_of_not_map {s : Strategy} {a b c : Value} (ha : ∀ m, a ≠ .map m)
    (h : joins s a c = true → joins s a b = true) : Uninterrupted s a b c := by
  intro path _ u v w hu hv hw
  cases path with
  | nil =>
    obtain rfl := Option.some.inj hu
    obtain rfl := Option.some.inj hv
    obtain rfl := Option.some.inj hw
    exact h
  | cons key path => simp [valueAt?_cons_of_not_map ha] at hu

section Mappings

variable {s : Strategy} {a b c : Mapping}

theorem uninterrupted_map (ha : Tidy (.map a)) :
    Uninterrupted s (.map a) (.map b) (.map c) ↔ ∀ e ∈ a, ∀ f ∈ entryFor? b e.1,
      ∀ g ∈ entryFor? c e.1, Uninterrupted s e.2 f.2 g.2 := by
  constructor
  · intro h e he f hf g hg path hpath u v w hu hv hw
    refine h (e.1 :: path) (List.forall_mem_cons.mpr ⟨ha.key_proper he, hpath⟩) u v w ?_ ?_ ?_
    · simpa [valueFor?, ha.entryFor?_self he] using hu
    · simpa [valueFor?, Option.mem_def.mp hf] using hv
    · simpa [valueFor?, Option.mem_def.mp hg] using hw
  · intro h path hpath u v w hu hv hw
    cases path with
    | nil =>
      obtain rfl := Option.some.inj hu
      obtain rfl := Option.some.inj hv
      exact fun _ => rfl
    | cons key path =>
      rw [List.forall_mem_cons] at hpath
      simp only [valueAt?_cons_map, valueFor?, Option.bind_map, Option.bind_eq_some_iff,
        Function.comp_apply] at hu hv hw
      obtain ⟨e, he, hu⟩ := hu
      obtain ⟨f, hf, hv⟩ := hv
      obtain ⟨g, hg, hw⟩ := hw
      have hmem := mem_of_entryFor? he
      have hsame (m : Mapping) : entryFor? m key = entryFor? m e.1 :=
        entryFor?_congr m hpath.1 (ha.key_proper hmem) (keyMatches_of_entryFor? he)
      rw [hsame] at hf hg
      exact h e hmem f hf g hg path hpath.2 u v w hu hv hw

/-- What three layers have under a key may be merged from either end if their values may. -/
theorem mergePair_assoc (hs : s.precedence = .overlay) {e f g : Value × Value}
    (h : merge s (merge s e.2 f.2) g.2 = merge s e.2 (merge s f.2 g.2)) :
    mergePair s (mergePair s e f) g = mergePair s e (mergePair s f g) := by
  have hpair (e f : Value × Value) :
      mergePair s e f = if isMarked f.1 then f else (e.1, merge s e.2 f.2) := by
    simp only [mergePair, Strategy.winner, hs]
  cases hg : isMarked g.1 <;> cases hf : isMarked f.1 <;> simp [hpair, hg, hf, h]

/-- Mappings may be grouped either way if the values under each of the first one's keys may. -/
theorem mergeMappings_assoc (hs : s.precedence = .overlay) (ha : Tidy (.map a)) (hb : Tidy (.map b))
    (hc : Tidy (.map c)) (h : ∀ e ∈ a, ∀ f ∈ entryFor? b e.1, ∀ g ∈ entryFor? c e.1,
      merge s (merge s e.2 f.2) g.2 = merge s e.2 (merge s f.2 g.2)) :
    mergeMappings s (mergeMappings s a b) c = mergeMappings s a (mergeMappings s b c) := by
  have hab := ha.mergeMappings s hb
  have hbc := hb.mergeMappings s hc
  have hentry {m n : Mapping} (hm : Tidy (.map m)) (hn : Tidy (.map n)) (o : Mapping)
      (e : Value × Value) (he : e ∈ m) : entryFor? o (mergeEntry s n e).1 = entryFor? o e.1 :=
    (entryFor?_congr o (hm.key_proper he) (mergeEntry_key_proper hm.proper hn.proper he)
      (mergeEntry_matches s n e)).symm
  -- The entries of the lowest layer, of the middle one and of the upper one are compared in turn.
  have hlow : ∀ e ∈ a, mergeEntry s c (mergeEntry s b e) = mergeEntry s (mergeMappings s b c) e := by
    intro e he
    rw [mergeEntry, hentry ha hb c e he, mergeEntry, mergeEntry,
      entryFor?_mergeMappings hb.proper hc.proper (ha.key_proper he)]
    cases hf : entryFor? b e.1 with
    | none => rfl
    | some f =>
      cases hg : entryFor? c e.1 with
      | none => rfl
      | some g => exact mergePair_assoc hs (h e he f hf g hg)
  have hmiddle : (b.filter fun f => (entryFor? a f.1).isNone).map (mergeEntry s c) =
      (b.map (mergeEntry s c)).filter fun f => (entryFor? a f.1).isNone := by
    rw [List.filter_map]
    exact congrArg _ (List.filter_congr fun f hf => by rw [Function.comp_apply, hentry hb hc a f hf])
  have hhigh : c.filter (fun g => (entryFor? (mergeMappings s a b) g.1).isNone) =
      (c.filter fun g => (entryFor? b g.1).isNone).filter fun g => (entryFor? a g.1).isNone := by
    rw [List.filter_filter]
    refine List.filter_congr fun g hg => ?_
    rw [entryFor?_mergeMappings ha.proper hb.proper (hc.key_proper hg)]
    cases entryFor? a g.1 <;> cases entryFor? b g.1 <;> rfl
  rw [mergeMappings_eq_mergedEntries hab hc.proper, mergedEntries, hhigh,
    mergeMappings_eq_mergedEntries ha hb.proper, mergedEntries, List.map_append, List.map_map, hmiddle,
    mergeMappings_eq_mergedEntries ha hbc.proper, mergedEntries, ← List.map_congr_left hlow,
    mergeMappings_eq_mergedEntries hb hc.proper, mergedEntries, List.filter_append, List.append_assoc]
  rfl

end Mappings

/-- Three layers without keys that go by one name may be merged from either end, to the same entries
in the same order and under the same keys, if the middle one nowhere parts the others. -/
theorem merge_assoc {s : Strategy} (hs : s.precedence = .overlay) {a b c : Value} (ha : Tidy a)
    (hb : Tidy b) (hc : Tidy c) (h : Uninterrupted s a b c) :
    merge s (merge s a b) c = merge s a (merge s b c) := by
  have hroot {a b c : Value} (h : Uninterrupted s a b c) (hac : joins s a c = true) :
      joins s a b = true := h [] (by simp) a b c rfl rfl rfl hac
  induction a using Value.members_induction generalizing b c with
  | scalar v hv =>
    exact merge_assoc_of_not_joins hs (by cases v <;> first | rfl | simp [Value.isScalar] at hv)
  | tagged tag v => exact merge_assoc_of_not_joins hs rfl
  | seq items =>
    cases hac : joins s (.seq items) c with
    | false => exact merge_assoc_of_not_joins hs hac
    | true =>
      obtain ⟨hq, middle, rfl⟩ := joins_seq.mp (hroot h hac)
      obtain ⟨-, upper, rfl⟩ := joins_seq.mp hac
      have hseq (xs ys : List Value) : merge s (.seq xs) (.seq ys) = .seq (combine ys xs) := by
        simp only [merge, hq, Strategy.winner, Strategy.loser, hs]
      rw [hseq, hseq, hseq, hseq, combine_assoc]
  | map a ih =>
    cases hac : joins s (.map a) c with
    | false => exact merge_assoc_of_not_joins hs hac
    | true =>
      obtain ⟨b, rfl⟩ := joins_map.mp (hroot h hac)
      obtain ⟨c, rfl⟩ := joins_map.mp hac
      have hmember {m : Mapping} (hm : Tidy (.map m)) (e : Value × Value) (he : e ∈ m) : Tidy e.2 :=
        ((tidy_map.mp hm).2 e he).2
      rw [merge_map, merge_map, merge_map, merge_map, mergeMappings_assoc hs ha hb hc]
      intro e he f hf g hg
      exact (ih e he).2 (hmember ha e he) (hmember hb f (mem_of_entryFor? hf))
        (hmember hc g (mem_of_entryFor? hg)) ((uninterrupted_map ha).mp h e he f hf g hg)

/-- A layer that is no mapping parts two that are. -/
example : (merge .layer (merge .layer (.map [(.str "view", .null)]) .null) (.map []) ==
    merge .layer (.map [(.str "view", .null)]) (merge .layer .null (.map []))) = false := by decide

section Witness

/-- A marked key in the middle, lists to be combined, and a key that only the outer two have. -/
def lowLayer : Value :=
  .map [(.str "packages", .map [(.str "all", .seq [.str "gcc"]), (.str "mpi", .null)]),
    (.str "config", .map [(.str "jobs", .int 4)]), (.str "view", .bool true)]

def midLayer : Value :=
  .map [(.str "config:", .map [(.str "debug", .bool true)]),
    (.str "packages", .map [(.str "all", .seq [.str "clang", .str "gcc"])])]

def topLayer : Value :=
  .map [(.str "specs", .null), (.str "packages", .map [(.str "all", .seq [.str "intel", .str "clang"])]),
    (.str "config", .map [(.str "jobs", .int 8)]), (.str "view", .map [])]

theorem merge_assoc_midLayer : Strategy.layer.precedence = .overlay ∧ Tidy lowLayer ∧ Tidy midLayer ∧
    Tidy topLayer ∧ Uninterrupted .layer lowLayer midLayer topLayer ∧
      merge .layer (merge .layer lowLayer midLayer) topLayer =
        merge .layer lowLayer (merge .layer midLayer topLayer) := by
  have ha : Tidy lowLayer := ⟨by decide, by decide⟩
  have hb : Tidy midLayer := ⟨by decide, by decide⟩
  have hc : Tidy topLayer := ⟨by decide, by decide⟩
  have h : Uninterrupted .layer lowLayer midLayer topLayer := by
    have hpackages : Tidy (.map [(.str "all", .seq [.str "gcc"]), (.str "mpi", .null)]) :=
      ⟨by decide, by decide⟩
    have hconfig : Tidy (.map [(.str "jobs", .int 4)]) := ⟨by decide, by decide⟩
    refine (uninterrupted_map ha).mpr (List.forall_mem_cons.mpr ⟨?_, List.forall_mem_cons.mpr ⟨?_,
      List.forall_mem_singleton.mpr nofun⟩⟩)
    · rintro _ ⟨⟩ _ ⟨⟩
      refine (uninterrupted_map hpackages).mpr (List.forall_mem_cons.mpr ⟨?_,
        List.forall_mem_singleton.mpr nofun⟩)
      rintro _ ⟨⟩ _ ⟨⟩
      exact uninterrupted_of_not_map (by simp) fun _ => rfl
    · rintro _ ⟨⟩ _ ⟨⟩
      exact (uninterrupted_map hconfig).mpr (List.forall_mem_singleton.mpr nofun)
  exact ⟨rfl, ha, hb, hc, h, merge_assoc rfl ha hb hc h⟩

end Witness

end EnvCompose.Merge
