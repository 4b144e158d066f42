import EnvCompose.Proofs.Merge.Associativity

/-!
# The two precedences

A base that wins is merged as an overlay that wins is, with the sides in the other order: the same is
found under every key, but the keys stand in the order of whichever side is the base. The key of a
merged entry is the base's, so it is the same both times only if the loser's keys are unmarked.
-/
namespace EnvCompose.Merge
open Yaml

/-- Whether a mapping is a document or is reached in it through the values of mappings. -/
inductive StandsIn (n : Mapping) : Value → Prop
  | root : StandsIn n (.map n)
  | under {m : Mapping} {e : Value × Value} (he : e ∈ m) (h : StandsIn n e.2) : StandsIn n (.map m)

private theorem forall_standsIn_map {P : Mapping → Prop} {m : Mapping} :
    (∀ n, StandsIn n (.map m) → P n) ↔ P m ∧ ∀ e ∈ m, ∀ n, StandsIn n e.2 → P n := by
  constructor
  · exact fun h => ⟨h m .root, fun e he n hn => h n (.under he hn)⟩
  · rintro ⟨hself, hvalues⟩ n hn
    cases hn with
    | root => exact hself
    | under he hn => exact hvalues _ he n hn

private theorem not_standsIn_of_not_map {v : Value} (h : ∀ m, v ≠ .map m) (n : Mapping) :
    ¬StandsIn n v := by
  rintro (_ | _) <;> exact h _ rfl

variable {q : SequenceMerge}

/-- Which documents are joined does not depend on their order. -/
theorem joins_mirrored (a b : Value) : joins ⟨.base, q⟩ a b = joins ⟨.overlay, q⟩ b a := by
  cases a <;> cases b <;> rfl

/-- Two entries of one name are merged alike from either side unless the loser's key is marked. -/
theorem mergePair_mirrored {e f : Value × Value} (he : e.1.proper = true) (hf : f.1.proper = true)
    (hmatch : keyMatches e.1 f.1 = true) (hmark : isMarked f.1 = false)
    (h : (merge ⟨.base, q⟩ e.2 f.2 == merge ⟨.overlay, q⟩ f.2 e.2) = true) :
    SameEntry (some (mergePair ⟨.base, q⟩ e f)) (some (mergePair ⟨.overlay, q⟩ f e)) := by
  unfold mergePair Strategy.winner
  cases hwon : isMarked e.1 with
  | true => exact SameEntry.refl _
  | false => exact .some ⟨beq_of_keyMatches hmark hwon (keyMatches_symm he hf hmatch), h⟩

section Mappings

variable {a b : Mapping}

/-- Mappings are merged alike from either side if the values under their keys are. -/
theorem mergeMappings_mirrored (ha : Tidy (.map a)) (hb : Tidy (.map b)) (hmarks : noMarks b = true)
    (h : ∀ e ∈ a, ∀ f ∈ b, (merge ⟨.base, q⟩ e.2 f.2 == merge ⟨.overlay, q⟩ f.2 e.2) = true) :
    (Value.map (mergeMappings ⟨.base, q⟩ a b) == .map (mergeMappings ⟨.overlay, q⟩ b a)) = true := by
  refine map_beq_map_of_entryFor? (ha.mergeMappings _ hb) (hb.mergeMappings _ ha) fun key hk => ?_
  rw [entryFor?_mergeMappings ha.proper hb.proper hk, entryFor?_mergeMappings hb.proper ha.proper hk]
  cases he : entryFor? a key with
  | none => cases entryFor? b key <;> exact SameEntry.refl _
  | some e =>
    cases hf : entryFor? b key with
    | none => exact SameEntry.refl _
    | some f =>
      have hemem := mem_of_entryFor? he
      have hfmem := mem_of_entryFor? hf
      have hmatch : keyMatches e.1 f.1 = true :=
        keyMatches_trans (keyMatches_symm hk (ha.key_proper hemem) (keyMatches_of_entryFor? he))
          (keyMatches_of_entryFor? hf)
      have hmark : isMarked f.1 = false := by simpa using List.all_eq_true.mp hmarks f hfmem
      exact mergePair_mirrored (ha.key_proper hemem) (hb.key_proper hfmem) hmatch hmark
        (h e hemem f hfmem)

end Mappings

/-- A document that wins as the base, and one in whose mappings no key is marked: merged the other
way round, with the overlay winning, they give the same but for the order of keys. -/
theorem merge_mirrored (q : SequenceMerge) {a b : Value} (ha : Tidy a) (hb : Tidy b)
    (hmarks : ∀ n, StandsIn n b → noMarks n = true) :
    (merge ⟨.base, q⟩ a b == merge ⟨.overlay, q⟩ b a) = true := by
  have hapart {a b : Value} (h : joins ⟨.base, q⟩ a b = false) :
      (merge ⟨.base, q⟩ a b == merge ⟨.overlay, q⟩ b a) = true := by
    rw [merge_eq_winner h, merge_eq_winner (joins_mirrored a b ▸ h)]
    exact beq_self_eq_true a
  induction a using Value.members_induction generalizing b with
  | scalar v hv => exact hapart (by cases v <;> first | rfl | simp [Value.isScalar] at hv)
  | tagged tag v => exact hapart rfl
  | seq items =>
    cases hj : joins ⟨.base, q⟩ (.seq items) b with
    | false => exact hapart hj
    | true =>
      obtain ⟨hq, others, rfl⟩ := joins_seq.mp hj
      obtain rfl : q = .combine := hq
      -- both times the winner's items stand in front
      rw [merge_seq_eq_combine rfl, merge_seq_eq_combine rfl]
      exact beq_self_eq_true _
  | map a ih =>
    cases hj : joins ⟨.base, q⟩ (.map a) b with
    | false => exact hapart hj
    | true =>
      obtain ⟨b, rfl⟩ := joins_map.mp hj
      obtain ⟨hself, hvalues⟩ := forall_standsIn_map.mp hmarks
      rw [merge_map, merge_map]
      refine mergeMappings_mirrored ha hb hself fun e he f hf => ?_
      exact (ih e he).2 (ha.value he) (hb.value hf) (hvalues f hf)

/-- A marked key of the loser stays where the loser is the base. -/
example : (merge ⟨.base, .combine⟩ (.map [(.str "all", .null)]) (.map [(.str "all:", .null)]) ==
    merge ⟨.overlay, .combine⟩ (.map [(.str "all:", .null)]) (.map [(.str "all", .null)])) = false := by
  decide

section Witness

/-- The winner marks a key, has a list with an item of its own, and a mapping where the loser has
none. -/
def mirroredWinner : Value :=
  .map [(.str "view", .map []), (.str "config:", .map [(.str "debug", .bool true)]),
    (.str "packages", .map [(.str "all", .seq [.str "clang", .str "gcc"])])]

def mirroredLoser : Value :=
  .map [(.str "packages", .map [(.str "mpi", .null), (.str "all", .seq [.str "gcc", .str "intel"])]),
    (.str "config", .map [(.str "jobs", .int 4)]), (.str "view", .bool true)]

theorem merge_mirrored_sides : Tidy mirroredWinner ∧ Tidy mirroredLoser ∧
    (∀ n, StandsIn n mirroredLoser → noMarks n = true) ∧
      (merge ⟨.base, .combine⟩ mirroredWinner mirroredLoser ==
        merge ⟨.overlay, .combine⟩ mirroredLoser mirroredWinner) = true := by
  have ha : Tidy mirroredWinner := ⟨by decide, by decide⟩
  have hb : Tidy mirroredLoser := ⟨by decide, by decide⟩
  have hmarks : ∀ n, StandsIn n mirroredLoser → noMarks n = true := by
    have hscalar {v : Value} (hv : ∀ m, v ≠ .map m) : ∀ n, StandsIn n v → noMarks n = true :=
      fun n hn => (not_standsIn_of_not_map hv n hn).elim
    refine forall_standsIn_map.mpr ⟨by decide, ?_⟩
    simp only [List.forall_mem_cons, List.not_mem_nil, false_imp_iff, implies_true, and_true]
    refine ⟨forall_standsIn_map.mpr ⟨by decide, ?_⟩, forall_standsIn_map.mpr ⟨by decide, ?_⟩,
      hscalar (by simp)⟩
    · simp only [List.forall_mem_cons, List.not_mem_nil, false_imp_iff, implies_true, and_true]
      exact ⟨hscalar (by simp), hscalar (by simp)⟩
    · simp only [List.forall_mem_cons, List.not_mem_nil, false_imp_iff, implies_true, and_true]
      exact hscalar (by simp)
  exact ⟨ha, hb, hmarks, merge_mirrored .combine ha hb hmarks⟩

end Witness

end EnvCompose.Merge
