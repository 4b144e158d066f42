import EnvCompose.Proofs.Merge.Associativity

/-!
# A layer that is merged again

An overlay that has been merged into a document finds itself there: merged once more, under the same
strategy, it changes neither a value nor a key nor the order of anything.
-/
namespace EnvCompose.Merge
open Yaml

variable {s : Strategy}

/-- An entry that has taken up another takes up no more of it, be it under the winner's marked key
or under the key of the base. -/
theorem mergePair_again {e f : Value × Value} (h : merge s (merge s e.2 f.2) f.2 = merge s e.2 f.2) :
    mergePair s (mergePair s e f) f = mergePair s e f := by
  unfold mergePair Strategy.winner
  cases s.precedence with
  | base => cases he : isMarked e.1 <;> simp [he, h]
  | overlay => cases isMarked f.1 <;> simp [h]

/-- The items that are taken up are there the next time, on whichever side they stand. -/
theorem combine_again (s : Strategy) (base overlay : List Value) :
    combine (s.winner (combine (s.winner base overlay) (s.loser base overlay)) overlay)
        (s.loser (combine (s.winner base overlay) (s.loser base overlay)) overlay) =
      combine (s.winner base overlay) (s.loser base overlay) := by
  unfold Strategy.winner Strategy.loser
  cases s.precedence with
  | base => exact (combine_assoc base overlay overlay).trans (congrArg _ (combine_self overlay))
  | overlay =>
    exact (combine_assoc overlay overlay base).symm.trans (congrArg (combine · base)
      (combine_self overlay))

section Mappings

variable {base overlay : Mapping} (hb : Tidy (.map base)) (ho : Tidy (.map overlay))
include hb ho

/-- What the overlay has under the key of a merged entry is in that entry already. -/
private theorem mergeEntry_merged (h : ∀ e ∈ base, ∀ f ∈ entryFor? overlay e.1,
      merge s (merge s e.2 f.2) f.2 = merge s e.2 f.2) :
    ∀ r ∈ mergedEntries s base overlay, mergeEntry s overlay r = r := by
  intro r hr
  rcases List.mem_append.mp hr with hold | hnew
  · obtain ⟨e, he, rfl⟩ := List.mem_map.mp hold
    have hsame : entryFor? overlay (mergeEntry s overlay e).1 = entryFor? overlay e.1 :=
      (entryFor?_congr overlay (hb.key_proper he) (mergeEntry_key_proper hb.proper ho.proper he)
        (mergeEntry_matches s overlay e)).symm
    cases hf : entryFor? overlay e.1 with
    | none => rw [mergeEntry_of_none (hsame.trans hf)]
    | some f =>
      rw [mergeEntry_of_some (hsame.trans hf), mergeEntry_of_some hf]
      exact mergePair_again (h e he f hf)
  · obtain ⟨hmem, -⟩ := List.mem_filter.mp hnew
    rw [mergeEntry_of_some (ho.entryFor?_self hmem)]
    exact mergePair_self (merge_self (ho.value hmem) s)

/-- A mapping takes up nothing new from an overlay if the values under its keys do not. -/
theorem mergeMappings_again (h : ∀ e ∈ base, ∀ f ∈ entryFor? overlay e.1,
      merge s (merge s e.2 f.2) f.2 = merge s e.2 f.2) :
    mergeMappings s (mergeMappings s base overlay) overlay = mergeMappings s base overlay := by
  have hmerged := hb.mergeMappings s ho
  have hthere : ∀ f ∈ overlay, (entryFor? (mergeMappings s base overlay) f.1).isSome = true := by
    intro f hf
    rw [entryFor?_mergeMappings hb.proper ho.proper (ho.key_proper hf), ho.entryFor?_self hf]
    cases entryFor? base f.1 <;> rfl
  calc mergeMappings s (mergeMappings s base overlay) overlay
      = (mergeMappings s base overlay).map (mergeEntry s overlay) := by
        rw [mergeMappings_eq_mergedEntries hmerged ho.proper, mergedEntries,
          filter_isNone_eq_nil hthere, List.append_nil]
    _ = (mergeMappings s base overlay).map id := by
        rw [mergeMappings_eq_mergedEntries hb ho.proper]
        exact List.map_congr_left (mergeEntry_merged hb ho h)
    _ = mergeMappings s base overlay := List.map_id _

end Mappings

/-- A document that has taken up an overlay takes up no more of it. -/
theorem merge_again (s : Strategy) {base overlay : Value} (hb : Tidy base) (ho : Tidy overlay) :
    merge s (merge s base overlay) overlay = merge s base overlay := by
  have hapart {base overlay : Value} (ho : Tidy overlay) (h : joins s base overlay = false) :
      merge s (merge s base overlay) overlay = merge s base overlay := by
    rw [merge_eq_winner h]
    rcases winner_cases s base overlay with ⟨hw, -⟩ | ⟨hw, -⟩ <;> rw [hw]
    · rw [merge_eq_winner h, hw]
    · exact merge_self ho s
  induction base using Value.members_induction generalizing overlay with
  | scalar v hv => exact hapart ho (by cases v <;> first | rfl | simp [Value.isScalar] at hv)
  | tagged tag v => exact hapart ho rfl
  | seq items =>
    cases hj : joins s (.seq items) overlay with
    | false => exact hapart ho hj
    | true =>
      obtain ⟨hq, others, rfl⟩ := joins_seq.mp hj
      rw [merge_seq_eq_combine hq, merge_seq_eq_combine hq, combine_again]
  | map base ih =>
    cases hj : joins s (.map base) overlay with
    | false => exact hapart ho hj
    | true =>
      obtain ⟨overlay, rfl⟩ := joins_map.mp hj
      rw [merge_map, merge_map, mergeMappings_again hb ho]
      intro e he f hf
      exact (ih e he).2 (hb.value he) (ho.value (mem_of_entryFor? hf))

/-- Under every strategy an overlay in which no two keys go by one name adds nothing to what it has
been merged into, nor to itself: the same entries are there under the same keys in the same order. -/
theorem relayering_is_idle (s : Strategy) {base overlay : Value} (hb : Tidy base)
    (ho : Tidy overlay) : merge s (merge s base overlay) overlay = merge s base overlay ∧
      merge s overlay overlay = overlay :=
  ⟨merge_again s hb ho, merge_self ho s⟩

section Witness

/-- A marked key on either side, a list with a repetition and places where the kinds differ. -/
def mixedBase : Value :=
  .map [(.str "packages:", .map [(.str "all", .seq [.str "gcc", .str "gcc"]), (.str "mpi", .null)]),
    (.str "config", .map [(.str "jobs", .int 4)]), (.str "view", .bool true)]

def mixedOverlay : Value :=
  .map [(.str "view", .map []), (.str "specs", .seq [.str "zlib", .str "zlib"]),
    (.str "config:", .map [(.str "debug", .bool true)]),
    (.str "packages", .map [(.str "all", .seq [.str "clang", .str "clang", .str "gcc"])])]

theorem relayering_is_idle_mixed : Tidy mixedBase ∧ Tidy mixedOverlay ∧
    merge ⟨.base, .combine⟩ (merge ⟨.base, .combine⟩ mixedBase mixedOverlay) mixedOverlay =
      merge ⟨.base, .combine⟩ mixedBase mixedOverlay ∧
    merge ⟨.base, .combine⟩ mixedOverlay mixedOverlay = mixedOverlay := by
  have hb : Tidy mixedBase := ⟨by decide, by decide⟩
  have ho : Tidy mixedOverlay := ⟨by decide, by decide⟩
  exact ⟨hb, ho, relayering_is_idle ⟨.base, .combine⟩ hb ho⟩

end Witness

end EnvCompose.Merge
