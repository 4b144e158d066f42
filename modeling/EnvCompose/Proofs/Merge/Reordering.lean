import EnvCompose.Proofs.Merge.Associativity

/-!
# The order of keys

Documents that differ only in the order of the keys of their mappings, at any depth and also inside
sequences, are merged to documents that differ only so. What a lookup finds does not depend on the
order of keys that go by different names, and what a sequence is said to contain is settled by an
equality that does not see it.
-/
namespace EnvCompose.Merge
open Yaml

section Sequences

/-- Equality that holds either way round, as it does of proper documents. -/
def Alike (v w : Value) : Prop := (v == w) = true ∧ (w == v) = true

private theorem forall₂_alike {vs ws : List Value} (hv : ∀ v ∈ vs, v.proper = true)
    (hw : ∀ w ∈ ws, w.proper = true) (h : List.Forall₂ (fun v w => (v == w) = true) vs ws) :
    List.Forall₂ Alike vs ws := by
  induction h with
  | nil => exact .nil
  | cons hhead _ ih =>
    rw [List.forall_mem_cons] at hv hw
    exact .cons ⟨hhead, Value.beq_symm hv.1 hw.1 hhead⟩ (ih hv.2 hw.2)

private theorem contains_alike {vs ws : List Value} (h : List.Forall₂ Alike vs ws) {v w : Value}
    (hvw : Alike v w) : vs.contains v = ws.contains w := by
  induction h with
  | nil => rfl
  | @cons a b vs ws hab _ ih =>
    have hhead : (v == a) = (w == b) := Bool.eq_iff_iff.mpr
      ⟨fun hva => Value.beq_trans hvw.2 (Value.beq_trans hva hab.1),
        fun hwb => Value.beq_trans hvw.1 (Value.beq_trans hwb hab.2)⟩
    rw [List.contains_cons, List.contains_cons, hhead, ih]

/-- Sequences that are alike item by item are combined to such sequences. -/
theorem combine_alike {vs ws vs' ws' : List Value} (h : List.Forall₂ Alike vs ws)
    (h' : List.Forall₂ Alike vs' ws') :
    List.Forall₂ Alike (combine vs vs') (combine ws ws') := by
  refine List.rel_append h (List.rel_filter (fun v w hvw => ?_) h')
  change (!vs.contains v) = true ↔ (!ws.contains w) = true
  rw [contains_alike h hvw]

end Sequences

section Mappings

variable {s : Strategy}

private theorem isMarked_of_beq {a b : Value} (h : (a == b) = true) : isMarked a = isMarked b := by
  cases a with
  | str text => rw [Value.eq_str_of_str_beq h]
  | _ => cases b <;> first | rfl | simp [Value.beq_def, Value.same] at h

/-- The pair of two entries is told by the values and keys up to equality. -/
theorem mergePair_beq {e e' f f' : Value × Value} (hekey : (e.1 == e'.1) = true)
    (hevalue : (e.2 == e'.2) = true) (hfkey : (f.1 == f'.1) = true)
    (hfvalue : (f.2 == f'.2) = true) (h : (merge s e.2 f.2 == merge s e'.2 f'.2) = true) :
    ((mergePair s e f).1 == (mergePair s e' f').1) = true ∧
      ((mergePair s e f).2 == (mergePair s e' f').2) = true := by
  unfold mergePair Strategy.winner
  cases s.precedence with
  | base =>
    simp only [isMarked_of_beq hekey]
    split
    · exact ⟨hekey, hevalue⟩
    · exact ⟨hekey, h⟩
  | overlay =>
    simp only [isMarked_of_beq hfkey]
    split
    · exact ⟨hfkey, hfvalue⟩
    · exact ⟨hekey, h⟩

variable {base base' overlay overlay' : Mapping}

/-- Equal mappings are merged to equal mappings if the values under their keys are. -/
theorem mergeMappings_beq (hb : Tidy (.map base)) (hb' : Tidy (.map base'))
    (ho : Tidy (.map overlay)) (ho' : Tidy (.map overlay'))
    (hbase : (Value.map base == .map base') = true)
    (hoverlay : (Value.map overlay == .map overlay') = true)
    (h : ∀ e ∈ base, ∀ e' ∈ base', ∀ f ∈ overlay, ∀ f' ∈ overlay', (e.2 == e'.2) = true →
      (f.2 == f'.2) = true → (merge s e.2 f.2 == merge s e'.2 f'.2) = true) :
    (Value.map (mergeMappings s base overlay) == .map (mergeMappings s base' overlay')) = true := by
  refine map_beq_map_of_entryFor? (hb.mergeMappings s ho) (hb'.mergeMappings s ho') fun key hk => ?_
  rw [entryFor?_mergeMappings hb.proper ho.proper hk,
    entryFor?_mergeMappings hb'.proper ho'.proper hk]
  have hsame := sameEntry_of_beq hb hb' hbase hk
  have hsame' := sameEntry_of_beq ho ho' hoverlay hk
  generalize he : entryFor? base key = x, he' : entryFor? base' key = x' at hsame
  generalize hf : entryFor? overlay key = y, hf' : entryFor? overlay' key = y' at hsame'
  cases hsame with
  | none => exact hsame'
  | some hee =>
    cases hsame' with
    | none => exact .some hee
    | some hff =>
      refine .some (mergePair_beq hee.1 hee.2 hff.1 hff.2 ?_)
      exact h _ (mem_of_entryFor? he) _ (mem_of_entryFor? he') _ (mem_of_entryFor? hf) _
        (mem_of_entryFor? hf') hee.2 hff.2

end Mappings

section Kinds

variable {s : Strategy} {a a' b b' : Value}

/-- Whether documents join is told by their kinds, which equal documents share. -/
theorem joins_of_beq (ha : (a == a') = true) (hb : (b == b') = true) (h : joins s a b = true) :
    joins s a' b' = true := by
  cases a with
  | map m =>
    obtain ⟨n, rfl⟩ := joins_map.mp h
    obtain ⟨m', rfl⟩ := Value.eq_map_of_map_beq ha
    exact joins_map.mpr (Value.eq_map_of_map_beq hb)
  | seq items =>
    obtain ⟨hq, others, rfl⟩ := joins_seq.mp h
    obtain ⟨items', rfl⟩ := Value.eq_seq_of_seq_beq ha
    exact joins_seq.mpr ⟨hq, Value.eq_seq_of_seq_beq hb⟩
  | _ => simp [joins] at h

private theorem winner_beq (s : Strategy) (ha : (a == a') = true) (hb : (b == b') = true) :
    (s.winner a b == s.winner a' b') = true := by
  unfold Strategy.winner
  cases s.precedence with
  | base => exact ha
  | overlay => exact hb

private theorem merge_beq_of_not_joins (ha : Tidy a) (ha' : Tidy a') (hb : Tidy b) (hb' : Tidy b')
    (haa : (a == a') = true) (hbb : (b == b') = true) (h : joins s a b = false) :
    (merge s a b == merge s a' b') = true := by
  have h' : joins s a' b' = false := Bool.eq_false_iff.mpr fun hj => by
    have hback := Value.beq_symm ha.proper ha'.proper haa
    simp [joins_of_beq hback (Value.beq_symm hb.proper hb'.proper hbb) hj] at h
  rw [merge_eq_winner h, merge_eq_winner h']
  exact winner_beq s haa hbb

end Kinds

private theorem combine_beq (s : Strategy) {xs xs' ys ys' : List Value} (hx : Tidy (.seq xs))
    (hx' : Tidy (.seq xs')) (hy : Tidy (.seq ys)) (hy' : Tidy (.seq ys'))
    (hxx : (Value.seq xs == .seq xs') = true) (hyy : (Value.seq ys == .seq ys') = true) :
    (Value.seq (combine (s.winner xs ys) (s.loser xs ys)) ==
      .seq (combine (s.winner xs' ys') (s.loser xs' ys'))) = true := by
  have halike {vs ws : List Value} (hv : Tidy (.seq vs)) (hw : Tidy (.seq ws))
      (h : (Value.seq vs == .seq ws) = true) : List.Forall₂ Alike vs ws :=
    forall₂_alike ((Value.proper_seq vs).mp hv.proper) ((Value.proper_seq ws).mp hw.proper)
      ((Value.seq_beq_seq vs ws).mp h)
  have hbase := halike hx hx' hxx
  have hoverlay := halike hy hy' hyy
  rw [Value.seq_beq_seq]
  unfold Strategy.winner Strategy.loser
  cases s.precedence with
  | base => exact (combine_alike hbase hoverlay).imp fun _ _ h => h.1
  | overlay => exact (combine_alike hoverlay hbase).imp fun _ _ h => h.1

/-- Documents that are equal but for the order of keys, in which no two keys go by one name, are
merged under every strategy to documents that are equal but for the order of keys. -/
theorem merge_ignores_key_order (s : Strategy) {base base' overlay overlay' : Value}
    (hb : Tidy base) (hb' : Tidy base') (ho : Tidy overlay) (ho' : Tidy overlay')
    (hbase : (base == base') = true) (hoverlay : (overlay == overlay') = true) :
    (merge s base overlay == merge s base' overlay') = true := by
  induction base using Value.members_induction generalizing base' overlay overlay' with
  | scalar v hv =>
    refine merge_beq_of_not_joins hb hb' ho ho' hbase hoverlay ?_
    cases v <;> first | rfl | simp [Value.isScalar] at hv
  | tagged tag v => exact merge_beq_of_not_joins hb hb' ho ho' hbase hoverlay rfl
  | seq items =>
    cases hj : joins s (.seq items) overlay with
    | false => exact merge_beq_of_not_joins hb hb' ho ho' hbase hoverlay hj
    | true =>
      obtain ⟨hq, others, rfl⟩ := joins_seq.mp hj
      obtain ⟨items', rfl⟩ := Value.eq_seq_of_seq_beq hbase
      obtain ⟨others', rfl⟩ := Value.eq_seq_of_seq_beq hoverlay
      rw [merge_seq_eq_combine hq, merge_seq_eq_combine hq]
      exact combine_beq s hb hb' ho ho' hbase hoverlay
  | map base ih =>
    cases hj : joins s (.map base) overlay with
    | false => exact merge_beq_of_not_joins hb hb' ho ho' hbase hoverlay hj
    | true =>
      obtain ⟨overlay, rfl⟩ := joins_map.mp hj
      obtain ⟨base', rfl⟩ := Value.eq_map_of_map_beq hbase
      obtain ⟨overlay', rfl⟩ := Value.eq_map_of_map_beq hoverlay
      rw [merge_map, merge_map]
      refine mergeMappings_beq hb hb' ho ho' hbase hoverlay fun e he e' he' f hf f' hf' hee hff => ?_
      exact (ih e he).2 (hb.value he) (hb'.value he') (ho.value hf) (ho'.value hf') hee hff

section Witness

/-- Two mappings with a marked key and a list of mappings, in two orders of their keys. -/
def shuffledBase : Value × Value :=
  (.map [(.str "packages:", .map [(.str "mpi", .null), (.str "all", .seq [.str "gcc"])]),
      (.str "specs", .seq [.map [(.str "name", .str "zlib"), (.str "when", .bool true)]])],
    .map [(.str "specs", .seq [.map [(.str "when", .bool true), (.str "name", .str "zlib")]]),
      (.str "packages:", .map [(.str "all", .seq [.str "gcc"]), (.str "mpi", .null)])])

def shuffledOverlay : Value × Value :=
  (.map [(.str "view", .map []), (.str "specs", .seq [.str "hdf5",
      .map [(.str "when", .bool true), (.str "name", .str "zlib")]])],
    .map [(.str "specs", .seq [.str "hdf5",
      .map [(.str "name", .str "zlib"), (.str "when", .bool true)]]), (.str "view", .map [])])

theorem merge_ignores_key_order_shuffled : Tidy shuffledBase.1 ∧ Tidy shuffledBase.2 ∧
    Tidy shuffledOverlay.1 ∧ Tidy shuffledOverlay.2 ∧ (shuffledBase.1 == shuffledBase.2) = true ∧
      (shuffledOverlay.1 == shuffledOverlay.2) = true ∧
        (merge .layer shuffledBase.1 shuffledOverlay.1 ==
          merge .layer shuffledBase.2 shuffledOverlay.2) = true := by
  have hb : Tidy shuffledBase.1 := ⟨by decide, by decide⟩
  have hb' : Tidy shuffledBase.2 := ⟨by decide, by decide⟩
  have ho : Tidy shuffledOverlay.1 := ⟨by decide, by decide⟩
  have ho' : Tidy shuffledOverlay.2 := ⟨by decide, by decide⟩
  have hbase : (shuffledBase.1 == shuffledBase.2) = true := by decide
  have hoverlay : (shuffledOverlay.1 == shuffledOverlay.2) = true := by decide
  exact ⟨hb, hb', ho, ho', hbase, hoverlay,
    merge_ignores_key_order .layer hb hb' ho ho' hbase hoverlay⟩

end Witness

end EnvCompose.Merge
