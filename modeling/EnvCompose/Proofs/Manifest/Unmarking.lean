import EnvCompose.Proofs.Manifest.Sections

/-!
# Looking up what has lost its markers

Where no two keys of a mapping go by one name, no entry meets another when the markers are taken
off: each stays in its place under its own name. A path of names does not see the difference, so it
leads to the same value as before, without its markers.
-/
namespace EnvCompose
open Yaml Merge

namespace Yaml.Value

mutual
/-- The document with every key of its mappings put through a function, each entry in its place.
Keys are not looked into. -/
def rekeyed (f : Value → Value) : Value → Value
  | .seq items => .seq (rekeyedItems f items)
  | .map entries => .map (rekeyedEntries f entries)
  | .tagged tag value => .tagged tag (rekeyed f value)
  | .null => .null
  | .bool b => .bool b
  | .int i => .int i
  | .float x => .float x
  | .str s => .str s

def rekeyedItems (f : Value → Value) : List Value → List Value
  | [] => []
  | v :: items => rekeyed f v :: rekeyedItems f items

def rekeyedEntries (f : Value → Value) : List (Value × Value) → List (Value × Value)
  | [] => []
  | (key, value) :: entries => (f key, rekeyed f value) :: rekeyedEntries f entries
end

variable {f : Value → Value}

theorem rekeyed_of_isScalar {v : Value} (h : v.isScalar = true) : v.rekeyed f = v := by
  cases v <;> simp_all [isScalar, rekeyed]

theorem rekeyed_seq (items : List Value) : (Value.seq items).rekeyed f = .seq (items.map (rekeyed f)) := by
  rw [rekeyed]
  congr 1
  induction items with
  | nil => rfl
  | cons v items ih => rw [rekeyedItems, ih, List.map_cons]

theorem rekeyed_map (m : Mapping) :
    (Value.map m).rekeyed f = .map (m.map fun e => (f e.1, e.2.rekeyed f)) := by
  rw [rekeyed]
  congr 1
  induction m with
  | nil => rfl
  | cons e m ih => rw [rekeyedEntries, ih, List.map_cons]

end Yaml.Value

namespace Merge

private theorem keyMatches_unmarked (key : Value) : keyMatches key (unmarked key) = true := by
  cases h : keyName? key with
  | some name =>
    exact keyMatches_iff.mpr (.inl ⟨name, h, (keyName?_unmarked key).trans h⟩)
  | none =>
    rw [unmarked_eq_self_of_none h]
    exact keyMatches_refl key

/-- Keys of different names differ without their markers too. -/
theorem unmarked_ne {a b : Value} (ha : a.proper = true) (hb : b.proper = true)
    (h : keyMatches a b = false) : (unmarked a == unmarked b) = false := by
  refine Bool.eq_false_iff.mpr fun heq => ?_
  have hmatch := keyMatches_of_beq (unmarked_proper ha) (unmarked_proper hb) heq
  have hback := keyMatches_symm hb (unmarked_proper hb) (keyMatches_unmarked b)
  simp [keyMatches_trans (keyMatches_unmarked a) (keyMatches_trans hmatch hback)] at h

private theorem unmark_map_of_tidy {m : Mapping} (h : Tidy (.map m)) :
    unmark (.map m) = .map (unmarkEntries m) := by
  have hdistinct : Mapping.Distinct (m.map fun e => (unmarked e.1, unmark e.2)) :=
    List.pairwise_map.mpr ((tidy_map.mp h).1.imp_of_mem fun he hf hne =>
      unmarked_ne (h.key_proper he) (h.key_proper hf) hne)
  rw [unmark_map, Mapping.ofList_eq_self hdistinct, unmarkEntries_eq_map]

/-- In a tidy document all entries stay in their places. -/
theorem unmark_eq_rekeyed {v : Value} (h : Tidy v) : unmark v = v.rekeyed unmarked := by
  induction v using Value.members_induction with
  | scalar v hv => rw [unmark_of_isScalar hv, Value.rekeyed_of_isScalar hv]
  | seq items ih =>
    rw [unmark_seq, Value.rekeyed_seq]
    exact congrArg _ (List.map_congr_left fun v hv => ih v hv (tidy_seq.mp h v hv))
  | map m ih =>
    rw [unmark_map_of_tidy h, unmarkEntries_eq_map, Value.rekeyed_map]
    exact congrArg _ (List.map_congr_left fun e he => by rw [(ih e he).2 (h.value he)])
  | tagged tag v ih => rw [unmark, Value.rekeyed, ih (tidy_tagged.mp h)]

private theorem entries?_unmark {v : Value} (h : Tidy v) :
    (unmark v).entries? = v.entries?.map unmarkEntries := by
  induction v using Value.members_induction with
  | scalar v hv =>
    rw [unmark_of_isScalar hv]
    cases v <;> simp_all [Value.isScalar, Value.entries?, Value.untagged]
  | seq items => rfl
  | map m =>
    rw [unmark_map_of_tidy h]
    rfl
  | tagged tag v ih =>
    rw [unmark]
    exact ih (tidy_tagged.mp h)

private theorem entryNamed?_unmarkEntries (m : Mapping) (name : String) :
    entryNamed? (unmarkEntries m) name =
      (entryNamed? m name).map fun e => (unmarked e.1, unmark e.2) := by
  rw [unmarkEntries_eq_map, entryNamed?, List.find?_map, entryNamed?]
  simp only [Function.comp_def, keyName?_unmarked]

end Merge

namespace Manifest

/-- Names lead to what they led to before. -/
theorem lookup_unmark {v : Value} (h : Tidy v) (names : List String) :
    lookup names (Merge.unmark v) = (lookup names v).map Merge.unmark := by
  induction names generalizing v with
  | nil => rfl
  | cons name names ih =>
    rw [lookup_cons, lookup_cons, entries?_unmark h]
    cases hm : v.entries? with
    | none => rfl
    | some m =>
      have hmap : Tidy (.map m) := Value.of_entries? (fun _ _ => tidy_tagged.mp) h hm
      simp only [Option.map_some, Option.bind_some, entryNamed?_unmarkEntries]
      cases he : entryNamed? m name with
      | none => rfl
      | some e => exact ih (hmap.value (List.mem_of_find?_eq_some he))

/-- In a manifest whose body has no two keys of one name in a mapping, every path leads to the value
it led to before the markers were taken off, less its own. The body has the same entries in the same
places throughout, each key without its marker and by its old name. -/
theorem get?_unmark {m : Manifest} (h : Tidy (.map m.body)) :
    (∀ path, m.unmark.get? path = (m.get? path).map Merge.unmark) ∧
      Value.map m.unmark.body = (Value.map m.body).rekeyed unmarked ∧
      (∀ key, keyName? (unmarked key) = keyName? key) ∧ m.unmark.extra = m.extra := by
  have hbody : Value.map m.unmark.body = Merge.unmark (.map m.body) := by rw [Merge.unmark]; rfl
  refine ⟨fun path => ?_, ?_, keyName?_unmarked, rfl⟩
  · unfold get?
    split
    · rfl
    · rw [hbody, lookup_unmark h]
  · rw [hbody, unmark_eq_rekeyed h]

section Witness

/-- Marked keys below a tag and in a sequence, and keys of colons only. -/
def thoroughlyMarked : Manifest where
  body := [(.str "packages::", .tagged "site" (.map [(.str "zlib", .int 1), (.str "all:", .map
      [(.str "::", .null), (.str ":", .bool true)])])),
    (.str "specs", .seq [.map [(.str "when:", .str "linux"), (.str "then", .seq [])]])]
  extra := [(.str "note:", .null)]

theorem get?_unmark_thoroughlyMarked : Tidy (.map thoroughlyMarked.body) ∧
    thoroughlyMarked.unmark.get? "packages:all" =
      some (.map [(.str "", .null), (.str ":", .bool true)]) := by
  have htidy : Tidy (.map thoroughlyMarked.body) := ⟨by decide, by decide⟩
  refine ⟨htidy, ?_⟩
  rw [(get?_unmark htidy).1]
  rfl

end Witness

end Manifest
end EnvCompose
