import EnvCompose.Proofs.Manifest.Sections

/-!
# Merging into a section

A value can be merged into a section of a manifest, or a manifest that has only this section into
the whole. Both leave the same, in the same order, but for one case: where the section of the
manifest wins under a marked key, merging the manifests leaves it as it is, while the value is merged
into it all the same.
-/
namespace EnvCompose.Manifest
open Yaml Merge

def ofSection (name : String) (v : Value) : Manifest := ⟨[(.str name, v)], []⟩

/-- The section of a name, if its key is marked and wins. -/
def sealed? (m : Manifest) (name : String) (s : Strategy) : Option Value :=
  match s.precedence with
  | .base => ((entryFor? m.body (.str name)).filter fun e => isMarked e.1).map (·.2)
  | .overlay => none

section Sealed

variable {m : Manifest} {name : String} {s : Strategy} (hn : IsName name)
include hn

/-- A section is sealed if the merge of its entry honours the marker of its own key. -/
theorem mem_sealed? {old : Value} : old ∈ m.sealed? name s ↔
    ∃ e ∈ entryFor? m.body (.str name), isMarked (s.winner e.1 (.str name)) = true ∧ e.2 = old := by
  unfold sealed? Strategy.winner
  cases s.precedence with
  | base => simp [Option.filter_eq_some_iff, and_assoc]
  | overlay => simp [isMarked_of_isName hn]

private theorem valueFor?_of_sealed {old : Value} (h : m.sealed? name s = some old) :
    valueFor? m.body (.str name) = some old := by
  obtain ⟨e, he, -, rfl⟩ := (mem_sealed? hn).mp h
  rw [valueFor?, he, Option.map_some]

private theorem winner_eq_of_sealed {e : Value × Value}
    (h : isMarked (s.winner e.1 (.str name)) = true)
    (v : Value) : s.winner e (.str name, v) = e := by
  unfold Strategy.winner at h ⊢
  cases hp : s.precedence with
  | base => rfl
  | overlay => simp [hp, isMarked_of_isName hn] at h

end Sealed

section Replacing

variable {m : Manifest} {name : String} {old : Value} (hp : namesOn name = [name])
  (hn : IsName name) (h : valueFor? m.body (.str name) = some old)
include hp hn h

/-- A new value for a section changes nothing just if it is the old one. -/
theorem set_section_eq_iff (w : Value) : m.set name w = m ↔ w = old := by
  constructor
  · intro heq
    have hset := valueFor?_set_section hp hn hn m w
    rw [heq, h, if_pos rfl] at hset
    exact (Option.some.inj hset).symm
  · rintro rfl
    have hbody := set_section_body hp hn m w
    rw [insert_of_get? ((get?_keyFor hn m.body).trans h)] at hbody
    exact congrArg (fun body => { m with body }) hbody

/-- A new value for a section leaves an equal manifest just if it equals the old one. -/
theorem set_section_beq_iff (hm : Tidy (.map m.body)) {w : Value} (hw : Tidy w) :
    (m.set name w == m) = true ↔ (w == old) = true := by
  have hset : m.set name w = { m with body := assign m.body [name] w } := by rw [set, hp]
  have htidy : Tidy (.map (assign m.body [name] w)) := assign_tidy (by simpa using hn) hm hw
  obtain ⟨e, he, rfl⟩ := Option.map_eq_some_iff.mp h
  have hkey : keyFor m.body name = e.1 := by simp [keyFor, ← entryFor?_of_isName hn, he]
  have hself : entryFor? (assign m.body [name] w) (.str name) = some (e.1, w) := by
    rw [← hkey]
    exact entryFor?_assign_self hn [] w
  have hproper : (Value.str name).proper = true := Value.proper_str name
  rw [hset, beq_iff]
  constructor
  · rintro ⟨heq, -⟩
    have hsame := sameEntry_of_beq htidy hm heq hproper
    rw [hself, he] at hsame
    cases hsame with
    | some hsame => exact hsame.2
  · intro hwe
    refine ⟨map_beq_map_of_entryFor? htidy hm fun key hk => ?_, beq_self_eq_true _⟩
    cases hmatch : keyMatches key (.str name) with
    | true =>
      rw [entryFor?_congr _ hk hproper hmatch, entryFor?_congr _ hk hproper hmatch, hself, he]
      exact .some ⟨beq_self_eq_true e.1, hwe⟩
    | false =>
      rw [entryFor?_assign_of_ne hn hmatch]
      exact SameEntry.refl _

end Replacing

section Agreement

variable {m : Manifest} {name : String} {v : Value} {s : Strategy} (hn : IsName name)
  (hbody : Tidy (.map m.body)) (hextra : Tidy (.map m.extra)) (hv : Tidy v)
include hn hbody hextra hv

/-- A manifest that is merged into a sealed section changes nothing. -/
theorem merge_ofSection_of_sealed {old : Value} (h : m.sealed? name s = some old) :
    m.merge (ofSection name v) s = m := by
  obtain ⟨e, he, hmark, -⟩ := (mem_sealed? hn).mp h
  have hsame : mergeMappings s m.body [(.str name, v)] = m.body := by
    rw [mergeMappings_singleton_of_present hbody s hv he]
    refine (List.map_congr_left fun f hf => ?_).trans (List.map_id' m.body)
    by_cases hname : keyMatches f.1 (.str name) = true
    · rw [if_pos hname, mergePair, hmark, if_pos rfl, winner_eq_of_sealed hn hmark,
        eq_of_keyMatches hbody he hf hname]
    · rw [if_neg hname]
  rw [merge, ofSection, hsame, mergeMappings_nil hextra]

theorem mergeSection_eq_merge (hp : namesOn name = [name]) (h : m.sealed? name s = none) :
    m.mergeSection name v s = m.merge (ofSection name v) s := by
  have hsame := mergeSection_body (s := s) hp hn hbody hv fun e he => Bool.eq_false_iff.mpr
    fun hmark => by simpa [h] using (mem_sealed? hn).mpr ⟨e, he, hmark, rfl⟩
  rw [merge, ofSection, ← hsame, mergeMappings_nil hextra]
  rfl

end Agreement

/-- Merging a value into a section leaves what merging the manifest of this section leaves, unless
the section is sealed: there the value has to be one that its merge would not show. -/
theorem mergeSection_agrees {m : Manifest} (hbody : Tidy (.map m.body))
    (hextra : Tidy (.map m.extra)) {name : String} (hne : name ≠ "") (hcolon : ':' ∉ name.toList)
    {v : Value} (hv : Tidy v) (s : Strategy) :
    (m.mergeSection name v s = m.merge (ofSection name v) s ↔
        ∀ old ∈ m.sealed? name s, Merge.merge s old v = old) ∧
      ((m.mergeSection name v s == m.merge (ofSection name v) s) = true ↔
        ∀ old ∈ m.sealed? name s, (Merge.merge s old v == old) = true) := by
  have hp : namesOn name = [name] := by
    rw [namesOn, Text.pieces]
    exact Text.piecesOf_of_not_mem hne hcolon
  have hn : IsName name := isName_of_mem_namesOn name (by rw [hp]; exact List.mem_singleton_self name)
  cases h : m.sealed? name s with
  | none =>
    rw [mergeSection_eq_merge hn hbody hextra hv hp h]
    simp [beq_iff]
  | some old =>
    have hvalue := valueFor?_of_sealed hn h
    have hset : m.mergeSection name v s = m.set name (Merge.merge s old v) := by
      rw [mergeSection, get?_section hp hn, hvalue]
    have hold : Tidy old := valueFor?_tidy hbody _ old hvalue
    rw [merge_ofSection_of_sealed hn hbody hextra hv h, hset]
    have heq := set_section_eq_iff hp hn hvalue (Merge.merge s old v)
    have hbeq := set_section_beq_iff hp hn hvalue hbody (hold.merge s hv)
    exact ⟨by simpa using heq, by simpa only [Option.mem_some_iff, forall_eq'] using hbeq⟩

section Witness

def markedSection : Manifest :=
  ⟨[(.str "view", .bool true), (.str "packages:", .map [(.str "zlib", .int 1)])], []⟩

theorem mergeSection_agrees_markedSection : Tidy (.map markedSection.body) ∧
    Tidy (.map markedSection.extra) ∧ "packages" ≠ "" ∧ ':' ∉ "packages".toList ∧ Tidy (.map [(.str "zlib", .int 2)]) ∧
      markedSection.mergeSection "packages" (.map [(.str "zlib", .int 2)]) .fill =
        markedSection.merge (ofSection "packages" (.map [(.str "zlib", .int 2)])) .fill := by
  have hbody : Tidy (.map markedSection.body) := ⟨by decide, by decide⟩
  have hextra : Tidy (.map markedSection.extra) := ⟨by decide, by decide⟩
  have hv : Tidy (.map [(.str "zlib", .int 2)]) := ⟨by decide, by decide⟩
  refine ⟨hbody, hextra, by decide, by decide, hv, ?_⟩
  refine (mergeSection_agrees hbody hextra (by decide) (by decide) hv .fill).1.mpr fun old hold => ?_
  obtain rfl : .map [(.str "zlib", .int 1)] = old := Option.some.inj hold
  rfl

/-- A value that has more than a sealed section is merged into it all the same. -/
theorem mergeSection_opens_sealed :
    (markedSection.mergeSection "packages" (.map [(.str "hdf5", .int 2)]) .fill ==
      markedSection.merge (ofSection "packages" (.map [(.str "hdf5", .int 2)])) .fill) = false := by
  decide

end Witness

end EnvCompose.Manifest
