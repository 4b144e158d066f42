import EnvCompose.Proofs.Manifest.Sections

/-!
# What changes of a manifest keep

A property of documents is closed if it passes to their parts and back to what a change of a manifest
builds of these. Each change then keeps it in the body.
-/
namespace EnvCompose.Manifest
open Yaml Merge

/-- A property that passes to the parts of a document and is kept where changes put documents
together. -/
structure Closed (P : Value → Prop) : Prop where
  str : ∀ s, P (.str s)
  seq : ∀ items, P (.seq items) ↔ ∀ v ∈ items, P v
  tagged : ∀ tag v, P (.tagged tag v) → P v
  values : ∀ m, P (.map m) → ∀ e ∈ m, P e.2
  nil : P (.map [])
  insert : ∀ (m : Mapping) (name : String) (v : Value), IsName name → P (.map m) → P v →
    P (.map (m.insert (keyFor m name) v))
  mergeMappings : ∀ (s : Strategy) (base overlay : Mapping), P (.map base) → P (.map overlay) →
    (∀ e ∈ mergedEntries s base overlay, P e.2) → P (.map (mergeMappings s base overlay))
  unmark : ∀ v, P v → P (Merge.unmark v)

namespace Closed

variable {P : Value → Prop} (hP : Closed P) {m : Manifest}
include hP

theorem merge (s : Strategy) {base overlay : Value} (hb : P base) (ho : P overlay) :
    P (Merge.merge s base overlay) :=
  merge_closed hP.seq hP.values (hP.mergeMappings s) hb ho

theorem merged (s : Strategy) {base overlay : Mapping} (hb : P (.map base))
    (ho : P (.map overlay)) : P (.map (Merge.mergeMappings s base overlay)) := by
  rw [← merge_map]
  exact hP.merge s hb ho

theorem assign {names : List String} (hn : ∀ name ∈ names, IsName name) {m : Mapping} {v : Value}
    (hm : P (.map m)) (hv : P v) : P (.map (Manifest.assign m names v)) :=
  assign_closed hP.nil hP.values hP.insert hn hm hv

variable (hm : P (.map m.body))
include hm

theorem get? (path : String) : ∀ v ∈ m.get? path, P v := get?_of hP.tagged hP.values hm path

theorem set (path : String) {v : Value} (hv : P v) : P (.map (m.set path v).body) :=
  hP.assign (fun _ => isName_of_mem_namesOn path) hm hv

theorem setIncludes (names : List String) : P (.map (m.setIncludes names).body) :=
  hP.set hm "include" ((hP.seq _).mpr (List.forall_mem_map.mpr fun name _ => hP.str name))

theorem mergeSection (name : String) {v : Value} (hv : P v) (s : Strategy) :
    P (.map (m.mergeSection name v s).body) := by
  refine hP.set hm name ?_
  cases hold : m.get? name with
  | none => exact hv
  | some old => exact hP.merge s (hP.get? hm name old hold) hv

theorem restoreSection {e : Value × Value} (he : P e.2) :
    P (.map (m.restoreSection e).body) := by
  unfold Manifest.restoreSection
  split
  · exact hm
  · split
    · exact hm
    · rename_i name _ _ old hold
      exact hP.set hm name (hP.merge .restore (hP.get? hm name old hold) he)

theorem restoreSections {snapshot : Mapping} (hs : ∀ e ∈ snapshot, P e.2) :
    P (.map (m.restoreSections snapshot).body) := by
  induction snapshot generalizing m with
  | nil => exact hm
  | cons e snapshot ih =>
    rw [List.forall_mem_cons] at hs
    exact ih (hP.restoreSection hm hs.1) hs.2

theorem unmarked : P (.map m.unmark.body) := by
  have hbody := hP.unmark _ hm
  rwa [Merge.unmark] at hbody

end Closed

theorem tidy_nil : Tidy (.map []) := tidy_map.mpr ⟨.nil, by simp⟩

theorem closed_proper : Closed fun v => v.proper = true where
  str := Value.proper_str
  seq := Value.proper_seq
  tagged tag v hv := by simpa using hv
  values m hm e he := (((Value.proper_map m).mp hm).2 e he).2
  nil := tidy_nil.proper
  insert m name v hn hm hv := by
    obtain ⟨s, hs, -⟩ := keyFor_eq_str hn m
    rw [hs]
    exact insert_proper hm (Value.proper_str s) hv
  mergeMappings s base overlay hb ho _ := by
    rw [← merge_map]
    exact merge_proper s hb ho
  unmark _ hv := (unmark_unmarked hv).proper

theorem closed_tidy : Closed Tidy where
  str := tidy_str
  seq _ := tidy_seq
  tagged _ _ := tidy_tagged.mp
  values _ hm _ he := hm.value he
  nil := tidy_nil
  insert _ _ _ hn hm hv := tidy_insert_keyFor hn hm hv
  mergeMappings s _ _ hb ho _ := hb.mergeMappings s ho
  unmark _ hv := (unmark_unmarked hv.proper).toTidy

end EnvCompose.Manifest
