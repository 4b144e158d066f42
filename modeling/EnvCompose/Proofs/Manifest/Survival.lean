import EnvCompose.Proofs.Environment.Overrides
import EnvCompose.Proofs.Environment.Unedited

/-!
# Settings that survive edits

An assignment never takes a name away, so a section that has been snapshotted is still there after
any edits and its snapshot is merged back. What is merged back is found first again, by a path that
ends in something other than a mapping.
-/
namespace EnvCompose.Manifest
open Yaml Merge

/-- A setting of the old document is what a restored one has in its place, whatever stood there. -/
theorem lookup_merge_restore {names : List String} (hn : ∀ name ∈ names, IsName name)
    {new old v : Value} (hnew : new.proper = true) (hold : old.proper = true)
    (hv : lookup names old = some v) (hmap : ∀ m, v ≠ .map m) :
    lookup names (Merge.merge .restore new old) = some v := by
  induction names generalizing new old with
  | nil =>
    obtain rfl := Option.some.inj hv
    exact congrArg some (Change.merge_restore_of_not_map (.inr hmap))
  | cons name names ih =>
    rw [List.forall_mem_cons] at hn
    rcases maps_or_not new old with ⟨m, o, rfl, rfl⟩ | hnot
    · rw [Change.lookup_restored_map hnew hold hn.1]
      rw [lookup_cons_map hn.1, valueFor?, entryFor?_of_isName hn.1] at hv
      cases hf : entryNamed? o name with
      | none => simp [hf] at hv
      | some f =>
        have hvalue : lookup names f.2 = some v := by simpa [hf] using hv
        cases hw : valueFor? m (.str name) with
        | none => exact hvalue
        | some w =>
          have hwp := valueFor?_proper hnew _ w hw
          have hfp := (((Value.proper_map o).mp hold).2 f (List.mem_of_find?_eq_some hf)).2
          dsimp only
          split
          · exact hvalue
          · exact ih hn.2 hwp hfp hvalue
    · rwa [Change.merge_restore_of_not_map hnot]

section Editing

variable {m : Manifest} {name : String}

def setAll (m : Manifest) (edits : List (String × Value)) : Manifest :=
  edits.foldl (fun m a => m.set a.1 a.2) m

/-- An assignment takes no name away. -/
theorem isSome_valueFor?_set (hn : IsName name) (h : (valueFor? m.body (.str name)).isSome = true)
    (path : String) (v : Value) : (valueFor? (m.set path v).body (.str name)).isSome = true := by
  rw [set]
  cases hp : namesOn path with
  | nil => simpa [assign] using h
  | cons first rest =>
    have hfirst : IsName first := isName_of_mem_namesOn path (by simp [hp])
    dsimp only
    rw [valueFor?_assign hfirst hn]
    split
    · rfl
    · exact h

/-- After any edits the names of the body are still there. -/
theorem exists_valueFor?_setAll (hm : (Value.map m.body).proper = true) (hn : IsName name)
    (h : (valueFor? m.body (.str name)).isSome = true) {edits : List (String × Value)}
    (he : ∀ a ∈ edits, a.2.proper = true) :
    ∃ v, valueFor? (m.setAll edits).body (.str name) = some v ∧ v.proper = true := by
  induction edits generalizing m with
  | nil =>
    obtain ⟨v, hv⟩ := Option.isSome_iff_exists.mp h
    exact ⟨v, hv, valueFor?_proper hm _ v hv⟩
  | cons a edits ih =>
    rw [List.forall_mem_cons] at he
    exact ih (closed_proper.set hm a.1 he.1) (isSome_valueFor?_set hn h a.1 a.2) he.2

private theorem mem_configSections {v : Value} : (Value.str name, v) ∈ m.configSections ↔
    name ∈ sectionNames ∧ m.heldSection name = some v := by
  simp [configSections_eq, snapshotOf]

end Editing

/-- Whatever is assigned in whatever order after a snapshot, the snapshot puts every setting of its
sections back: a path to something other than a mapping has the same value as before. -/
theorem get?_restoreSections_setAll {m : Manifest} (hm : (Value.map m.body).proper = true)
    {edits : List (String × Value)} (he : ∀ a ∈ edits, a.2.proper = true) {path name : String}
    (hname : (namesOn path).head? = some name) (hheld : ∃ v, (.str name, v) ∈ m.configSections)
    {v : Value} (hv : m.get? path = some v) (hmap : ∀ entries, v ≠ .map entries) :
    ((m.setAll edits).restoreSections m.configSections).get? path = some v := by
  obtain ⟨rest, hpath⟩ : ∃ rest, namesOn path = name :: rest := by
    cases hp : namesOn path <;> simp_all
  obtain ⟨old, hheld⟩ := hheld
  obtain ⟨hsection, hheld⟩ := mem_configSections.mp hheld
  have hn := isName_section hsection
  have hrest : ∀ name ∈ rest, IsName name := fun name h =>
    isName_of_mem_namesOn path (by simp [hpath, h])
  have hget (m : Manifest) : m.get? path = (valueFor? m.body (.str name)).bind (lookup rest) := by
    rw [get?, hpath]
    exact lookup_cons_map hn rest m.body
  have hold : valueFor? m.body (.str name) = some old := by
    rw [← get?_section (namesOn_section hsection) hn]
    exact (heldSection_eq_some.mp hheld).1
  have hproper := valueFor?_proper hm _ old hold
  obtain ⟨new, hnew, hnewp⟩ := exists_valueFor?_setAll hm hn (by simp [hold]) he
  have hrestored := valueFor?_restoreSections_configSections hn (m.setAll edits) m
  rw [if_pos hsection, hheld, hnew] at hrestored
  rw [hget, hold] at hv
  rw [hget, hrestored]
  exact lookup_merge_restore hrest hnewp hproper hv hmap

section Witness

/-- A marked section with a tagged pin and two keys of one name. -/
def taggedTemplate : Manifest where
  body := [(.str "view", .bool false), (.str "packages:", .map [
    (.str "zlib", .tagged "pin" (.map [(.str "version", .seq [.str "1.3"])])),
    (.str "zlib:", .null)])]
  extra := []

/-- Edits that put a text in the section's place and then go below it. -/
def harshEdits : List (String × Value) :=
  [("packages", .str "none"), ("packages:zlib:version", .null),
    ("packages", .map [(.str "zlib:", .bool true), (.str "zlib", .map [])]), ("view:root", .null)]

theorem get?_restoreSections_setAll_taggedTemplate : (Value.map taggedTemplate.body).proper = true ∧
    (∀ a ∈ harshEdits, a.2.proper = true) ∧
      (namesOn "packages:zlib:version").head? = some "packages" ∧
      (∃ v, (.str "packages", v) ∈ taggedTemplate.configSections) ∧
      taggedTemplate.get? "packages:zlib:version" = some (.seq [.str "1.3"]) ∧
      ((taggedTemplate.setAll harshEdits).restoreSections taggedTemplate.configSections).get?
        "packages:zlib:version" = some (.seq [.str "1.3"]) := by
  have hm : (Value.map taggedTemplate.body).proper = true := by decide
  have he : ∀ a ∈ harshEdits, a.2.proper = true := by decide
  have hname : (namesOn "packages:zlib:version").head? = some "packages" := by decide
  have hv : taggedTemplate.get? "packages:zlib:version" = some (.seq [.str "1.3"]) := by rfl
  have hheld : ∃ v, (.str "packages", v) ∈ taggedTemplate.configSections :=
    ⟨_, mem_configSections.mpr ⟨by decide, rfl⟩⟩
  exact ⟨hm, he, hname, hheld, hv, get?_restoreSections_setAll hm he hname hheld hv (by simp)⟩

end Witness

end EnvCompose.Manifest
