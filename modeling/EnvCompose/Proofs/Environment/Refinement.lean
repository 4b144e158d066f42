import EnvCompose.Proofs.Environment.Unedited
import EnvCompose.Proofs.Manifest.Layering

/-!
# An environment as two layers

The overrides are assigned in the template's manifest, whose sections are then restored one by one.
Where no section that an override can reach is marked or empty, this is one merge: the overrides
alone, with the template on top of them.
-/
namespace EnvCompose
open Yaml Merge Manifest

namespace Manifest

section Restoring

variable {name : String} {m : Manifest}

private theorem restoreSections_tidy {before : Manifest} (hm : Tidy (.map m.body))
    (hb : Tidy (.map before.body)) (names : List String) :
    Tidy (.map (m.restoreSections (before.snapshotOf names)).body) := by
  refine closed_tidy.restoreSections hm fun e he => ?_
  obtain ⟨name, -, hheld⟩ := List.mem_filterMap.mp he
  obtain ⟨v, hv, rfl⟩ := Option.map_eq_some_iff.mp hheld
  exact closed_tidy.get? hb name v (heldSection_eq_some.mp hv).1

variable {names : List String} (hp : ∀ name ∈ names, namesOn name = [name])
  (hn : ∀ name ∈ names, IsName name)
include hp hn

/-- Only what goes by a name can be restored. -/
theorem entryFor?_restoreSections_of_unnamed {key : Value} (h : ∀ s, keyMatches key (.str s) = false)
    (m before : Manifest) :
    entryFor? (m.restoreSections (before.snapshotOf names)).body key = entryFor? m.body key := by
  induction names generalizing m with
  | nil => rfl
  | cons name names ih =>
    rw [List.forall_mem_cons] at hp hn
    rw [snapshotOf_cons]
    cases before.heldSection name with
    | none => exact ih hp.2 hn.2 m
    | some old =>
      refine (ih hp.2 hn.2 _).trans ?_
      cases hv : valueFor? m.body (.str name) with
      | none => rw [restoreSection_of_none hp.1 hn.1 hv]
      | some v =>
        rw [restoreSection_of_some hp.1 hn.1 hv, set, hp.1]
        exact entryFor?_assign_of_ne hn.1 (h name) [] _

/-- Restoring leaves every key where it is. -/
theorem entryFor?_restoreSections (hnodup : names.Nodup) {other : String} (ho : IsName other)
    (m before : Manifest) :
    entryFor? (m.restoreSections (before.snapshotOf names)).body (.str other) =
      (if other ∈ names then restored (before.heldSection other) (valueFor? m.body (.str other))
        else valueFor? m.body (.str other)).map fun v => (keyFor m.body other, v) := by
  have hkey (m : Mapping) : keyFor m other =
      ((m.map (·.1)).find? fun key => keyName? key == some other).getD (.str other) := by
    rw [keyFor, entryNamed?, List.find?_map]
    rfl
  rw [entryFor?_eq_map ho, hkey, restoreSections_keys hp hn, ← hkey,
    ← valueFor?_restoreSections hp hn hnodup ho, snapshotOf]

end Restoring

end Manifest

namespace Environment

def overriddenSections : List String := ["packages", "config", "modules"]

private theorem mem_sectionNames {name : String} (h : name ∈ overriddenSections) :
    name ∈ sectionNames := by
  revert h name
  decide

private theorem tidy_assigned (e : Environment) : ∀ a ∈ e.changes, Tidy a.2 := by
  have honly (s : String) : Tidy (only s) := tidy_seq.mpr (by simpa using tidy_str s)
  have hall : ∀ a ∈ e.assignments, Tidy a.2 := by
    unfold assignments overrides
    rcases e.compiler with _ | c <;> rcases e.mpi with _ | p <;>
      rcases e.installPrefix with _ | root <;> simp [tidy_str, honly]
  exact List.forall_mem_map.mpr hall

/-- The overrides assign nothing outside of their sections. -/
theorem below_eq_nil {e : Environment} {name : String} (h : name ∉ overriddenSections) :
    Change.below name e.changes = [] := by
  have hpaths : ∀ path ∈ overridePaths, ∀ first ∈ (namesOn path).head?, first ∈ overriddenSections := by
    decide
  rw [List.eq_nil_iff_forall_not_mem]
  rintro ⟨names, v⟩ hmem
  obtain ⟨⟨path, w⟩, ha, heq⟩ := List.mem_map.mp (Change.mem_below.mp hmem)
  have hpath := (assignments_sublist e).subset (List.mem_map_of_mem ha)
  refine h (hpaths path hpath name ?_)
  rw [Prod.mk.injEq] at heq
  rw [heq.1]
  rfl

/-- Under one name, restoring a section that holds something is merging an entry back, if the
entry's key is unmarked and it holds something too, or if nothing is changed there. -/
private theorem restored_eq_entryRestored {key : Value} {old : Option Value} {changes : List Change}
    (hold : ∀ v ∈ old, Tidy v)
    (hcase : (∀ v ∈ old, isMarked key = false ∧ v.isBlank = false) ∨ changes = []) :
    (restored (old.filter fun v => !v.isBlank) (Change.apply changes old)).map (fun v => (key, v)) =
      Change.entryRestored ((Change.apply changes old).map fun v => (key, v))
        (old.map fun v => (key, v)) := by
  cases old with
  | none => cases Change.apply changes none <;> rfl
  | some v =>
    rcases hcase with hheld | rfl
    · obtain ⟨hunmarked, hfull⟩ := hheld v rfl
      obtain ⟨new, hnew⟩ := Change.exists_apply_some changes v
      rw [Option.filter_some, hfull, hnew, Option.map_some, Option.map_some,
        Change.entryRestored_of_unmarked hunmarked]
      rfl
    · have hself := merge_self (hold v rfl) .restore
      have happly : Change.apply [] (some v) = some v := rfl
      rw [happly, Change.entryRestored_self (by simpa using hold v rfl), Option.filter_some]
      cases v.isBlank with
      | true => rfl
      | false => simp [restored, hself]

section Restoring

variable {template : Manifest} (ht : Tidy (.map template.body))
  (hsections : ∀ name ∈ overriddenSections, ∀ f ∈ entryFor? template.body (.str name),
    isMarked f.1 = false ∧ f.2.isBlank = false)
include ht hsections

/-- Under each key, restoring a template's sections after the overrides is merging its entry back. -/
theorem entryFor?_restored_overrides (e : Environment) {key : Value} (hk : key.proper = true) :
    entryFor? ((e.overrides.foldl applyOverride template).restoreSections
        template.configSections).body key = Change.entryRestored
      (entryFor? (e.overrides.foldl applyOverride template).body key)
      (entryFor? template.body key) := by
  have hp : ∀ name ∈ sectionNames, namesOn name = [name] := fun _ => namesOn_section
  have hs : ∀ name ∈ sectionNames, IsName name := fun _ => isName_section
  have hnames := (separate_changes e).names
  have hne := changes_ne_nil e
  have hbody : (e.overrides.foldl applyOverride template).body =
      e.changes.foldl (fun m a => assign m a.1 a.2) template.body := foldl_applyOverride _ _
  rw [configSections_eq]
  rcases named_or_unnamed key with ⟨name, hn, hkey⟩ | hunnamed
  · have hcongr (m : Mapping) := entryFor?_congr m hk (Value.proper_str name) hkey
    rw [hcongr, hcongr, hcongr, entryFor?_restoreSections hp hs (by decide) hn, hbody,
      Change.keyFor_foldl_assign hnames hne hn, Change.entryFor?_foldl_assign hnames hne hn,
      Change.valueFor?_foldl_assign hnames hne hn, entryFor?_eq_map hn template.body]
    by_cases hover : name ∈ overriddenSections
    · have hsection := mem_sectionNames hover
      rw [if_pos hsection, heldSection, get?_section (hp name hsection) hn]
      refine restored_eq_entryRestored (valueFor?_tidy ht _) (.inl fun v hv => ?_)
      exact hsections name hover (keyFor template.body name, v) (by rw [entryFor?_eq_map hn, hv]; rfl)
    · rw [below_eq_nil hover]
      split
      · rw [heldSection, get?_section (hp name ‹_›) hn]
        exact restored_eq_entryRestored (valueFor?_tidy ht _) (.inr rfl)
      · exact (Change.entryRestored_self (Option.forall_mem_map.mpr (valueFor?_tidy ht _))).symm
  · rw [entryFor?_restoreSections_of_unnamed hp hs hunnamed, hbody,
      Change.entryFor?_foldl_assign_of_unnamed hnames hunnamed, Change.entryRestored_self]
    exact fun f hf => ht.value (mem_of_entryFor? hf)

/-- Restoring a template's sections after the overrides is merging its body back. -/
theorem restored_overrides_beq (e : Environment) :
    (Value.map ((e.overrides.foldl applyOverride template).restoreSections
        template.configSections).body ==
      .map (mergeMappings .restore (e.overrides.foldl applyOverride template).body
        template.body)) = true := by
  have hedited : Tidy (.map (e.overrides.foldl applyOverride template).body) := by
    rw [foldl_applyOverride]
    exact Change.foldl_assign_closed closed_tidy (separate_changes e).names (tidy_assigned e) ht
  have hrestored := restoreSections_tidy hedited ht sectionNames
  rw [← configSections_eq] at hrestored
  refine map_beq_map_of_entryFor? hrestored (hedited.mergeMappings .restore ht) fun key hk => ?_
  rw [Change.entryFor?_restore hedited ht hk, entryFor?_restored_overrides ht hsections e hk]
  exact SameEntry.refl _

end Restoring

private theorem setIncludes_tidy {m : Manifest} (hm : Tidy (.map m.body)) (names : List String) :
    Tidy (.map (m.setIncludes names).body) := closed_tidy.setIncludes hm names

/-- Whatever compiler, provider and prefix are named, the environment of a template has the
overrides alone with the template merged on top of them, but for the order of the keys. -/
theorem composed_beq_layers {e : Environment} (h : Tidy (.map e.manifest.body))
    (hsections : ∀ name ∈ overriddenSections, ∀ f ∈ entryNamed? e.manifest.body name,
      isMarked f.1 = false ∧ f.2.isBlank = false) :
    (Value.map e.composed.body == .map (mergeMappings .restore
      (e.overrides.foldl applyOverride .empty).body
      (e.manifest.setIncludes e.includeNames).body)) = true := by
  have ht := setIncludes_tidy h e.includeNames
  have hheld : ∀ name ∈ overriddenSections,
      ∀ f ∈ entryFor? (e.manifest.setIncludes e.includeNames).body (.str name),
        isMarked f.1 = false ∧ f.2.isBlank = false := by
    intro name hname
    have hsection := mem_sectionNames hname
    rw [entryFor?_setIncludes hsection, entryFor?_of_isName (isName_section hsection)]
    exact hsections name hname
  have hbelow (name : String) (v : Value)
      (hv : v ∈ valueFor? (e.manifest.setIncludes e.includeNames).body (.str name)) :
      Change.LieBelow (Change.below name e.changes) v :=
    Change.lieBelow ((separate_changes e).below name) (Change.tidy_below (tidy_assigned e) name)
      (valueFor?_tidy ht _ v hv)
  have hinside := restored_overrides_beq ht hheld e
  rw [foldl_applyOverride] at hinside ⊢
  exact Value.beq_trans hinside (Change.merge_foldl_assign_beq (separate_changes e)
    (tidy_assigned e) (changes_ne_nil e) ht hbelow)

section Witness

/-- A template with marked keys below its sections, and a text and a tag in the way of overrides. -/
def markedBelowSections : Manifest where
  body := [(.str "packages", .map [(.str "all:", .map [(.str "providers", .str "none"),
      (.str "compiler:", .seq [.str "clang"])])]),
    (.str "config", .map [(.str "install_tree", .tagged "pin" (.map [(.str "root", .str "/apps")]))]),
    (.str "modules", .map [(.str "default:", .null), (.str "tcl", .bool true)]),
    (.str "view:", .bool false)]
  extra := []

def everyOverride : Environment :=
  .ofTemplate (.ofRoot ⟨"/stack"⟩)
    { compiler := some "gcc", mpi := some "openmpi", installPrefix := some ⟨"/opt"⟩ }
    ⟨"marked", .builtIn ""⟩ markedBelowSections

theorem composed_beq_layers_everyOverride : Tidy (.map everyOverride.manifest.body) ∧
    (∀ name ∈ overriddenSections, ∀ f ∈ entryNamed? everyOverride.manifest.body name,
      isMarked f.1 = false ∧ f.2.isBlank = false) ∧
    (Value.map everyOverride.composed.body == .map (mergeMappings .restore
      (everyOverride.overrides.foldl applyOverride .empty).body
      (everyOverride.manifest.setIncludes everyOverride.includeNames).body)) = true := by
  have h : Tidy (.map everyOverride.manifest.body) := ⟨by decide, by decide⟩
  have hsections : ∀ name ∈ overriddenSections, ∀ f ∈ entryNamed? everyOverride.manifest.body name,
      isMarked f.1 = false ∧ f.2.isBlank = false := by decide
  exact ⟨h, hsections, composed_beq_layers h hsections⟩

end Witness

end Environment
end EnvCompose
