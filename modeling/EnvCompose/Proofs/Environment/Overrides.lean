import EnvCompose.Environment.Basic
import EnvCompose.Proofs.Manifest.Changes
import EnvCompose.Proofs.Yaml.Identity
import EnvCompose.Proofs.Yaml.Reading

/-!
# What becomes of the named overrides

A named override assigns values at paths of the template's manifest, and the template's sections are
restored afterwards. A value stays where the template leaves its path open; elsewhere the template's
own value is there again.
-/
namespace EnvCompose
open Yaml Merge Manifest

namespace Manifest

theorem namesOn_section {name : String} (h : name ∈ sectionNames) : namesOn name = [name] := by
  revert h name
  decide

theorem isName_section {name : String} (h : name ∈ sectionNames) : IsName name :=
  isName_of_mem_namesOn name (by rw [namesOn_section h]; simp)

/-- The list of includes is no configuration section, so setting it leaves all of these. -/
theorem entryFor?_setIncludes {name : String} (h : name ∈ sectionNames) (m : Manifest)
    (includes : List String) :
    entryFor? (m.setIncludes includes).body (.str name) = entryFor? m.body (.str name) := by
  have hne : name ≠ "include" := by rintro rfl; revert h; decide
  have hinclude : IsName "include" := isName_of_mem_namesOn "include" (by decide)
  exact entryFor?_assign_of_ne hinclude (keyMatches_names (isName_section h) hinclude hne) [] _

theorem get?_setIncludes {name : String} (h : name ∈ sectionNames) (m : Manifest)
    (includes : List String) : (m.setIncludes includes).get? name = m.get? name := by
  have hp := namesOn_section h
  have hn := isName_section h
  rw [get?_section hp hn, get?_section hp hn, valueFor?, valueFor?, entryFor?_setIncludes h]

/-- Values set one after the other are assigned in the body in that order. -/
theorem foldl_set (l : List (String × Value)) (m : Manifest) :
    l.foldl (fun m a => m.set a.1 a.2) m =
      ⟨(l.map fun a => (namesOn a.1, a.2)).foldl (fun body a => assign body a.1 a.2) m.body,
        m.extra⟩ := by
  induction l generalizing m with
  | nil => rfl
  | cons a l ih => exact ih (m.set a.1 a.2)

/-- A snapshot that is restored merges back the sections it has and leaves the rest alone. -/
theorem valueFor?_restoreSections_configSections {other : String} (ho : IsName other)
    (m before : Manifest) :
    valueFor? (m.restoreSections before.configSections).body (.str other) =
      if other ∈ sectionNames then restored (before.heldSection other) (valueFor? m.body (.str other))
      else valueFor? m.body (.str other) :=
  valueFor?_restoreSections (fun _ => namesOn_section) (fun _ => isName_section) (by decide) ho
    m before

end Manifest

namespace Environment

/-- Whether a template's manifest leaves a path open: its section is not there or holds nothing, or
a mapping in it leaves room. -/
def IsOpen (template : Manifest) (path : String) : Prop :=
  ∃ first names, namesOn path = first :: names ∧
    ((∀ v ∈ template.get? first, v.isBlank = true) ∨
      ∃ v, template.get? first = some v ∧ LeavesRoom names v)

theorem isOpen_iff {template : Manifest} {path first : String} {names : List String}
    (hnames : namesOn path = first :: names) : IsOpen template path ↔
      (∀ v ∈ template.get? first, v.isBlank = true) ∨
        ∃ v, template.get? first = some v ∧ LeavesRoom names v := by
  constructor
  · rintro ⟨first', names', hnames', hcase⟩
    obtain ⟨rfl, rfl⟩ := List.cons.inj (hnames.symm.trans hnames')
    exact hcase
  · exact fun hcase => ⟨first, names, hnames, hcase⟩

instance (template : Manifest) (path : String) : Decidable (IsOpen template path) :=
  match hnames : namesOn path with
  | [] => isFalse fun ⟨first, names, hnames', _⟩ => by simp [hnames] at hnames'
  | first :: names =>
    match hget : template.get? first with
    | none => isTrue ((isOpen_iff hnames).mpr (.inl (by simp [hget])))
    | some v => decidable_of_iff (v.isBlank = true ∨ LeavesRoom names v)
        (by simp [isOpen_iff hnames, hget])

def assignments (e : Environment) : List (String × Value) := e.overrides.flatMap (·.assignments)

def overridePaths : List String :=
  ["packages:all:compiler", "packages:all:providers:mpi", "config:install_tree:root",
    "modules:default:roots:lmod", "modules:default:roots:tcl"]

theorem assignments_sublist (e : Environment) :
    (e.assignments.map (·.1)).Sublist overridePaths := by
  unfold assignments overrides
  rcases e.compiler with _ | c <;> rcases e.mpi with _ | p <;> rcases e.installPrefix with _ | root <;>
    simp [overridePaths]

/-- The assignments by the names on their paths. -/
def changes (e : Environment) : List Change := e.assignments.map fun a => (namesOn a.1, a.2)

theorem assigned_values (e : Environment) :
    ∀ a ∈ e.assignments, a.2.proper = true ∧ ∀ m, a.2 ≠ .map m := by
  unfold assignments overrides
  rcases e.compiler with _ | c <;> rcases e.mpi with _ | p <;> rcases e.installPrefix with _ | root <;>
    simp [only]

theorem separate_changes (e : Environment) : Change.Separate e.changes where
  names a ha name hname := by
    obtain ⟨b, -, rfl⟩ := List.mem_map.mp ha
    exact isName_of_mem_namesOn _ hname
  values a ha := by
    obtain ⟨b, hb, rfl⟩ := List.mem_map.mp ha
    exact assigned_values e b hb
  apart := by
    have hpaths : overridePaths.Pairwise fun p q =>
        ¬namesOn p <+: namesOn q ∧ ¬namesOn q <+: namesOn p := by decide
    have hassigned := List.pairwise_map.mp (hpaths.sublist (assignments_sublist e))
    exact List.pairwise_map.mpr hassigned

/-- Each override assigns below a configuration section. -/
theorem names_of_mem_assignments {e : Environment} {path : String} {v : Value}
    (h : (path, v) ∈ e.assignments) : ∃ first names, namesOn path = first :: names ∧ names ≠ [] ∧
      first ∈ sectionNames := by
  have hpath := (assignments_sublist e).subset (List.mem_map_of_mem h)
  have hall : ∀ p ∈ overridePaths, 1 < (namesOn p).length ∧
      ∀ first ∈ (namesOn p).head?, first ∈ sectionNames := by decide
  obtain ⟨hlength, hsection⟩ := hall path hpath
  cases hnames : namesOn path with
  | nil => simp [hnames] at hlength
  | cons first names =>
    rw [hnames] at hlength hsection
    exact ⟨first, names, rfl, by rintro rfl; simp at hlength, hsection first rfl⟩

theorem foldl_applyOverride_eq (overrides : List NamedOverride) (m : Manifest) :
    overrides.foldl applyOverride m =
      (overrides.flatMap (·.assignments)).foldl (fun m a => m.set a.1 a.2) m :=
  List.foldl_flatMap.symm

theorem foldl_applyOverride (overrides : List NamedOverride) (m : Manifest) :
    (overrides.foldl applyOverride m).body =
      ((overrides.flatMap (·.assignments)).map fun a => (namesOn a.1, a.2)).foldl
        (fun body a => assign body a.1 a.2) m.body := by
  rw [foldl_applyOverride_eq, foldl_set]

theorem changes_ne_nil (e : Environment) : ∀ a ∈ e.changes, a.1 ≠ [] := by
  intro a ha
  obtain ⟨b, hb, rfl⟩ := List.mem_map.mp ha
  obtain ⟨first, names, hnames, -⟩ := names_of_mem_assignments hb
  simp [hnames]

/-- What the named overrides make of a value in the body. -/
theorem valueFor?_overridden (e : Environment) {name : String} (hn : IsName name) (m : Manifest) :
    valueFor? (e.overrides.foldl applyOverride m).body (.str name) =
      Change.apply (Change.below name e.changes) (valueFor? m.body (.str name)) := by
  rw [foldl_applyOverride]
  exact Change.valueFor?_foldl_assign (separate_changes e).names (changes_ne_nil e) hn _

/-- A section of the environment's manifest: what the changes make of the template's, with the
template's own merged back. -/
theorem valueFor?_composed (e : Environment) {name : String} (h : name ∈ sectionNames) :
    valueFor? e.composed.body (.str name) = restored (e.manifest.heldSection name)
      (Change.apply (Change.below name e.changes) (e.manifest.get? name)) := by
  have hp := namesOn_section h
  have hn := isName_section h
  have hget := get?_setIncludes h e.manifest e.includeNames
  have hsections := valueFor?_restoreSections_configSections hn
    (e.overrides.foldl applyOverride (e.manifest.setIncludes e.includeNames))
    (e.manifest.setIncludes e.includeNames)
  rw [if_pos h] at hsections
  refine hsections.trans ?_
  rw [heldSection, heldSection, hget, valueFor?_overridden e hn, ← get?_section hp hn, hget]

/-- Neither the overrides nor the template's sections touch the list of includes. -/
theorem composed_includes (e : Environment) : e.composed.includes = e.includeNames := by
  have hp : namesOn "include" = ["include"] := by decide
  have hn : IsName "include" := isName_of_mem_namesOn "include" (by decide)
  have hsections := valueFor?_restoreSections_configSections hn
    (e.overrides.foldl applyOverride (e.manifest.setIncludes e.includeNames))
    (e.manifest.setIncludes e.includeNames)
  have hbelow : Change.below "include" e.changes = [] := by
    rw [List.eq_nil_iff_forall_not_mem]
    rintro ⟨names, v⟩ hmem
    obtain ⟨⟨path, u⟩, hmem, heq⟩ := List.mem_map.mp (Change.mem_below.mp hmem)
    obtain ⟨first, rest, hnames, -, hsection⟩ := names_of_mem_assignments hmem
    rw [Prod.mk.injEq, hnames, List.cons.injEq] at heq
    rw [heq.1.1] at hsection
    exact absurd hsection (by decide)
  rw [if_neg (by decide), valueFor?_overridden e hn, hbelow, setIncludes,
    valueFor?_set_section hp hn hn, if_pos rfl] at hsections
  have hget : e.composed.get? "include" = some (.seq (e.includeNames.map .str)) := by
    rw [get?_section hp hn]
    exact hsections
  have htexts : ∀ names : List String, (names.map Value.str).filterMap Value.text? = names := by
    intro names
    induction names with
    | nil => rfl
    | cons name names ih => exact congrArg (name :: ·) ih
  rw [Manifest.includes, hget]
  exact htexts e.includeNames

/-- Whatever compiler, provider and prefix are named, each value assigned stays where the template
leaves its path open, and elsewhere the environment has what the template has. -/
theorem composed_get?_override {text : String} {e : Environment}
    (h : Manifest.parse text = .ok e.manifest) {path : String} {v : Value}
    (hv : (path, v) ∈ e.assignments) :
    (IsOpen e.manifest path → e.composed.get? path = some v) ∧
      (¬IsOpen e.manifest path → e.composed.get? path = e.manifest.get? path) := by
  obtain ⟨first, names, hnames, hne, hsection⟩ := names_of_mem_assignments hv
  have hn := isName_section hsection
  have hmem : (names, v) ∈ Change.below first e.changes :=
    Change.mem_below.mpr (List.mem_map.mpr ⟨(path, v), hv, by rw [hnames]⟩)
  have hseparate := (separate_changes e).below first
  have hget (m : Manifest) : m.get? path = (valueFor? m.body (.str first)).bind (lookup names) := by
    rw [get?, hnames]
    exact lookup_cons_map hn names m.body
  rw [hget, hget, valueFor?_composed e hsection, ← get?_section (namesOn_section hsection) hn,
    isOpen_iff hnames, heldSection]
  cases hold : e.manifest.get? first with
  | none =>
    have hblank : ∀ u ∈ (none : Option Value), u.isBlank = true := by simp
    obtain ⟨new, hnew, hlookup⟩ := Change.lookup_apply_of_blank hseparate hblank hmem
    rw [hnew]
    exact ⟨fun _ => hlookup, fun hclosed => (hclosed (.inl hblank)).elim⟩
  | some old =>
    cases hempty : old.isBlank with
    | true =>
      have hblank : ∀ u ∈ some old, u.isBlank = true := by simpa using hempty
      obtain ⟨new, hnew, hlookup⟩ := Change.lookup_apply_of_blank hseparate hblank hmem
      rw [hnew, Option.filter_some, hempty]
      exact ⟨fun _ => hlookup, fun hclosed => (hclosed (.inl hblank)).elim⟩
    | false =>
      have hproper : old.proper = true := by
        rw [get?_section (namesOn_section hsection) hn] at hold
        obtain ⟨f, hf, rfl⟩ := Option.map_eq_some_iff.mp hold
        have hbody := (Value.proper_map _).mp (proper_of_parse h).1
        exact (hbody.2 f (mem_of_entryFor? hf)).2
      obtain ⟨new, hnew, hroom, hclosed⟩ := Change.lookup_restored hseparate hproper hne hmem
      rw [hnew, Option.filter_some, hempty]
      simpa [restored, hempty] using And.intro hroom hclosed

section Witness

/-- A template that has a compiler, marks the prefix's mapping and leaves a section blank. -/
def partlyOpenText : String :=
  "spack:\n  packages:\n    all:\n      compiler: [clang]\n  config:\n    install_tree::\n" ++
    "      padding: 8\n  modules: {}\n"

def partlyOpen : Manifest where
  body := [
    (.str "packages", .map [(.str "all", .map [(.str "compiler", .seq [.str "clang"])])]),
    (.str "config", .map [(.str "install_tree:", .map [(.str "padding", .int 8)])]),
    (.str "modules", .map [])]
  extra := []

def allNamed : Environment :=
  ofTemplate (.ofRoot ⟨"/stack"⟩)
    { compiler := some "gcc", mpi := some "openmpi", installPrefix := some ⟨"/opt"⟩ }
    ⟨"partly", .builtIn partlyOpenText⟩ partlyOpen

theorem composed_get?_override_partlyOpen :
    Manifest.parse partlyOpenText = .ok allNamed.manifest ∧
      allNamed.assignments = [("packages:all:compiler", only "gcc"),
        ("packages:all:providers:mpi", only "openmpi"), ("config:install_tree:root", .str "/opt"),
        ("modules:default:roots:lmod", .str "/opt/modulefiles"),
        ("modules:default:roots:tcl", .str "/opt/modulefiles")] ∧
      (¬IsOpen allNamed.manifest "packages:all:compiler" ∧
        allNamed.composed.get? "packages:all:compiler" = some (.seq [.str "clang"])) ∧
      (IsOpen allNamed.manifest "packages:all:providers:mpi" ∧
        allNamed.composed.get? "packages:all:providers:mpi" = some (only "openmpi")) ∧
      (¬IsOpen allNamed.manifest "config:install_tree:root" ∧
        allNamed.composed.get? "config:install_tree:root" = none) ∧
      IsOpen allNamed.manifest "modules:default:roots:lmod" ∧
        allNamed.composed.get? "modules:default:roots:lmod" = some (.str "/opt/modulefiles") := by
  have hm : Manifest.parse partlyOpenText = .ok allNamed.manifest :=
    Manifest.parse_of_identical (by decide +kernel)
  have hassigned : allNamed.assignments = [("packages:all:compiler", only "gcc"),
      ("packages:all:providers:mpi", only "openmpi"), ("config:install_tree:root", .str "/opt"),
      ("modules:default:roots:lmod", .str "/opt/modulefiles"),
      ("modules:default:roots:tcl", .str "/opt/modulefiles")] := rfl
  have hcompiler : ("packages:all:compiler", only "gcc") ∈ allNamed.assignments := by
    simp [hassigned]
  have hprovider : ("packages:all:providers:mpi", only "openmpi") ∈ allNamed.assignments := by
    simp [hassigned]
  have hprefix : ("config:install_tree:root", .str "/opt") ∈ allNamed.assignments := by
    simp [hassigned]
  have hroots : ("modules:default:roots:lmod", .str "/opt/modulefiles") ∈ allNamed.assignments := by
    simp [hassigned]
  refine ⟨hm, hassigned, ⟨by decide, ?_⟩, ⟨by decide, ?_⟩, ⟨by decide, ?_⟩, by decide, ?_⟩
  · exact (composed_get?_override hm hcompiler).2 (by decide)
  · exact (composed_get?_override hm hprovider).1 (by decide)
  · exact (composed_get?_override hm hprefix).2 (by decide)
  · exact (composed_get?_override hm hroots).1 (by decide)

end Witness

end Environment
end EnvCompose
