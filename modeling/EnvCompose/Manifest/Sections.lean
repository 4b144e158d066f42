import EnvCompose.Manifest.Basic

/-!
# Merging manifests and restoring their sections

Manifests are merged part by part. A snapshot of the configuration sections, merged back with
`restore`, lets what was there before win over what has been set since.
-/
namespace EnvCompose.Manifest
open Yaml Merge

def sectionNames : List String :=
  ["bootstrap", "cdash", "ci", "compilers", "concretizer", "config", "container", "definitions",
    "develop", "mirrors", "modules", "packages", "repos", "upstreams"]

def merge (m other : Manifest) (s : Strategy) : Manifest where
  body := mergeMappings s m.body other.body
  extra := mergeMappings s m.extra other.extra

/-- A value merged into a section, or put there if there is none. -/
def mergeSection (m : Manifest) (name : String) (v : Value) (s : Strategy) : Manifest :=
  m.set name (match m.get? name with
    | some existing => Merge.merge s existing v
    | none => v)

def includes (m : Manifest) : List String :=
  (((m.get? "include").bind Value.items?).getD []).filterMap Value.text?

def setIncludes (m : Manifest) (names : List String) : Manifest :=
  m.set "include" (.seq (names.map .str))

/-- The configuration sections that hold something, by name. -/
def configSections (m : Manifest) : Mapping :=
  sectionNames.filterMap fun name =>
    ((m.get? name).filter (!·.isBlank)).map fun v => (.str name, v)

/-- One section of a snapshot merged back into the section of that name, if there still is one. -/
def restoreSection (m : Manifest) (e : Value × Value) : Manifest :=
  match e.1.text? with
  | none => m
  | some name =>
    match m.get? name with
    | none => m
    | some existing => m.set name (Merge.merge .restore existing e.2)

/-- The sections of a snapshot merged back, one after the other. -/
def restoreSections (m : Manifest) (snapshot : Mapping) : Manifest :=
  snapshot.foldl restoreSection m

/-- The manifest without override markers in its body. -/
def unmark (m : Manifest) : Manifest := { m with body := Mapping.ofList (unmarkEntries m.body) }

end EnvCompose.Manifest
