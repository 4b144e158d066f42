import EnvCompose.Environment.Options
import EnvCompose.Layout
import EnvCompose.Manifest.Sections
import EnvCompose.Template.Collection

/-!
# Environments

An environment is made from a template, the includes of a site, the common includes, package pins
and a few named overrides. From the weakest to the strongest these are site, common, pins, overrides
and the template itself.
-/
namespace EnvCompose
open Yaml

structure Environment where
  layout : Layout
  name : String
  /-- The directory the environment is made in. -/
  dir : Path
  templateName : String
  /-- The manifest of the template. -/
  manifest : Manifest
  site : Option String
  compiler : Option String
  mpi : Option String
  installPrefix : Option Path
  basePackages : Option Path
  /-- Whether the common includes belong to it. -/
  common : Bool
  /-- Includes after those of site and common. -/
  includes : List String
  deriving Repr

def defaultDirectory : Path := ⟨"envs"⟩

/-- A named override: what it tells and what it assigns. -/
structure NamedOverride where
  message : String
  assignments : List (String × Value)
  deriving Repr

namespace Environment

def noSite : String := "none"

def siteInclude : String := "site"

def commonInclude : String := "common"

def siteOf (o : EnvironmentOptions) : Option String := o.site.filter (· != noSite)

/-- The environment that options ask for, from a template and its manifest. Unless the options name
it, it goes by template and site. -/
def ofTemplate (l : Layout) (o : EnvironmentOptions) (t : Template) (manifest : Manifest) :
    Environment where
  layout := l
  name := o.name.getD (t.name ++ "." ++ (siteOf o).getD noSite)
  dir := o.dir.getD defaultDirectory
  templateName := t.name
  manifest := manifest
  site := siteOf o
  compiler := o.compiler
  mpi := o.mpi
  installPrefix := o.installPrefix
  basePackages := o.basePackages
  common := !o.noCommon
  includes := o.includes

def directory (e : Environment) : Path := e.dir.join ⟨e.name⟩

def addIncludes (e : Environment) (names : List String) : Environment :=
  { e with includes := e.includes ++ names }

def siteDirectory (e : Environment) : Except BuildError Path :=
  match e.site with
  | some site => .ok (e.layout.siteDir site)
  | none => .error .siteNotSet

/-- The includes in the order of the manifest, the weakest first. Pins make the common include
one of them too. -/
def includeNames (e : Environment) : List String :=
  (if e.site.isSome then [siteInclude] else []) ++
    (if e.common || e.basePackages.isSome then [commonInclude] else []) ++ e.includes

def only (s : String) : Value := .seq [.str s]

def overrides (e : Environment) : List NamedOverride :=
  (e.compiler.map fun c =>
    ⟨s!"setting compiler {c}", [("packages:all:compiler", only c)]⟩).toList ++
  (e.mpi.map fun p =>
    ⟨s!"setting mpi provider {p}", [("packages:all:providers:mpi", only p)]⟩).toList ++
  (e.installPrefix.map fun root =>
    let modules := Value.str (root.join ⟨"modulefiles"⟩).text
    ⟨s!"setting install prefix {root}",
      [("config:install_tree:root", .str root.text), ("modules:default:roots:lmod", modules),
        ("modules:default:roots:tcl", modules)]⟩).toList

def applyOverride (m : Manifest) (o : NamedOverride) : Manifest :=
  o.assignments.foldl (fun m a => m.set a.1 a.2) m

/-- The manifest of the environment: the template's with the list of includes and the overrides, as
far as the template leaves room for them. -/
def composed (e : Environment) : Manifest :=
  let template := e.manifest.setIncludes e.includeNames
  (e.overrides.foldl applyOverride template).restoreSections template.configSections

variable {m : Type → Type} [Monad m] [Machine m]

/-- The environment that options ask for. Nothing is written. -/
def new (l : Layout) (o : EnvironmentOptions) : Build m Environment := do
  let templates : TemplateCollection := ⟨some l.templates⟩
  let template ← (templates.resolve o.template).adapt BuildError.ofTemplate
  let text ← template.read.adapt BuildError.ofTemplate
  let manifest ← (ExceptT.mk (pure (Manifest.parse text)) : Build m Manifest)
  return ofTemplate l o template manifest

end Environment
end EnvCompose
