import EnvCompose.Environment.Write

/-!
# Containers

The manifest of a container is its definition merged with package pins and the template of an
application. The pins are the weakest of these and the definition the strongest.
-/
namespace EnvCompose
open Yaml Merge

structure Container where
  /-- The file of the definition. -/
  definition : Path
  template : Template
  name : String
  /-- The directory the container's own directory is made in. -/
  dir : Path
  basePackages : Option Path
  deriving Repr

namespace Container

def templateLabel : String := "container:labels:app"

/-- The part of a name or path of a definition that names the container. -/
def stem (definition : String) : String := (Path.fileStem? ⟨definition⟩).getD definition

def directory (c : Container) : Path := c.dir.join ⟨c.name⟩

/-- The layers of a container's manifest put together: the definition, the packages of the pins, the
template, and the definition once more so that it wins. -/
def composeLayers (definition template : Manifest) (packages : Option Value) (label : String) :
    Manifest :=
  let pinned := match packages with
    | some v => definition.mergeSection "packages" v .layer
    | none => definition
  ((pinned.merge template .layer).merge definition .layer).set templateLabel (.str label)

/-- The packages of a document of pins. -/
def packagesOf? (pins : Value) : Option Value :=
  pins.entries?.bind fun entries => entries.get? (.str "packages")

variable {m : Type → Type} [Monad m] [Machine m]

/-- The file of a definition, given by name in a directory or by absolute path. -/
def findDefinition (dir : Path) (definition : String) : Build m Path := do
  let named := dir.join ⟨definition ++ ".yaml"⟩
  let isName := !definition.toList.any fun c => c == '/' || c == '\\'
  if isName && (← (Machine.isFile named : m Bool)) then return named
  let p : Path := ⟨definition⟩
  if p.isAbsolute && (← (Machine.isFile p : m Bool)) then return p
  throw (.invalidContainer definition)

/-- The container of a definition and a template. Nothing is written. -/
def new (definitions : Path) (templates : TemplateCollection) (definition template : String)
    (name : Option String) (dir : Path) (basePackages : Option Path) : Build m Container := do
  let file ← findDefinition definitions definition
  let t ← (templates.resolve (some template)).adapt BuildError.ofTemplate
  return ⟨file, t, name.getD (t.name ++ "." ++ stem definition), dir, basePackages⟩

def loadPackages (pins : Path) : Build m Value := do
  match packagesOf? (← loadUnmarked pins) with
  | some packages =>
    (Machine.debug s!"merging package pins from {pins}" : m Unit)
    return packages
  | none => throw (.invalidManifest (.noPackages pins))

/-- The manifest of the container. Nothing is written. -/
def compose (c : Container) : Build m Manifest := do
  let text ← c.template.read.adapt BuildError.ofTemplate
  let template ← (ExceptT.mk (pure (Manifest.parse text)) : Build m Manifest)
  let definition ← Manifest.load c.definition
  let packages ← c.basePackages.mapM loadPackages
  return composeLayers definition template.unmark packages c.template.name

/-- Writes the manifest to a directory of its own. The answer is its file. -/
def write (c : Container) : Build m Path := do
  if ← (Machine.pathExists c.directory : m Bool) then throw (.alreadyExists c.directory)
  let manifest ← c.compose
  Environment.makeDirectory c.directory
  let file := c.directory.join manifestFile
  manifest.write file none
  (Machine.info s!"successfully wrote container manifest at {file}" : m Unit)
  return file

end Container
end EnvCompose
