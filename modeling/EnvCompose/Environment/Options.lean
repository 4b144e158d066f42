import EnvCompose.Manifest.File
import EnvCompose.Yaml.Field

/-!
# Options of an environment

Options come from flags, files and defaults, which are put together field by field.
-/
namespace EnvCompose
open Yaml

structure EnvironmentOptions where
  /-- The name, by default made of the names of template and site. -/
  name : Option String := none
  /-- The directory the environment is made in. -/
  dir : Option Path := none
  /-- The name or absolute path of the template. -/
  template : Option String := none
  site : Option String := none
  compiler : Option String := none
  mpi : Option String := none
  /-- The root of the install tree. -/
  installPrefix : Option Path := none
  /-- A file of package pins in the place of the common one. -/
  basePackages : Option Path := none
  /-- Leaves out the common includes. -/
  noCommon : Bool := false
  /-- Further includes, after those of site and common. -/
  includes : List String := []
  deriving DecidableEq, Repr, Inhabited

namespace EnvironmentOptions

/-- The options with what they leave open taken from others. -/
def orElse (a b : EnvironmentOptions) : EnvironmentOptions where
  name := a.name <|> b.name
  dir := a.dir <|> b.dir
  template := a.template <|> b.template
  site := a.site <|> b.site
  compiler := a.compiler <|> b.compiler
  mpi := a.mpi <|> b.mpi
  installPrefix := a.installPrefix <|> b.installPrefix
  basePackages := a.basePackages <|> b.basePackages
  noCommon := a.noCommon || b.noCommon
  includes := if a.includes.isEmpty then b.includes else a.includes

def fieldNames : List String :=
  ["name", "dir", "template", "site", "compiler", "mpi", "install_prefix", "base_packages",
    "no_common", "includes"]

/-- The options with one field as a node says. -/
def withField (d : Document) (o : EnvironmentOptions) (f : String × Node) :
    Document.Read EnvironmentOptions := do
  match f.1 with
  | "name" => return { o with name := ← d.text? f.2 }
  | "dir" => return { o with dir := (← d.text? f.2).map Path.mk }
  | "template" => return { o with template := ← d.text? f.2 }
  | "site" => return { o with site := ← d.text? f.2 }
  | "compiler" => return { o with compiler := ← d.text? f.2 }
  | "mpi" => return { o with mpi := ← d.text? f.2 }
  | "install_prefix" => return { o with installPrefix := (← d.text? f.2).map Path.mk }
  | "base_packages" => return { o with basePackages := (← d.text? f.2).map Path.mk }
  | "no_common" => return { o with noCommon := ← d.truth f.2 }
  | _ => return { o with includes := ← d.texts f.2 }

def parse (text : String) : Except ReadError EnvironmentOptions := do
  match ← Document.ofText? text with
  | none => return {}
  | some d =>
    let read : Document.Read EnvironmentOptions := do
      (← d.fields fieldNames d.root).foldlM (withField d) {}
    read.run' 0

variable {m : Type → Type} [Monad m] [Machine m]

def load (file : Path) : Build m EnvironmentOptions := do
  let text ← readDocument file
  match parse text with
  | .error e => throw (.parse e)
  | .ok o => return o

end EnvironmentOptions
end EnvCompose
