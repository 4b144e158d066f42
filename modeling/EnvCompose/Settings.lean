import EnvCompose.Environment.Basic
import EnvCompose.Toml.Reader

/-!
# Settings of a user

A user's settings override parts of the layout and give defaults for what is created. They also have
a say in where the checkout is: a root that is given wins over the environment variable, this over
the settings, and these over the nearest mark above the working directory.
-/
namespace EnvCompose

structure CreationDefaults where
  dir : Path := defaultDirectory
  site : Option String := none
  deriving DecidableEq, Repr, Inhabited

structure Settings where
  paths : LayoutOverrides := {}
  defaults : CreationDefaults := {}
  deriving DecidableEq, Repr, Inhabited

inductive SettingsError where
  | read (cause : DiskError)
  | parse (cause : Toml.ReadError)
  | noCheckout (start : Path)
  deriving DecidableEq, Repr

def SettingsError.message : SettingsError → String
  | .read cause => s!"failed to read config: {cause.message}"
  | .parse cause => s!"failed to parse config: {cause.message}"
  | .noCheckout start =>
    s!"no spack-stack checkout found from {start} (looked for a .spackstack file)"

namespace Settings
open Toml

def textOf : Value → Except ReadError String
  | .text s => .ok s
  | _ => .error (.unexpectedShape "a string")

/-- The texts of named fields, none for a field that is not there. A record is a table, or an array
of its fields in order. A moment is a record without fields. -/
def fieldsOf (names : List String) (v : Value) : Except ReadError (List (String × String)) :=
  let ofEntries (es : Entries) := (es.filter fun e => names.contains e.1).mapM fun e =>
    return (e.1, ← textOf e.2)
  match v with
  | .inline es => ofEntries es
  | .table _ es => ofEntries es
  | .array items => (names.zip items).mapM fun e => return (e.1, ← textOf e.2)
  | .moment => .ok []
  | _ => .error (.unexpectedShape "a table")

def sectionOf (doc : Entries) (name : String) (fields : List String) :
    Except ReadError (List (String × String)) :=
  match doc.lookup name with
  | some v => fieldsOf fields v
  | none => .ok []

/-- The settings in a text. What has no meaning is left aside. -/
def parse (text : String) : Except ReadError Settings := do
  let doc ← Toml.parse text
  let paths ← sectionOf doc "paths" ["root", "spack", "templates", "sites", "common", "containers"]
  let defaults ← sectionOf doc "defaults" ["dir", "site"]
  let path (name : String) : Option Path := (paths.lookup name).map Path.mk
  return {
    paths := {
      root := path "root", spack := path "spack", templates := path "templates"
      sites := path "sites", common := path "common", containers := path "containers" }
    defaults := {
      dir := ((defaults.lookup "dir").map Path.mk).getD defaultDirectory
      site := defaults.lookup "site" } }

variable {m : Type → Type} [Monad m] [Machine m]

def loadFrom (file : Path) : ExceptT SettingsError m Settings := do
  let text ← (Machine.readText file).adapt .read
  match parse text with
  | .error e => throw (.parse e)
  | .ok s => return s

/-- The directory of settings: the one a variable names by an absolute path, or one in the user's
home. -/
def settingsDirectory : m (Option Path) := do
  let named := (← Machine.variableNamed "XDG_CONFIG_HOME").map Path.mk
  match named.filter Path.isAbsolute with
  | some dir => return some dir
  | none =>
    let home := ((← Machine.variableNamed "HOME").map Path.mk).filter (!·.isEmpty)
    return home.map (·.join ⟨".config"⟩)

def file : m (Option Path) :=
  return (← settingsDirectory).map fun dir => (dir.join ⟨"spack-stack"⟩).join ⟨"config.toml"⟩

/-- The user's settings. A file that cannot be used is as good as none, but is warned of. -/
def load : m Settings := do
  match ← (file : m (Option Path)) with
  | none => return {}
  | some p =>
    if ← Machine.pathExists p then
      match ← (loadFrom p : ExceptT SettingsError m Settings).run with
      | .ok s => return s
      | .error e =>
        Machine.log ⟨.warn, s!"ignoring {p}: {e.message}", []⟩
        return {}
    else return {}

def layout (s : Settings) (root : Option Path) (start : Path) : ExceptT SettingsError m Layout := do
  let named ← (Machine.variableNamed "SPACK_STACK_ROOT" : m (Option String))
  match root <|> named.map Path.mk <|> s.paths.root with
  | some root => return (Layout.ofRoot root).override s.paths
  | none =>
    match ← (Layout.discover start : m (Option Layout)) with
    | some l => return l.override s.paths
    | none => throw (.noCheckout start)

end Settings
end EnvCompose
