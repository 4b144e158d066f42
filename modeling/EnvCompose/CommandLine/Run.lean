import EnvCompose.CommandLine.Invocation
import EnvCompose.Container
import EnvCompose.Settings

/-!
# Running commands

A command ends with a report: what it prints, what it complains of, and whether it has succeeded.
-/
namespace EnvCompose.CommandLine

structure Report where
  succeeded : Bool
  /-- Lines for the output. -/
  output : List String := []
  /-- Lines for the error stream, after the log. -/
  complaints : List String := []
  deriving DecidableEq, Repr

namespace Report

def success (output : List String) : Report := { succeeded := true, output }

def failure (message : String) (hints : List String) : Report :=
  { succeeded := false, complaints := ("error: " ++ message) :: hints.map ("hint: " ++ ·) }

end Report

def padded (width : Nat) (s : String) : String := s ++ "".pushn ' ' (width - s.length)

def templateLine (t : Template) : String :=
  let place := match t.manifestPath? with
    | some p => p.text
    | none => "(built-in)"
  "  " ++ padded 25 t.name ++ " " ++ place

variable {m : Type → Type} [Monad m] [Machine m]

/-- The user's settings and the layout to work with, or why there is none. -/
def prepare (root : Option Path) : m (Except Report (Settings × Layout)) := do
  let settings ← Settings.load
  match ← (Machine.workingDirectory : Attempt m Path).run with
  | .error e => return .error (.failure ("cannot determine working directory: " ++ e.message) [])
  | .ok start =>
    match ← (settings.layout root start : ExceptT SettingsError m Layout).run with
    | .error e => return .error (.failure e.message ["pass --root or set SPACK_STACK_ROOT"])
    | .ok l =>
      Machine.log ⟨.debug, "resolved stack checkout",
        [("root", l.root.text), ("templates", l.templates.text)]⟩
      return .ok (settings, l)

/-- Options from flags, a file and the settings, the former first. -/
def gatherOptions (s : Settings) (flags : EnvironmentOptions) (file : Option Path) :
    Build m EnvironmentOptions := do
  let written ← file.mapM EnvironmentOptions.load
  return (flags.orElse (written.getD {})).orElse { dir := some s.defaults.dir, site := s.defaults.site }

def createEnvironment (s : Settings) (l : Layout) (flags : EnvironmentOptions) (file : Option Path) :
    m Report := do
  match ← (gatherOptions s flags file : Build m EnvironmentOptions).run with
  | .error e => return .failure e.message []
  | .ok options =>
    match ← (Environment.new l options : Build m Environment).run with
    | .error (.unknownTemplate name) =>
      return .failure (BuildError.unknownTemplate name).message
        ["run 'spack-stack templates' to list available templates"]
    | .error e => return .failure e.message []
    | .ok environment =>
      match ← (environment.write checkedOutRevision : Build m Path).run with
      | .ok file => return .success [s!"created environment '{environment.name}' at {file}"]
      | .error e => return .failure e.message []

def createContainer (s : Settings) (l : Layout) (definition template : String) (name : Option String)
    (dir packages : Option Path) : m Report := do
  let made : Build m Container :=
    Container.new l.containers ⟨some l.templates⟩ definition template name
      (dir.getD s.defaults.dir) packages
  match ← made.run with
  | .error e => return .failure e.message []
  | .ok container =>
    match ← (container.write : Build m Path).run with
    | .ok file => return .success [s!"created container '{container.name}' at {file}"]
    | .error e => return .failure e.message []

def listTemplates (l : Layout) : m Report := do
  let templates : TemplateCollection := ⟨some l.templates⟩
  match ← (templates.list : ExceptT TemplateError m (List Template)).run with
  | .ok ts => return .success ("Available templates:" :: ts.map templateLine)
  | .error e => return .failure e.message []

def listSites (l : Layout) : m Report := do
  match ← (l.listSites : Attempt m (List String)).run with
  | .ok [] => return .success [s!"no sites configured in {l.sites}"]
  | .ok sites => return .success ("Available sites:" :: sites.map ("  " ++ ·))
  | .error e => return .failure s!"failed to read {l.sites}: {e.message}" []

def run (i : Invocation) : m Report := do
  match ← (prepare i.root : m (Except Report (Settings × Layout))) with
  | .error report => return report
  | .ok (settings, layout) =>
    match i.command with
    | .createEnvironment options file => createEnvironment settings layout options file
    | .createContainer definition template name dir packages =>
      createContainer settings layout definition template name dir packages
    | .templates => listTemplates layout
    | .sites => listSites layout

end EnvCompose.CommandLine
