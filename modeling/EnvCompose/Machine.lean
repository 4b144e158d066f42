import EnvCompose.Disk.Basic
import EnvCompose.Text.Utf8

/-!
# The machine a build runs on

A build reads and writes files, logs what it does, asks for the revisions of checkouts and keeps
track of the active environment. `Machine m` gives it these means in a monad `m`; everything else a
build does is written in terms of them.
-/
namespace EnvCompose

inductive LogLevel where
  | error | warn | info | debug | trace
  deriving DecidableEq, Repr

structure LogLine where
  level : LogLevel
  message : String
  fields : List (String × String) := []
  deriving DecidableEq, Repr

structure CommandOutput where
  code : Int
  stdout : ByteArray
  stderr : ByteArray
  deriving Inhabited

abbrev Attempt (m : Type → Type) := ExceptT DiskError m

/-- Each operation that fails leaves the machine as it is. -/
class Machine (m : Type → Type) where
  kind : Path → Attempt m Kind
  read : Path → Attempt m ByteArray
  /-- The names in a directory, in order. -/
  list : Path → Attempt m (List String)
  makeDirectory : Path → Attempt m Unit
  copyFile : Path → Path → Attempt m Unit
  /-- An empty file with a name of its own in a directory. -/
  createTemporary : Path → Attempt m Path
  writeFile : Path → ByteArray → Attempt m Unit
  /-- Waits until a file's content is safe. -/
  sync : Path → Attempt m Unit
  rename : Path → Path → Attempt m Unit
  remove : Path → Attempt m Unit
  /-- What the version control program says of the revision checked out in a directory. -/
  askRevision : Path → Attempt m CommandOutput
  /-- The value of a variable of the environment the program runs in. -/
  variableNamed : String → m (Option String)
  workingDirectory : Attempt m Path
  log : LogLine → m Unit
  /-- The path of the active environment. -/
  active : m (Option Path)
  setActive : Option Path → m Unit

namespace Machine

variable {m : Type → Type} [Monad m] [Machine m]

def kind? (p : Path) : m (Option Kind) := do
  return (← (kind p : Attempt m Kind).run).toOption

def pathExists (p : Path) : m Bool := return (← kind? p).isSome

def isFile (p : Path) : m Bool := return (← kind? p) == some .file

def isDirectory (p : Path) : m Bool := return (← kind? p) == some .directory

def readText (p : Path) : Attempt m String := do
  match Text.decode? (← read p) with
  | some s => return s
  | none => throw .notText

/-- A directory that is there already is as good as a new one. -/
def acceptDirectory (p : Path) (e : DiskError) : Attempt m Unit := do
  unless e == .alreadyExists && (← (isDirectory p : m Bool)) do throw e

/-- Makes a directory, after those around it where they are missing, as many as the bound allows.
The root and the empty path are always there. -/
def makeUpTo (bound : Nat) (p : Path) : Attempt m Unit :=
  match p.parent?, bound with
  | none, _ => pure ()
  | some _, 0 => makeDirectory p
  | some parent, bound + 1 =>
    tryCatch (makeDirectory p) fun e => do
      unless e == .notFound do return ← acceptDirectory p e
      makeUpTo bound parent
      tryCatch (makeDirectory p) (acceptDirectory p)

/-- Makes a directory and those around it, as far as they are missing. A parent's path is shorter,
so no more of them than characters are tried. -/
def makeDirectories (p : Path) : Attempt m Unit := makeUpTo p.text.length p

def debug (message : String) : m Unit := log ⟨.debug, message, []⟩

def info (message : String) : m Unit := log ⟨.info, message, []⟩

end Machine
end EnvCompose
