import EnvCompose.Error
import EnvCompose.Machine

/-!
# Templates

A template is the text an environment starts from. It is built in, lies in a directory of its own,
or is a file.
-/
namespace EnvCompose

inductive TemplateSource where
  | builtIn (text : String)
  | directory (dir manifest : Path)
  | file (manifest : Path)
  deriving DecidableEq, Repr

structure Template where
  name : String
  source : TemplateSource
  deriving DecidableEq, Repr

def manifestFile : Path := ⟨"spack.yaml"⟩

namespace Template

def defaultName : String := "empty"

def builtIns : List Template := [⟨defaultName, .builtIn "spack:\n  view: false\n"⟩]

def manifestPath? (t : Template) : Option Path :=
  match t.source with
  | .builtIn _ => none
  | .directory _ manifest => some manifest
  | .file manifest => some manifest

variable {m : Type → Type} [Monad m] [Machine m]

def read (t : Template) : ExceptT TemplateError m String :=
  match t.source with
  | .builtIn text => pure text
  | .directory _ manifest => (Machine.readText manifest).adapt .unreadable
  | .file manifest => (Machine.readText manifest).adapt .unreadable

/-- The template in a directory, if it holds a manifest. -/
def inDirectory? (dir : Path) : m (Option Template) := do
  let manifest := dir.join manifestFile
  if (← Machine.isDirectory dir) && (← Machine.isFile manifest) then
    return dir.fileName?.map fun name => ⟨name, .directory dir manifest⟩
  else return none

/-- The template at an absolute path, which leads to a directory with a manifest or to a file. -/
def at? (p : Path) : m (Option Template) := do
  match ← Machine.kind? p with
  | some .directory => inDirectory? p
  | some .file => return p.fileStem?.map fun name => ⟨name, .file p⟩
  | none => return none

end Template
end EnvCompose
