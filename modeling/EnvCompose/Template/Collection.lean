import EnvCompose.Template.Basic

/-!
# Collections of templates

A collection has the built-in templates and those in the members of a directory, which hide built-in
ones of the same name.
-/
namespace EnvCompose

structure TemplateCollection where
  /-- The directory, absent if there are built-in templates only. -/
  dir : Option Path
  deriving DecidableEq, Repr

namespace TemplateCollection

/-- Whether a text can name a member of a directory. -/
def isMemberName (name : String) : Bool :=
  !(name == "" || name == "." || name == ".." || name.toList.any fun c => c == '/' || c == '\\')

variable {m : Type → Type} [Monad m] [Machine m]

def member? (c : TemplateCollection) (name : String) : m (Option Template) :=
  match c.dir with
  | some dir => if isMemberName name then Template.inDirectory? (dir.join ⟨name⟩) else return none
  | none => return none

def get (c : TemplateCollection) (name : String) : ExceptT TemplateError m Template := do
  match ← (c.member? name : m (Option Template)) with
  | some t => return t
  | none =>
    match Template.builtIns.find? (·.name == name) with
    | some t => return t
    | none => throw (.unknown name)

/-- The template an identifier leads to: an absolute path or a name, and the default one if none is
given. -/
def resolve (c : TemplateCollection) (identifier : Option String) :
    ExceptT TemplateError m Template := do
  match identifier with
  | none => c.get Template.defaultName
  | some id =>
    if (⟨id⟩ : Path).isAbsolute then
      match ← (Template.at? ⟨id⟩ : m (Option Template)) with
      | some t => return t
      | none => throw (.unknown id)
    else c.get id

def members (c : TemplateCollection) : ExceptT TemplateError m (List Template) := do
  match c.dir with
  | none => return []
  | some dir =>
    if ← (Machine.isDirectory dir : m Bool) then
      let names ← (Machine.list dir).adapt .unreadable
      let found ←
        (names.mapM fun name => Template.inDirectory? (dir.join ⟨name⟩) : m (List (Option Template)))
      return found.filterMap id
    else return []

def list (c : TemplateCollection) : ExceptT TemplateError m (List Template) := do
  let members ← c.members
  let builtIns := Template.builtIns.filter fun t => members.all (·.name != t.name)
  return (builtIns ++ members).mergeSort fun a b => decide (a.name ≤ b.name)

end TemplateCollection
end EnvCompose
