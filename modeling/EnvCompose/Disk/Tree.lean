/-!
# Trees of files

A directory holds members under distinct names, sorted by name, so equal directories are equal
terms.
-/
namespace EnvCompose

inductive Tree where
  | file (octets : ByteArray)
  | directory (members : List (String × Tree))
  deriving Inhabited

/-- The names from the root of a tree down to one of its parts. -/
abbrev Location := List String

namespace Tree

def empty : Tree := .directory []

def isDirectory : Tree → Bool
  | .directory _ => true
  | .file _ => false

def isFile (t : Tree) : Bool := !t.isDirectory

def members : Tree → List (String × Tree)
  | .directory ms => ms
  | .file _ => []

def names (t : Tree) : List String := t.members.map (·.1)

def child? (t : Tree) (name : String) : Option Tree := t.members.lookup name

/-- The members with one put under its name, in the place of the one that has it. -/
def putMember (name : String) (t : Tree) : List (String × Tree) → List (String × Tree)
  | [] => [(name, t)]
  | m :: ms =>
    if name == m.1 then (name, t) :: ms
    else if name < m.1 then (name, t) :: m :: ms
    else m :: putMember name t ms

def dropMember (name : String) (ms : List (String × Tree)) : List (String × Tree) :=
  ms.filter (·.1 != name)

def get? (t : Tree) : Location → Option Tree
  | [] => some t
  | name :: rest => (t.child? name).bind fun c => c.get? rest

/-- The tree with its part at a location replaced. Directories on the way must exist. -/
def put (t : Tree) (new : Tree) : Location → Tree
  | [] => new
  | name :: rest =>
    match t with
    | .file o => .file o
    | .directory ms =>
      match rest, ms.lookup name with
      | [], _ => .directory (putMember name new ms)
      | rest, some c => .directory (putMember name (c.put new rest) ms)
      | _, none => .directory ms

def drop (t : Tree) : Location → Tree
  | [] => t
  | name :: rest =>
    match t with
    | .file o => .file o
    | .directory ms =>
      match rest, ms.lookup name with
      | [], _ => .directory (dropMember name ms)
      | rest, some c => .directory (putMember name (c.drop rest) ms)
      | _, none => .directory ms

end Tree
end EnvCompose
