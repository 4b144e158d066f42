import EnvCompose.Text.Split

/-!
# Paths

A path is a text of names between slashes. Nothing is normalised: a path keeps its spelling, and
only its parts are found without regard to doubled slashes and single points.
-/
namespace EnvCompose

structure Path where
  text : String
  deriving DecidableEq, Repr, Inhabited

namespace Path

instance : Coe String Path := ⟨Path.mk⟩

instance : ToString Path := ⟨Path.text⟩

def isEmpty (p : Path) : Bool := p.text.isEmpty

def isAbsolute (p : Path) : Bool := p.text.toList.head? == some '/'

/-- The second path below the first. An absolute second path replaces the first, and an empty one
adds a slash to it. -/
def join (p q : Path) : Path :=
  if q.isAbsolute then q
  else if p.isEmpty || p.text.toList.getLast? == some '/' then ⟨p.text ++ q.text⟩
  else ⟨p.text ++ "/" ++ q.text⟩

/-- The texts between slashes, the one before the first slash of an absolute path empty. -/
def segments (text : List Char) : List (List Char) := Text.split '/' text

/-- Whether a segment is no name: empty, or a point that is not the first segment. -/
def isFiller (first : Bool) (s : List Char) : Bool := s.isEmpty || (!first && s == ['.'])

/-- The segments, last one first, from the last that is a name or leads up. The empty segment in
front of an absolute path is left out. -/
def dropFillers : List (List Char) → List (List Char)
  | [] => []
  | s :: rest => if isFiller rest.isEmpty s then dropFillers rest else s :: rest

def joinSegments (reversed : List (List Char)) : String :=
  String.ofList (List.intercalate ['/'] reversed.reverse)

/-- The path without its last name. The root and the empty path have none. -/
def parent? (p : Path) : Option Path :=
  match dropFillers (segments p.text.toList).reverse with
  | [] => none
  | _ :: rest =>
    match dropFillers rest with
    | [] => some ⟨if p.isAbsolute then "/" else ""⟩
    | kept => some ⟨joinSegments kept⟩

/-- The last name, unless the path is empty, a root, or ends in points that lead nowhere or up. -/
def fileName? (p : Path) : Option String :=
  match dropFillers (segments p.text.toList).reverse with
  | [] => none
  | s :: _ => if s == ['.'] || s == ['.', '.'] then none else some (String.ofList s)

/-- The last name without its last point and what follows, unless the name starts with that point.
-/
def fileStem? (p : Path) : Option String :=
  p.fileName?.map fun name =>
    let reversed := name.toList.reverse
    match reversed.dropWhile (· != '.') with
    | [] => name
    | [_] => name
    | _ :: stem => String.ofList stem.reverse

/-- The path and its parents, as many as the bound allows. -/
def ancestorsUpTo : Nat → Path → List Path
  | 0, p => [p]
  | bound + 1, p => p :: (p.parent?.map (ancestorsUpTo bound)).getD []

/-- The path, its parent, and so on up to the root or the empty path. Each is shorter than the one
before. -/
def ancestors (p : Path) : List Path := ancestorsUpTo p.text.length p

end Path
end EnvCompose
