import EnvCompose.Disk.Error
import EnvCompose.Disk.Tree
import EnvCompose.Path

/-!
# A disk

A disk is a tree and the directory in which relative paths start. Each operation either fails and
leaves the disk as it is or does one thing. There are no links, so two points lead to the directory
around.
-/
namespace EnvCompose

structure Disk where
  root : Tree
  /-- The working directory. -/
  home : Location
  deriving Inhabited

inductive Kind where
  | file
  | directory
  deriving DecidableEq, Repr

namespace Disk

def maxName : Nat := 255

/-- Paths of this many octets and more are refused. -/
def pathLimit : Nat := 4096

def hasNul (p : Path) : Bool := p.text.toList.contains '\x00'

/-- Whether a path can be looked up at all. -/
def checkPath (p : Path) : Except DiskError Unit :=
  if hasNul p then .error .invalidName
  else if p.isEmpty then .error .notFound
  else if p.text.utf8ByteSize ≥ pathLimit then .error .nameTooLong
  else .ok ()

def stepsOf (p : Path) : List String :=
  ((Path.segments p.text.toList).filter (!·.isEmpty)).map String.ofList

def endsWithSlash (p : Path) : Bool := p.text.toList.getLast? == some '/'

/-- A place on a disk and what is there. -/
structure Position where
  /-- The names from the place up to the root. -/
  upward : List String
  tree : Tree

namespace Position

def location (p : Position) : Location := p.upward.reverse

def at? (root : Tree) (upward : List String) : Except DiskError Position :=
  match root.get? upward.reverse with
  | some t => .ok ⟨upward, t⟩
  | none => .error .notFound

def step (root : Tree) (p : Position) (name : String) : Except DiskError Position :=
  match p.tree with
  | .file _ => .error .notDirectory
  | .directory members =>
    if name == "." then .ok p
    else if name == ".." then at? root p.upward.tail
    else if name.utf8ByteSize > maxName then .error .nameTooLong
    else match members.lookup name with
      | some t => .ok ⟨name :: p.upward, t⟩
      | none => .error .notFound

end Position

def walk (d : Disk) (p : Position) (steps : List String) : Except DiskError Position :=
  steps.foldlM (Position.step d.root) p

def start (d : Disk) (p : Path) : Except DiskError Position :=
  Position.at? d.root (if p.isAbsolute then [] else d.home.reverse)

def locate (d : Disk) (p : Path) : Except DiskError Position := do
  checkPath p
  let found ← d.walk (← d.start p) (stepsOf p)
  if endsWithSlash p && !found.tree.isDirectory then throw .notDirectory
  return found

def find (d : Disk) (p : Path) : Except DiskError Tree := return (← d.locate p).tree

/-- The place a path gives to something new: the directory around it and a name, which is absent if
the path ends in points or is the root. -/
structure Slot where
  directory : Position
  name : Option String

def slot (d : Disk) (p : Path) : Except DiskError Slot := do
  checkPath p
  let start ← d.start p
  match (stepsOf p).reverse with
  | [] => return ⟨start, none⟩
  | last :: others =>
    let directory ← d.walk start others.reverse
    if !directory.tree.isDirectory then throw .notDirectory
    if last == "." || last == ".." then return ⟨directory, none⟩
    if last.utf8ByteSize > maxName then throw .nameTooLong
    return ⟨directory, some last⟩

namespace Slot

def location (s : Slot) (name : String) : Location := (name :: s.directory.upward).reverse

def occupant? (s : Slot) (name : String) : Option Tree := s.directory.tree.child? name

end Slot

def fill (d : Disk) (s : Slot) (name : String) (t : Tree) : Disk :=
  { d with root := d.root.put t (s.location name) }

def kind (d : Disk) (p : Path) : Except DiskError Kind := do
  return if (← d.find p).isDirectory then .directory else .file

def read (d : Disk) (p : Path) : Except DiskError ByteArray := do
  match ← d.find p with
  | .file octets => return octets
  | .directory _ => throw .isDirectory

def list (d : Disk) (p : Path) : Except DiskError (List String) := do
  match ← d.find p with
  | .directory members => return members.map (·.1)
  | .file _ => throw .notDirectory

def makeDirectory (d : Disk) (p : Path) : Except DiskError Disk := do
  let s ← d.slot p
  match s.name with
  | none => throw .alreadyExists
  | some name =>
    if (s.occupant? name).isSome then throw .alreadyExists
    return d.fill s name .empty

/-- Puts a file with the octets at a path, in the place of a file that is there. -/
def writeFile (d : Disk) (p : Path) (octets : ByteArray) : Except DiskError Disk := do
  let s ← d.slot p
  match s.name with
  | none => throw .isDirectory
  | some name =>
    if (s.occupant? name).any Tree.isDirectory || endsWithSlash p then throw .isDirectory
    return d.fill s name (.file octets)

/-- Copies a file. A file copied onto itself ends up empty, since the copy is emptied first. -/
def copyFile (d : Disk) (source dest : Path) : Except DiskError Disk := do
  let from_ ← d.locate source
  match from_.tree with
  | .directory _ => throw .notFile
  | .file octets =>
    let s ← d.slot dest
    let ontoItself := s.name.any fun name => s.location name == from_.location
    d.writeFile dest (if ontoItself then .empty else octets)

def homePath (d : Disk) : Path := ⟨"/" ++ "/".intercalate d.home⟩

/-- The name of the temporary file with a number, which is filled up to six digits. -/
def temporaryName (n : Nat) : String :=
  let digits := toString n
  ".tmp" ++ String.ofList (List.replicate (6 - digits.length) '0') ++ digits

/-- A name for a temporary file that is not among the given ones. -/
def freshName (names : List String) : String :=
  let candidates := (List.range (names.length + 1)).map temporaryName
  (candidates.find? (!names.contains ·)).getD (temporaryName 0)

/-- An empty file with a fresh name in a directory, found from the root. -/
def createTemporary (d : Disk) (dir : Path) : Except DiskError (Disk × Path) := do
  let around := d.homePath.join dir
  checkPath (around.join ⟨temporaryName 0⟩)
  let names ← d.list around
  let p := around.join ⟨freshName names⟩
  return (← d.writeFile p .empty, p)

def rename (d : Disk) (source dest : Path) : Except DiskError Disk := do
  if hasNul source || hasNul dest then throw .invalidArgument
  let from_ ← d.locate source
  let s ← d.slot dest
  match s.name with
  | none => throw .busy
  | some name =>
    if endsWithSlash dest then throw .notDirectory
    if (s.occupant? name).any Tree.isDirectory then throw .isDirectory
    return { d with root := (d.root.drop from_.location).put from_.tree (s.location name) }

def remove (d : Disk) (p : Path) : Except DiskError Disk := do
  let found ← d.locate p
  if found.tree.isDirectory then throw .isDirectory
  return { d with root := d.root.drop found.location }

end Disk
end EnvCompose
