import EnvCompose.Yaml.Token

/-!
# Block scalars

A block scalar is the indented lines after its header. A literal one keeps its line ends; in a
folded one a line end between two lines that start without a blank becomes a space.
-/
namespace EnvCompose.Yaml

/-- What becomes of the line ends at the end of a block scalar. -/
inductive Chomping where
  | strip
  | clip
  | keep
  deriving DecidableEq, Repr, Inhabited

structure BlockHeader where
  chomping : Chomping := .clip
  /-- The indentation relative to the surrounding block, if it is given. -/
  indentation : Option Nat := none
  deriving Inhabited

def chompingOf? : Char → Option Chomping
  | '+' => some .keep
  | '-' => some .strip
  | _ => none

/-- Reads the two indicators of a header, in either order. A given indentation is not zero. -/
def BlockHeader.read : List Char → Mark → Except SyntaxError (BlockHeader × Cursor)
  | c :: rest, m =>
    match chompingOf? c, c.isDigit with
    | some chomping, _ =>
      match rest with
      | d :: rest' =>
        if d == '0' then .error (.badBlockHeader m)
        else if d.isDigit then
          .ok (⟨chomping, some (d.toNat - '0'.toNat)⟩, ⟨rest', m.advance 2⟩)
        else .ok (⟨chomping, none⟩, ⟨rest, m.next⟩)
      | [] => .ok (⟨chomping, none⟩, ⟨[], m.next⟩)
    | none, true =>
      if c == '0' then .error (.badBlockHeader m)
      else
        let indentation := some (c.toNat - '0'.toNat)
        match rest with
        | d :: rest' =>
          match chompingOf? d with
          | some chomping => .ok (⟨chomping, indentation⟩, ⟨rest', m.advance 2⟩)
          | none => .ok (⟨.clip, indentation⟩, ⟨rest, m.next⟩)
        | [] => .ok (⟨.clip, indentation⟩, ⟨[], m.next⟩)
    | none, false => .ok ({}, ⟨c :: rest, m⟩)
  | [], m => .ok ({}, ⟨[], m⟩)

/-- The lines read so far. The lists are in reverse order. -/
structure BlockLines where
  text : List Char := []
  /-- The line end of the last line that is not empty. -/
  lineEnd : Option Char := none
  /-- The line ends of the empty lines after it. -/
  emptyLines : List Char := []
  /-- Whether the last line that is not empty starts with a blank. -/
  startsBlank : Bool := false
  deriving Inhabited

namespace BlockLines

/-- Goes on to a line that is not empty and starts with the character. -/
def startLine (b : BlockLines) (literal : Bool) (c : Char) : BlockLines :=
  let folds := !literal && b.lineEnd == some '\n' && !b.startsBlank && !isBlank c
  let gap := if folds then (if b.emptyLines.isEmpty then [' '] else [])
    else b.lineEnd.toList
  { text := c :: (b.emptyLines ++ gap ++ b.text), startsBlank := isBlank c }

def done (b : BlockLines) (chomping : Chomping) : String :=
  let ends := match chomping with
    | .strip => []
    | .clip => b.lineEnd.toList
    | .keep => b.emptyLines ++ b.lineEnd.toList
  String.ofList (ends ++ b.text).reverse

end BlockLines

/-- Reads the empty lines before the first that is not, and finds how far that one is indented: as
far as the longest run of spaces seen. -/
def readLeading (longest : Nat) (emptyLines : List Char) :
    List Char → Mark → Except SyntaxError (Nat × List Char × Cursor)
  | [], m => .ok (max longest m.column, emptyLines, ⟨[], m⟩)
  | '\r' :: '\n' :: rest, m =>
    readLeading (max longest m.column) ('\n' :: emptyLines) rest (m.nextLine 2)
  | c :: rest, m =>
    if c == ' ' then readLeading longest emptyLines rest m.next
    else if c == '\t' then .error (.tabIndentation m)
    else if isBreak c then
      readLeading (max longest m.column) (foldBreak c :: emptyLines) rest (m.nextLine c.utf8Size)
    else .ok (max longest m.column, emptyLines, ⟨c :: rest, m⟩)

/-- Reads the lines indented by at least `indent`. The flag says that a line has been started. -/
def readLines (literal : Bool) (indent : Nat) :
    BlockLines → Bool → List Char → Mark → Except SyntaxError (BlockLines × Cursor)
  | b, _, [], m => .ok (b, ⟨[], m⟩)
  | b, true, '\r' :: '\n' :: rest, m =>
    readLines literal indent { b with lineEnd := some '\n', emptyLines := [] } false rest
      (m.nextLine 2)
  | b, false, '\r' :: '\n' :: rest, m =>
    readLines literal indent { b with emptyLines := '\n' :: b.emptyLines } false rest (m.nextLine 2)
  | b, true, c :: rest, m =>
    if isBreak c then
      readLines literal indent { b with lineEnd := some (foldBreak c), emptyLines := [] } false rest
        (m.nextLine c.utf8Size)
    else readLines literal indent { b with text := c :: b.text } true rest (m.past c)
  | b, false, c :: rest, m =>
    if m.column < indent && c == ' ' then readLines literal indent b false rest m.next
    else if m.column < indent && c == '\t' then .error (.tabIndentation m)
    else if isBreak c then
      readLines literal indent { b with emptyLines := foldBreak c :: b.emptyLines } false rest
        (m.nextLine c.utf8Size)
    else if m.column == indent then
      readLines literal indent (b.startLine literal c) true rest (m.past c)
    else .ok (b, ⟨c :: rest, m⟩)

/-- Reads a block scalar after its indicator. The surrounding block is indented by `parent`, which
is negative outside of any. -/
def readBlockScalar (literal : Bool) (parent : Int) (cs : List Char) (m : Mark) :
    Except SyntaxError (String × Cursor) := do
  let (header, c) ← BlockHeader.read cs m
  let c := skipWhile isBlank c.rest c.mark
  let c := skipComment c.rest c.mark
  if !endsWord c.rest then throw (.badBlockHeader c.mark)
  let c := skipBreak c.rest c.mark
  match header.indentation with
  | some n =>
    let indent := (max parent 0).toNat + n
    let (b, c) ← readLines literal indent {} false c.rest c.mark
    return (b.done header.chomping, c)
  | none =>
    let (longest, emptyLines, c) ← readLeading 0 [] c.rest c.mark
    let indent := max (max longest (parent + 1).toNat) 1
    let (b, c) ← readLines literal indent { emptyLines } false c.rest c.mark
    return (b.done header.chomping, c)

end EnvCompose.Yaml
