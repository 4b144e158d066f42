import EnvCompose.Yaml.Token

/-!
# Plain and quoted scalars

A plain or quoted scalar may run over several lines. A single line end between two words becomes a
space; of several the first is dropped and the others stay.
-/
namespace EnvCompose.Yaml

/-- The text of a scalar so far, and what has been seen since its last character. The lists are in
reverse order. -/
structure Folded where
  text : List Char := []
  blanks : List Char := []
  /-- The first line end, if it counts. -/
  first : Option Char := none
  others : List Char := []
  /-- Whether a line end has been seen. -/
  broken : Bool := false
  deriving Inhabited

namespace Folded

def addBlank (f : Folded) (c : Char) : Folded :=
  if f.broken then f else { f with blanks := c :: f.blanks }

def addBreak (f : Folded) (c : Char) : Folded :=
  if f.broken then { f with others := foldBreak c :: f.others }
  else { f with blanks := [], first := some (foldBreak c), broken := true }

/-- An escaped line end: it and the blanks after it vanish. -/
def addEscapedBreak (f : Folded) : Folded := { f with broken := true }

/-- The text with the blanks and line ends since its last character folded into it. -/
def settle (f : Folded) : Folded :=
  if f.broken then
    let gap := match f.first with
      | none => f.others
      | some '\n' => if f.others.isEmpty then [' '] else f.others
      | some c => f.others ++ [c]
    { text := gap ++ f.text }
  else { text := f.blanks ++ f.text }

def add (f : Folded) (c : Char) : Folded :=
  let g := f.settle
  { g with text := c :: g.text }

def done (f : Folded) : String := String.ofList f.text.reverse

end Folded

/-- Whether a plain scalar stops before this text. In a flow collection a colon followed by a
collection's mark is refused. -/
def plainStops (inFlow : Bool) (m : Mark) : List Char → Except SyntaxError Bool
  | ':' :: rest =>
    match inFlow, rest with
    | true, c :: _ =>
      if [',', '?', '[', ']', '\x7b', '\x7d'].contains c then .error (.unexpectedCharacter m)
      else .ok (endsWord rest)
    | _, _ => .ok (endsWord rest)
  | c :: _ => .ok (inFlow && [',', '[', ']', '\x7b', '\x7d'].contains c)
  | [] => .ok true

/-- Reads a plain scalar. The flag `gap` says that blanks or line ends come just before. -/
def readPlain (inFlow : Bool) (indent : Int) :
    Folded → Bool → List Char → Mark → Except SyntaxError (Folded × Cursor)
  | f, _, [], m => .ok (f, ⟨[], m⟩)
  | f, _, '\r' :: '\n' :: rest, m =>
    readPlain inFlow indent (f.addBreak '\n') true rest (m.nextLine 2)
  | f, gap, c :: rest, m =>
    if isBlank c then
      if f.broken && (m.column : Int) < indent && c == '\t' then .error (.tabIndentation m)
      else readPlain inFlow indent (f.addBlank c) true rest m.next
    else if isBreak c then
      readPlain inFlow indent (f.addBreak c) true rest (m.nextLine c.utf8Size)
    else if gap && !inFlow && (m.column : Int) < indent then .ok (f, ⟨c :: rest, m⟩)
    else if gap && m.column == 0 && isBoundary (c :: rest) then .ok (f, ⟨c :: rest, m⟩)
    else if gap && c == '#' then .ok (f, ⟨c :: rest, m⟩)
    else match plainStops inFlow m (c :: rest) with
      | .error e => .error e
      | .ok true => .ok (f, ⟨c :: rest, m⟩)
      | .ok false => readPlain inFlow indent (f.add c) false rest (m.past c)

def simpleEscape? : Char → Option Char
  | '0' => some '\x00'
  | 'a' => some '\x07'
  | 'b' => some '\x08'
  | 't' => some '\t'
  | '\t' => some '\t'
  | 'n' => some '\n'
  | 'v' => some '\x0b'
  | 'f' => some '\x0c'
  | 'r' => some '\r'
  | 'e' => some '\x1b'
  | ' ' => some ' '
  | '"' => some '"'
  | '/' => some '/'
  | '\\' => some '\\'
  | 'N' => some '\x85'
  | '_' => some '\xa0'
  | 'L' => some '\u2028'
  | 'P' => some '\u2029'
  | _ => none

/-- The character with the code, unless it is half of a pair or too great. -/
def charOf? (code : Nat) : Option Char :=
  if h : code.isValidChar then some (Char.ofNatAux code h) else none

def readSingleQuoted : Folded → List Char → Mark → Except SyntaxError (Folded × Cursor)
  | _, [], m => .error (.unexpectedEnd m)
  | f, '\r' :: '\n' :: rest, m => readSingleQuoted (f.addBreak '\n') rest (m.nextLine 2)
  | f, '\'' :: '\'' :: rest, m => readSingleQuoted (f.add '\'') rest (m.advance 2)
  | f, c :: rest, m =>
    if isBlank c then readSingleQuoted (f.addBlank c) rest m.next
    else if isBreak c then readSingleQuoted (f.addBreak c) rest (m.nextLine c.utf8Size)
    else if m.column == 0 && isBoundary (c :: rest) then .error (.unexpectedBoundary m)
    else if c == '\'' then .ok (f.settle, ⟨rest, m.next⟩)
    else readSingleQuoted (f.add c) rest (m.past c)

def readDoubleQuoted : Folded → List Char → Mark → Except SyntaxError (Folded × Cursor)
  | _, [], m => .error (.unexpectedEnd m)
  | f, '\r' :: '\n' :: rest, m => readDoubleQuoted (f.addBreak '\n') rest (m.nextLine 2)
  | f, '\\' :: '\r' :: '\n' :: rest, m =>
    readDoubleQuoted f.settle.addEscapedBreak rest (m.nextLine 3)
  | f, '\\' :: 'x' :: a :: b :: rest, m =>
    match (hexValue? [a, b]).bind charOf? with
    | some c => readDoubleQuoted (f.add c) rest (m.advance 4)
    | none => .error (.badEscape m)
  | f, '\\' :: 'u' :: a :: b :: c :: d :: rest, m =>
    match (hexValue? [a, b, c, d]).bind charOf? with
    | some c => readDoubleQuoted (f.add c) rest (m.advance 6)
    | none => .error (.badEscape m)
  | f, '\\' :: 'U' :: a :: b :: c :: d :: a' :: b' :: c' :: d' :: rest, m =>
    match (hexValue? [a, b, c, d, a', b', c', d']).bind charOf? with
    | some c => readDoubleQuoted (f.add c) rest (m.advance 10)
    | none => .error (.badEscape m)
  | f, '\\' :: e :: rest, m =>
    if isBreak e then readDoubleQuoted f.settle.addEscapedBreak rest (m.nextLine (1 + e.utf8Size))
    else match simpleEscape? e with
      | some c => readDoubleQuoted (f.add c) rest (m.advance 2)
      | none => .error (.badEscape m)
  | f, c :: rest, m =>
    if isBlank c then readDoubleQuoted (f.addBlank c) rest m.next
    else if isBreak c then readDoubleQuoted (f.addBreak c) rest (m.nextLine c.utf8Size)
    else if m.column == 0 && isBoundary (c :: rest) then .error (.unexpectedBoundary m)
    else if c == '"' then .ok (f.settle, ⟨rest, m.next⟩)
    else if c == '\\' then .error (.badEscape m)
    else readDoubleQuoted (f.add c) rest (m.past c)

end EnvCompose.Yaml
