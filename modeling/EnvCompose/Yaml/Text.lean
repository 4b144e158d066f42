/-!
# Text and places in it

A line ends with a carriage return, a line feed, both in this order, a next-line character, or a
Unicode line or paragraph separator. In a scalar the separators stay as they are and every other
line end becomes a line feed.
-/
namespace EnvCompose.Yaml

/-- A place in a text. All counts start from zero. -/
structure Mark where
  /-- The octets before it. -/
  index : Nat := 0
  line : Nat := 0
  /-- The characters before it on its line. -/
  column : Nat := 0
  deriving DecidableEq, Repr, Inhabited

namespace Mark

def past (m : Mark) (c : Char) : Mark :=
  { m with index := m.index + c.utf8Size, column := m.column + 1 }

/-- The place after characters of one octet each. -/
def advance (m : Mark) (count : Nat) : Mark :=
  { m with index := m.index + count, column := m.column + count }

def next (m : Mark) : Mark := m.advance 1

def nextLine (m : Mark) (octets : Nat) : Mark :=
  { index := m.index + octets, line := m.line + 1, column := 0 }

end Mark

structure Cursor where
  rest : List Char
  mark : Mark
  deriving Repr, Inhabited

def isBreak (c : Char) : Bool :=
  c == '\n' || c == '\r' || c == '\x85' || c == '\u2028' || c == '\u2029'

def isBlank (c : Char) : Bool := c == ' ' || c == '\t'

/-- The line end as it stands in a scalar. -/
def foldBreak (c : Char) : Char := if c == '\u2028' || c == '\u2029' then c else '\n'

/-- Whether a word ends here: at a blank, a line end, or the end of the text. -/
def endsWord : List Char → Bool
  | [] => true
  | c :: _ => isBlank c || isBreak c

def isWordChar (c : Char) : Bool := c.isAlphanum || c == '_' || c == '-'

def isHexDigit (c : Char) : Bool :=
  c.isDigit || ('a' ≤ c && c ≤ 'f') || ('A' ≤ c && c ≤ 'F')

def hexDigit (c : Char) : Nat :=
  if c.isDigit then c.toNat - '0'.toNat
  else if 'a' ≤ c then c.toNat - 'a'.toNat + 10
  else c.toNat - 'A'.toNat + 10

def hexValue? (digits : List Char) : Option Nat :=
  if digits.all isHexDigit then some (digits.foldl (fun n c => n * 16 + hexDigit c) 0) else none

/-- The characters a document may hold unescaped. -/
def isAllowed (c : Char) : Bool :=
  let n := c.toNat
  n == 0x09 || n == 0x0A || n == 0x0D || (0x20 ≤ n && n ≤ 0x7E) || n == 0x85 ||
    (0xA0 ≤ n && n ≤ 0xD7FF) || (0xE000 ≤ n && n ≤ 0xFFFD) || 0x10000 ≤ n

/-- A document boundary: three hyphens or three points that stand alone at the start of a line. -/
def isBoundary : List Char → Bool
  | '-' :: '-' :: '-' :: rest => endsWord rest
  | '.' :: '.' :: '.' :: rest => endsWord rest
  | _ => false

/-- Goes past the characters that satisfy the test, which must refuse line ends. -/
def skipWhile (test : Char → Bool) : List Char → Mark → Cursor
  | c :: rest, m => if test c then skipWhile test rest (m.past c) else ⟨c :: rest, m⟩
  | [], m => ⟨[], m⟩

def skipBreak : List Char → Mark → Cursor
  | '\r' :: '\n' :: rest, m => ⟨rest, m.nextLine 2⟩
  | c :: rest, m => if isBreak c then ⟨rest, m.nextLine c.utf8Size⟩ else ⟨c :: rest, m⟩
  | [], m => ⟨[], m⟩

def skipComment : List Char → Mark → Cursor
  | '#' :: rest, m => skipWhile (fun c => !isBreak c) ('#' :: rest) m
  | cs, m => ⟨cs, m⟩

end EnvCompose.Yaml
