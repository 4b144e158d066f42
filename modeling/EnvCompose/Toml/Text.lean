/-!
# Texts in TOML

A text stands between quotes, of which those that are doubled take escapes and those that are
tripled take lines. A line feed in a text may be written with a carriage return before it.
-/
namespace EnvCompose.Toml

abbrev Reader (α : Type) := List Char → Option (α × List Char)

def isBlank (c : Char) : Bool := c == ' ' || c == '\t'

/-- A character that stands for itself in a text or comment, quotes and backslashes apart. -/
def isOrdinary (c : Char) : Bool := c == '\t' || (c.toNat ≥ 0x20 && c.toNat != 0x7F)

def hexDigit? (c : Char) : Option Nat :=
  if c.isDigit then some (c.toNat - '0'.toNat)
  else if 'a' ≤ c && c ≤ 'f' then some (c.toNat - 'a'.toNat + 10)
  else if 'A' ≤ c && c ≤ 'F' then some (c.toNat - 'A'.toNat + 10)
  else none

/-- The character with the code that hexadecimal digits write. -/
def charOf? (digits : List Char) : Option Char := do
  let n ← digits.foldlM (fun n c => return n * 16 + (← hexDigit? c)) 0
  if n.isValidChar then some (Char.ofNat n) else none

def escape? : Char → Option Char
  | 'b' => some '\x08'
  | 't' => some '\t'
  | 'n' => some '\n'
  | 'f' => some '\x0c'
  | 'r' => some '\r'
  | '"' => some '"'
  | '\\' => some '\\'
  | _ => none

def done (reversed : List Char) (rest : List Char) : Option (String × List Char) :=
  some (String.ofList reversed.reverse, rest)

def readQuoted (acc : List Char) : Reader String
  | [] => none
  | '"' :: rest => done acc rest
  | '\\' :: 'u' :: a :: b :: c :: d :: rest => do readQuoted ((← charOf? [a, b, c, d]) :: acc) rest
  | '\\' :: 'U' :: a :: b :: c :: d :: e :: f :: g :: h :: rest => do
    readQuoted ((← charOf? [a, b, c, d, e, f, g, h]) :: acc) rest
  | '\\' :: c :: rest => do readQuoted ((← escape? c) :: acc) rest
  | c :: rest => if isOrdinary c && c != '\\' then readQuoted (c :: acc) rest else none

def readLiteral (acc : List Char) : Reader String
  | [] => none
  | '\'' :: rest => done acc rest
  | c :: rest => if isOrdinary c then readLiteral (c :: acc) rest else none

def endsLine : List Char → Bool
  | '\n' :: _ => true
  | '\r' :: '\n' :: _ => true
  | c :: rest => isBlank c && endsLine rest
  | [] => false

/-- A text of lines up to three quotes, of which two may stand before these. After a backslash at
the end of a line, blanks and line ends are left out until something else comes. -/
def readLines (joining : Bool) (acc : List Char) : Reader String
  | [] => none
  | '"' :: '"' :: '"' :: '"' :: '"' :: rest => done ('"' :: '"' :: acc) rest
  | '"' :: '"' :: '"' :: '"' :: rest => done ('"' :: acc) rest
  | '"' :: '"' :: '"' :: rest => done acc rest
  | '\r' :: '\n' :: rest =>
    if joining then readLines true acc rest else readLines false ('\n' :: acc) rest
  | '\n' :: rest => if joining then readLines true acc rest else readLines false ('\n' :: acc) rest
  | '\\' :: 'u' :: a :: b :: c :: d :: rest => do
    readLines false ((← charOf? [a, b, c, d]) :: acc) rest
  | '\\' :: 'U' :: a :: b :: c :: d :: e :: f :: g :: h :: rest => do
    readLines false ((← charOf? [a, b, c, d, e, f, g, h]) :: acc) rest
  | '\\' :: c :: rest =>
    if endsLine (c :: rest) then readLines true acc (c :: rest)
    else do readLines false ((← escape? c) :: acc) rest
  | c :: rest =>
    if joining && isBlank c then readLines true acc rest
    else if isOrdinary c && c != '\\' then readLines false (c :: acc) rest
    else none

/-- A text of lines without escapes up to three quotes, of which two may stand before these. -/
def readLiteralLines (acc : List Char) : Reader String
  | [] => none
  | '\'' :: '\'' :: '\'' :: '\'' :: '\'' :: rest => done ('\'' :: '\'' :: acc) rest
  | '\'' :: '\'' :: '\'' :: '\'' :: rest => done ('\'' :: acc) rest
  | '\'' :: '\'' :: '\'' :: rest => done acc rest
  | '\r' :: '\n' :: rest => readLiteralLines ('\n' :: acc) rest
  | c :: rest => if isOrdinary c || c == '\n' then readLiteralLines (c :: acc) rest else none

/-- The text after a line end in front, which three opening quotes leave out. -/
def dropLineEnd : List Char → List Char
  | '\r' :: '\n' :: rest => rest
  | '\n' :: rest => rest
  | cs => cs

end EnvCompose.Toml
