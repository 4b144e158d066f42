import EnvCompose.Yaml.Scalar
import EnvCompose.Yaml.Token

/-!
# How strings are written

A string is written plain if it reads back as the same string and holds no mark of structure, in
single quotes otherwise, and in double quotes if it holds characters that need an escape. A string
with a line feed is written as a literal block where a block can hold it.
-/
namespace EnvCompose.Yaml

/-- The characters that are written as they are. -/
def isPrintable (c : Char) : Bool :=
  let n := c.toNat
  n == 0x0A || (0x20 ≤ n && n ≤ 0x7E) || (0xA0 ≤ n && n ≤ 0xD7FF) ||
    (0xE000 ≤ n && n ≤ 0xFFFD && n != 0xFEFF) || 0x10000 ≤ n

structure TextTraits where
  /-- Whether the text has a line end anywhere. -/
  multiline : Bool
  plainAllowed : Bool
  singleQuotedAllowed : Bool
  blockAllowed : Bool
  deriving DecidableEq, Repr

def startsWithIndicator : List Char → Bool
  | '-' :: '-' :: '-' :: _ => true
  | '.' :: '.' :: '.' :: _ => true
  | c :: rest =>
    "#,[]\x7b\x7d&*!|>'\"%@\x60".toList.contains c ||
      (['?', ':', '-'].contains c && endsWord rest)
  | [] => false

/-- Whether a colon before a blank, or a number sign after one, stands anywhere after the first
character. -/
def holdsIndicator : List Char → Bool
  | _ :: ':' :: rest => endsWord rest || holdsIndicator (':' :: rest)
  | c :: '#' :: rest => endsWord [c] || holdsIndicator ('#' :: rest)
  | _ :: rest => holdsIndicator rest
  | [] => false

/-- Whether two neighbours satisfy the tests. -/
def holdsPair (first second : Char → Bool) : List Char → Bool
  | a :: b :: rest => (first a && second b) || holdsPair first second (b :: rest)
  | _ => false

def isSpace (c : Char) : Bool := c == ' '

def TextTraits.of (cs : List Char) : TextTraits :=
  let special := cs.any (fun c => !isPrintable c) || holdsPair isSpace isBreak cs
  let edge := cs.head?.any (fun c => isSpace c || isBreak c) ||
    cs.getLast?.any (fun c => isSpace c || isBreak c)
  let breakSpace := holdsPair isBreak isSpace cs
  let multiline := cs.any isBreak
  { multiline
    plainAllowed := !special && !edge && !multiline &&
      !startsWithIndicator cs && !holdsIndicator cs
    singleQuotedAllowed := !special && !breakSpace
    blockAllowed := !cs.isEmpty && !special && !(cs.getLast?.any isSpace) }

/-- The style of a string. Neither a key on one line nor a text that a block cannot hold is written
as a block. -/
def styleOf (simpleKey : Bool) (s : String) : ScalarStyle :=
  let traits := TextTraits.of s.toList
  if s.toList.contains '\n' then
    if traits.blockAllowed && !simpleKey then .literal else .doubleQuoted
  else if simpleKey && traits.multiline then .doubleQuoted
  else if readsAsString s && traits.plainAllowed then .plain
  else if traits.singleQuotedAllowed then .singleQuoted
  else .doubleQuoted

def hexDigits (n width : Nat) : List Char :=
  let digits := (Nat.toDigits 16 n).map Char.toUpper
  List.replicate (width - digits.length) '0' ++ digits

def escape (c : Char) : List Char :=
  match c with
  | '\x00' => ['\\', '0']
  | '\x07' => ['\\', 'a']
  | '\x08' => ['\\', 'b']
  | '\t' => ['\\', 't']
  | '\n' => ['\\', 'n']
  | '\x0b' => ['\\', 'v']
  | '\x0c' => ['\\', 'f']
  | '\r' => ['\\', 'r']
  | '\x1b' => ['\\', 'e']
  | '"' => ['\\', '"']
  | '\\' => ['\\', '\\']
  | '\x85' => ['\\', 'N']
  | '\u2028' => ['\\', 'L']
  | '\u2029' => ['\\', 'P']
  | _ =>
    let n := c.toNat
    if n ≤ 0xFF then '\\' :: 'x' :: hexDigits n 2
    else if n ≤ 0xFFFF then '\\' :: 'u' :: hexDigits n 4
    else '\\' :: 'U' :: hexDigits n 8

def doubleQuoted (s : String) : String :=
  let body := s.toList.flatMap fun c =>
    if !isPrintable c || isBreak c || c == '"' || c == '\\' then escape c else [c]
  String.ofList ('"' :: (body ++ ['"']))

def spaces (n : Nat) : List Char := List.replicate n ' '

/-- The text between single quotes, in which a quote is written twice. The indentation follows a
line end. The flag says that the last character was one. -/
def singleQuotedBody (indent : Nat) : Bool → List Char → List Char
  | afterBreak, [] => if afterBreak then spaces indent else []
  | afterBreak, c :: rest =>
    if isBreak c then c :: singleQuotedBody indent true rest
    else (if afterBreak then spaces indent else []) ++ (if c == '\'' then [c, c] else [c]) ++
      singleQuotedBody indent false rest

def singleQuoted (indent : Nat) (s : String) : String :=
  String.ofList ('\'' :: (singleQuotedBody indent false s.toList ++ ['\'']))

/-- The lines of a literal block, each indented unless it is empty. The flag says that a line
starts. -/
def literalBody (indent : Nat) : Bool → List Char → List Char
  | _, [] => []
  | lineStart, c :: rest =>
    if isBreak c then c :: literalBody indent true rest
    else (if lineStart then spaces indent else []) ++ c :: literalBody indent false rest

/-- The indentation indicator, where the text starts with a space or line end, and the chomping
indicator. -/
def literalHeader (cs : List Char) : List Char :=
  let indentation := if cs.head?.any (fun c => isSpace c || isBreak c) then ['2'] else []
  let chomping := match cs.reverse with
    | [] => ['-']
    | c :: rest =>
      if !isBreak c then ['-']
      else match rest with
        | [] => ['+']
        | d :: _ => if isBreak d then ['+'] else []
  indentation ++ chomping

def literal (indent : Nat) (s : String) : String :=
  String.ofList ('|' :: (literalHeader s.toList ++ '\n' :: literalBody indent true s.toList))

end EnvCompose.Yaml
