import EnvCompose.Yaml.Token.Folded
import EnvCompose.Yaml.Token.Block
import EnvCompose.Yaml.Token.Words

/-!
# From text to tokens

Block structure follows from columns: a token further to the right opens a block and one to the left
closes those it leaves. Whether a scalar or collection is a key shows only at the colon after it, so
its place in the row of tokens is remembered, and the colon puts the mark of a key in front of it.
-/
namespace EnvCompose.Yaml

/-- A place where a key may have started, on one line and at most 1024 octets ago. -/
structure PossibleKey where
  /-- Whether nothing but a key can stand here. -/
  required : Bool
  tokenNumber : Nat
  place : Mark
  deriving Inhabited

structure Scanner where
  cursor : Cursor
  tokens : Array Token := #[]
  /-- The column of the innermost block, negative outside of any. -/
  indent : Int := -1
  outerIndents : List Int := []
  possibleKey : Option PossibleKey := none
  /-- The possible keys of the collections around, one for each level of flow collections. -/
  outerKeys : List (Option PossibleKey) := []
  /-- Whether a key may start here. -/
  keyAllowed : Bool := true
  deriving Inhabited

namespace Scanner

def inFlow (s : Scanner) : Bool := !s.outerKeys.isEmpty

def column (s : Scanner) : Int := s.cursor.mark.column

def push (s : Scanner) (t : Token) : Scanner := { s with tokens := s.tokens.push t }

def skip (s : Scanner) (count : Nat) : Scanner :=
  { s with cursor := ⟨s.cursor.rest.drop count, s.cursor.mark.advance count⟩ }

/-- Goes past blanks, comments and line ends, and a byte order mark at the start of a line. A tab is
no blank where a key may start in a block. -/
def skipBlanks (inFlow : Bool) : Bool → Bool → List Char → Mark → Bool × Cursor
  | _, allowed, [], m => (allowed, ⟨[], m⟩)
  | _, allowed, '\r' :: '\n' :: rest, m =>
    skipBlanks inFlow false (allowed || !inFlow) rest (m.nextLine 2)
  | inComment, allowed, c :: rest, m =>
    if isBreak c then skipBlanks inFlow false (allowed || !inFlow) rest (m.nextLine c.utf8Size)
    else if inComment then skipBlanks inFlow true allowed rest (m.past c)
    else if c == '\ufeff' && m.column == 0 then skipBlanks inFlow false allowed rest (m.past c)
    else if c == ' ' || (c == '\t' && (inFlow || !allowed)) then
      skipBlanks inFlow false allowed rest m.next
    else if c == '#' then skipBlanks inFlow true allowed rest m.next
    else (allowed, ⟨c :: rest, m⟩)

def isStale (here : Mark) (k : PossibleKey) : Bool :=
  k.place.line < here.line || k.place.index + 1024 < here.index

def dropStaleKeys (s : Scanner) : Except SyntaxError Scanner :=
  let here := s.cursor.mark
  let stale := (s.possibleKey :: s.outerKeys).any fun key =>
    key.any fun k => isStale here k && k.required
  if stale then .error (.missingColon here)
  else .ok { s with
    possibleKey := s.possibleKey.filter fun k => !isStale here k
    outerKeys := s.outerKeys.map fun k => k.filter fun k => !isStale here k }

def closeBlocks (column : Int) (s : Scanner) : Scanner :=
  if s.inFlow then s else close s.outerIndents s
where
  close : List Int → Scanner → Scanner
    | [], s => s
    | outer :: rest, s =>
      if s.indent > column then
        close rest { s.push .blockEnd with indent := outer, outerIndents := rest }
      else s

/-- Opens a block at the column if it lies to the right of the innermost one. The token goes to the
place in the row, or to its end. -/
def openBlock (column : Int) (tokenNumber : Option Nat) (t : Token) (s : Scanner) : Scanner :=
  if s.inFlow || column ≤ s.indent then s
  else { s with
    indent := column
    outerIndents := s.indent :: s.outerIndents
    tokens := match tokenNumber with
      | none => s.tokens.push t
      | some n => s.tokens.insertIdx! n t }

def forgetKey (s : Scanner) : Except SyntaxError Scanner :=
  if s.possibleKey.any (·.required) then .error (.missingColon s.cursor.mark)
  else .ok { s with possibleKey := none }

def noteKey (s : Scanner) : Except SyntaxError Scanner := do
  if !s.keyAllowed then return s
  let key : PossibleKey :=
    { required := !s.inFlow && s.indent == s.column
      tokenNumber := s.tokens.size
      place := s.cursor.mark }
  let s ← s.forgetKey
  return { s with possibleKey := some key }

/-- A token that takes `count` characters, after which keys are allowed or not. -/
def mark (t : Token) (count : Nat) (keyAllowed : Bool) (s : Scanner) : Scanner :=
  { (s.skip count).push t with keyAllowed }

/-- A token that has been read as a whole and may be a key. -/
def take (token : Token × Cursor) (s : Scanner) : Scanner :=
  { s.push token.1 with cursor := token.2, keyAllowed := false }

def openFlow (t : Token) (s : Scanner) : Except SyntaxError Scanner := do
  let s ← s.noteKey
  return mark t 1 true { s with possibleKey := none, outerKeys := s.possibleKey :: s.outerKeys }

def closeFlow (t : Token) (s : Scanner) : Except SyntaxError Scanner := do
  let s ← s.forgetKey
  let s := match s.outerKeys with
    | [] => s
    | key :: rest => { s with possibleKey := key, outerKeys := rest }
  return mark t 1 false s

def readBoundary (t : Token) (s : Scanner) : Except SyntaxError Scanner := do
  let s ← (s.closeBlocks (-1)).forgetKey
  return mark t 3 false s

def readItem (s : Scanner) : Except SyntaxError Scanner := do
  if !s.inFlow && !s.keyAllowed then throw (.misplacedItem s.cursor.mark)
  let s ← (s.openBlock s.column none .blockSequenceStart).forgetKey
  return mark .blockItem 1 true s

def readKey (s : Scanner) : Except SyntaxError Scanner := do
  if !s.inFlow && !s.keyAllowed then throw (.misplacedKey s.cursor.mark)
  let s ← (s.openBlock s.column none .blockMappingStart).forgetKey
  return mark .key 1 (!s.inFlow) s

def readValue (s : Scanner) : Except SyntaxError Scanner :=
  match s.possibleKey with
  | some key =>
    let s := { s with tokens := s.tokens.insertIdx! key.tokenNumber .key, possibleKey := none }
    let s := s.openBlock key.place.column (some key.tokenNumber) .blockMappingStart
    .ok (mark .value 1 false s)
  | none =>
    if !s.inFlow && !s.keyAllowed then .error (.misplacedValue s.cursor.mark)
    else .ok (mark .value 1 (!s.inFlow) (s.openBlock s.column none .blockMappingStart))

def readQuoted (single : Bool) (s : Scanner) : Except SyntaxError Scanner := do
  let s ← s.noteKey
  let rest := s.cursor.rest.drop 1
  let m := s.cursor.mark.next
  let (f, c) ← if single then readSingleQuoted {} rest m else readDoubleQuoted {} rest m
  return s.take (.scalar f.done (if single then .singleQuoted else .doubleQuoted), c)

def readPlainScalar (s : Scanner) : Except SyntaxError Scanner := do
  let s ← s.noteKey
  let (f, c) ← readPlain s.inFlow (s.indent + 1) {} false s.cursor.rest s.cursor.mark
  return { s.take (.scalar f.done .plain, c) with keyAllowed := f.broken }

def readBlock (literal : Bool) (s : Scanner) : Except SyntaxError Scanner := do
  let s ← s.forgetKey
  let (text, c) ← readBlockScalar literal s.indent (s.cursor.rest.drop 1) s.cursor.mark.next
  return { s.take (.scalar text (if literal then .literal else .folded), c) with keyAllowed := true }

def readReference (token : String → Token) (s : Scanner) : Except SyntaxError Scanner := do
  let s ← s.noteKey
  let (name, c) ← readName (s.cursor.rest.drop 1) s.cursor.mark.next
  return s.take (token name, c)

def readTagToken (s : Scanner) : Except SyntaxError Scanner := do
  let s ← s.noteKey
  return s.take (← readTag s.inFlow s.cursor.rest s.cursor.mark)

def readDirectiveToken (s : Scanner) : Except SyntaxError Scanner := do
  let s ← (s.closeBlocks (-1)).forgetKey
  return s.take (← readDirective (s.cursor.rest.drop 1) s.cursor.mark.next)

/-- The characters no plain scalar starts with, blanks and line ends apart. -/
def indicators : List Char := "-?:,[]\x7b\x7d#&*!|>'\"%@\x60".toList

def startsPlain (inFlow : Bool) : List Char → Bool
  | [] => false
  | c :: rest =>
    (!endsWord [c] && !indicators.contains c) ||
    (c == '-' && !(rest.head?.any isBlank)) ||
    (!inFlow && (c == '?' || c == ':') && !endsWord rest)

def readToken (s : Scanner) (c : Char) (rest : List Char) : Except SyntaxError Scanner :=
  let atLineStart := s.cursor.mark.column == 0
  if atLineStart && c == '%' then s.readDirectiveToken
  else if atLineStart && isBoundary (c :: rest) then
    s.readBoundary (if c == '-' then .documentStart else .documentEnd)
  else match c with
    | '[' => s.openFlow .flowSequenceStart
    | '\x7b' => s.openFlow .flowMappingStart
    | ']' => s.closeFlow .flowSequenceEnd
    | '\x7d' => s.closeFlow .flowMappingEnd
    | ',' => do return mark .flowItem 1 true (← s.forgetKey)
    | '*' => s.readReference .alias
    | '&' => s.readReference .anchor
    | '!' => s.readTagToken
    | '\'' => s.readQuoted true
    | '"' => s.readQuoted false
    | _ =>
      if c == '-' && endsWord rest then s.readItem
      else if c == '?' && (s.inFlow || endsWord rest) then s.readKey
      else if c == ':' && (s.inFlow || endsWord rest) then s.readValue
      else if c == '|' && !s.inFlow then s.readBlock true
      else if c == '>' && !s.inFlow then s.readBlock false
      else if startsPlain s.inFlow (c :: rest) then s.readPlainScalar
      else .error (.unexpectedCharacter s.cursor.mark)

def finish (s : Scanner) : Except SyntaxError Scanner := (s.closeBlocks (-1)).forgetKey

/-- Reads all tokens. Each round takes at least one character, so as many rounds as there are
characters, and one for the end, suffice. -/
def readAll : Nat → Scanner → Except SyntaxError Scanner
  | 0, s => .error (.unexpectedEnd s.cursor.mark)
  | rounds + 1, s => do
    let (keyAllowed, cursor) := skipBlanks s.inFlow false s.keyAllowed s.cursor.rest s.cursor.mark
    let s ← { s with keyAllowed, cursor }.dropStaleKeys
    match s.cursor.rest with
    | [] => s.finish
    | c :: rest => readAll rounds (← (s.closeBlocks s.column).readToken c rest)

end Scanner

def Token.scan (text : String) : Except SyntaxError (List Token) := do
  if !text.toList.all isAllowed then throw .controlCharacter
  let s ← Scanner.readAll (text.length + 1) { cursor := ⟨text.toList, {}⟩ }
  return s.tokens.toList

end EnvCompose.Yaml
