import EnvCompose.Yaml.ScalarStyle

/-!
# Writing documents

Documents are written in block style: members of a mapping or sequence each on a line of their own,
two columns further to the right, except that a sequence under a key stays in the key's column.
Empty collections are written as brackets. A key that does not fit on one line, or is a collection
with members, gets a line of its own after a question mark.
-/
namespace EnvCompose.Yaml
open Decimal

/-- Floats have a point or a power of ten; from `1e16` on and below `1e-5` it is the latter. -/
def floatFormat : NumberFormat :=
  { scientificFrom := 16, positionalDownTo := -5
    infinity := ".inf", negativeInfinity := "-.inf", notANumber := ".nan" }

inductive WriteError where
  /-- A tag stands directly inside a tag. -/
  | nestedTag
  /-- The only key of a mapping is tagged or is a mapping of one entry itself. -/
  | ambiguousKey
  deriving DecidableEq, Repr, Inhabited

def WriteError.message : WriteError → String
  | .nestedTag => "serializing nested enums in YAML is not supported yet"
  | .ambiguousKey => "expected SCALAR, SEQUENCE-START, MAPPING-START, or ALIAS"

/-- Whether a key cannot be the only one of a mapping. -/
def isAmbiguousKey : Value → Bool
  | .tagged .. => true
  | .map [_] => true
  | _ => false

mutual
/-- What stands in the way of writing the document. The flag says that a tag stands before it. -/
def obstacle? (afterTag : Bool) : Value → Option WriteError
  | .tagged _ v => if afterTag then some .nestedTag else obstacle? true v
  | .map entries =>
    match entries with
    | [(key, _)] =>
      if !afterTag && isAmbiguousKey key then some .ambiguousKey else obstacleInEntries? entries
    | _ => obstacleInEntries? entries
  | .seq items => obstacleInItems? items
  | _ => none

def obstacleInItems? : List Value → Option WriteError
  | [] => none
  | v :: items => (obstacle? false v).or (obstacleInItems? items)

def obstacleInEntries? : List (Value × Value) → Option WriteError
  | [] => none
  | (k, v) :: entries =>
    ((obstacle? false k).or (obstacle? false v)).or (obstacleInEntries? entries)
end

/-- The octets that stand in a tag unescaped. -/
def isPlainTagOctet (o : UInt8) : Bool :=
  let c := Char.ofUInt8 o
  o < 0x80 && (isWordChar c || ";/?:@&=+$,.~*'()[]".toList.contains c)

def tagContent (s : String) : List Char :=
  s.toUTF8.toList.flatMap fun o =>
    if isPlainTagOctet o then [Char.ofUInt8 o] else '%' :: hexDigits o.toNat 2

def tagText (name : String) : List Char :=
  let full := if name.toList.head? == some '!' then name else "!" ++ name
  if full.length > 1 then '!' :: tagContent (String.ofList (full.toList.drop 1))
  else '!' :: '<' :: (tagContent full ++ ['>'])

/-- The text of a scalar whose continuation lines are indented by `indent`. -/
def scalarText (indent : Nat) : Value → String
  | .bool true => "true"
  | .bool false => "false"
  | .int i => toString i
  | .float x => floatFormat.text x
  | .str s =>
    match styleOf false s with
    | .singleQuoted => singleQuoted indent s
    | .doubleQuoted => doubleQuoted s
    | .literal => literal indent s
    | _ => s
  | _ => "null"

def tagSize (name : String) : Nat :=
  if name.toList.head? == some '!' then name.utf8ByteSize else name.utf8ByteSize + 1

/-- The octets a key takes if it can stand on one line. -/
def keySize? : Value → Option Nat
  | .tagged name v => (keySize? v).map (tagSize name + ·)
  | .seq [] => some 0
  | .map [] => some 0
  | .seq _ => none
  | .map _ => none
  | .str s => if s.toList.any isBreak then none else some s.utf8ByteSize
  | v => some (scalarText 0 v).utf8ByteSize

/-- Whether a key stands on one line: it has no line end and takes at most 128 octets. -/
def isSimpleKey (key : Value) : Bool := (keySize? key).any (· ≤ 128)

namespace Writer

abbrev Output := List Char

def put (s : List Char) (out : Output) : Output := s.reverse ++ out

def atLineStart : Output → Bool
  | [] => true
  | c :: _ => isBreak c

def newLine (indent : Nat) (out : Output) : Output :=
  put (spaces indent) (if atLineStart out then out else '\n' :: out)

structure Place where
  /-- The column of the collection around, if there is one. -/
  parent : Option Nat := none
  /-- Whether that collection is a mapping. -/
  inMapping : Bool := false
  /-- Whether nothing but indicators stands before the node on its line. -/
  fresh : Bool := true
  /-- Whether a space is due before the node. -/
  spaced : Bool := false

namespace Place

def mappingColumn (p : Place) : Nat :=
  match p.parent with
  | none => 0
  | some n => n + 2

def sequenceColumn (p : Place) : Nat :=
  match p.parent with
  | none => 0
  | some n => if p.inMapping && !p.fresh then n else n + 2

def scalarColumn (p : Place) : Nat :=
  match p.parent with
  | none => 2
  | some n => n + 2

def space (p : Place) (out : Output) : Output := if p.spaced then ' ' :: out else out

/-- After a tag. -/
def tagged (p : Place) : Place := { p with fresh := false, spaced := true }

/-- After the hyphen of an item. -/
def item (column : Nat) : Place := { parent := some column, spaced := true }

/-- After the colon of a key on one line. -/
def value (column : Nat) : Place :=
  { parent := some column, inMapping := true, fresh := false, spaced := true }

/-- After the question mark or colon of a key with lines of its own. -/
def complex (column : Nat) : Place := { parent := some column, inMapping := true, spaced := true }

/-- At the start of a line, for a key on one line. -/
def simpleKey (column : Nat) : Place := { parent := some column, inMapping := true }

end Place

/-- Goes to the line of a member of a block. -/
def startMember (p : Place) (column : Nat) (first : Bool) (out : Output) : Output :=
  if first && p.fresh then p.space out else newLine column out

mutual
def node (p : Place) (out : Output) : Value → Output
  | .tagged name v => node p.tagged (put (tagText name) (p.space out)) v
  | .seq [] => put "[]".toList (p.space out)
  | .map [] => put "\x7b\x7d".toList (p.space out)
  | .seq members => items p p.sequenceColumn true out members
  | .map members => entries p p.mappingColumn true out members
  | .null => put "null".toList (p.space out)
  | .bool b => put (scalarText p.scalarColumn (.bool b)).toList (p.space out)
  | .int i => put (scalarText p.scalarColumn (.int i)).toList (p.space out)
  | .float x => put (scalarText p.scalarColumn (.float x)).toList (p.space out)
  | .str s => put (scalarText p.scalarColumn (.str s)).toList (p.space out)

def items (p : Place) (column : Nat) (first : Bool) (out : Output) : List Value → Output
  | [] => out
  | v :: rest =>
    items p column false (node (.item column) ('-' :: startMember p column first out) v) rest

def entries (p : Place) (column : Nat) (first : Bool) (out : Output) : List (Value × Value) → Output
  | [] => out
  | e :: rest => entries p column false (entry column (startMember p column first out) e) rest

def entry (column : Nat) (out : Output) : Value × Value → Output
  | (key, v) =>
    if isSimpleKey key then
      node (.value column) (':' :: node (.simpleKey column) out key) v
    else
      node (.complex column) (':' :: newLine column (node (.complex column) ('?' :: out) key)) v
end

end Writer

def Value.render (v : Value) : Except WriteError String :=
  match obstacle? false v with
  | some e => .error e
  | none => .ok (String.ofList (Writer.newLine 0 (Writer.node {} [] v)).reverse)

end EnvCompose.Yaml
