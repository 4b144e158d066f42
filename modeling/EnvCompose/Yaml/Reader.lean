import EnvCompose.Yaml.Scalar
import EnvCompose.Yaml.Node.Grammar
import EnvCompose.Yaml.Token.Scanner

/-!
# Reading documents

A text becomes tokens, the tokens a node, and the node a value in which references are replaced by
what they go to. Nesting, the number of references and repeated keys are checked on the way.
-/
namespace EnvCompose.Yaml

inductive ReadError where
  | malformed (cause : SyntaxError)
  | tooDeep
  | tooManyReferences
  | repeatedKey
  | wideInteger (text : String)
  | invalidScalar (text expected : String)
  | unexpectedShape (expected : String)
  | unknownField (name : String)
  | repeatedField (name : String)
  deriving DecidableEq, Repr, Inhabited

def ReadError.message : ReadError → String
  | .malformed cause => cause.message
  | .tooDeep => "recursion limit exceeded"
  | .tooManyReferences => "repetition limit exceeded"
  | .repeatedKey => "duplicate entry in mapping"
  | .wideInteger text => "integer " ++ text ++ " is out of range"
  | .invalidScalar text expected => "invalid value: string \"" ++ text ++ "\", expected " ++ expected
  | .unexpectedShape expected => "invalid type, expected " ++ expected
  | .unknownField name => "unknown field " ++ name
  | .repeatedField name => "duplicate field " ++ name

/-- A node with the table of what its references go to. -/
structure Document where
  root : Node
  anchored : List (Nat × Node)
  /-- How many references may be followed in all. -/
  limit : Nat

namespace Document

def ofNode (root : Node) : Document :=
  { root, anchored := root.anchored, limit := root.eventCount * 100 }

/-- The document of a text. A text without one has no node. -/
def ofText? (text : String) : Except ReadError (Option Document) :=
  match Token.scan text with
  | .error e => .error (.malformed e)
  | .ok tokens => match Node.ofTokens? tokens with
    | .error e => .error (.malformed e)
    | .ok root => .ok (root.map ofNode)

/-- A step of reading that counts the references it follows. -/
abbrev Read := StateT Nat (Except ReadError)

/-- The node itself, or the node it refers to. -/
def follow (d : Document) (n : Node) : Read Node := do
  match n with
  | .alias target =>
    let count := (← get) + 1
    if count > d.limit then throw .tooManyReferences
    set count
    match d.anchored.lookup target with
    | some found => return found
    | none => throw .tooManyReferences
  | n => return n

end Document

def TagOctets.text? (octets : TagOctets) : Option String :=
  String.fromUTF8? ⟨octets.toArray⟩

/-- The text without one exclamation mark in front, if more follows. -/
def dropMark (s : String) : String :=
  match s.toList with
  | '!' :: c :: rest => String.ofList (c :: rest)
  | _ => s

/-- The name of a tag that belongs to the document. A tag without an exclamation mark names a core
type instead. -/
def TagOctets.name? (octets : TagOctets) : Option String :=
  if octets.head? == some 0x21 then
    (TagOctets.text? (if octets.length > 1 then octets.tail else octets)).map dropMark
  else none

def TagOctets.coreType? (octets : TagOctets) : Option String :=
  (TagOctets.text? octets).bind fun s =>
    if s.toList.take coreTagStart.length == coreTagStart.toList then
      some (String.ofList (s.toList.drop coreTagStart.length))
    else none

def plainValue (text : String) : Except ReadError Value :=
  match resolvePlain? text with
  | some v => .ok v
  | none => .error (.wideInteger text)

/-- A scalar of a core type, or of one that is not known, which is a string. -/
def coreValue (type : String) (text : String) : Except ReadError Value :=
  match type with
  | "bool" => match truthOf? text with
    | some b => .ok (.bool b)
    | none => .error (.invalidScalar text "a boolean")
  | "int" => match (readInteger? text.toList).filter fitsWideInteger with
    | some i => if fitsInteger i then .ok (.int i) else .error (.wideInteger text)
    | none => .error (.invalidScalar text "an integer")
  | "float" => match readFloat? text.toList with
    | some x => .ok (.float x)
    | none => .error (.invalidScalar text "a float")
  | "null" => if isNullText text then .ok .null else .error (.invalidScalar text "null")
  | _ => .ok (.str text)

def scalarValue (tag : Option TagOctets) (style : ScalarStyle) (text : String) :
    Except ReadError Value :=
  let untagged := if style == .plain then plainValue text else .ok (.str text)
  match tag with
  | none => untagged
  | some octets => match octets.name? with
    | some name => untagged.map (.tagged name)
    | none =>
      if octets.head? == some 0x21 then untagged
      else coreValue (octets.coreType?.getD "") text

/-- The collection with its tag, if it has one of its own. -/
def withTag (tag : Option TagOctets) (v : Value) : Value :=
  match tag.bind TagOctets.name? with
  | some name => .tagged name v
  | none => v

/-- A mapping of the entries, none of whose keys may repeat. -/
def mappingOf? : List (Value × Value) → Except ReadError Mapping
  | [] => .ok []
  | e :: entries => if entries.any (fun f => e.1 == f.1) then .error .repeatedKey
    else do return e :: (← mappingOf? entries)

namespace Document

/-- The value of a node in which collections nest no deeper than the given depth. -/
def value (d : Document) : Nat → Node → Read Value
  | 0, n => do
    match ← d.follow n with
    | .scalar _ tag style text => liftM (scalarValue tag style text)
    | _ => throw .tooDeep
  | depth + 1, n => do
    match ← d.follow n with
    | .scalar _ tag style text => liftM (scalarValue tag style text)
    | .sequence _ tag items => return withTag tag (.seq (← items.mapM (d.value depth)))
    | .mapping _ tag entries =>
      let entries ← entries.mapM fun e => return (← d.value depth e.1, ← d.value depth e.2)
      return withTag tag (.map (← liftM (mappingOf? entries)))
    | .alias _ => throw .tooManyReferences

def maxDepth : Nat := 128

end Document

/-- The value of a document. A text without a document is null. -/
def Value.parse (text : String) : Except ReadError Value := do
  match ← Document.ofText? text with
  | none => return .null
  | some d => (d.value Document.maxDepth d.root).run' 0

end EnvCompose.Yaml
