import EnvCompose.Yaml.Node

/-!
# From tokens to nodes

The grammar of a document. A stream holds at most one; without any the answer is no node.
-/
namespace EnvCompose.Yaml

/-- What the octets of a core type's tag start with. -/
def coreTagStart : String := "tag:yaml.org,2002:"

def primaryHandles : List (String × TagOctets) :=
  [("!", "!".toUTF8.toList), ("!!", coreTagStart.toUTF8.toList)]

/-- The tokens that are left, and what the names met so far stand for. -/
structure Reading where
  tokens : List Token
  /-- The expansions of tag handles. -/
  handles : List (String × TagOctets) := primaryHandles
  /-- The numbers of anchors. -/
  anchors : List (String × Nat) := []

abbrev ReadNode := StateT Reading (Except SyntaxError)

namespace ReadNode

def peek : ReadNode (Option Token) := return (← get).tokens.head?

def skip : ReadNode Unit := modify fun r => { r with tokens := r.tokens.tail }

def unexpected {α : Type} : ReadNode α := throw .unexpectedToken

/-- An anchor's number is the count of names declared before it, so a name declared again takes a
number that the next new name takes too. -/
def declare (name : String) : ReadNode Nat := do
  let r ← get
  let number := r.anchors.length
  let others := r.anchors.filter (·.1 != name)
  set { r with anchors := (name, number) :: others }
  return number

def targetOf (name : String) : ReadNode Nat := do
  match (← get).anchors.lookup name with
  | some number => return number
  | none => throw (.unknownAnchor name)

/-- A tag without its handle. -/
def expand (handle : String) (suffix : TagOctets) : ReadNode TagOctets := do
  if handle.isEmpty then return suffix
  match (← get).handles.lookup handle with
  | some expansion => return expansion ++ suffix
  | none => throw (.undefinedHandle handle)

/-- What may stand before a node: an anchor and a tag, in either order. -/
def properties : ReadNode (Option String × Option TagOctets) := do
  match ← peek with
  | some (.anchor name) =>
    skip
    match ← peek with
    | some (.tag handle suffix) => skip; return (some name, some (← expand handle suffix))
    | _ => return (some name, none)
  | some (.tag handle suffix) =>
    skip
    match ← peek with
    | some (.anchor name) => skip; return (some name, some (← expand handle suffix))
    | _ => return (none, some (← expand handle suffix))
  | _ => return (none, none)

def emptyScalar : Node := .scalar none none .plain ""

/-- Where a node stands: in a block, as the key or value of a block mapping, where a sequence need
not be indented, or in a flow collection. -/
inductive Place where
  | block
  | blockEntry
  | flow
  deriving DecidableEq

/-- Whether the place is empty: the token belongs to the collection around. -/
def isAbsent (closers : List Token) (t : Option Token) : Bool := t.any closers.contains

mutual
/-- A node. Each call inside takes one unit of the bound; three for each token suffice. -/
def node (bound : Nat) (place : Place) : ReadNode Node :=
  match bound with
  | 0 => unexpected
  | bound + 1 => do
    if let some (.alias name) ← peek then
      skip
      return .alias (← targetOf name)
    let (name, tag) ← properties
    let anchor ← name.mapM declare
    match ← peek, place with
    | some .blockItem, .blockEntry => return .sequence anchor tag (← looseItems bound)
    | some (.scalar text style), _ => skip; return .scalar anchor tag style text
    | some .flowSequenceStart, _ => skip; return .sequence anchor tag (← flowItems bound true)
    | some .flowMappingStart, _ => skip; return .mapping anchor tag (← flowEntries bound true)
    | some .blockSequenceStart, .block | some .blockSequenceStart, .blockEntry =>
      skip; return .sequence anchor tag (← blockItems bound)
    | some .blockMappingStart, .block | some .blockMappingStart, .blockEntry =>
      skip; return .mapping anchor tag (← blockEntries bound)
    | _, _ => if name.isSome || tag.isSome then return .scalar anchor tag .plain "" else unexpected

/-- A node, or an empty scalar if the next token closes the place. -/
def nodeUnless (bound : Nat) (place : Place) (closers : List Token) : ReadNode Node :=
  match bound with
  | 0 => unexpected
  | bound + 1 => do
    if isAbsent closers (← peek) then return emptyScalar else node bound place

def blockItems (bound : Nat) : ReadNode (List Node) :=
  match bound with
  | 0 => unexpected
  | bound + 1 => do
    match ← peek with
    | some .blockItem =>
      skip
      let item ← nodeUnless bound .block [.blockItem, .blockEnd]
      return item :: (← blockItems bound)
    | some .blockEnd => skip; return []
    | _ => unexpected

/-- The items of a sequence that is indented no further than the mapping it stands in. -/
def looseItems (bound : Nat) : ReadNode (List Node) :=
  match bound with
  | 0 => unexpected
  | bound + 1 => do
    match ← peek with
    | some .blockItem =>
      skip
      let item ← nodeUnless bound .block [.blockItem, .key, .value, .blockEnd]
      return item :: (← looseItems bound)
    | _ => return []

def blockEntries (bound : Nat) : ReadNode (List (Node × Node)) :=
  match bound with
  | 0 => unexpected
  | bound + 1 => do
    match ← peek with
    | some .key =>
      skip
      let key ← nodeUnless bound .blockEntry [.key, .value, .blockEnd]
      let value ← blockValue bound
      return (key, value) :: (← blockEntries bound)
    | some .blockEnd => skip; return []
    | _ => unexpected

def blockValue (bound : Nat) : ReadNode Node :=
  match bound with
  | 0 => unexpected
  | bound + 1 => do
    match ← peek with
    | some .value => skip; nodeUnless bound .blockEntry [.key, .value, .blockEnd]
    | _ => return emptyScalar

/-- The items of a flow sequence, up to its end. A key among them makes a mapping of one entry. -/
def flowItems (bound : Nat) (first : Bool) : ReadNode (List Node) :=
  match bound with
  | 0 => unexpected
  | bound + 1 => do
    match ← peek with
    | some .flowSequenceEnd => skip; return []
    | some .flowItem =>
      if first then unexpected
      skip
      flowItem bound
    | _ => if first then flowItem bound else unexpected

def flowItem (bound : Nat) : ReadNode (List Node) :=
  match bound with
  | 0 => unexpected
  | bound + 1 => do
    match ← peek with
    | some .flowSequenceEnd => skip; return []
    | some .key =>
      skip
      let closers := [Token.value, .flowItem, .flowSequenceEnd]
      let absent := isAbsent closers (← peek)
      let key ← nodeUnless bound .flow closers
      if absent then skip
      let value ← match ← peek with
        | some .value => skip; nodeUnless bound .flow [.flowItem, .flowSequenceEnd]
        | _ => pure emptyScalar
      return .mapping none none [(key, value)] :: (← flowItems bound false)
    | _ =>
      let item ← node bound .flow
      return item :: (← flowItems bound false)

def flowEntries (bound : Nat) (first : Bool) : ReadNode (List (Node × Node)) :=
  match bound with
  | 0 => unexpected
  | bound + 1 => do
    match ← peek with
    | some .flowMappingEnd => skip; return []
    | some .flowItem =>
      if first then unexpected
      skip
      flowEntry bound
    | _ => if first then flowEntry bound else unexpected

def flowEntry (bound : Nat) : ReadNode (List (Node × Node)) :=
  match bound with
  | 0 => unexpected
  | bound + 1 => do
    match ← peek with
    | some .flowMappingEnd => skip; return []
    | some .key =>
      skip
      let key ← nodeUnless bound .flow [.value, .flowItem, .flowMappingEnd]
      let value ← match ← peek with
        | some .value => skip; nodeUnless bound .flow [.flowItem, .flowMappingEnd]
        | _ => pure emptyScalar
      return (key, value) :: (← flowEntries bound false)
    | _ =>
      let key ← node bound .flow
      return (key, emptyScalar) :: (← flowEntries bound false)
end

def directives (version : Bool) (declared : List (String × TagOctets)) : List Token →
    Except SyntaxError (List (String × TagOctets) × List Token)
  | .versionDirective major minor :: rest =>
    if version then .error .repeatedDirective
    else if major ≠ 1 ∨ (minor ≠ 1 ∧ minor ≠ 2) then .error .unsupportedVersion
    else directives true declared rest
  | .tagDirective handle expansion :: rest =>
    if (declared.lookup handle).isSome then .error .repeatedDirective
    else directives version ((handle, expansion) :: declared) rest
  | rest => .ok (declared, rest)

def content (bound : Nat) : ReadNode Node := do
  match ← peek with
  | none | some .documentStart | some .documentEnd
  | some (.versionDirective ..) | some (.tagDirective ..) =>
    return emptyScalar
  | _ => node bound .block

def document (bound : Nat) : ReadNode (Option Node) := do
  match ← peek with
  | none => return none
  | some (.versionDirective ..) | some (.tagDirective ..) | some .documentStart =>
    let r ← get
    let (declared, rest) ← directives false [] r.tokens
    match rest with
    | .documentStart :: rest =>
      set { r with tokens := rest, handles := declared ++ r.handles }
      let root ← content bound
      ending
      return some root
    | _ => unexpected
  | _ =>
    let root ← node bound .block
    ending
    return some root
where
  ending : ReadNode Unit := do
    if (← get).tokens.any (· != .documentEnd) then throw .secondDocument

end ReadNode

/-- The document of a row of tokens. -/
def Node.ofTokens? (tokens : List Token) : Except SyntaxError (Option Node) := do
  let (root, _) ← (ReadNode.document (3 * tokens.length + 3)).run { tokens }
  return root

end EnvCompose.Yaml
