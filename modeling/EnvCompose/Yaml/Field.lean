import EnvCompose.Yaml.Reader

/-!
# Nodes as fields

A record is written as a mapping, each of whose values has to be of a kind that its field fixes. A
scalar gives its text to a field of text, whatever it would mean as a value; tags do not matter.
-/
namespace EnvCompose.Yaml.Document

/-- A plain scalar with no text stands for nothing at all. -/
def isVoid : Node → Bool
  | .scalar _ _ .plain "" => true
  | _ => false

def text (d : Document) (n : Node) : Read String := do
  match ← d.follow n with
  | .scalar _ _ _ s => return s
  | _ => throw (.unexpectedShape "a string")

/-- The text of a scalar, none if it is plain and null. A tag makes it text, unless it is the tag of
null, which only a null may have. -/
def text? (d : Document) (n : Node) : Read (Option String) := do
  match ← d.follow n with
  | .scalar _ none .plain s => return if s.isEmpty || isNullText s then none else some s
  | .scalar _ (some tag) .plain s =>
    if tag.coreType? == some "null" then
      if isNullText s then return none else throw (.invalidScalar s "null")
    else return some s
  | .scalar _ _ _ s => return some s
  | _ => throw (.unexpectedShape "a string")

/-- The truth value a scalar stands for, which is plain, or literal with the tag of truth values. -/
def truth (d : Document) (n : Node) : Read Bool := do
  match ← d.follow n with
  | .scalar _ tag style s =>
    let admitted :=
      style == .plain || (style == .literal && tag.bind TagOctets.coreType? == some "bool")
    match truthOf? s with
    | some b => if admitted then return b else throw (.unexpectedShape "a boolean")
    | none => throw (.unexpectedShape "a boolean")
  | _ => throw (.unexpectedShape "a boolean")

def texts (d : Document) (n : Node) : Read (List String) := do
  match ← d.follow n with
  | .sequence _ _ items => items.mapM d.text
  | n => if isVoid n then return [] else throw (.unexpectedShape "a sequence")

/-- The entries of a record by field, each of which is there once at most. -/
def fields (d : Document) (names : List String) (n : Node) : Read (List (String × Node)) := do
  match ← d.follow n with
  | .mapping _ _ entries =>
    entries.foldlM (fun found e => do
      let name ← d.text e.1
      unless names.contains name do throw (.unknownField name)
      if (found.lookup name).isSome then throw (.repeatedField name)
      return found ++ [(name, e.2)]) []
  | n => if isVoid n then return [] else throw (.unexpectedShape "a mapping")

end EnvCompose.Yaml.Document
