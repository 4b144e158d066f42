import EnvCompose.Yaml.Value

/-!
# Keys and override markers

A string key of two or more characters that ends in a colon is marked: where it wins a merge its
value replaces the other side's instead of being merged into it. A key goes by its name, the text
without the colons at its end; a key of one character has no marker, and only strings have names.
-/
namespace EnvCompose.Merge
open Yaml

def trimColons (s : String) : String :=
  String.ofList (s.toList.reverse.dropWhile (· == ':')).reverse

def isMarked : Value → Bool
  | .str s => s.length > 1 && s.toList.getLast? == some ':'
  | _ => false

def keyName? : Value → Option String
  | .str s => some (if s.length > 1 then trimColons s else s)
  | _ => none

/-- The first entry that goes by the name. -/
def entryNamed? (m : Mapping) (name : String) : Option (Value × Value) :=
  List.find? (fun e => keyName? e.1 == some name) m

/-- The first entry that goes by the key's name, or has an equal key if the key has no name. -/
def entryFor? (m : Mapping) (key : Value) : Option (Value × Value) :=
  match keyName? key with
  | some name => entryNamed? m name
  | none => m.find? key

/-- The key without its marker. -/
def unmarked (key : Value) : Value :=
  match key with
  | .str s => if isMarked key then .str (trimColons s) else key
  | _ => key

mutual
/-- The document with no marker on any key of a mapping in it; keys that are themselves collections
stay as they are. Of two keys that become equal the first keeps its place and the last its value. -/
def unmark : Value → Value
  | .map entries => .map (Mapping.ofList (unmarkEntries entries))
  | .seq items => .seq (unmarkItems items)
  | .tagged tag value => .tagged tag (unmark value)
  | .null => .null
  | .bool b => .bool b
  | .int i => .int i
  | .float x => .float x
  | .str s => .str s

def unmarkItems : List Value → List Value
  | [] => []
  | v :: items => unmark v :: unmarkItems items

def unmarkEntries : List (Value × Value) → List (Value × Value)
  | [] => []
  | (key, value) :: entries => (unmarked key, unmark value) :: unmarkEntries entries
end

end EnvCompose.Merge
