import EnvCompose.Decimal.Binary64

/-!
# Documents as values

A document is a tree of scalars, sequences and mappings, any of which may carry a tag. A mapping is
the list of its entries in order. Equality, written `==`, compares mappings without regard to order
and never takes an integer for a float.
-/
namespace EnvCompose.Yaml
open Decimal

/-- A document. Tags are kept without the exclamation mark that introduces them. -/
inductive Value where
  | null
  | bool (value : Bool)
  | int (value : Int)
  | float (value : Binary64)
  | str (text : String)
  | seq (items : List Value)
  | map (entries : List (Value × Value))
  | tagged (tag : String) (value : Value)
  deriving Repr, Inhabited

abbrev Mapping := List (Value × Value)

namespace Value

mutual
def same : Value → Value → Bool
  | .null, .null => true
  | .bool a, .bool b => a == b
  | .int a, .int b => a == b
  | .float a, .float b => a.same b
  | .str a, .str b => a == b
  | .seq as, .seq bs => sameItems as bs
  | .map as, .map bs => as.length == bs.length && sameEntries as bs
  | .tagged s a, .tagged t b => s == t && same a b
  | _, _ => false

def sameItems : List Value → List Value → Bool
  | [], [] => true
  | a :: as, b :: bs => same a b && sameItems as bs
  | _, _ => false

def sameEntries : List (Value × Value) → List (Value × Value) → Bool
  | [], _ => true
  | (k, v) :: as, bs => bs.any (fun e => same k e.1 && same v e.2) && sameEntries as bs
end

instance : BEq Value := ⟨same⟩

def untagged : Value → Value
  | .tagged _ v => v.untagged
  | v => v

def entries? (v : Value) : Option Mapping :=
  match v.untagged with
  | .map m => some m
  | _ => none

def isMap (v : Value) : Bool := v.entries?.isSome

def items? (v : Value) : Option (List Value) :=
  match v.untagged with
  | .seq xs => some xs
  | _ => none

def text? (v : Value) : Option String :=
  match v.untagged with
  | .str s => some s
  | _ => none

/-- Nothing to keep: null, or a collection without a member. -/
def isBlank : Value → Bool
  | .null | .map [] | .seq [] => true
  | _ => false

end Value

namespace Mapping

def find? (m : Mapping) (key : Value) : Option (Value × Value) := List.find? (·.1 == key) m

def get? (m : Mapping) (key : Value) : Option Value := (m.find? key).map (·.2)

/-- Assigns in place if there is an equal key, which is kept, and appends otherwise. -/
def insert : Mapping → Value → Value → Mapping
  | [], key, value => [(key, value)]
  | e :: m, key, value => if e.1 == key then (e.1, value) :: m else e :: insert m key value

/-- Assigns the entries in order to an empty mapping. -/
def ofList (entries : List (Value × Value)) : Mapping :=
  entries.foldl (fun m e => m.insert e.1 e.2) []

/-- Takes out the entry with the key; the last entry moves into its place. -/
def remove (m : Mapping) (key : Value) : Option Value × Mapping :=
  match m.findIdx? (·.1 == key), m.getLast? with
  | some i, some last =>
    (m[i]?.map (·.2), if i + 1 = m.length then m.dropLast else (m.set i last).dropLast)
  | _, _ => (none, m)

end Mapping
end EnvCompose.Yaml
