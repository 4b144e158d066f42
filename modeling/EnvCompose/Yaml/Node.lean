import EnvCompose.Yaml.Token

/-!
# Nodes

A node is a document as it was written: scalars keep their text and style, and references to other
nodes are still references. Anchors are numbered; a reference goes to the last node in document
order that carries its number.
-/
namespace EnvCompose.Yaml

inductive Node where
  | alias (target : Nat)
  | scalar (anchor : Option Nat) (tag : Option TagOctets) (style : ScalarStyle) (text : String)
  | sequence (anchor : Option Nat) (tag : Option TagOctets) (items : List Node)
  | mapping (anchor : Option Nat) (tag : Option TagOctets) (entries : List (Node × Node))
  deriving Repr, Inhabited

namespace Node

def anchor? : Node → Option Nat
  | .alias _ => none
  | .scalar a .. => a
  | .sequence a .. => a
  | .mapping a .. => a

mutual
/-- The nodes of a tree in document order, each collection before its members. -/
def preorder : Node → List Node
  | .alias t => [.alias t]
  | .scalar a t s x => [.scalar a t s x]
  | .sequence a t items => .sequence a t items :: preorderItems items
  | .mapping a t entries => .mapping a t entries :: preorderEntries entries

def preorderItems : List Node → List Node
  | [] => []
  | n :: items => preorder n ++ preorderItems items

def preorderEntries : List (Node × Node) → List Node
  | [] => []
  | (k, v) :: entries => preorder k ++ preorder v ++ preorderEntries entries
end

/-- The anchored nodes of the tree, last one first. -/
def anchored (root : Node) : List (Nat × Node) :=
  (root.preorder.filterMap fun n => n.anchor?.map (·, n)).reverse

/-- A collection counts twice, for its start and its end. -/
def eventCount (root : Node) : Nat :=
  root.preorder.foldl (fun n node => n + match node with
    | .sequence .. | .mapping .. => 2
    | _ => 1) 0

end Node
end EnvCompose.Yaml
