import EnvCompose.Merge.Key

/-!
# Deep merge

Two documents are merged key by key. The strategy says which side wins where both have a value that
is not a mapping, and whether the winner's sequence takes up the items that only the loser has.
-/
namespace EnvCompose.Merge
open Yaml

inductive Precedence where
  | base
  | overlay
  deriving DecidableEq, Repr

inductive SequenceMerge where
  /-- The winner's items, then those of the loser's that the winner lacks. -/
  | combine
  /-- The winner's items only. -/
  | replace
  deriving DecidableEq, Repr

structure Strategy where
  precedence : Precedence
  sequences : SequenceMerge
  deriving DecidableEq, Repr

namespace Strategy

/-- A document of higher precedence on top, lists combined. -/
def layer : Strategy := ⟨.overlay, .combine⟩

/-- An earlier document back on top, replacing what it defines. -/
def restore : Strategy := ⟨.overlay, .replace⟩

/-- Only what the base leaves undefined. -/
def fill : Strategy := ⟨.base, .replace⟩

def winner {α : Type} (s : Strategy) (base overlay : α) : α :=
  match s.precedence with
  | .base => base
  | .overlay => overlay

def loser {α : Type} (s : Strategy) (base overlay : α) : α :=
  match s.precedence with
  | .base => overlay
  | .overlay => base

end Strategy

/-- The first list, then the items of the second that it does not contain. -/
def combine (first second : List Value) : List Value :=
  first ++ second.filter (fun v => !first.contains v)

mutual
def merge (s : Strategy) : Value → Value → Value
  | .map base, .map overlay =>
    .map (Mapping.ofList
      (mergeBase s base overlay ++ overlay.filter fun e => (entryFor? base e.1).isNone))
  | .seq base, .seq overlay =>
    match s.sequences with
    | .combine => .seq (combine (s.winner base overlay) (s.loser base overlay))
    | .replace => .seq (s.winner base overlay)
  | base, overlay => s.winner base overlay

/-- The entries of the base, each with what the overlay has under its name. -/
def mergeBase (s : Strategy) : List (Value × Value) → Mapping → List (Value × Value)
  | [], _ => []
  | (key, value) :: rest, overlay =>
    (match entryFor? overlay key with
      | none => (key, value)
      | some (overlayKey, overlayValue) =>
        if isMarked (s.winner key overlayKey) then
          (s.winner key overlayKey, s.winner value overlayValue)
        else (key, merge s value overlayValue)) :: mergeBase s rest overlay
end

def mergeMappings (s : Strategy) (base overlay : Mapping) : Mapping :=
  Mapping.ofList (mergeBase s base overlay ++ overlay.filter fun e => (entryFor? base e.1).isNone)

theorem merge_map (s : Strategy) (base overlay : Mapping) :
    merge s (.map base) (.map overlay) = .map (mergeMappings s base overlay) := by
  simp [merge, mergeMappings]

end EnvCompose.Merge
