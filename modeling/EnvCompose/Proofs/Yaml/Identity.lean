import EnvCompose.Manifest.Basic
import EnvCompose.Proofs.Yaml.Equality
import EnvCompose.Yaml.Writer

/-!
# Documents that are one and the same

Equality of documents does not see in which order a mapping has its keys. This comparison does, so
it tells what a text is read as, and whether the reader takes back exactly what has been written.
-/
namespace EnvCompose
open Yaml

namespace Yaml.Value

mutual
/-- Whether two documents are one and the same, the order of keys included. -/
def identical : Value → Value → Bool
  | .null, .null => true
  | .bool a, .bool b => a == b
  | .int a, .int b => a == b
  | .float a, .float b => a == b
  | .str a, .str b => a == b
  | .seq as, .seq bs => identicalItems as bs
  | .map as, .map bs => identicalEntries as bs
  | .tagged s a, .tagged t b => s == t && identical a b
  | _, _ => false

def identicalItems : List Value → List Value → Bool
  | [], [] => true
  | a :: as, b :: bs => identical a b && identicalItems as bs
  | _, _ => false

def identicalEntries : List (Value × Value) → List (Value × Value) → Bool
  | [], [] => true
  | (k, v) :: as, (l, w) :: bs => identical k l && identical v w && identicalEntries as bs
  | _, _ => false
end

theorem identical_iff {a b : Value} : identical a b = true ↔ a = b := by
  induction a using members_induction generalizing b with
  | scalar v hv => cases v <;> cases b <;> simp_all [isScalar, identical]
  | seq items ih =>
    cases b with
    | seq others =>
      rw [identical, Value.seq.injEq]
      induction items generalizing others with
      | nil => cases others <;> simp [identicalItems]
      | cons v items ih' =>
        rw [List.forall_mem_cons] at ih
        cases others with
        | nil => simp [identicalItems]
        | cons w others => simp [identicalItems, ih.1, ih' ih.2]
    | _ => simp [identical]
  | map entries ih =>
    cases b with
    | map others =>
      rw [identical, Value.map.injEq]
      induction entries generalizing others with
      | nil => cases others <;> simp [identicalEntries]
      | cons e entries ih' =>
        rw [List.forall_mem_cons] at ih
        cases others with
        | nil => simp [identicalEntries]
        | cons f others => simp [identicalEntries, ih.1, ih' ih.2, Prod.ext_iff]
    | _ => simp [identical]
  | tagged tag v ih => cases b <;> simp [identical, ih]

theorem parse_eq_of_identical {text : String} {v : Value}
    (h : (Value.parse text).toOption.any (identical v) = true) : Value.parse text = .ok v := by
  cases hw : Value.parse text with
  | error e => simp [hw, Except.toOption] at h
  | ok w =>
    rw [hw] at h
    rw [identical_iff.mp h]

/-- Whether what the writer makes of a document, if it makes anything, is read as that very
document, the order of its keys included. -/
def readsExactly (v : Value) : Bool :=
  match v.render with
  | .error _ => true
  | .ok text => (Value.parse text).toOption.any (identical v)

theorem parse_of_readsExactly {v : Value} (h : v.readsExactly = true) {text : String}
    (htext : v.render = .ok text) : Value.parse text = .ok v := by
  rw [readsExactly, htext] at h
  exact parse_eq_of_identical h

end Yaml.Value

theorem Manifest.parse_of_identical {text : String} {body : Mapping}
    (h : (Value.parse text).toOption.any (Value.identical (.map [(bodyKey, .map body)])) = true) :
    Manifest.parse text = .ok ⟨body, []⟩ := by
  rw [Manifest.parse, Value.parse_eq_of_identical h]
  rfl

end EnvCompose
