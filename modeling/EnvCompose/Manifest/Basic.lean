import EnvCompose.Error
import EnvCompose.Merge.Basic
import EnvCompose.Text.Split

/-!
# Manifests

A manifest is the mapping under the key `spack` of a document, with the other top-level entries kept
beside it. Its values are found by paths of key names, which do not see override markers.
-/
namespace EnvCompose
open Yaml Merge

structure Manifest where
  /-- What stands under `spack`. -/
  body : Mapping
  /-- The other entries of the document. -/
  extra : Mapping
  deriving Repr, Inhabited

namespace Manifest

/-- Equality without regard to the order of mappings. -/
instance : BEq Manifest :=
  ⟨fun a b => Value.map a.body == .map b.body && Value.map a.extra == .map b.extra⟩

def empty : Manifest := ⟨[], []⟩

def bodyKey : Value := .str "spack"

def ofValue : Value → Except ManifestFault Manifest
  | .map entries =>
    match Mapping.remove entries bodyKey with
    | (some (.map body), extra) => .ok ⟨body, extra⟩
    | (some .null, extra) => .ok ⟨[], extra⟩
    | (some _, _) => .error .bodyNotMapping
    | (none, _) => .error .noBody
  | _ => .error .notMapping

def toValue (m : Manifest) : Value :=
  .map (m.extra.foldl (fun (doc : Mapping) e => doc.insert e.1 e.2) [(bodyKey, .map m.body)])

def parse (text : String) : Except BuildError Manifest :=
  match Value.parse text with
  | .error e => .error (.parse e)
  | .ok v => (ofValue v).mapError .invalidManifest

/-- The names on a path, which is written with colons between them. -/
def namesOn (path : String) : List String := Text.pieces ':' path

/-- What a document has under names, each the name of a key in the mapping under those before. -/
def lookup : List String → Value → Option Value
  | [], v => some v
  | name :: names, v => do
    let e ← entryNamed? (← v.entries?) name
    lookup names e.2

/-- What the manifest has at a path of at least one name. -/
def get? (m : Manifest) (path : String) : Option Value :=
  match namesOn path with
  | [] => none
  | names => lookup names (.map m.body)

/-- Assigns a value under names. Where a name has no mapping on the way, it gets one; a mapping with
a tag is left as it is. -/
def assign (m : Mapping) (names : List String) (v : Value) : Mapping :=
  match names with
  | [] => m
  | name :: names =>
    let key := ((entryNamed? m name).map (·.1)).getD (.str name)
    if names.isEmpty then m.insert key v
    else match m.get? key with
      | some (.map inner) => m.insert key (.map (assign inner names v))
      | some other => if other.isMap then m else m.insert key (.map (assign [] names v))
      | none => m.insert key (.map (assign [] names v))

def set (m : Manifest) (path : String) (v : Value) : Manifest :=
  { m with body := assign m.body (namesOn path) v }

end Manifest
end EnvCompose
