import EnvCompose.Layout
import EnvCompose.Manifest.File
import EnvCompose.Text.Utf8

/-!
# Revisions

A manifest is headed by the revisions of the two checkouts it was made from.
-/
namespace EnvCompose

/-- Where the short revision of a checkout is known from. -/
abbrev RevisionSource (m : Type → Type) := Path → Build m String

variable {m : Type → Type} [Monad m] [Machine m]

def fixedRevision (hash : String) : RevisionSource m := fun _ => pure hash

def CommandOutput.revision (out : CommandOutput) : Except RevisionFault String :=
  if out.code != 0 then .error (.refused (Text.trim (Text.decodeLossy out.stderr)))
  else match Text.decode? out.stdout with
    | none => .error .notText
    | some printed =>
      let hash := Text.trim printed
      if hash.isEmpty then .error .noRevision else .ok hash

def checkedOutRevision : RevisionSource m := fun checkout => do
  let out ← (Machine.askRevision checkout).adapt fun e => .revision checkout (.notRun e)
  match out.revision with
  | .ok hash => return hash
  | .error fault => throw (.revision checkout fault)

structure Provenance where
  stack : String
  spack : String
  deriving DecidableEq, Repr

namespace Provenance

/-- Asks for both revisions, that of the stack first. -/
def collect (source : RevisionSource m) (l : Layout) : Build m Provenance := do
  let stack ← source l.root
  let spack ← source l.spack
  return ⟨stack, spack⟩

def header (p : Provenance) : String := s!"spack-stack hash: {p.stack}\nspack hash: {p.spack}"

end Provenance
end EnvCompose
