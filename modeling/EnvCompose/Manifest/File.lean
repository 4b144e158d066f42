import EnvCompose.Machine
import EnvCompose.Manifest.Basic
import EnvCompose.Text.Blank

/-!
# Manifests in files

A manifest is written to a temporary file beside its place and moved there when it is complete, so
its file holds either the old or the new text.
-/
namespace EnvCompose
open Yaml

abbrev Build (m : Type → Type) := ExceptT BuildError m

/-- A header as comment lines. -/
def commentLines (header : String) : String :=
  String.join ((Text.lines header).map fun line => "# " ++ line ++ "\n")

variable {m : Type → Type} [Monad m] [Machine m]

/-- Writes a file in one step, by way of a temporary file which does not outlive a failure. -/
def writeAtomic (file : Path) (text : String) : Build m Unit :=
  ExceptT.adapt (BuildError.write file) do
    let temporary ← Machine.createTemporary (file.parent?.getD ⟨"."⟩)
    tryCatch (do
        Machine.writeFile temporary text.toUTF8
        Machine.sync temporary
        Machine.rename temporary file)
      fun e => do
        tryCatch (Machine.remove temporary) fun _ => pure ()
        throw e

def readDocument (file : Path) : Build m String :=
  (Machine.readText file).adapt (BuildError.read file)

def loadUnmarked (file : Path) : Build m Value := do
  let text ← readDocument file
  match Value.parse text with
  | .error e => throw (.parse e)
  | .ok v => return Merge.unmark v

namespace Manifest

def load (file : Path) : Build m Manifest := do
  let text ← readDocument file
  liftExcept (parse text)
where
  liftExcept {α : Type} (r : Except BuildError α) : Build m α := ExceptT.mk (pure r)

/-- The text of a manifest, below a header in comment lines if there is one. -/
def render (manifest : Manifest) (header : Option String) : Except BuildError String :=
  match manifest.toValue.render with
  | .error e => .error (.serialize e)
  | .ok text => .ok (((header.map commentLines).getD "") ++ text)

def write (manifest : Manifest) (file : Path) (header : Option String) : Build m Unit := do
  let text ← (ExceptT.mk (pure (manifest.render header)) : Build m String)
  writeAtomic file text

end Manifest
end EnvCompose
