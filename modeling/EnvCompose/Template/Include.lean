import EnvCompose.Error
import EnvCompose.Machine

/-!
# Copying trees of includes

A directory is copied with all it holds to a place where nothing is yet.
-/
namespace EnvCompose

variable {m : Type → Type} [Monad m] [Machine m]

/-- Copies what a directory holds into another, which is made first, down to a depth. What the
making adds to the source is copied too. -/
def copyDirectory : Nat → Path → Path → ExceptT TemplateError m Unit
  | 0, _, dest => throw (.copy dest .nameTooLong)
  | depth + 1, source, dest => do
    (Machine.makeDirectories dest).adapt (.copy dest)
    let names ← (Machine.list source).adapt (.copy source)
    names.forM fun name => do
      let inner := source.join ⟨name⟩
      if ← (Machine.isDirectory inner : m Bool) then
        copyDirectory depth inner (dest.join ⟨name⟩)
      else (Machine.copyFile inner (dest.join ⟨name⟩)).adapt (.copy inner)

/-- Copies a directory tree to a fresh place, with the directories around it. Every level makes the
paths longer, so no tree is deeper than a path can be long. -/
def copyTree (source dest : Path) : ExceptT TemplateError m Unit := do
  if ← (Machine.pathExists dest : m Bool) then throw (.alreadyExists dest)
  (Machine.debug s!"copying {source} to {dest}" : m Unit)
  copyDirectory Disk.pathLimit source dest

end EnvCompose
