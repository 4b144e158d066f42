import EnvCompose.Activation
import EnvCompose.Environment.Basic
import EnvCompose.Revision
import EnvCompose.Template.Include

/-!
# Writing environments

An environment is written to a directory of its own: the includes first, the manifest last. A build
that fails before the directory is made changes nothing; one that fails later leaves it without a
manifest.
-/
namespace EnvCompose.Environment

variable {m : Type → Type} [Monad m] [Machine m]

/-- Refuses a directory that is there already and a site that is not. -/
def check (e : Environment) : Build m Unit := do
  if ← (Machine.pathExists e.directory : m Bool) then throw (.alreadyExists e.directory)
  if let some site := e.site then
    unless ← (Machine.isDirectory (e.layout.siteDir site) : m Bool) do throw (.siteNotFound site)

def makeDirectory (dir : Path) : Build m Unit :=
  (Machine.makeDirectories dir).adapt (BuildError.createDirectory dir)

/-- Copies the site's configuration, if there is a site. -/
def copySite (e : Environment) : Build m Unit := do
  if let some site := e.site then
    let source := e.layout.siteDir site
    (Machine.debug s!"including site configs from {source}" : m Unit)
    (copyTree source (e.directory.join ⟨siteInclude⟩)).adapt BuildError.ofTemplate

/-- Copies the common configuration, if it belongs to the environment. -/
def copyCommon (e : Environment) : Build m Unit := do
  if e.common then
    (Machine.debug s!"including common configs from {e.layout.common}" : m Unit)
    (copyTree e.layout.common (e.directory.join ⟨commonInclude⟩)).adapt BuildError.ofTemplate

/-- Copies the package pins over the common ones, if there are any. -/
def copyPins (e : Environment) : Build m Unit := do
  if let some pins := e.basePackages then
    let dir := e.directory.join ⟨commonInclude⟩
    makeDirectory dir
    let dest := dir.join ⟨"packages.yaml"⟩
    (Machine.debug s!"pinning packages from {pins}" : m Unit)
    (Machine.copyFile pins dest).adapt (BuildError.write dest)

/-- Writes the manifest below the revisions it is made from. -/
def writeManifest (e : Environment) (revisions : RevisionSource m) : Build m Path := do
  e.overrides.forM fun o => (Machine.debug o.message : m Unit)
  let provenance ← Provenance.collect revisions e.layout
  let file := e.directory.join manifestFile
  e.composed.write file (some provenance.header)
  (Machine.info s!"successfully wrote environment at {file}" : m Unit)
  return file

/-- Writes the environment. The answer is the file of its manifest. -/
def write (e : Environment) (revisions : RevisionSource m) : Build m Path := do
  e.check
  makeDirectory e.directory
  e.copySite
  e.copyCommon
  e.copyPins
  Activation.during e.directory (e.writeManifest revisions)

end EnvCompose.Environment
