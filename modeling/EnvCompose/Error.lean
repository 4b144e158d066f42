import EnvCompose.Path
import EnvCompose.Disk.Error
import EnvCompose.Yaml.Reader
import EnvCompose.Yaml.Writer

/-!
# What ends a build

The causes for which templates and builds are given up, and their wording. None is retried. A build
that fails after its directory has been made leaves that directory as it is.
-/
namespace EnvCompose

inductive TemplateError where
  | unknown (name : String)
  | unreadable (cause : DiskError)
  | alreadyExists (dest : Path)
  | copy (at_ : Path) (cause : DiskError)
  deriving DecidableEq, Repr

def TemplateError.message : TemplateError → String
  | .unknown name => s!"template \"{name}\" does not exist"
  | .unreadable cause => s!"failed to read template: {cause.message}"
  | .alreadyExists dest => s!"destination already exists: {dest}"
  | .copy at_ cause => s!"failed to copy {at_}: {cause.message}"

/-- What is wrong with a document that should be a manifest or a file of pins. -/
inductive ManifestFault where
  | notMapping
  | bodyNotMapping
  | noBody
  /-- A file of pins without packages. -/
  | noPackages (pins : Path)
  deriving DecidableEq, Repr

def ManifestFault.message : ManifestFault → String
  | .notMapping => "expected a mapping at the top level"
  | .bodyNotMapping => "'spack' must be a mapping"
  | .noBody => "missing top-level 'spack' section"
  | .noPackages pins => s!"{pins} has no 'packages' section"

inductive RevisionFault where
  | notRun (cause : DiskError)
  /-- The program failed and gave this reason. -/
  | refused (reason : String)
  | notText
  | noRevision
  deriving DecidableEq, Repr

def RevisionFault.message : RevisionFault → String
  | .notRun cause => s!"failed to run git: {cause.message}"
  | .refused reason => reason
  | .notText => "git printed a non-UTF-8 revision"
  | .noRevision => "git printed no revision"

inductive BuildError where
  | unknownTemplate (name : String)
  | invalidContainer (name : String)
  | alreadyExists (dir : Path)
  | siteNotSet
  | siteNotFound (site : String)
  | revision (checkout : Path) (fault : RevisionFault)
  | alreadyActive (current : Path)
  | read (file : Path) (cause : DiskError)
  | write (file : Path) (cause : DiskError)
  | createDirectory (dir : Path) (cause : DiskError)
  | copy (cause : TemplateError)
  | parse (cause : Yaml.ReadError)
  | serialize (cause : Yaml.WriteError)
  | invalidManifest (fault : ManifestFault)
  deriving Repr

namespace BuildError

def message : BuildError → String
  | .unknownTemplate name => (TemplateError.unknown name).message
  | .invalidContainer name => s!"invalid container {name}"
  | .alreadyExists dir => s!"environment '{dir}' already exists"
  | .siteNotSet => "site is not set"
  | .siteNotFound site => s!"site '{site}' does not exist"
  | .revision checkout fault => s!"failed to get git revision in {checkout}: {fault.message}"
  | .alreadyActive current => s!"environment '{current}' is already active"
  | .read file cause => s!"failed to read {file}: {cause.message}"
  | .write file cause => s!"failed to write {file}: {cause.message}"
  | .createDirectory dir cause => s!"failed to create directory {dir}: {cause.message}"
  | .copy cause => s!"failed to copy include: {cause.message}"
  | .parse cause => s!"failed to parse manifest: {cause.message}"
  | .serialize cause => s!"failed to serialize manifest: {cause.message}"
  | .invalidManifest fault => s!"invalid manifest: {fault.message}"

/-- What a failure with a template or a tree means for a build: a name that leads to no template, or
an include that cannot be copied. -/
def ofTemplate : TemplateError → BuildError
  | .unknown name => .unknownTemplate name
  | cause => .copy cause

end BuildError
end EnvCompose
