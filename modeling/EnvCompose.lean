import EnvCompose.Main
import EnvCompose.Workspace
import EnvCompose.Proofs.Attempts
import EnvCompose.Proofs.Container.Files
import EnvCompose.Proofs.Environment.Overrides
import EnvCompose.Proofs.Merge.Restoring
import EnvCompose.Proofs.Environment.Unedited
import EnvCompose.Proofs.Yaml.Displacement
import EnvCompose.Proofs.Yaml.Comments
import EnvCompose.Proofs.Yaml.Identity
import EnvCompose.Proofs.Manifest.RoundTrip
import EnvCompose.Proofs.Disk.Frames
import EnvCompose.Proofs.Workspace.Frames
import EnvCompose.Proofs.Workspace.Copying
import EnvCompose.Proofs.Environment.Contents
import EnvCompose.Proofs.Workspace.Outcomes
import EnvCompose.Proofs.Environment.Abandonment
import EnvCompose.Proofs.Manifest.Layering
import EnvCompose.Proofs.Manifest.Survival
import EnvCompose.Proofs.Merge.Associativity
import EnvCompose.Proofs.Environment.Refinement
import EnvCompose.Proofs.Merge.Covering
import EnvCompose.Proofs.Container.Markers
import EnvCompose.Proofs.Merge.Repetition
import EnvCompose.Proofs.Merge.Reordering
import EnvCompose.Proofs.Manifest.Retrieval
import EnvCompose.Proofs.Manifest.Resaving
import EnvCompose.Proofs.Merge.Mirroring
import EnvCompose.Proofs.Manifest.MergingSections
import EnvCompose.Proofs.Container.Outcomes
import EnvCompose.Proofs.Workspace.Trees
import EnvCompose.Proofs.Merge.Projection
import EnvCompose.Proofs.Manifest.Unmarking
import EnvCompose.Proofs.Manifest.Locality
import EnvCompose.Proofs.Manifest.Editing
import EnvCompose.Proofs.Manifest.Commuting
import EnvCompose.Proofs.Template.Listing
import EnvCompose.Proofs.Workspace.Fresh
import EnvCompose.Proofs.Workspace.Rereading
import EnvCompose.Proofs.Container.Naming
import EnvCompose.Proofs.Container.Siblings
import EnvCompose.Proofs.Workspace.Names
import EnvCompose.Proofs.Environment.Sessions
import EnvCompose.Proofs.Workspace.Watching
import EnvCompose.Proofs.Workspace.Replacement
