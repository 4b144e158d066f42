import EnvCompose.Machine

/-!
# The layout of a checkout

Where a build finds templates, sites, common includes, container definitions and the package manager
under the top of a checkout, which is marked by a hidden file.
-/
namespace EnvCompose

structure Layout where
  /-- The top of the checkout. -/
  root : Path
  /-- The checkout of the package manager. -/
  spack : Path
  /-- A directory with a directory for each template. -/
  templates : Path
  /-- A directory with a directory for each site. -/
  sites : Path
  /-- What every environment includes. -/
  common : Path
  /-- A directory with a file for each container definition. -/
  containers : Path
  deriving DecidableEq, Repr

structure LayoutOverrides where
  root : Option Path := none
  spack : Option Path := none
  templates : Option Path := none
  sites : Option Path := none
  common : Option Path := none
  containers : Option Path := none
  deriving DecidableEq, Repr, Inhabited

namespace Layout

def markFile : Path := ⟨".spackstack"⟩

def ofRoot (root : Path) : Layout where
  root := root
  spack := root.join ⟨"spack"⟩
  templates := (root.join ⟨"configs"⟩).join ⟨"templates"⟩
  sites := (root.join ⟨"configs"⟩).join ⟨"sites"⟩
  common := (root.join ⟨"configs"⟩).join ⟨"common"⟩
  containers := (root.join ⟨"configs"⟩).join ⟨"containers"⟩

/-- The layout with the parts that are set. The root stays. -/
def override (l : Layout) (o : LayoutOverrides) : Layout where
  root := l.root
  spack := o.spack.getD l.spack
  templates := o.templates.getD l.templates
  sites := o.sites.getD l.sites
  common := o.common.getD l.common
  containers := o.containers.getD l.containers

def siteDir (l : Layout) (site : String) : Path := l.sites.join ⟨site⟩

variable {m : Type → Type} [Monad m] [Machine m]

def findMarked? : List Path → m (Option Path)
  | [] => return none
  | dir :: dirs => do
    if ← Machine.isFile (dir.join markFile) then return some dir
    findMarked? dirs

def discover (start : Path) : m (Option Layout) := return (← findMarked? start.ancestors).map ofRoot

def listSites (l : Layout) : Attempt m (List String) := do
  if ← (Machine.isDirectory l.sites : m Bool) then
    let names ← Machine.list l.sites
    let dirs ← (names.filterM fun name => Machine.isDirectory (l.sites.join ⟨name⟩) : m (List String))
    return dirs.mergeSort fun a b => decide (a ≤ b)
  else return []

end Layout
end EnvCompose
