import EnvCompose.Machine

/-!
# A machine as a value

A workspace holds all that a build can see or change: the disk, the log so far, the active
environment and what is known of revisions. It makes every build a function.
-/
namespace EnvCompose

structure Workspace where
  disk : Disk
  active : Option Path := none
  /-- The log, its last line first. -/
  logged : List LogLine := []
  /-- The output of the version control program by directory, absent if there is no such program. -/
  revisions : Option (List (Location × CommandOutput)) := some []
  /-- The variables the program runs with, by name. -/
  exported : List (String × String) := []
  deriving Inhabited

namespace Workspace

/-- The output in a directory that is no checkout. -/
def notCheckout : CommandOutput := ⟨128, .empty, "fatal: not a git repository\n".toUTF8⟩

def ask {α : Type} (f : Disk → Except DiskError α) : Attempt (StateM Workspace) α :=
  fun w => (f w.disk, w)

def act {α : Type} (f : Disk → Except DiskError (Disk × α)) :
    Attempt (StateM Workspace) α := fun w =>
  match f w.disk with
  | .ok (d, a) => (.ok a, { w with disk := d })
  | .error e => (.error e, w)

def change (f : Disk → Except DiskError Disk) : Attempt (StateM Workspace) Unit :=
  act fun d => (f d).map (·, ())

def revisionAt (w : Workspace) (p : Path) : Except DiskError CommandOutput := do
  if Disk.hasNul p then throw .invalidDirectory
  let found ← w.disk.locate p
  if !found.tree.isDirectory then throw .notDirectory
  match w.revisions with
  | none => throw .notFound
  | some known => return (known.lookup found.location).getD notCheckout

instance : Machine (StateM Workspace) where
  kind p := ask (·.kind p)
  read p := ask (·.read p)
  list p := ask (·.list p)
  makeDirectory p := change (·.makeDirectory p)
  copyFile source dest := change (·.copyFile source dest)
  createTemporary dir := act (·.createTemporary dir)
  writeFile p octets := change (·.writeFile p octets)
  sync p := ask fun d => d.find p *> pure ()
  rename source dest := change (·.rename source dest)
  remove p := change (·.remove p)
  askRevision p := fun w => (w.revisionAt p, w)
  variableNamed name := return (← get).exported.lookup name
  workingDirectory := ask fun d => .ok d.homePath
  log line := modify fun w => { w with logged := line :: w.logged }
  active := return (← get).active
  setActive p := modify fun w => { w with active := p }

def lines (w : Workspace) : List LogLine := w.logged.reverse

end Workspace
end EnvCompose
