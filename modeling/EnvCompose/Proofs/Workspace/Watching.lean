import EnvCompose.Proofs.Disk.Temporary
import EnvCompose.Proofs.Workspace.Triple

/-!
# Watching what is done to a disk

What holds in the midst of a program is seen on a machine that keeps every disk it has had. On this
machine the names of temporary files and the failures of operations are left to chance, so that what
is proved of it holds whatever they are. If chance does nothing, it is a workspace.
-/
namespace EnvCompose

/-- What a program has no say in. -/
structure Chance where
  /-- The name of a temporary file in a directory whose members have some names. -/
  nameAmong : List String → String
  /-- Why an operation fails that might have succeeded, by the number of those before it. -/
  failure? : Nat → Option DiskError
  /-- What is in a file after a failure to write some octets to it. -/
  torn : ByteArray → ByteArray

/-- No operation fails by chance, and temporary files are called as in a workspace. -/
def Chance.plain : Chance := ⟨Disk.freshName, fun _ => none, id⟩

/-- A workspace with the disks it has had, each after an operation and the last one first. -/
structure Watched (chance : Chance) where
  workspace : Workspace
  seen : List Disk := []

namespace Watched

variable {chance : Chance} {ε δ α β : Type}

/-- An operation, after which the disk is looked at. -/
def observe (x : Attempt (StateM Workspace) α) : Attempt (StateM (Watched chance)) α := fun s =>
  ((x s.workspace).1, ⟨(x s.workspace).2, (x s.workspace).2.disk :: s.seen⟩)

/-- An operation, or what is done in its place if it is to fail, after which the disk is looked at. -/
def perform (x : Attempt (StateM Workspace) α)
    (instead : Attempt (StateM Workspace) Unit := pure ()) :
    Attempt (StateM (Watched chance)) α := fun s =>
  match chance.failure? s.seen.length with
  | none => observe x s
  | some e => observe (do tryCatch instead fun _ => pure (); throw e) s

def aside (x : StateM Workspace α) : StateM (Watched chance) α := fun s =>
  ((x s.workspace).1, { s with workspace := (x s.workspace).2 })

/-- Each operation is that of a workspace, but for what is left to chance. A temporary file can be
removed in any case. -/
instance : Machine (StateM (Watched chance)) where
  kind p := perform (Machine.kind p)
  read p := perform (Machine.read p)
  list p := perform (Machine.list p)
  makeDirectory p := perform (Machine.makeDirectory p)
  copyFile source dest := perform (Machine.copyFile source dest)
  createTemporary dir := perform (Workspace.act (·.createTemporaryAs chance.nameAmong dir))
  writeFile p octets := perform (Machine.writeFile p octets) (Machine.writeFile p (chance.torn octets))
  sync p := perform (Machine.sync p)
  rename source dest := perform (Machine.rename source dest)
  remove p := observe (Machine.remove p)
  askRevision p := perform (Machine.askRevision p)
  variableNamed name := aside (Machine.variableNamed name)
  workingDirectory := perform Machine.workingDirectory
  log line := aside (Machine.log line)
  active := aside Machine.active
  setActive p := aside (Machine.setActive p)

theorem runFrom_observe (s : Watched chance) (x : Attempt (StateM Workspace) α) :
    runFrom s (observe x) = ((s.workspace.run x).1,
      ⟨(s.workspace.run x).2, (s.workspace.run x).2.disk :: s.seen⟩) := rfl

section Passage

variable {during pre failed failed' : Disk → Prop} {post : α → Disk → Prop}

/-- Whether an operation leads from a disk with a property to one with another, by success or by
failure, and all disks that are seen on the way have a third. -/
def Passage (during pre : Disk → Prop) (x : ExceptT ε (StateM (Watched chance)) α)
    (post : α → Disk → Prop) (failed : Disk → Prop) : Prop :=
  Leads (fun s => pre s.workspace.disk ∧ ∀ d ∈ s.seen, during d) x
    (fun a s => post a s.workspace.disk ∧ ∀ d ∈ s.seen, during d)
    fun _ s => failed s.workspace.disk ∧ ∀ d ∈ s.seen, during d

theorem passage_pure {a : α} (h : ∀ d, pre d → post a d) :
    Passage during pre (pure a : ExceptT ε (StateM (Watched chance)) α) post failed :=
  ⟨fun s hs => ⟨h s.workspace.disk hs.1, hs.2⟩⟩

theorem passage_throw {e : ε} (h : ∀ d, pre d → failed d) :
    Passage during pre (throw e : ExceptT ε (StateM (Watched chance)) α) post failed :=
  ⟨fun s hs => ⟨h s.workspace.disk hs.1, hs.2⟩⟩

theorem passage_bind {x : ExceptT ε (StateM (Watched chance)) α}
    {f : α → ExceptT ε (StateM (Watched chance)) β} {post' : β → Disk → Prop}
    (hx : Passage during pre x post failed) (hf : ∀ a, Passage during (post a) (f a) post' failed) :
    Passage during pre (x >>= f) post' failed :=
  leads_bind hx hf

theorem passage_tryCatch {x : ExceptT ε (StateM (Watched chance)) α}
    {f : ε → ExceptT ε (StateM (Watched chance)) α} (hx : Passage during pre x post failed)
    (hf : ∀ e, Passage during failed (f e) post failed') :
    Passage during pre (tryCatch x f) post failed' :=
  leads_tryCatch hx hf

theorem passage_adapt {x : ExceptT δ (StateM (Watched chance)) α} {f : δ → ε}
    (hx : Passage during pre x post failed) : Passage during pre (x.adapt f) post failed :=
  leads_adapt hx fun _ _ h => h

/-- What is known and does not concern the disk may be taken out of the property before. -/
theorem passage_of_and {x : ExceptT ε (StateM (Watched chance)) α} {fact : Prop}
    (hx : fact → Passage during pre x post failed) :
    Passage during (fun d => pre d ∧ fact) x post failed :=
  ⟨fun s hs => (hx hs.1.2).outcome s ⟨hs.1.1, hs.2⟩⟩

/-- What an operation does in a workspace it does when it is watched. -/
theorem passage_observe {x : Attempt (StateM Workspace) α}
    (hx : Workspace.Triple pre x post failed) (hpost : ∀ a d, post a d → during d)
    (hfailed : ∀ d, failed d → during d) :
    Passage during pre (observe x : Attempt (StateM (Watched chance)) α) post failed := by
  constructor
  intro s hs
  have hx := hx.outcome s.workspace hs.1
  rw [runFrom_observe]
  rcases hr : s.workspace.run x with ⟨e | a, w⟩
  · rw [hr] at hx
    exact ⟨hx, List.forall_mem_cons.mpr ⟨hfailed _ hx, hs.2⟩⟩
  · rw [hr] at hx
    exact ⟨hx, List.forall_mem_cons.mpr ⟨hpost a _ hx, hs.2⟩⟩

/-- An operation that may fail by chance as well leads where it does without, if what is done then
is no worse than a failure. -/
theorem passage_perform {x : Attempt (StateM Workspace) α}
    {instead : Attempt (StateM Workspace) Unit} (hx : Workspace.Triple pre x post failed)
    (hinstead : Workspace.Triple pre instead (fun _ => failed) failed)
    (hpost : ∀ a d, post a d → during d) (hfailed : ∀ d, failed d → during d) :
    Passage during pre (perform x instead : Attempt (StateM (Watched chance)) α) post failed := by
  constructor
  intro s hs
  cases hfailure : chance.failure? s.seen.length with
  | none =>
    have hrun : runFrom s (perform x instead) = runFrom s (observe x) := by
      simp only [runFrom, perform, hfailure]
    rw [hrun]
    exact (passage_observe hx hpost hfailed).outcome s hs
  | some e =>
    have hrun : runFrom s (perform x instead) =
        runFrom s (observe (do tryCatch instead fun _ => pure (); throw e)) := by
      simp only [runFrom, perform, hfailure]
    have hfails : Workspace.Triple pre
        (do tryCatch instead fun _ => pure (); throw e : Attempt (StateM Workspace) α)
        post failed :=
      Workspace.triple_bind
        (Workspace.triple_tryCatch hinstead fun _ => Workspace.triple_pure fun _ h => h)
        fun _ => Workspace.triple_throw fun _ h => h
    rw [hrun]
    exact (passage_observe hfails hpost hfailed).outcome s hs

end Passage

section Mirrors

/-- Whether a watched operation answers as one in the workspace does and leaves what that leaves. -/
structure Mirrors (x : ExceptT ε (StateM (Watched chance)) α)
    (y : ExceptT ε (StateM Workspace) α) : Prop where
  same : ∀ s : Watched chance, s.workspace.run y = ((runFrom s x).1, (runFrom s x).2.workspace)

theorem mirrors_pure (a : α) :
    Mirrors (pure a : ExceptT ε (StateM (Watched chance)) α) (pure a) :=
  ⟨fun _ => rfl⟩

theorem mirrors_throw (e : ε) :
    Mirrors (throw e : ExceptT ε (StateM (Watched chance)) α) (throw e) :=
  ⟨fun _ => rfl⟩

theorem mirrors_bind {x : ExceptT ε (StateM (Watched chance)) α}
    {y : ExceptT ε (StateM Workspace) α} {f : α → ExceptT ε (StateM (Watched chance)) β}
    {g : α → ExceptT ε (StateM Workspace) β} (hx : Mirrors x y) (hf : ∀ a, Mirrors (f a) (g a)) :
    Mirrors (x >>= f) (y >>= g) := by
  constructor
  intro s
  rw [Workspace.run_bind, runFrom_bind, hx.same s]
  rcases runFrom s x with ⟨e | a, s₁⟩
  · rfl
  · exact (hf a).same s₁

theorem mirrors_tryCatch {x : ExceptT ε (StateM (Watched chance)) α}
    {y : ExceptT ε (StateM Workspace) α} {f : ε → ExceptT ε (StateM (Watched chance)) α}
    {g : ε → ExceptT ε (StateM Workspace) α} (hx : Mirrors x y) (hf : ∀ e, Mirrors (f e) (g e)) :
    Mirrors (tryCatch x f) (tryCatch y g) := by
  constructor
  intro s
  rw [Workspace.run_tryCatch, runFrom_tryCatch, hx.same s]
  rcases runFrom s x with ⟨e | a, s₁⟩
  · exact (hf e).same s₁
  · rfl

theorem mirrors_adapt {x : ExceptT δ (StateM (Watched chance)) α}
    {y : ExceptT δ (StateM Workspace) α} {f : δ → ε} (hx : Mirrors x y) :
    Mirrors (x.adapt f) (y.adapt f) := by
  constructor
  intro s
  rw [Workspace.run_adapt, runFrom_adapt, hx.same s]

theorem mirrors_observe (x : Attempt (StateM Workspace) α) :
    Mirrors (observe x : Attempt (StateM (Watched chance)) α) x :=
  ⟨fun _ => rfl⟩

/-- Where nothing fails by chance, what would be done in the place of an operation does not matter.
-/
theorem mirrors_perform (x : Attempt (StateM Workspace) α)
    (instead : Attempt (StateM Workspace) Unit) :
    Mirrors (perform x instead : Attempt (StateM (Watched .plain)) α) x :=
  ⟨fun _ => rfl⟩

end Mirrors

end Watched
end EnvCompose
