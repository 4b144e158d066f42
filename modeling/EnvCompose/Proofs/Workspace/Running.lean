import EnvCompose.Workspace
import EnvCompose.Manifest.File

/-!
# Running in a workspace

What an operation that may fail answers in a workspace, and the workspace it leaves, step by step.
Where the steps lead does not depend on what kind of state they change.
-/
namespace EnvCompose

section States

variable {σ ε δ α β : Type}

/-- The answer of an operation that may fail, and the state it leaves. -/
def runFrom (s : σ) (x : ExceptT ε (StateM σ) α) : Except ε α × σ := x s

theorem runFrom_bind (s : σ) (x : ExceptT ε (StateM σ) α) (f : α → ExceptT ε (StateM σ) β) :
    runFrom s (x >>= f) = match runFrom s x with
      | (.ok a, s₁) => runFrom s₁ (f a)
      | (.error e, s₁) => (.error e, s₁) := by
  simp only [runFrom, bind, ExceptT.bind, ExceptT.mk, StateT.bind]
  rcases x s with ⟨_ | a, s₁⟩ <;> rfl

theorem runFrom_tryCatch (s : σ) (x : ExceptT ε (StateM σ) α)
    (f : ε → ExceptT ε (StateM σ) α) :
    runFrom s (tryCatch x f) = match runFrom s x with
      | (.ok a, s₁) => (.ok a, s₁)
      | (.error e, s₁) => runFrom s₁ (f e) := by
  simp only [runFrom, tryCatch, tryCatchThe, MonadExceptOf.tryCatch, ExceptT.tryCatch, ExceptT.mk,
    bind, StateT.bind]
  rcases x s with ⟨_ | a, s₁⟩ <;> rfl

theorem runFrom_adapt (s : σ) (x : ExceptT δ (StateM σ) α) (f : δ → ε) :
    runFrom s (x.adapt f) = ((runFrom s x).1.mapError f, (runFrom s x).2) := rfl

/-- Whether an operation leads from a state with a property to one that goes with its answer, or
with its failure. -/
structure Leads (pre : σ → Prop) (x : ExceptT ε (StateM σ) α) (post : α → σ → Prop)
    (failed : ε → σ → Prop) : Prop where
  outcome : ∀ s, pre s → match runFrom s x with
    | (.ok a, s') => post a s'
    | (.error e, s') => failed e s'

variable {pre : σ → Prop} {post : α → σ → Prop} {failed : ε → σ → Prop}

theorem leads_bind {x : ExceptT ε (StateM σ) α} {f : α → ExceptT ε (StateM σ) β}
    {post' : β → σ → Prop} (hx : Leads pre x post failed)
    (hf : ∀ a, Leads (post a) (f a) post' failed) : Leads pre (x >>= f) post' failed := by
  constructor
  intro s hs
  have hx := hx.outcome s hs
  rw [runFrom_bind]
  rcases hr : runFrom s x with ⟨_ | a, s₁⟩
  · simpa [hr] using hx
  · simp only [hr] at hx
    exact (hf a).outcome s₁ hx

theorem leads_tryCatch {x : ExceptT ε (StateM σ) α} {f : ε → ExceptT ε (StateM σ) α}
    {failed' : ε → σ → Prop} (hx : Leads pre x post failed)
    (hf : ∀ e, Leads (failed e) (f e) post failed') : Leads pre (tryCatch x f) post failed' := by
  constructor
  intro s hs
  have hx := hx.outcome s hs
  rw [runFrom_tryCatch]
  rcases hr : runFrom s x with ⟨e | a, s₁⟩
  · simp only [hr] at hx
    exact (hf e).outcome s₁ hx
  · simpa [hr] using hx

theorem leads_adapt {x : ExceptT δ (StateM σ) α} {f : δ → ε} {failed' : δ → σ → Prop}
    (hx : Leads pre x post failed') (hf : ∀ e s, failed' e s → failed (f e) s) :
    Leads pre (x.adapt f) post failed := by
  constructor
  intro s hs
  have hx := hx.outcome s hs
  rw [runFrom_adapt]
  rcases hr : runFrom s x with ⟨e | a, s₁⟩
  · rw [hr] at hx
    exact hf e s₁ hx
  · rw [hr] at hx
    exact hx

end States

namespace Workspace

variable {ε δ α β : Type}

def run (w : Workspace) (x : ExceptT ε (StateM Workspace) α) : Except ε α × Workspace := x w

theorem run_eq_runFrom (w : Workspace) (x : ExceptT ε (StateM Workspace) α) :
    w.run x = runFrom w x := rfl

@[simp] theorem run_pure (w : Workspace) (a : α) :
    w.run (pure a : ExceptT ε (StateM Workspace) α) = (.ok a, w) := rfl

@[simp] theorem run_throw (w : Workspace) (e : ε) :
    w.run (throw e : ExceptT ε (StateM Workspace) α) = (.error e, w) := rfl

@[simp] theorem run_answer (w : Workspace) (r : Except ε α) :
    w.run (ExceptT.mk (pure r) : ExceptT ε (StateM Workspace) α) = (r, w) := rfl

@[simp] theorem run_lift (w : Workspace) (x : StateM Workspace α) :
    w.run (liftM x : ExceptT ε (StateM Workspace) α) = (.ok (x w).1, (x w).2) := rfl

theorem run_bind (w : Workspace) (x : ExceptT ε (StateM Workspace) α)
    (f : α → ExceptT ε (StateM Workspace) β) :
    w.run (x >>= f) = match w.run x with
      | (.ok a, w₁) => w₁.run (f a)
      | (.error e, w₁) => (.error e, w₁) := by
  simp only [run_eq_runFrom, runFrom_bind]
  rcases runFrom w x with ⟨_ | a, w₁⟩ <;> rfl

/-- A step after another gives an answer where both do. -/
theorem run_bind_eq_ok {w w' : Workspace} {x : ExceptT ε (StateM Workspace) α}
    {f : α → ExceptT ε (StateM Workspace) β} {b : β} :
    w.run (x >>= f) = (.ok b, w') ↔
      ∃ a w₁, w.run x = (.ok a, w₁) ∧ w₁.run (f a) = (.ok b, w') := by
  rw [run_bind]
  rcases w.run x with ⟨_ | a, w₁⟩
  · simp
  · exact ⟨fun h => ⟨a, w₁, rfl, h⟩, by rintro ⟨_, _, ⟨rfl, rfl⟩, h⟩; exact h⟩

theorem run_tryCatch (w : Workspace) (x : ExceptT ε (StateM Workspace) α)
    (f : ε → ExceptT ε (StateM Workspace) α) :
    w.run (tryCatch x f) = match w.run x with
      | (.ok a, w₁) => (.ok a, w₁)
      | (.error e, w₁) => w₁.run (f e) := by
  simp only [run_eq_runFrom, runFrom_tryCatch]
  rcases runFrom w x with ⟨_ | a, w₁⟩ <;> rfl

theorem run_adapt (w : Workspace) (x : ExceptT δ (StateM Workspace) α) (f : δ → ε) :
    w.run (x.adapt f) = ((w.run x).1.mapError f, (w.run x).2) := rfl

theorem run_adapt_eq_ok {w w' : Workspace} {x : ExceptT δ (StateM Workspace) α} {f : δ → ε} {a : α} :
    w.run (x.adapt f) = (.ok a, w') ↔ w.run x = (.ok a, w') := by
  rw [run_adapt]
  rcases w.run x with ⟨_ | b, w₁⟩
  · constructor <;> nofun
  · constructor <;> (rintro ⟨⟩; rfl)

theorem exists_run_eq_ok {w : Workspace} {x : ExceptT ε (StateM Workspace) α}
    (h : (w.run x).1.isOk = true) : ∃ a w', w.run x = (.ok a, w') := by
  rcases hr : w.run x with ⟨_ | a, w'⟩
  · simp [hr, Except.isOk, Except.toBool] at h
  · exact ⟨a, w', rfl⟩

theorem run_ask (w : Workspace) (f : Disk → Except DiskError α) : w.run (ask f) = (f w.disk, w) :=
  rfl

theorem run_change_of_ok {w : Workspace} {f : Disk → Except DiskError Disk} {d : Disk}
    (h : f w.disk = .ok d) : w.run (change f) = (.ok (), { w with disk := d }) := by
  simp only [run, change, act, h, Except.map]

theorem run_change_of_error {w : Workspace} {f : Disk → Except DiskError Disk} {e : DiskError}
    (h : f w.disk = .error e) : w.run (change f) = (.error e, w) := by
  simp only [run, change, act, h, Except.map]

/-- Reading a text leaves the workspace as it is. -/
theorem run_readText (w : Workspace) (p : Path) :
    w.run (Machine.readText p) = ((w.run (Machine.readText p)).1, w) := by
  have hread : w.run (Machine.read p) = (w.disk.read p, w) := rfl
  rw [Machine.readText, run_bind, hread]
  cases w.disk.read p with
  | error e => rfl
  | ok octets =>
    dsimp only
    split <;> rfl

end Workspace
end EnvCompose
