import EnvCompose.Activation
import EnvCompose.Proofs.Workspace.Running
import EnvCompose.Template.Include

/-!
# What operations leave active, and how they fail

Only an activation changes which environment is active, and it is taken back whatever becomes of
what is done in between. An operation fails with the errors of its steps.
-/
namespace EnvCompose.Workspace

variable {ε δ α β : Type}

def LeavesActive (x : ExceptT ε (StateM Workspace) α) : Prop :=
  ∀ w : Workspace, (w.run x).2.active = w.active

/-- Whether an operation fails with errors of a kind only, which may depend on the disk it leaves. -/
def FailsWith (kind : ε → Disk → Prop) (x : ExceptT ε (StateM Workspace) α) : Prop :=
  ∀ (w : Workspace) (e : ε), (w.run x).1 = .error e → kind e (w.run x).2.disk

section Active

variable {x : ExceptT ε (StateM Workspace) α}

theorem leavesActive_pure (a : α) : LeavesActive (pure a : ExceptT ε (StateM Workspace) α) :=
  fun _ => rfl

theorem leavesActive_throw (e : ε) : LeavesActive (throw e : ExceptT ε (StateM Workspace) α) :=
  fun _ => rfl

theorem leavesActive_lift {x : StateM Workspace α} (h : ∀ w, (x w).2.active = w.active) :
    LeavesActive (liftM x : ExceptT ε (StateM Workspace) α) := h

theorem leavesActive_ask (f : Disk → Except DiskError α) : LeavesActive (ask f) := fun _ => rfl

theorem leavesActive_change (f : Disk → Except DiskError Disk) : LeavesActive (change f) := by
  intro w
  simp only [run, change, act]
  cases f w.disk <;> rfl

theorem leavesActive_iff_leads : LeavesActive x ↔
    ∀ p, Leads (·.active = p) x (fun _ w => w.active = p) fun _ w => w.active = p := by
  refine ⟨fun h p => ⟨fun w hw => ?_⟩, fun h w => ?_⟩
  · have hx : (runFrom w x).2.active = p := (h w).trans hw
    rcases hr : runFrom w x with ⟨_ | a, w₁⟩ <;> rwa [hr] at hx
  · have hx := (h w.active).outcome w rfl
    rw [run_eq_runFrom]
    rcases hr : runFrom w x with ⟨_ | a, w₁⟩ <;> rwa [hr] at hx

theorem leavesActive_bind {f : α → ExceptT ε (StateM Workspace) β} (hx : LeavesActive x)
    (hf : ∀ a, LeavesActive (f a)) : LeavesActive (x >>= f) :=
  leavesActive_iff_leads.mpr fun p =>
    leads_bind (leavesActive_iff_leads.mp hx p) fun a => leavesActive_iff_leads.mp (hf a) p

theorem leavesActive_tryCatch {f : ε → ExceptT ε (StateM Workspace) α} (hx : LeavesActive x)
    (hf : ∀ e, LeavesActive (f e)) : LeavesActive (tryCatch x f) :=
  leavesActive_iff_leads.mpr fun p =>
    leads_tryCatch (leavesActive_iff_leads.mp hx p) fun e => leavesActive_iff_leads.mp (hf e) p

theorem leavesActive_adapt {x : ExceptT δ (StateM Workspace) α} (f : δ → ε) (hx : LeavesActive x) :
    LeavesActive (x.adapt f) := hx

theorem leavesActive_forM {f : α → ExceptT ε (StateM Workspace) Unit} (l : List α)
    (hf : ∀ a, LeavesActive (f a)) : LeavesActive (l.forM f) := by
  induction l with
  | nil => exact leavesActive_pure ()
  | cons a l ih => exact leavesActive_bind (hf a) fun _ => ih

theorem leavesActive_makeUpTo (bound : Nat) (p : Path) :
    LeavesActive (Machine.makeUpTo bound p : Attempt (StateM Workspace) Unit) := by
  have haccept (p : Path) (e : DiskError) :
      LeavesActive (Machine.acceptDirectory p e : Attempt (StateM Workspace) Unit) := by
    refine leavesActive_bind (leavesActive_lift fun _ => rfl) fun b => ?_
    split
    · exact leavesActive_pure ()
    · exact leavesActive_throw e
  induction bound generalizing p with
  | zero =>
    cases hp : p.parent? with
    | none =>
      rw [Machine.makeUpTo.eq_1 _ _ hp]
      exact leavesActive_pure ()
    | some parent =>
      rw [Machine.makeUpTo.eq_2 _ _ hp]
      exact leavesActive_change _
  | succ bound ih =>
    cases hp : p.parent? with
    | none =>
      rw [Machine.makeUpTo.eq_1 _ _ hp]
      exact leavesActive_pure ()
    | some parent =>
      rw [Machine.makeUpTo.eq_3 _ _ _ hp]
      refine leavesActive_tryCatch (leavesActive_change _) fun e => ?_
      split
      · exact leavesActive_bind (ih parent) fun _ =>
          leavesActive_tryCatch (leavesActive_change _) (haccept p)
      · exact haccept p e

private theorem leavesActive_copyDirectory (depth : Nat) (source dest : Path) :
    LeavesActive (copyDirectory depth source dest :
      ExceptT TemplateError (StateM Workspace) Unit) := by
  induction depth generalizing source dest with
  | zero => exact leavesActive_throw _
  | succ depth ih =>
    rw [copyDirectory]
    refine leavesActive_bind (leavesActive_adapt _ (leavesActive_makeUpTo _ dest)) fun _ => ?_
    refine leavesActive_bind (leavesActive_adapt _ (leavesActive_ask _)) fun names => ?_
    refine leavesActive_forM names fun name => ?_
    refine leavesActive_bind (leavesActive_lift fun _ => rfl) fun b => ?_
    split
    · exact ih _ _
    · exact leavesActive_adapt _ (leavesActive_change _)

theorem leavesActive_copyTree (source dest : Path) :
    LeavesActive (copyTree source dest : ExceptT TemplateError (StateM Workspace) Unit) := by
  rw [copyTree]
  refine leavesActive_bind (leavesActive_lift fun _ => rfl) fun b => ?_
  cases b with
  | true => exact leavesActive_throw _
  | false =>
    refine leavesActive_bind (leavesActive_lift fun _ => rfl) fun _ => ?_
    exact leavesActive_copyDirectory _ source dest

/-- While an environment is active nothing is done with another one. -/
theorem run_during_of_active {w : Workspace} {current : Path} (h : w.active = some current)
    (p : Path) (body : Build (StateM Workspace) α) :
    w.run (Activation.during p body) = (.error (.alreadyActive current), w) := by
  obtain ⟨disk, active, logged, revisions, exported⟩ := w
  cases h
  rfl

/-- What is active in between is active no longer, even if something else has been made active. -/
theorem leavesActive_during (p : Path) (body : Build (StateM Workspace) α) :
    LeavesActive (Activation.during p body) := by
  rintro ⟨disk, _ | current, logged, revisions, exported⟩
  · rfl
  · rfl

end Active

section Failures

variable {kind : ε → Disk → Prop}

theorem failsWith_pure (a : α) : FailsWith kind (pure a : ExceptT ε (StateM Workspace) α) :=
  fun _ _ => nofun

theorem failsWith_lift (x : StateM Workspace α) :
    FailsWith kind (liftM x : ExceptT ε (StateM Workspace) α) :=
  fun _ _ => nofun

theorem failsWith_answer {r : Except ε α} (h : ∀ e d, r = .error e → kind e d) :
    FailsWith kind (ExceptT.mk (pure r) : ExceptT ε (StateM Workspace) α) :=
  fun w e he => h e w.disk he

theorem failsWith_iff_leads {x : ExceptT ε (StateM Workspace) α} : FailsWith kind x ↔
    Leads (fun _ => True) x (fun _ _ => True) fun e w => kind e w.disk := by
  refine ⟨fun h => ⟨fun w _ => ?_⟩, fun h w e he => ?_⟩
  · have hx : ∀ e, (runFrom w x).1 = .error e → kind e (runFrom w x).2.disk := h w
    rcases hr : runFrom w x with ⟨e | a, w₁⟩
    · rw [hr] at hx
      exact hx e rfl
    · trivial
  · have hx := h.outcome w trivial
    rw [run_eq_runFrom] at he ⊢
    rcases hr : runFrom w x with ⟨e' | a, w₁⟩
    · rw [hr] at hx he
      cases he
      exact hx
    · rw [hr] at he
      cases he

theorem failsWith_bind {x : ExceptT ε (StateM Workspace) α}
    {f : α → ExceptT ε (StateM Workspace) β} (hx : FailsWith kind x)
    (hf : ∀ a, FailsWith kind (f a)) : FailsWith kind (x >>= f) :=
  failsWith_iff_leads.mpr
    (leads_bind (failsWith_iff_leads.mp hx) fun a => failsWith_iff_leads.mp (hf a))

theorem failsWith_adapt {x : ExceptT δ (StateM Workspace) α} {f : δ → ε}
    (h : ∀ e d, kind (f e) d) : FailsWith kind (x.adapt f) := by
  have hany : FailsWith (fun (_ : δ) _ => True) x := fun _ _ _ => trivial
  exact failsWith_iff_leads.mpr
    (leads_adapt (failsWith_iff_leads.mp hany) fun e w _ => h e w.disk)

theorem failsWith_forM {f : α → ExceptT ε (StateM Workspace) Unit} (l : List α)
    (hf : ∀ a, FailsWith kind (f a)) : FailsWith kind (l.forM f) := by
  induction l with
  | nil => exact failsWith_pure ()
  | cons a l ih => exact failsWith_bind (hf a) fun _ => ih

theorem failsWith_during {kind : BuildError → Disk → Prop} {p : Path}
    {body : Build (StateM Workspace) α} (hactive : ∀ current d, kind (.alreadyActive current) d)
    (hbody : FailsWith kind body) : FailsWith kind (Activation.during p body) := by
  rintro ⟨disk, _ | current, logged, revisions, exported⟩ e he
  · exact hbody ⟨disk, some p, ⟨.debug, s!"activated environment {p}", []⟩ :: logged, revisions,
      exported⟩ e he
  · cases he
    exact hactive current disk

end Failures

end EnvCompose.Workspace
