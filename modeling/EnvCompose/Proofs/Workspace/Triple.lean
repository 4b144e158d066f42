import EnvCompose.Proofs.Workspace.Running

/-!
# What runs make of a disk

What is known of the disk before an operation tells what holds of it afterwards: one thing if the
operation succeeds, which may depend on its answer, another if it fails.
-/
namespace EnvCompose.Workspace

variable {ε δ α β : Type}

/-- Whether an operation leads from a disk with a property to one with another, by success or by
failure. -/
structure Triple (pre : Disk → Prop) (x : ExceptT ε (StateM Workspace) α)
    (post : α → Disk → Prop) (failed : Disk → Prop) : Prop where
  outcome : ∀ w : Workspace, pre w.disk → match w.run x with
    | (.ok a, w') => post a w'.disk
    | (.error _, w') => failed w'.disk

/-- Whether an operation keeps a property of the disk in any case. -/
abbrev Keeps (kept : Disk → Prop) (x : ExceptT ε (StateM Workspace) α) : Prop :=
  Triple kept x (fun _ => kept) kept

variable {pre pre' failed failed' kept : Disk → Prop} {post : α → Disk → Prop}

theorem Triple.of_ok {x : ExceptT ε (StateM Workspace) α} (hx : Triple pre x post failed)
    {w w' : Workspace} {a : α} (hw : pre w.disk) (h : w.run x = (.ok a, w')) : post a w'.disk := by
  have hx := hx.outcome w hw
  rwa [h] at hx

theorem Triple.of_error {x : ExceptT ε (StateM Workspace) α} (hx : Triple pre x post failed)
    {w w' : Workspace} {e : ε} (hw : pre w.disk) (h : w.run x = (.error e, w')) :
    failed w'.disk := by
  have hx := hx.outcome w hw
  rwa [h] at hx

theorem triple_pure {a : α} (h : ∀ d, pre d → post a d) :
    Triple pre (pure a : ExceptT ε (StateM Workspace) α) post failed :=
  ⟨fun w hw => h w.disk hw⟩

theorem triple_throw {e : ε} (h : ∀ d, pre d → failed d) :
    Triple pre (throw e : ExceptT ε (StateM Workspace) α) post failed :=
  ⟨fun w hw => h w.disk hw⟩

theorem triple_trivial (x : ExceptT ε (StateM Workspace) α) :
    Triple pre x (fun _ _ => True) (fun _ => True) := by
  constructor
  intro w _
  rcases w.run x with ⟨_ | a, w₁⟩ <;> trivial

/-- A step whose answer is known without the disk changes nothing on it. -/
theorem triple_answer {r : Except ε α} (h : ∀ a, r = .ok a → ∀ d, pre d → post a d)
    (h' : ∀ d, pre d → failed d) :
    Triple pre (ExceptT.mk (pure r) : ExceptT ε (StateM Workspace) α) post failed := by
  constructor
  intro w hw
  rw [run_answer]
  cases r with
  | error e => exact h' w.disk hw
  | ok a => exact h a rfl w.disk hw

theorem triple_iff_leads {x : ExceptT ε (StateM Workspace) α} : Triple pre x post failed ↔
    Leads (fun w => pre w.disk) x (fun a w => post a w.disk) fun _ w => failed w.disk := by
  refine ⟨fun h => ⟨fun w hw => ?_⟩, fun h => ⟨fun w hw => ?_⟩⟩
  · have hx := h.outcome w hw
    rw [run_eq_runFrom] at hx
    rcases hr : runFrom w x with ⟨_ | a, w₁⟩ <;> simpa [hr] using hx
  · have hx := h.outcome w hw
    rw [run_eq_runFrom]
    rcases hr : runFrom w x with ⟨_ | a, w₁⟩ <;> simpa [hr] using hx

theorem triple_bind {x : ExceptT ε (StateM Workspace) α} {f : α → ExceptT ε (StateM Workspace) β}
    {post' : β → Disk → Prop} (hx : Triple pre x post failed)
    (hf : ∀ a, Triple (post a) (f a) post' failed) : Triple pre (x >>= f) post' failed :=
  triple_iff_leads.mpr
    (leads_bind (triple_iff_leads.mp hx) fun a => triple_iff_leads.mp (hf a))

theorem triple_tryCatch {x : ExceptT ε (StateM Workspace) α}
    {f : ε → ExceptT ε (StateM Workspace) α} (hx : Triple pre x post failed)
    (hf : ∀ e, Triple failed (f e) post failed') : Triple pre (tryCatch x f) post failed' :=
  triple_iff_leads.mpr
    (leads_tryCatch (triple_iff_leads.mp hx) fun e => triple_iff_leads.mp (hf e))

theorem triple_adapt {x : ExceptT δ (StateM Workspace) α} {f : δ → ε}
    (hx : Triple pre x post failed) : Triple pre (x.adapt f) post failed :=
  triple_iff_leads.mpr (leads_adapt (triple_iff_leads.mp hx) fun _ _ h => h)

/-- A look at the workspace cannot fail. -/
theorem triple_look {x : StateM Workspace α} {f : Disk → α} (hx : ∀ w, x w = (f w.disk, w))
    (h : ∀ d, pre d → post (f d) d) :
    Triple pre (liftM x : ExceptT ε (StateM Workspace) α) post failed := by
  constructor
  intro w hw
  rw [run_lift, hx]
  exact h w.disk hw

/-- A change of the workspace beside the disk leaves what is known of that. -/
theorem triple_aside {x : StateM Workspace α} (hx : ∀ w, (x w).2.disk = w.disk)
    (h : ∀ a d, pre d → post a d) :
    Triple pre (liftM x : ExceptT ε (StateM Workspace) α) post failed := by
  constructor
  intro w hw
  rw [run_lift]
  exact h _ _ (hx w ▸ hw)

/-- What leaves every disk as it is keeps all that is known of it. -/
theorem keeps_of_run {x : ExceptT ε (StateM Workspace) α}
    (hx : ∀ w : Workspace, (w.run x).2.disk = w.disk) : Keeps kept x := by
  constructor
  intro w hw
  have hdisk := hx w
  rcases hr : w.run x with ⟨_ | a, w₁⟩ <;>
  simpa [hr] using (hdisk ▸ hw : kept (w.run x).2.disk)

theorem run_of_keeps {x : ExceptT ε (StateM Workspace) α} (hx : Keeps kept x) {w : Workspace}
    (hw : kept w.disk) : kept (w.run x).2.disk := by
  have hx := hx.outcome w hw
  rcases hr : w.run x with ⟨_ | a, w₁⟩ <;> simpa [hr] using hx

theorem isOk_eq_false {x : ExceptT ε (StateM Workspace) α}
    (hx : Triple pre x (fun _ _ => False) failed) {w : Workspace} (hw : pre w.disk) :
    (w.run x).1.isOk = false := by
  have hx := hx.outcome w hw
  rcases hr : w.run x with ⟨_ | a, w₁⟩
  · rfl
  · rw [hr] at hx
    exact hx.elim

theorem triple_ask {f : Disk → Except DiskError α} (h : ∀ d a, pre d → f d = .ok a → post a d)
    (h' : ∀ d, pre d → failed d) : Triple pre (ask f) post failed := by
  constructor
  intro w hw
  rw [run_ask]
  cases hf : f w.disk with
  | error e => exact h' w.disk hw
  | ok a => exact h w.disk a hw hf

/-- A question that all disks in question answer cannot fail. -/
theorem triple_ask_of_ok {f : Disk → Except DiskError α}
    (h : ∀ d, pre d → ∃ a, f d = .ok a ∧ post a d) : Triple pre (ask f) post failed := by
  constructor
  intro w hw
  obtain ⟨a, hf, hpost⟩ := h w.disk hw
  rw [run_ask, hf]
  exact hpost

theorem triple_act {f : Disk → Except DiskError (Disk × α)}
    (h : ∀ d d' a, pre d → f d = .ok (d', a) → post a d') (h' : ∀ d, pre d → failed d) :
    Triple pre (act f) post failed := by
  constructor
  intro w hw
  rcases hf : f w.disk with e | ⟨d, a⟩
  · have hrun : w.run (act f) = (.error e, w) := by simp only [run, act, hf]
    rw [hrun]
    exact h' w.disk hw
  · have hrun : w.run (act f) = (.ok a, { w with disk := d }) := by simp only [run, act, hf]
    rw [hrun]
    exact h w.disk d a hw hf

theorem triple_change {f : Disk → Except DiskError Disk} {post : Unit → Disk → Prop}
    (h : ∀ d d', pre d → f d = .ok d' → post () d') (h' : ∀ d, pre d → failed d) :
    Triple pre (change f) post failed := by
  refine triple_act (fun d d' a hd hf => ?_) h'
  cases hfd : f d with
  | error e => simp [hfd, Except.map] at hf
  | ok d₁ =>
    rw [hfd] at hf
    cases hf
    exact h d _ hd hfd

/-- A change with an answer cannot fail if no disk in question can refuse it. -/
theorem triple_act_of_ok {f : Disk → Except DiskError (Disk × α)}
    (h : ∀ d, pre d → ∃ d' a, f d = .ok (d', a) ∧ post a d') : Triple pre (act f) post failed := by
  constructor
  intro w hw
  obtain ⟨d', a, hf, hpost⟩ := h w.disk hw
  have hrun : w.run (act f) = (.ok a, { w with disk := d' }) := by simp only [run, act, hf]
  rw [hrun]
  exact hpost

/-- A change cannot fail if no disk in question can refuse it. -/
theorem triple_change_of_ok {f : Disk → Except DiskError Disk} {post : Unit → Disk → Prop}
    (h : ∀ d, pre d → ∃ d', f d = .ok d' ∧ post () d') : Triple pre (change f) post failed := by
  refine triple_act_of_ok fun d hd => ?_
  obtain ⟨d', hf, hpost⟩ := h d hd
  exact ⟨d', (), by rw [hf]; rfl, hpost⟩

/-- A change of a disk is followed by what is done if the disk refuses it. -/
theorem triple_catch {f : Disk → Except DiskError Disk}
    {g : DiskError → ExceptT DiskError (StateM Workspace) Unit} {post : Unit → Disk → Prop}
    {d : Disk}
    (h : ∀ d', f d = .ok d' → post () d')
    (h' : ∀ e, f d = .error e → Triple (· = d) (g e) post failed) :
    Triple (· = d) (tryCatch (change f) g) post failed := by
  constructor
  rintro w rfl
  rw [run_tryCatch]
  cases hf : f w.disk with
  | ok d' =>
    rw [run_change_of_ok hf]
    exact h d' hf
  | error e =>
    rw [run_change_of_error hf]
    exact (h' e hf).outcome w rfl

theorem Triple.weaken {x : ExceptT ε (StateM Workspace) α} {post' : α → Disk → Prop}
    (hx : Triple pre x post failed) (hpre : ∀ d, pre' d → pre d)
    (hpost : ∀ a d, post a d → post' a d) (hfailed : ∀ d, failed d → failed' d) :
    Triple pre' x post' failed' := by
  constructor
  intro w hw
  have hx := hx.outcome w (hpre w.disk hw)
  rcases hr : w.run x with ⟨_ | a, w₁⟩
  · simp only [hr] at hx
    exact hfailed _ hx
  · simp only [hr] at hx
    exact hpost a _ hx

/-- What an operation keeps may be left out of what is known of it, whatever a failure leaves. -/
theorem Triple.dismiss {x : ExceptT ε (StateM Workspace) α} (hx : Triple pre x post failed) :
    Triple pre x post (fun _ => True) :=
  hx.weaken (fun _ h => h) (fun _ _ h => h) fun _ _ => trivial

/-- A property of operations may be shown for each disk they may begin with. -/
theorem triple_of_each {x : ExceptT ε (StateM Workspace) α}
    (hx : ∀ d, pre d → Triple (· = d) x post failed) : Triple pre x post failed :=
  ⟨fun w hw => (hx w.disk hw).outcome w rfl⟩

/-- What is known and does not concern the disk may be taken out of the property before. -/
theorem triple_of_and {x : ExceptT ε (StateM Workspace) α} {fact : Prop}
    (hx : fact → Triple pre x post failed) :
    Triple (fun d => pre d ∧ fact) x post failed :=
  ⟨fun w hw => (hx hw.2).outcome w hw.1⟩

/-- Two things that are known of the same operation hold together. -/
theorem triple_and {x : ExceptT ε (StateM Workspace) α} {post' : α → Disk → Prop}
    (hx : Triple pre x post failed) (hx' : Triple pre' x post' failed') :
    Triple (fun d => pre d ∧ pre' d) x (fun a d => post a d ∧ post' a d)
      (fun d => failed d ∧ failed' d) := by
  constructor
  intro w hw
  have h := hx.outcome w hw.1
  have h' := hx'.outcome w hw.2
  rcases hr : w.run x with ⟨_ | a, w₁⟩
  · rw [hr] at h h'
    exact ⟨h, h'⟩
  · rw [hr] at h h'
    exact ⟨h, h'⟩

/-- The answer is one that the operation can give. -/
theorem triple_answered {x : ExceptT ε (StateM Workspace) α} (hx : Triple pre x post failed) :
    Triple pre x (fun a d => post a d ∧ ∃ w : Workspace, (w.run x).1 = .ok a) failed := by
  constructor
  intro w hw
  have hx := hx.outcome w hw
  rcases hr : w.run x with ⟨_ | a, w₁⟩
  · rwa [hr] at hx
  · rw [hr] at hx
    exact ⟨hx, w, by rw [hr]⟩

/-- What holds of the members that are done holds of all in the end, if each step adds its member.
-/
theorem triple_forM {f : α → ExceptT ε (StateM Workspace) Unit} {l : List α}
    {I : List α → Disk → Prop}
    (hf : ∀ done, ∀ a ∈ l, Triple (I done) (f a) (fun _ => I (done ++ [a])) failed)
    (done : List α) : Triple (I done) (l.forM f) (fun _ => I (done ++ l)) failed := by
  induction l generalizing done with
  | nil => exact triple_pure fun d hd => by rwa [List.append_nil]
  | cons a l ih =>
    refine triple_bind (hf done a List.mem_cons_self) fun _ => ?_
    have hrest := ih (fun done b hb => hf done b (List.mem_cons_of_mem a hb)) (done ++ [a])
    rwa [List.append_assoc] at hrest

/-- Where one member never succeeds, whatever those before it do, all together do not. -/
theorem triple_forM_never {f : α → ExceptT ε (StateM Workspace) Unit} {l : List α} {a : α}
    (ha : a ∈ l) (hkeep : ∀ b ∈ l, Triple kept (f b) (fun _ => kept) failed)
    (hnever : Triple kept (f a) (fun _ _ => False) failed) :
    Triple kept (l.forM f) (fun _ _ => False) failed := by
  induction l with
  | nil => cases ha
  | cons b l ih =>
    obtain ⟨hb, hrest⟩ := List.forall_mem_cons.mp hkeep
    obtain rfl | ha := List.mem_cons.mp ha
    · exact triple_bind hnever fun _ => triple_of_each fun _ h => h.elim
    · exact triple_bind hb fun _ => ih ha hrest

theorem keeps_forM {f : α → ExceptT ε (StateM Workspace) Unit} {l : List α}
    (hf : ∀ a ∈ l, Keeps kept (f a)) : Keeps kept (l.forM f) :=
  triple_forM (I := fun _ => kept) (fun _ => hf) []

end EnvCompose.Workspace
