import EnvCompose.Proofs.Environment.Abandonment
import EnvCompose.Proofs.Workspace.Names

/-!
# Sessions

In a session environments are activated, guards of active ones are dropped and environments are
written, in any order. To drop a guard clears what is active without a look at whose path it is, so
all depends on there never being two guards: the guards that are live are those of what is active,
and each step keeps it so.
-/
namespace EnvCompose
open Disk Workspace

namespace Environment

variable {e : Environment} {before : Disk} {revisions : RevisionSource (StateM Workspace)}

/-- Whether a place is in what the copies in an environment are made of. -/
def InSources (e : Environment) (before : Disk) (l : Location) : Prop :=
  (∃ site ∈ e.site, before.destination (e.layout.siteDir site) <+: l) ∨
    e.common = true ∧ before.destination e.layout.common <+: l

/-- Whether a place is in one of the two copies in an environment. -/
def InTargets (e : Environment) (before : Disk) (l : Location) : Prop :=
  before.destination e.directory ++ [siteInclude] <+: l ∨
    before.destination e.directory ++ [commonInclude] <+: l

/-- What may have changed where no manifest has been written: a manifest is new only as a copy. -/
abbrev Unwritten (e : Environment) (before : Disk) : Location → Option Entry → Prop :=
  Named before manifestFile.text (e.InSources before) (e.InTargets before)

/-- Until an environment is active no manifest is written, but one may be copied. -/
theorem keeps_prepare : Keeps (before.Alters (e.Unwritten before)) e.prepare := by
  have hmake (dir : Path) : Keeps (before.Alters (e.Unwritten before))
      (makeDirectory dir : Build (StateM Workspace) Unit) :=
    triple_adapt (keeps_makeDirectories_named dir)
  have hsite : Keeps (before.Alters (e.Unwritten before))
      (e.copySite : Build (StateM Workspace) Unit) := by
    refine triple_copySite_of (fun _ _ hd => hd) fun site hsite => keeps_copyTree_named ?_ ?_
    · exact fun rest => .inl ⟨site, hsite, List.prefix_append _ _⟩
    · intro rest
      rw [destination_join isMemberName_siteInclude.toIsFileName]
      exact .inl (List.prefix_append _ _)
  have hcommon : Keeps (before.Alters (e.Unwritten before))
      (e.copyCommon : Build (StateM Workspace) Unit) := by
    refine triple_copyCommon_of (fun _ _ hd => hd) fun hcommon => keeps_copyTree_named ?_ ?_
    · exact fun rest => .inr ⟨hcommon, List.prefix_append _ _⟩
    · intro rest
      rw [destination_join isMemberName_commonInclude.toIsFileName]
      exact .inr (List.prefix_append _ _)
  have hpins : Keeps (before.Alters (e.Unwritten before))
      (e.copyPins : Build (StateM Workspace) Unit) := by
    refine triple_copyPins_of (fun _ _ hd => hd) (fun _ => hmake _) fun pins _ => ?_
    refine triple_change (fun _ _ hd hop => ?_) fun _ hd => hd
    refine hd.copyFile hop fun octets _ _ hlast => ?_
    -- pins are not called as a manifest is
    rw [destination_pinsFile, List.getLast?_append_of_ne_nil _ (by simp)] at hlast
    exact absurd hlast (by decide)
  rw [prepare]
  refine triple_bind (hmake _) fun _ => triple_bind hsite fun _ => ?_
  exact triple_bind hcommon fun _ => hpins

/-- Writing leaves a disk that operations can lead to if asking for revisions does. -/
theorem keeps_sound_write (hr : ∀ checkout, Keeps Disk.Sound (revisions checkout)) :
    Keeps Disk.Sound (e.write revisions) := by
  have hcheck : Keeps Disk.Sound (e.check : Build (StateM Workspace) Unit) := by
    refine keeps_of_run fun w => ?_
    obtain ⟨h, -⟩ | ⟨err, h, -⟩ := run_check w e <;> rw [h]
  have hprepare : Keeps Disk.Sound e.prepare := by
    refine triple_of_each fun d hd => ?_
    have hkeeps : Keeps (d.Alters (e.Unwritten d)) e.prepare := keeps_prepare
    exact hkeeps.weaken (by rintro _ rfl; exact .refl hd) (fun _ _ h => h.sound) fun _ h => h.sound
  have hmanifest : Keeps Disk.Sound (e.writeManifest revisions) := by
    refine triple_writeManifest_of hr fun p _ => triple_of_each fun d hd => ?_
    refine (Manifest.triple_write_altering hd).weaken (fun _ h => h) (fun _ d' h => ?_)
      fun _ h => h.sound
    obtain ⟨text, -, halters, -⟩ := h
    exact halters.sound
  change Keeps Disk.Sound (e.check >>= fun _ => e.build revisions)
  rw [build_eq]
  refine triple_bind hcheck fun _ => triple_bind hprepare fun _ => ?_
  exact triple_during hmanifest fun _ h => h

/-- While an environment is active no other one is written. -/
theorem run_write_of_active (e : Environment) (revisions : RevisionSource (StateM Workspace))
    {w : Workspace} {current : Path} (hd : w.disk.Sound) (h : w.active = some current) :
    ∃ err w', w.run (e.write revisions) = (.error err, w') ∧ w'.active = some current ∧
      w.disk.Alters (e.Unwritten w.disk) w'.disk := by
  obtain ⟨hcheck, -⟩ | ⟨err, hcheck, -⟩ := run_check w e
  · have hactive := leavesActive_prepare e w
    have halters := run_of_keeps (keeps_prepare (e := e)) (.refl hd)
    rw [run_write_of_passed hcheck, build_eq, run_bind]
    rcases hprepare : w.run e.prepare with ⟨err | _, w'⟩
    · rw [hprepare] at hactive halters
      exact ⟨err, w', rfl, hactive.trans h, halters⟩
    · rw [hprepare] at hactive halters
      exact ⟨.alreadyActive current, w', run_during_of_active (hactive.trans h) _ _,
        hactive.trans h, halters⟩
  · exact ⟨err, w, run_write_of_refused hcheck, h, .refl hd⟩

private theorem leavesActive_write (e : Environment)
    (revisions : RevisionSource (StateM Workspace)) : LeavesActive (e.write revisions) := by
  intro w
  obtain ⟨hcheck, -⟩ | ⟨err, hcheck, -⟩ := run_check w e
  · rw [run_write_of_passed hcheck]
    exact leavesActive_build e revisions w
  · rw [run_write_of_refused hcheck]

end Environment

/-- A workspace and the guards that are live in it. -/
structure Session where
  workspace : Workspace
  /-- The paths of the guards, the oldest first. -/
  guards : List Path := []

inductive Action where
  | activate (p : Path)
  /-- The guard at a position among those that are live is dropped. -/
  | drop (position : Nat)
  | write (e : Environment) (revisions : RevisionSource (StateM Workspace))

/-- Whether what is asked for revisions leaves the disk one that operations can lead to. -/
def Action.Lawful : Action → Prop
  | .write _ revisions => ∀ checkout, Keeps Disk.Sound (revisions checkout)
  | _ => True

namespace Session

/-- An activation that succeeds gives a guard. -/
def activate (s : Session) (p : Path) : Except BuildError Unit × Session :=
  match s.workspace.run (Activation.activate p) with
  | (.ok (), w) => (.ok (), ⟨w, s.guards ++ [p]⟩)
  | (.error err, w) => (.error err, ⟨w, s.guards⟩)

def drop (s : Session) (position : Nat) : Session :=
  match s.guards[position]? with
  | some p => ⟨((Activation.release p : StateM Workspace Unit) s.workspace).2,
      s.guards.eraseIdx position⟩
  | none => s

def write (s : Session) (e : Environment) (revisions : RevisionSource (StateM Workspace)) :
    Except BuildError Path × Session :=
  ((s.workspace.run (e.write revisions)).1, ⟨(s.workspace.run (e.write revisions)).2, s.guards⟩)

def step (s : Session) : Action → Session
  | .activate p => (s.activate p).2
  | .drop position => s.drop position
  | .write e revisions => (s.write e revisions).2

def run (s : Session) (actions : List Action) : Session := actions.foldl step s

variable {s : Session} {a : Action} {p current : Path}

/-- Whether the guards are those of what is active. -/
structure Coherent (s : Session) : Prop where
  guards_eq : s.guards = s.workspace.active.toList
  sound : s.workspace.disk.Sound

private theorem activate_of_active (h : s.workspace.active = some current) (p : Path) :
    s.activate p = (.error (.alreadyActive current), s) := by
  obtain ⟨⟨disk, active, logged, revisions, exported⟩, guards⟩ := s
  cases h
  rfl

private theorem activate_of_idle (h : s.workspace.active = none) (p : Path) :
    (s.activate p).1 = .ok () ∧ (s.activate p).2.workspace.active = some p ∧
      (s.activate p).2.workspace.disk = s.workspace.disk ∧
      (s.activate p).2.guards = s.guards ++ [p] := by
  obtain ⟨⟨disk, active, logged, revisions, exported⟩, guards⟩ := s
  cases h
  exact ⟨rfl, rfl, rfl, rfl⟩

theorem Coherent.activate (h : s.Coherent) (p : Path) : (s.activate p).2.Coherent := by
  cases hactive : s.workspace.active with
  | some current =>
    rw [activate_of_active hactive]
    exact h
  | none =>
    obtain ⟨-, hp, hdisk, hguards⟩ := activate_of_idle hactive p
    refine ⟨?_, hdisk ▸ h.sound⟩
    rw [hguards, hp, h.guards_eq, hactive]
    rfl

/-- In a coherent session the guard that is dropped is the only one, and the session stays coherent.
-/
theorem Coherent.drop (h : s.Coherent) (position : Nat) : (s.drop position).Coherent := by
  rw [Session.drop]
  split
  · rename_i p hp
    refine ⟨?_, h.sound⟩
    rw [h.guards_eq] at hp ⊢
    cases hactive : s.workspace.active with
    | none =>
      rw [hactive] at hp
      cases hp
    | some current =>
      rw [hactive] at hp
      cases position with
      | zero => rfl
      | succ position => cases hp
  · exact h

theorem Coherent.write (h : s.Coherent) (e : Environment)
    {revisions : RevisionSource (StateM Workspace)}
    (hr : ∀ checkout, Keeps Disk.Sound (revisions checkout)) :
    (s.write e revisions).2.Coherent where
  guards_eq := h.guards_eq.trans
    (congrArg Option.toList (Environment.leavesActive_write e revisions s.workspace).symm)
  sound := run_of_keeps (Environment.keeps_sound_write hr) h.sound

theorem Coherent.step (h : s.Coherent) (ha : a.Lawful) : (s.step a).Coherent := by
  cases a with
  | activate p => exact h.activate p
  | drop position => exact h.drop position
  | write e revisions => exact h.write e ha

theorem Coherent.run {actions : List Action} (h : s.Coherent) (ha : ∀ a ∈ actions, a.Lawful) :
    (s.run actions).Coherent := by
  induction actions generalizing s with
  | nil => exact h
  | cons a actions ih =>
    obtain ⟨hfirst, hrest⟩ := List.forall_mem_cons.mp ha
    exact ih (h.step hfirst) hrest

theorem Coherent.active_eq_some_iff (h : s.Coherent) :
    s.workspace.active = some p ↔ p ∈ s.guards := by
  rw [h.guards_eq, Option.mem_toList]

theorem Coherent.activate_eq_ok_iff (h : s.Coherent) :
    (s.activate p).1 = .ok () ↔ s.guards = [] := by
  rw [h.guards_eq]
  cases hactive : s.workspace.active with
  | some current => simp [activate_of_active hactive]
  | none => simp [activate_of_idle hactive]

/-- After whatever has been done in a session that began with nothing active, there is at most one
guard, and it is that of what is active. Without one an activation succeeds, and with one it is
refused. Then no environment is written either, whatever its revisions are asked of: the guard stays
what it is, and a manifest is new on the disk only in the copies of the site's and the common
configuration, if one was in what they are copies of. -/
theorem one_guard {w : Workspace} (hd : w.disk.Sound) (hactive : w.active = none)
    {actions : List Action} (ha : ∀ a ∈ actions, a.Lawful)
    (hs : s = Session.run { workspace := w } actions) :
    s.guards.length ≤ 1 ∧
    (∀ p, s.workspace.active = some p ↔ p ∈ s.guards) ∧
    (∀ p, (s.activate p).1 = .ok () ↔ s.guards = []) ∧
    (∀ current ∈ s.guards, ∀ p, s.activate p = (.error (.alreadyActive current), s)) ∧
    ∀ current ∈ s.guards, ∀ e revisions,
      (s.write e revisions).1.isOk = false ∧
      (s.write e revisions).2.guards = s.guards ∧
      (s.write e revisions).2.workspace.active = some current ∧
      ∀ l octets, l.getLast? = some "spack.yaml" →
        (s.write e revisions).2.workspace.disk.entryAt? l = some (.file octets) →
        s.workspace.disk.entryAt? l = some (.file octets) ∨
        e.InTargets s.workspace.disk l ∧ ∃ l₀ octets₀, e.InSources s.workspace.disk l₀ ∧
          l₀.getLast? = some "spack.yaml" ∧
          s.workspace.disk.entryAt? l₀ = some (.file octets₀) := by
  have hstart : Coherent { workspace := w } := ⟨by rw [hactive]; rfl, hd⟩
  have h : s.Coherent := hs ▸ hstart.run ha
  refine ⟨?_, fun p => h.active_eq_some_iff, fun p => h.activate_eq_ok_iff, ?_, ?_⟩
  · rw [h.guards_eq]
    cases s.workspace.active <;> simp
  · exact fun current hcurrent p => activate_of_active (h.active_eq_some_iff.mpr hcurrent) p
  · intro current hcurrent e revisions
    obtain ⟨err, w', hrun, hkept, halters⟩ :=
      e.run_write_of_active revisions h.sound (h.active_eq_some_iff.mpr hcurrent)
    rw [write, hrun]
    refine ⟨rfl, rfl, hkept, fun l octets hlast hfile => ?_⟩
    by_cases hsame : w'.disk.entryAt? l = s.workspace.disk.entryAt? l
    · exact .inl (hsame ▸ hfile)
    · exact .inr (halters.allows l hsame octets hfile hlast)

section Witness

open Environment

/-- An activation that is refused, a guard that is dropped, an environment that is written, and
another activation. -/
def activateDropWrite : List Action :=
  [.activate ⟨"/a"⟩, .activate ⟨"/b"⟩, .drop 0, .write fullEnvironment (fixedRevision "abc1234"),
    .activate ⟨"/c"⟩]

theorem one_guard_activateDropWrite : fullCheckout.disk.Sound ∧ fullCheckout.active = none ∧
    (∀ a ∈ activateDropWrite, a.Lawful) ∧
    let s := run { workspace := fullCheckout } activateDropWrite
    s.guards = [⟨"/c"⟩] ∧ s.workspace.disk.entryAt? ["stack", "envs", "new", "spack.yaml"] ≠ none ∧
      s.workspace.active = some ⟨"/c"⟩ ∧
      s.activate ⟨"/d"⟩ = (.error (.alreadyActive ⟨"/c"⟩), s) ∧
      (s.write { fullEnvironment with name := "newer" } (fixedRevision "abc1234")).1.isOk = false := by
  have ha : ∀ a ∈ activateDropWrite, a.Lawful := by
    intro a ha
    simp only [activateDropWrite, List.mem_cons, List.not_mem_nil, or_false] at ha
    obtain rfl | rfl | rfl | rfl | rfl := ha
    case inr.inr.inr.inl => exact fun _ => keeps_of_run fun _ => rfl
    all_goals trivial
  obtain ⟨-, hactive, -, hrefused, hwrite⟩ := one_guard sound_fullCheckout rfl ha rfl
  have hguards : (run { workspace := fullCheckout } activateDropWrite).guards = [⟨"/c"⟩] := by
    decide +kernel
  have hmem : ⟨"/c"⟩ ∈ (run { workspace := fullCheckout } activateDropWrite).guards := by
    simp [hguards]
  exact ⟨sound_fullCheckout, rfl, ha, hguards, by decide +kernel, (hactive _).mpr hmem,
    hrefused _ hmem _, (hwrite _ hmem _ _).1⟩

/-- A checkout in which the configuration of a site has a manifest. -/
def siteWithManifest : Workspace where
  disk := { root := .directory [("stack", .directory [("configs", .directory [
    ("sites", .directory [("hera", .directory [
      ("spack.yaml", .file "spack: {}\n".toUTF8)])])])])], home := ["stack"] }

def environmentOfSite : Environment :=
  .ofTemplate (.ofRoot ⟨"/stack"⟩) { name := some "new", site := some "hera", noCommon := true }
    ⟨"empty", .builtIn "spack:\n  view: false\n"⟩ ⟨[(.str "view", .bool false)], []⟩

private theorem sound_siteWithManifest : siteWithManifest.disk.Sound where
  names := by
    refine names_of_members (List.forall_mem_singleton.mpr ⟨by decide, names_of_members ?_⟩)
    refine List.forall_mem_singleton.mpr ⟨by decide, names_of_members ?_⟩
    refine List.forall_mem_singleton.mpr ⟨by decide, names_of_members ?_⟩
    refine List.forall_mem_singleton.mpr ⟨by decide, names_of_members ?_⟩
    exact List.forall_mem_singleton.mpr ⟨by decide, names_of_file _⟩
  home := by decide +kernel

def guardedSession : Session := run { workspace := siteWithManifest } [.activate ⟨"/other"⟩]

/-- A writing that is refused because of a guard leaves a copy of the site's manifest. -/
theorem write_leaves_copied_manifest : siteWithManifest.disk.Sound ∧ siteWithManifest.active = none ∧
    guardedSession.guards = [⟨"/other"⟩] ∧
    (guardedSession.write environmentOfSite (fixedRevision "abc1234")).1.isOk = false ∧
    guardedSession.workspace.disk.entryAt? ["stack", "envs", "new", "site", "spack.yaml"] = none ∧
    (guardedSession.write environmentOfSite (fixedRevision "abc1234")).2.workspace.disk.entryAt?
        ["stack", "envs", "new", "site", "spack.yaml"] =
      some (.file "spack: {}\n".toUTF8) := by
  refine ⟨sound_siteWithManifest, ?_⟩
  decide +kernel

end Witness

end Session

end EnvCompose
