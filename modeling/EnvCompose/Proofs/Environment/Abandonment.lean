import EnvCompose.Proofs.Environment.Contents
import EnvCompose.Proofs.Workspace.Outcomes

/-!
# Environments that are not written

A directory that is there or a site that is not is refused before anything is done. Whatever fails
later, even with the error of a refusal, leaves at most the two copies in the directory: neither a
manifest nor a temporary file. In no case another environment is active than before.
-/
namespace EnvCompose
open Disk Workspace

/-- Whether an error is one of those for which a build is refused before anything is done. -/
def BuildError.isRefusal : BuildError → Bool
  | .alreadyExists _ => true
  | .siteNotFound _ => true
  | _ => false

namespace Environment

variable {before made : Disk} {e : Environment} {revisions : RevisionSource (StateM Workspace)}

/-- What is left where the writing of an environment has been given up. The copies apart, its
directory holds what it held before, and nothing at all if the path to it may be taken. -/
structure Abandoned (e : Environment) (before after : Disk) : Prop where
  others : ∀ name rest, name ≠ "site" → name ≠ "common" →
    after.entryAt? (before.destination e.directory ++ name :: rest) =
      before.entryAt? (before.destination e.directory ++ name :: rest)
  nothing_else : checkPath e.directory = .ok () → ∀ name, name ≠ "site" → name ≠ "common" →
    after.entryAt? (before.destination e.directory ++ [name]) = none
  manifest : (after.kind (e.directory.join ⟨"spack.yaml"⟩)).toOption = none
  temporary : ∀ n, (after.kind (e.directory.join ⟨temporaryName n⟩)).toOption = none
  /-- Around the directory only others on the way to it are new. -/
  outside : ∀ l, ¬before.destination e.directory <+: l → after.entryAt? l = before.entryAt? l ∨
    l <+: before.destination e.directory ∧ before.entryAt? l = none ∧
      after.entryAt? l = some .directory

/-- What may have changed in a directory that has been made before the manifest is there. -/
def InCopies (dir l : Location) (_ : Option Entry) : Prop :=
  dir ++ [siteInclude] <+: l ∨ dir ++ [commonInclude] <+: l

/-- What may have changed when the writing is given up. -/
def Unfinished (e : Environment) (before : Disk) (l : Location) (entry : Option Entry) : Prop :=
  before.MadeTo (before.destination e.directory) l entry ∨
    InCopies (before.destination e.directory) l entry

/-- All that is done once nothing has been refused. -/
def build (e : Environment) (revisions : RevisionSource (StateM Workspace)) :
    Build (StateM Workspace) Path := do
  makeDirectory e.directory
  e.copySite
  e.copyCommon
  e.copyPins
  Activation.during e.directory (e.writeManifest revisions)

/-- What is done before the environment is active. -/
def prepare (e : Environment) : Build (StateM Workspace) Unit := do
  makeDirectory e.directory
  e.copySite
  e.copyCommon
  e.copyPins

theorem build_eq (e : Environment) (revisions : RevisionSource (StateM Workspace)) :
    e.build revisions = e.prepare >>= fun _ =>
      Activation.during e.directory (e.writeManifest revisions) := by
  simp only [build, prepare, bind_assoc]

/-- A check that refuses leaves the workspace as it is. -/
theorem run_check (w : Workspace) (e : Environment) :
    w.run e.check = (.ok (), w) ∧ e.Writable w.disk ∨ ∃ err : BuildError,
      w.run e.check = (.error err, w) ∧ err.isRefusal = true ∧ ¬e.Writable w.disk := by
  have hexists : (Machine.pathExists e.directory : StateM Workspace Bool) w =
      ((w.disk.kind e.directory).toOption.isSome, w) := rfl
  rw [check, run_bind, run_lift, hexists]
  cases hfound : (w.disk.kind e.directory).toOption.isSome with
  | true =>
    refine .inr ⟨.alreadyExists e.directory, rfl, rfl, fun hw => ?_⟩
    rw [hw.not_found] at hfound
    cases hfound
  | false =>
    have hno : (w.disk.kind e.directory).toOption = none := by simpa using hfound
    cases hsite : e.site with
    | none => exact .inl ⟨rfl, hno, by simp [hsite]⟩
    | some site =>
      have hdirectory : (Machine.isDirectory (e.layout.siteDir site) : StateM Workspace Bool) w =
          ((w.disk.kind (e.layout.siteDir site)).toOption == some .directory, w) := rfl
      simp only [Bool.false_eq_true, if_false]
      rw [run_bind, run_lift, hdirectory]
      cases hkind : (w.disk.kind (e.layout.siteDir site)).toOption == some .directory with
      | true => exact .inl ⟨rfl, hno, by simpa [hsite] using hkind⟩
      | false =>
        refine .inr ⟨.siteNotFound site, rfl, rfl, fun hw => ?_⟩
        rw [hw.site site hsite] at hkind
        cases hkind

section Copies

private theorem eq_of_prefix_append {dir rest : Location} {name other : String}
    (h : dir ++ [name] <+: dir ++ other :: rest) : name = other := by
  rw [List.prefix_append_right_inj] at h
  exact (List.cons_prefix_cons.mp h).1

private theorem keeps_copies {name : String} (hn : IsMemberName name) (source : Path)
    (hname : name = siteInclude ∨ name = commonInclude) (hup : ".." ∉ stepsOf e.directory)
    (hdir : made.Reaches e.directory) :
    Keeps (made.Alters (InCopies (made.destination e.directory)))
      (copyTree source (e.directory.join ⟨name⟩) :
        ExceptT TemplateError (StateM Workspace) Unit) := by
  refine keeps_copyTree_below hn hup hdir.destination fun l entry hl => ?_
  obtain rfl | rfl := hname
  · exact .inl hl
  · exact .inr hl

private theorem keeps_copySite_inCopies (hup : ".." ∉ stepsOf e.directory)
    (hdir : made.Reaches e.directory) :
    Keeps (made.Alters (InCopies (made.destination e.directory)))
      (e.copySite : Build (StateM Workspace) Unit) :=
  triple_copySite_of (fun _ _ h => h) fun _ _ =>
    keeps_copies isMemberName_siteInclude _ (.inl rfl) hup hdir

private theorem keeps_copyCommon_inCopies (hup : ".." ∉ stepsOf e.directory)
    (hdir : made.Reaches e.directory) :
    Keeps (made.Alters (InCopies (made.destination e.directory)))
      (e.copyCommon : Build (StateM Workspace) Unit) :=
  triple_copyCommon_of (fun _ _ h => h) fun _ =>
    keeps_copies isMemberName_commonInclude _ (.inr rfl) hup hdir

private theorem keeps_copyPins_inCopies (hup : ".." ∉ stepsOf e.directory)
    (hdir : made.Reaches e.directory) :
    Keeps (made.Alters (InCopies (made.destination e.directory)))
      (e.copyPins : Build (StateM Workspace) Unit) := by
  have hn := isMemberName_commonInclude.toIsFileName
  have hplace := destination_join (d := made) (p := e.directory) hn
  have hmake : Keeps (made.Alters (InCopies (made.destination e.directory)))
      (makeDirectory (e.directory.join ⟨commonInclude⟩) : Build (StateM Workspace) Unit) :=
    (triple_adapt (triple_makeDirectories_below (parent?_join_ne_none hn)
      (points_not_mem_join hn hup) (fun l => directory_above hdir.destination)
      (hplace ▸ List.prefix_refl _) fun l _ hl => .inr hl)).weaken
      (fun _ h => h) (fun _ _ h => h.1) fun _ h => h
  refine triple_copyPins_of (fun _ _ h => h) (fun _ => hmake) fun pins _ => ?_
  refine triple_change (fun d d' hd hop => hd.copyFile hop fun octets => .inr ?_) fun _ h => h
  rw [destination_pinsFile, List.prefix_append_right_inj]
  exact List.prefix_append [commonInclude] ["packages.yaml"]

end Copies

/-- A manifest that has been written is found in its directory. -/
theorem triple_writeManifest_found (hr : QuietSource revisions) (hdir : made.Reaches e.directory)
    {allowed : Location → Option Entry → Prop} :
    Triple (made.Alters allowed) (e.writeManifest revisions)
      (fun _ d => (d.kind (e.directory.join manifestFile)).toOption.isSome = true)
      (made.Alters allowed) := by
  refine triple_writeManifest_of (fun checkout => keeps_of_run (hr checkout)) fun p _ =>
    triple_of_each fun d hd => ?_
  refine (Manifest.triple_write_altering hd.sound).weaken (fun _ h => h) (fun _ d' h => ?_)
    fun d' h => hd.trans (h.mono fun _ _ h => h.elim)
  obtain ⟨text, -, halters, hfile, hcheck⟩ := h
  have hplace : d.destination (e.directory.join manifestFile) =
      d'.destination e.directory ++ [manifestFile.text] := by
    rw [halters.destination_eq]
    exact destination_join isMemberName_manifestFile.toIsFileName
  obtain ⟨found, hfound⟩ := exists_locate_join isMemberName_manifestFile hcheck
    (halters.reaches (hd.reaches hdir)) (hplace ▸ hfile)
  exact isSome_kind_of_locate hfound

/-- A build leaves the manifest in its place or nothing but copies. -/
theorem triple_build (hd : before.Sound) (hr : QuietSource revisions)
    (hup : ".." ∉ stepsOf e.directory) :
    Triple (· = before) (e.build revisions)
      (fun _ d => (d.kind (e.directory.join manifestFile)).toOption.isSome = true)
      (before.Alters (e.Unfinished before)) := by
  have hmake : Triple (· = before) (makeDirectory e.directory : Build (StateM Workspace) Unit)
      (fun _ d => before.Alters (e.Unfinished before) d ∧ d.Reaches e.directory)
      (before.Alters (e.Unfinished before)) :=
    (triple_makeDirectory_made hd hup).weaken (fun _ h => h)
      (fun _ _ h => ⟨h.1.mono fun _ _ => .inl, h.2⟩) fun _ h => h.mono fun _ _ => .inl
  rw [build]
  refine triple_bind hmake fun _ => triple_of_each fun made ⟨hmade, hdir⟩ => ?_
  have hcopies : Triple (made.Alters (InCopies (made.destination e.directory)))
      (do e.copySite
          e.copyCommon
          e.copyPins
          Activation.during e.directory (e.writeManifest revisions) : Build (StateM Workspace) Path)
      (fun _ d => (d.kind (e.directory.join manifestFile)).toOption.isSome = true)
      (made.Alters (InCopies (made.destination e.directory))) := by
    refine triple_bind (keeps_copySite_inCopies hup hdir) fun _ => ?_
    refine triple_bind (keeps_copyCommon_inCopies hup hdir) fun _ => ?_
    refine triple_bind (keeps_copyPins_inCopies hup hdir) fun _ => ?_
    exact triple_during (triple_writeManifest_found hr hdir) fun _ h => h
  refine hcopies.weaken (by rintro _ rfl; exact .refl hmade.sound) (fun _ _ h => h) fun d h => ?_
  refine hmade.trans (h.mono fun l _ hl => .inr ?_)
  rwa [hmade.destination_eq] at hl

section Unfinished

variable {d : Disk} {name : String} (h : before.Alters (e.Unfinished before) d)
include h

private theorem entryAt?_of_unfinished (hsite : name ≠ "site") (hcommon : name ≠ "common")
    (rest : Location) : d.entryAt? (before.destination e.directory ++ name :: rest) =
      before.entryAt? (before.destination e.directory ++ name :: rest) := by
  refine h.entryAt?_eq ?_
  rintro (⟨habove, -, -⟩ | hcopy | hcopy)
  · have hle := habove.length_le
    simp only [List.length_append, List.length_cons] at hle
    omega
  · exact hsite (eq_of_prefix_append hcopy).symm
  · exact hcommon (eq_of_prefix_append hcopy).symm

variable (hd : before.Sound) (hup : ".." ∉ stepsOf e.directory)
  (hno : (before.kind e.directory).toOption = none)
include hd hup hno

private theorem absent_of_unfinished (hcheck : checkPath e.directory = .ok ())
    (hsite : name ≠ "site") (hcommon : name ≠ "common") :
    d.entryAt? (before.destination e.directory ++ [name]) = none := by
  -- a directory that is there would have been found
  have hfresh : before.entryAt? (before.destination e.directory) ≠ some .directory := by
    intro hdir
    have hfound := isSome_kind_of_reaches hcheck (hd.reaches_of_no_points hup hdir)
    rw [hno] at hfound
    cases hfound
  rw [entryAt?_of_unfinished h hsite hcommon]
  exact Tree.entryAt?_append_of_not_directory hfresh (by simp)

private theorem not_found_of_unfinished (hne : e.directory.isEmpty = false) (hn : IsFileName name)
    (hsite : name ≠ "site") (hcommon : name ≠ "common") :
    (d.kind (e.directory.join ⟨name⟩)).toOption = none := by
  rw [← Option.not_isSome_iff_eq_none]
  intro hsome
  obtain ⟨hcheck, hpresent⟩ := of_kind hsome
  rw [destination_join hn, h.destination_eq] at hpresent
  exact hpresent (absent_of_unfinished h hd hup hno (checkPath_of_join hn hne hcheck) hsite hcommon)

private theorem abandoned_of_unfinished (hne : e.directory.isEmpty = false) :
    e.Abandoned before d := by
  have hmissing {name : String} (hn : IsFileName name) := not_found_of_unfinished h hd hup hno hne hn
  refine ⟨fun name rest hsite hcommon => entryAt?_of_unfinished h hsite hcommon rest,
    fun hcheck name => absent_of_unfinished h hd hup hno hcheck,
    hmissing isMemberName_manifestFile.toIsFileName (by decide) (by decide),
    fun n => hmissing (isFileName_temporaryName n) ?_ ?_, fun l hl => ?_⟩
  · exact fun h => by simpa [toList_temporaryName] using congrArg String.toList h
  · exact fun h => by simpa [toList_temporaryName] using congrArg String.toList h
  · by_cases hsame : d.entryAt? l = before.entryAt? l
    · exact .inl hsame
    · obtain hmade | hcopies := h.allows l hsame
      · exact .inr hmade
      · exact (hl (hcopies.elim (List.prefix_append _ _).trans (List.prefix_append _ _).trans)).elim

end Unfinished

section Outcomes

/-- Whether an error, if it is one of a refusal, is what the revision source answers on this disk
for one of the two checkouts. -/
def Sourced (e : Environment) (revisions : RevisionSource (StateM Workspace)) (err : BuildError)
    (d : Disk) : Prop :=
  err.isRefusal = true → ∃ checkout ∈ [e.layout.root, e.layout.spack], ∃ v : Workspace,
    v.disk = d ∧ (v.run (revisions checkout)).1 = .error err

private theorem failsWith_copyTree (e : Environment) (source dest : Path) :
    FailsWith (e.Sourced revisions) ((copyTree source dest :
      ExceptT TemplateError (StateM Workspace) Unit).adapt BuildError.ofTemplate) := by
  refine failsWith_adapt fun cause d h => ?_
  cases cause <;> cases h

private theorem failsWith_copySite (e : Environment) :
    FailsWith (e.Sourced revisions) (e.copySite : Build (StateM Workspace) Unit) := by
  rw [copySite]
  split
  · exact failsWith_bind (failsWith_lift _) fun _ => failsWith_copyTree e _ _
  · exact failsWith_pure ()

private theorem failsWith_copyCommon (e : Environment) :
    FailsWith (e.Sourced revisions) (e.copyCommon : Build (StateM Workspace) Unit) := by
  rw [copyCommon]
  split
  · exact failsWith_bind (failsWith_lift _) fun _ => failsWith_copyTree e _ _
  · exact failsWith_pure ()

private theorem failsWith_makeDirectory (e : Environment) (dir : Path) :
    FailsWith (e.Sourced revisions) (makeDirectory dir : Build (StateM Workspace) Unit) := by
  refine failsWith_adapt fun cause d h => ?_
  cases h

private theorem failsWith_copyPins (e : Environment) :
    FailsWith (e.Sourced revisions) (e.copyPins : Build (StateM Workspace) Unit) := by
  rw [copyPins]
  split
  · refine failsWith_bind (failsWith_makeDirectory e _) fun _ => ?_
    refine failsWith_bind (failsWith_lift _) fun _ => failsWith_adapt fun cause d h => ?_
    cases h
  · exact failsWith_pure ()

private theorem failsWith_writeManifest (hr : QuietSource revisions) (e : Environment) :
    FailsWith (e.Sourced revisions) (e.writeManifest revisions) := by
  have hsource (checkout : Path) (h : checkout ∈ [e.layout.root, e.layout.spack]) :
      FailsWith (e.Sourced revisions) (revisions checkout) :=
    fun v _ herr _ => ⟨checkout, h, v, (hr checkout v).symm, herr⟩
  rw [writeManifest]
  refine failsWith_bind (failsWith_forM _ fun _ => failsWith_lift _) fun _ => ?_
  refine failsWith_bind ?_ fun p => failsWith_bind ?_ fun _ => ?_
  · refine failsWith_bind (hsource _ (by simp)) fun stack => ?_
    exact failsWith_bind (hsource _ (by simp)) fun spack => failsWith_pure _
  · rw [Manifest.write]
    refine failsWith_bind (failsWith_answer fun err d herr h => ?_) fun text => ?_
    · rw [Manifest.render] at herr
      split at herr
      · cases herr
        cases h
      · cases herr
    · refine failsWith_adapt fun cause d h => ?_
      cases h
  · exact failsWith_bind (failsWith_lift _) fun _ => failsWith_pure _

/-- Beside those of the revision source, no error of a build is one of a refusal. -/
theorem failsWith_build (hr : QuietSource revisions) (e : Environment) :
    FailsWith (e.Sourced revisions) (e.build revisions) := by
  rw [build]
  refine failsWith_bind (failsWith_makeDirectory e _) fun _ => ?_
  refine failsWith_bind (failsWith_copySite e) fun _ => ?_
  refine failsWith_bind (failsWith_copyCommon e) fun _ => ?_
  refine failsWith_bind (failsWith_copyPins e) fun _ => ?_
  refine failsWith_during (fun current d h => ?_) (failsWith_writeManifest hr e)
  cases h

theorem leavesActive_prepare (e : Environment) : LeavesActive e.prepare := by
  have hmake (dir : Path) :
      LeavesActive (makeDirectory dir : Build (StateM Workspace) Unit) :=
    leavesActive_adapt _ (leavesActive_makeUpTo _ dir)
  have hcopy (source dest : Path) :
      LeavesActive ((copyTree source dest :
        ExceptT TemplateError (StateM Workspace) Unit).adapt BuildError.ofTemplate) :=
    leavesActive_adapt _ (leavesActive_copyTree source dest)
  rw [prepare]
  refine leavesActive_bind (hmake _) fun _ => leavesActive_bind ?_ fun _ => ?_
  · rw [copySite]
    split
    · exact leavesActive_bind (leavesActive_lift fun _ => rfl) fun _ => hcopy _ _
    · exact leavesActive_pure ()
  refine leavesActive_bind ?_ fun _ => ?_
  · rw [copyCommon]
    split
    · exact leavesActive_bind (leavesActive_lift fun _ => rfl) fun _ => hcopy _ _
    · exact leavesActive_pure ()
  · rw [copyPins]
    split
    · refine leavesActive_bind (hmake _) fun _ => ?_
      refine leavesActive_bind (leavesActive_lift fun _ => rfl) fun _ => ?_
      exact leavesActive_adapt _ (leavesActive_change _)
    · exact leavesActive_pure ()

theorem leavesActive_build (e : Environment) (revisions : RevisionSource (StateM Workspace)) :
    LeavesActive (e.build revisions) := by
  rw [build_eq]
  exact leavesActive_bind (leavesActive_prepare e) fun _ => leavesActive_during _ _

end Outcomes

theorem run_write_of_passed {w : Workspace} (h : w.run e.check = (.ok (), w)) :
    w.run (e.write revisions) = w.run (e.build revisions) := by
  change w.run (e.check >>= fun _ => e.build revisions) = _
  rw [run_bind, h]

theorem run_write_of_refused {w : Workspace} {err : BuildError}
    (h : w.run e.check = (.error err, w)) : w.run (e.write revisions) = (.error err, w) := by
  change w.run (e.check >>= fun _ => e.build revisions) = _
  rw [run_bind, h]

/-- A writing that fails was refused before anything was done, or it leaves at most copies in the
directory and nothing new around it but others. The error of a refusal comes later only if it is the
revision source's own. The manifest is in a directory that was not found before if and only if the
writing has succeeded, and what is active stays so in any case. -/
theorem write_outcome {w : Workspace} (hd : w.disk.Sound) (hr : QuietSource revisions)
    (hne : e.directory.isEmpty = false) (hup : ".." ∉ stepsOf e.directory) :
    (∀ err, (w.run (e.write revisions)).1 = .error err →
      ¬e.Writable w.disk ∧ err.isRefusal = true ∧ (w.run (e.write revisions)).2 = w ∨
      e.Writable w.disk ∧ e.Abandoned w.disk (w.run (e.write revisions)).2.disk ∧
        (err.isRefusal = true → ∃ checkout ∈ [e.layout.root, e.layout.spack], ∃ v : Workspace,
          v.disk = (w.run (e.write revisions)).2.disk ∧
            (v.run (revisions checkout)).1 = .error err)) ∧
    ((w.disk.kind e.directory).toOption = none →
      ((w.run (e.write revisions)).2.disk.kind (e.directory.join ⟨"spack.yaml"⟩)).toOption.isSome =
        (w.run (e.write revisions)).1.isOk) ∧
    (w.run (e.write revisions)).2.active = w.active := by
  obtain ⟨hcheck, hw⟩ | ⟨err, hcheck, hrefusal, hw⟩ := run_check w e
  · have hactive := leavesActive_build e revisions w
    have herrors := failsWith_build hr e w
    have houtcome := (triple_build (e := e) hd hr hup).outcome w rfl
    rw [run_write_of_passed hcheck]
    rcases hbuild : w.run (e.build revisions) with ⟨err | file, w'⟩
    · rw [hbuild] at hactive herrors houtcome
      have habandoned := abandoned_of_unfinished houtcome hd hup hw.not_found hne
      refine ⟨fun err' herr => ?_, fun _ => ?_, hactive⟩
      · cases herr
        exact .inr ⟨hw, habandoned, herrors _ rfl⟩
      · rw [habandoned.manifest]
        rfl
    · rw [hbuild] at hactive houtcome
      refine ⟨fun err herr => ?_, fun _ => houtcome, hactive⟩
      cases herr
  · rw [run_write_of_refused hcheck]
    refine ⟨fun err' herr => ?_, fun hno => ?_, rfl⟩
    · cases herr
      exact .inl ⟨hw, hrefusal, rfl⟩
    · rw [(abandoned_of_unfinished (.refl hd) hd hup hno hne).manifest]
      rfl

section Untaken

/-- A path that may not be taken is not one on which something is missing. -/
theorem checkPath_eq_error {p : Path} (hne : p.isEmpty = false) (h : checkPath p ≠ .ok ()) :
    ∃ fault, checkPath p = .error fault ∧ fault ≠ .notFound ∧ fault ≠ .alreadyExists := by
  by_cases hnul : hasNul p = true
  · exact ⟨.invalidName, by simp [checkPath, hnul], by decide, by decide⟩
  by_cases hsize : p.text.utf8ByteSize ≥ pathLimit
  · exact ⟨.nameTooLong, by simp [checkPath, hnul, hne, hsize], by decide, by decide⟩
  · exact absurd (by simp [checkPath, hnul, hne, hsize]) h

private theorem run_makeUpTo_of_untaken {w : Workspace} {dir : Path} (hne : dir.isEmpty = false)
    (hparent : dir.parent? ≠ none) (h : checkPath dir ≠ .ok ()) (bound : Nat) : ∃ fault,
    w.run (Machine.makeUpTo bound dir : Attempt (StateM Workspace) Unit) = (.error fault, w) := by
  obtain ⟨fault, hcheck, hmissing, hthere⟩ := checkPath_eq_error hne h
  obtain ⟨parent, hp⟩ := Option.ne_none_iff_exists'.mp hparent
  have hmake : w.run (Machine.makeDirectory dir : Attempt (StateM Workspace) Unit) =
      (.error fault, w) :=
    run_change_of_error (by simp [Disk.makeDirectory, slot, hcheck, bind, Except.bind])
  refine ⟨fault, ?_⟩
  cases bound with
  | zero =>
    rw [Machine.makeUpTo.eq_2 _ _ hp]
    exact hmake
  | succ bound =>
    rw [Machine.makeUpTo.eq_3 _ _ _ hp, run_tryCatch, hmake]
    dsimp only
    rw [if_neg (by simpa using hmissing), Machine.acceptDirectory, run_bind, run_lift]
    simp only [hthere, beq_iff_eq, Bool.and_eq_true, false_and, if_false]
    rfl

/-- Nothing is done for a directory whose path may not be taken. -/
theorem run_write_of_untaken (revisions : RevisionSource (StateM Workspace)) {w : Workspace}
    (hne : e.directory.isEmpty = false) (hparent : e.directory.parent? ≠ none)
    (h : checkPath e.directory ≠ .ok ()) (hw : e.Writable w.disk) : ∃ fault,
    w.run (e.write revisions) = (.error (.createDirectory e.directory fault), w) := by
  obtain ⟨fault, hmake⟩ := run_makeUpTo_of_untaken (w := w) hne hparent h e.directory.text.length
  refine ⟨fault, ?_⟩
  obtain ⟨hcheck, -⟩ | ⟨-, -, -, hno⟩ := run_check w e
  · rw [run_write_of_passed hcheck, build, run_bind, makeDirectory, run_adapt,
      Machine.makeDirectories, hmake]
    rfl
  · exact absurd hw hno

end Untaken

section Witness

/-- The full checkout, with a revision of the stack and none of the package manager. -/
def stackRevisionOnly : Workspace :=
  { fullCheckout with revisions := some [(["stack"], ⟨0, "abc1234\n".toUTF8, .empty⟩)] }

/-- The second question for a revision fails, so the copies are all that is there. -/
theorem write_outcome_stackRevisionOnly :
    stackRevisionOnly.disk.Sound ∧ QuietSource checkedOutRevision ∧ ∃ err w',
      stackRevisionOnly.run (fullEnvironment.write checkedOutRevision) = (.error err, w') ∧
      err.isRefusal = false ∧ fullEnvironment.Abandoned stackRevisionOnly.disk w'.disk ∧
      w'.disk.entryAt? ["stack", "envs", "new", "site", "compilers", "gcc.yaml"] =
        some (.file "gcc: 13\n".toUTF8) ∧
      (w'.disk.kind (fullEnvironment.directory.join ⟨"spack.yaml"⟩)).toOption.isSome = false ∧
      w'.active = none := by
  have hd : stackRevisionOnly.disk.Sound := sound_fullCheckout
  obtain ⟨hfailed, hfile, hactive⟩ := write_outcome (e := fullEnvironment) hd
    quietSource_checkedOutRevision (by decide +kernel) (by decide +kernel)
  have hnone : (stackRevisionOnly.disk.kind fullEnvironment.directory).toOption = none := by
    decide +kernel
  have hlate : (match (stackRevisionOnly.run (fullEnvironment.write checkedOutRevision)).1 with
      | .error err => err.isRefusal
      | .ok _ => true) = false := by
    decide +kernel
  have hcopy : (stackRevisionOnly.run (fullEnvironment.write checkedOutRevision)).2.disk.entryAt?
      ["stack", "envs", "new", "site", "compilers", "gcc.yaml"] =
        some (.file "gcc: 13\n".toUTF8) := by
    decide +kernel
  rcases hrun : stackRevisionOnly.run (fullEnvironment.write checkedOutRevision) with
    ⟨err | file, w'⟩
  · rw [hrun] at hfailed hfile hactive hlate hcopy
    obtain ⟨-, hrefusal, -⟩ | ⟨-, habandoned, -⟩ := hfailed err rfl
    · exact absurd (hlate.symm.trans hrefusal) (by decide)
    · exact ⟨hd, quietSource_checkedOutRevision, err, w', rfl, hlate, habandoned, hcopy,
        hfile hnone, hactive⟩
  · rw [hrun] at hlate
    cases hlate

/-- A source that takes every checkout for an environment that is there already. -/
def refusingSource : RevisionSource (StateM Workspace) := fun checkout =>
  throw (.alreadyExists checkout)

def oneEnvironment : Workspace where
  disk := { root := .directory [("envs", .directory [("old", .directory [
    ("spack.yaml", .file "spack: {}\n".toUTF8)])])], home := [] }

/-- An environment in the directory of `oneEnvironment`, by a path with too many slashes. -/
def overlongEnvironment : Environment :=
  .ofTemplate (.ofRoot ⟨"/stack"⟩)
    { name := some "old", noCommon := true,
      dir := some ⟨String.ofList (List.replicate pathLimit '/' ++ "envs".toList)⟩ }
    ⟨"empty", .builtIn "spack:\n  view: false\n"⟩ bareTemplate

private theorem sound_oneEnvironment : oneEnvironment.disk.Sound where
  names := by
    refine names_of_members (List.forall_mem_singleton.mpr ⟨by decide, names_of_members ?_⟩)
    refine List.forall_mem_singleton.mpr ⟨by decide, names_of_members ?_⟩
    exact List.forall_mem_singleton.mpr ⟨by decide, names_of_file _⟩
  home := by decide +kernel

private theorem stepsOf_slashes (n : Nat) (rest : List Char) :
    stepsOf ⟨String.ofList (List.replicate n '/' ++ rest)⟩ = stepsOf ⟨String.ofList rest⟩ := by
  induction n with
  | zero => rfl
  | succ n ih =>
    rw [← ih, stepsOf_eq, stepsOf_eq]
    simp [List.replicate_succ, Text.piecesOf, Text.split]

private theorem le_size_slashes (n : Nat) (rest : List Char) :
    n ≤ (String.ofList (List.replicate n '/' ++ rest)).utf8ByteSize := by
  induction n with
  | zero => exact Nat.zero_le _
  | succ n ih =>
    have hslash : (String.ofList ['/']).utf8ByteSize = 1 := by decide
    rw [List.replicate_succ, List.cons_append, ← List.singleton_append, String.ofList_append,
      String.utf8ByteSize_append, hslash]
    omega

private theorem isFileName_old : IsFileName "old" := IsMemberName.toIsFileName (by decide)

private theorem stepsOf_overlongEnvironment :
    stepsOf overlongEnvironment.directory = ["envs", "old"] := by
  have hdir : stepsOf overlongEnvironment.dir = stepsOf ⟨"envs"⟩ := stepsOf_slashes _ _
  have hjoin := stepsOf_join (p := overlongEnvironment.dir) isFileName_old
  rw [hdir] at hjoin
  exact hjoin.trans (by decide)

private theorem checkPath_overlongEnvironment :
    checkPath overlongEnvironment.directory ≠ .ok () := by
  intro h
  have hsize : overlongEnvironment.directory.text.utf8ByteSize < pathLimit :=
    (checkPath_eq_ok_iff.mp h).2.2
  have hdir : pathLimit ≤ overlongEnvironment.dir.text.utf8ByteSize := le_size_slashes _ _
  have hlt : overlongEnvironment.dir.text.utf8ByteSize <
      overlongEnvironment.directory.text.utf8ByteSize := size_lt_join isFileName_old
  omega

private theorem writable_overlongEnvironment :
    overlongEnvironment.Writable oneEnvironment.disk where
  not_found := by
    rw [← Option.not_isSome_iff_eq_none]
    exact fun hsome => checkPath_overlongEnvironment (of_kind hsome).1
  site := nofun

/-- The error of a refusal comes after the directory has been made, if the revision source gives it.
Where the path may not be taken, the manifest of another environment stays in the directory. -/
theorem write_fails_otherwise :
    (fullCheckout.disk.Sound ∧ QuietSource refusingSource ∧
      fullEnvironment.directory.isEmpty = false ∧ ".." ∉ stepsOf fullEnvironment.directory ∧
      ∃ err w', fullCheckout.run (fullEnvironment.write refusingSource) = (.error err, w') ∧
        err.isRefusal = true ∧ fullCheckout.disk.entryAt? ["stack", "envs", "new"] = none ∧
        w'.disk.entryAt? ["stack", "envs", "new"] = some .directory) ∧
    oneEnvironment.disk.Sound ∧ QuietSource (fixedRevision "abc1234") ∧
      overlongEnvironment.directory.isEmpty = false ∧ ".." ∉ stepsOf overlongEnvironment.directory ∧
      ∃ err w', oneEnvironment.run (overlongEnvironment.write (fixedRevision "abc1234")) =
          (.error err, w') ∧ err.isRefusal = false ∧
        w'.disk.destination overlongEnvironment.directory = ["envs", "old"] ∧
        w'.disk.entryAt? ["envs", "old", "spack.yaml"] = some (.file "spack: {}\n".toUTF8) := by
  constructor
  · refine ⟨sound_fullCheckout, fun _ _ => rfl, by decide +kernel, by decide +kernel, ?_⟩
    have hlate : (match (fullCheckout.run (fullEnvironment.write refusingSource)).1 with
        | .error err => err.isRefusal
        | .ok _ => false) = true := by
      decide +kernel
    have hmade : (fullCheckout.run (fullEnvironment.write refusingSource)).2.disk.entryAt?
        ["stack", "envs", "new"] = some .directory := by
      decide +kernel
    rcases hrun : fullCheckout.run (fullEnvironment.write refusingSource) with ⟨err | file, w'⟩
    · rw [hrun] at hlate hmade
      exact ⟨err, w', rfl, hlate, by decide +kernel, hmade⟩
    · rw [hrun] at hlate
      cases hlate
  · have hsteps := stepsOf_overlongEnvironment
    have hne : overlongEnvironment.directory.isEmpty = false := isEmpty_join isFileName_old
    obtain ⟨fault, hrun⟩ := run_write_of_untaken (fixedRevision "abc1234") hne
      (parent?_join_ne_none isFileName_old) checkPath_overlongEnvironment
      writable_overlongEnvironment
    refine ⟨sound_oneEnvironment, quietSource_fixedRevision _, hne, by rw [hsteps]; decide, _, _,
      hrun, rfl, ?_, by decide +kernel⟩
    have horigin : oneEnvironment.disk.origin overlongEnvironment.directory = [] := ite_self []
    rw [destination, hsteps, horigin]
    rfl

end Witness

end Environment

end EnvCompose
