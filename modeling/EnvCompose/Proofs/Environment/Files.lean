import EnvCompose.Environment.Write
import EnvCompose.Proofs.Disk.Overwriting
import EnvCompose.Proofs.Workspace.Files

/-!
# The files an environment is written to

An environment is written to a directory that its path did not lead to before. All that was on the
disk is spared, except for the manifest and the pins in the directory that the path leads to after
it has been made.
-/
namespace EnvCompose
open Disk Workspace

/-- Whether asking for a revision spares all that is on the disk. -/
def SparingSource (source : RevisionSource (StateM Workspace)) : Prop :=
  ∀ (checkout : Path) (w : Workspace), w.disk.Sound →
    w.disk.Spares (fun _ => False) (w.run (source checkout)).2.disk

/-- Whether asking for a revision leaves the disk as it is. -/
def QuietSource (source : RevisionSource (StateM Workspace)) : Prop :=
  ∀ (checkout : Path) (w : Workspace), (w.run (source checkout)).2.disk = w.disk

theorem quietSource_fixedRevision (hash : String) : QuietSource (fixedRevision hash) :=
  fun _ _ => rfl

theorem quietSource_checkedOutRevision : QuietSource checkedOutRevision := by
  intro checkout w
  have hkeeps : Keeps (· = w.disk)
      (checkedOutRevision checkout : Build (StateM Workspace) String) := by
    refine triple_bind (triple_adapt (keeps_of_run fun _ => rfl)) fun out => ?_
    split
    · exact triple_pure fun _ hd => hd
    · exact triple_throw fun _ hd => hd
  exact run_of_keeps hkeeps rfl

/-- Whether a source gives these revisions of the two checkouts. -/
def Gives (source : RevisionSource (StateM Workspace)) (l : Layout) (p : Provenance) : Prop :=
  ∃ w : Workspace, (w.run (Provenance.collect source l)).1 = .ok p

theorem gives_fixedRevision {hash : String} {l : Layout} {p : Provenance} :
    Gives (fixedRevision hash) l p ↔ p = ⟨hash, hash⟩ := by
  constructor
  · rintro ⟨w, h⟩
    exact (Except.ok.inj h).symm
  · rintro rfl
    exact ⟨default, rfl⟩

theorem QuietSource.sparing {source : RevisionSource (StateM Workspace)} (h : QuietSource source) :
    SparingSource source := fun checkout w hd => by
  rw [h checkout w]
  exact Spares.refl hd

theorem sparingSource_fixedRevision (hash : String) : SparingSource (fixedRevision hash) :=
  (quietSource_fixedRevision hash).sparing

private theorem keeps_source {before : Disk} {exposed : Location → Prop}
    {source : RevisionSource (StateM Workspace)} (hs : SparingSource source) (checkout : Path) :
    Keeps (before.Spares exposed) (source checkout) := by
  constructor
  intro w hw
  have hspares := hw.trans (hs checkout w hw.sound) fun _ h => h.elim
  rcases hr : w.run (source checkout) with ⟨_ | a, w₁⟩ <;> simpa [hr] using hspares

theorem isMemberName_siteInclude : IsMemberName Environment.siteInclude := by decide

theorem isMemberName_commonInclude : IsMemberName Environment.commonInclude := by decide

theorem isMemberName_packages : IsMemberName "packages.yaml" := by decide

section Writing

variable {before : Disk} {exposed hidden : Location → Prop} {pre failed : Disk → Prop}

/-- A manifest is written if it can be rendered. -/
theorem Manifest.triple_write_of {manifest : Manifest} {file : Path} {header : Option String}
    {post : Unit → Disk → Prop} (hfailed : ∀ d, pre d → failed d)
    (hwrite : ∀ text, manifest.render header = .ok text →
      Triple pre (writeAtomic file text : Build (StateM Workspace) Unit) post failed) :
    Triple pre (manifest.write file header : Build (StateM Workspace) Unit) post failed := by
  rw [Manifest.write]
  have hrender : Triple pre
      (ExceptT.mk (pure (manifest.render header)) : Build (StateM Workspace) String)
      (fun text d => pre d ∧ manifest.render header = .ok text) failed :=
    triple_answer (fun _ htext _ hd => ⟨hd, htext⟩) hfailed
  exact triple_bind hrender fun text => triple_of_and fun htext => hwrite text htext

theorem Manifest.triple_write {manifest : Manifest} {file : Path} {header : Option String}
    (hsub : ∀ l, hidden l → exposed l)
    (hfree : checkPath file = .ok () → before.Free exposed (before.destination file)) :
    Triple (before.Spares hidden) (manifest.write file header : Build (StateM Workspace) Unit)
      (fun _ d => before.Spares exposed d ∧ ∃ text, manifest.render header = .ok text ∧
        d.entryAt? (before.destination file) = some (.file text.toUTF8))
      (before.Spares hidden) := by
  refine Manifest.triple_write_of (fun _ hd => hd) fun text htext => ?_
  exact (triple_writeAtomic file text hsub hfree).weaken (fun _ hd => hd)
    (fun _ _ hd => ⟨hd.1, text, htext, hd.2⟩) fun _ hd => hd

theorem triple_makeDirectory (dir : Path) :
    Triple (before.Spares exposed) (Environment.makeDirectory dir : Build (StateM Workspace) Unit)
      (fun _ d => before.Spares exposed d ∧ d.Reaches dir) (before.Spares exposed) :=
  triple_adapt (triple_makeDirectories dir)

/-- Activating an environment and releasing it leave the disk to what is done in between. -/
theorem triple_during {α : Type} {post : α → Disk → Prop} {p : Path}
    {body : Build (StateM Workspace) α} (hbody : Triple pre body post failed)
    (hfailed : ∀ d, pre d → failed d) : Triple pre (Activation.during p body) post failed := by
  constructor
  intro w hw
  obtain ⟨disk, active, logged, revisions, exported⟩ := w
  cases active with
  | some current => exact hfailed disk hw
  | none =>
    -- the workspace in which the environment is active has the same disk
    let active : Workspace := ⟨disk, some p, ⟨.debug, s!"activated environment {p}", []⟩ :: logged,
      revisions, exported⟩
    have hrun : Workspace.run ⟨disk, none, logged, revisions, exported⟩ (Activation.during p body) =
        ((active.run body).1,
          ((Activation.release p : StateM Workspace Unit).run (active.run body).2).2) := rfl
    have hbody := hbody.outcome active hw
    rw [hrun]
    rcases hr : active.run body with ⟨_ | a, w₁⟩
    · rw [hr] at hbody
      exact hbody
    · rw [hr] at hbody
      exact hbody

end Writing

namespace Environment

variable {before : Disk} {exposed hidden : Location → Prop} {e : Environment}

def pinsFile (e : Environment) : Path := (e.directory.join ⟨commonInclude⟩).join ⟨"packages.yaml"⟩

section Parts

variable {pre failed : Disk → Prop} {post : Unit → Disk → Prop}

theorem triple_copySite_of (hno : e.site = none → ∀ d, pre d → post () d)
    (hcopy : ∀ site, e.site = some site → Triple pre
      (copyTree (e.layout.siteDir site) (e.directory.join ⟨siteInclude⟩) :
        ExceptT TemplateError (StateM Workspace) Unit) post failed) :
    Triple pre (e.copySite : Build (StateM Workspace) Unit) post failed := by
  rw [copySite]
  cases hsite : e.site with
  | none => exact triple_pure (hno hsite)
  | some site =>
    refine triple_bind (triple_aside (fun _ => rfl) fun _ _ hd => hd) fun _ => ?_
    exact triple_adapt (hcopy site hsite)

/-- The common configuration is copied if it belongs to the environment. -/
theorem triple_copyCommon_of (hno : e.common = false → ∀ d, pre d → post () d)
    (hcopy : e.common = true → Triple pre
      (copyTree e.layout.common (e.directory.join ⟨commonInclude⟩) :
        ExceptT TemplateError (StateM Workspace) Unit) post failed) :
    Triple pre (e.copyCommon : Build (StateM Workspace) Unit) post failed := by
  rw [copyCommon]
  cases hcommon : e.common with
  | false => exact triple_pure (hno hcommon)
  | true =>
    refine triple_bind (triple_aside (fun _ => rfl) fun _ _ hd => hd) fun _ => ?_
    exact triple_adapt (hcopy hcommon)

/-- The pins are copied, if there are any, once there is a directory for them. -/
theorem triple_copyPins_of {made : Disk → Prop}
    (hno : e.basePackages = none → ∀ d, pre d → post () d)
    (hmake : e.basePackages ≠ none → Triple pre
      (makeDirectory (e.directory.join ⟨commonInclude⟩) : Build (StateM Workspace) Unit)
      (fun _ => made) failed)
    (hcopy : ∀ pins, e.basePackages = some pins → Triple made
      (Machine.copyFile pins e.pinsFile : Attempt (StateM Workspace) Unit) post failed) :
    Triple pre (e.copyPins : Build (StateM Workspace) Unit) post failed := by
  rw [copyPins]
  cases hpins : e.basePackages with
  | none => exact triple_pure (hno hpins)
  | some pins =>
    refine triple_bind (hmake (by simp [hpins])) fun _ => ?_
    refine triple_bind (triple_aside (fun _ => rfl) fun _ _ hd => hd) fun _ => ?_
    exact triple_adapt (hcopy pins hpins)

/-- The manifest is written to its file, below the revisions that the source gives. -/
theorem triple_writeManifest_of {revisions : RevisionSource (StateM Workspace)}
    {written : Path → Disk → Prop} (hsource : ∀ checkout, Triple pre (revisions checkout)
      (fun _ => pre) failed)
    (hwrite : ∀ p : Provenance, Gives revisions e.layout p → Triple pre
      (e.composed.write (e.directory.join manifestFile) (some p.header) :
        Build (StateM Workspace) Unit) (fun _ => written (e.directory.join manifestFile)) failed) :
    Triple pre (e.writeManifest revisions) written failed := by
  rw [writeManifest]
  have hlog : Triple pre
      (e.overrides.forM fun o => (Machine.debug o.message : StateM Workspace Unit) :
        Build (StateM Workspace) Unit) (fun _ => pre) failed :=
    triple_forM (I := fun _ => pre)
      (fun _ _ _ => triple_aside (fun _ => rfl) fun _ _ hd => hd) []
  have hcollect : Triple pre (Provenance.collect revisions e.layout) (fun _ => pre) failed := by
    rw [Provenance.collect]
    refine triple_bind (hsource _) fun stack => triple_bind (hsource _) fun spack => ?_
    exact triple_pure fun _ hd => hd
  refine triple_bind hlog fun _ => triple_bind (triple_answered hcollect) fun p => ?_
  refine triple_of_and fun hgiven => triple_bind (hwrite p hgiven) fun _ => ?_
  refine triple_bind (triple_aside (fun _ => rfl) fun _ _ hd => hd) fun _ => ?_
  exact triple_pure fun _ hd => hd

end Parts

/-- The file of the pins, unless it belongs to a copy of the common configuration. -/
def lonePins (e : Environment) : List Path :=
  if e.basePackages.isSome && !e.common then [e.pinsFile] else []

private theorem keeps_copySite (hdir : before.Reaches e.directory)
    (hexposed : ¬exposed (before.destination e.directory ++ [siteInclude])) :
    Keeps (before.Spares exposed) (e.copySite : Build (StateM Workspace) Unit) := by
  refine triple_copySite_of (fun _ _ hd => hd) fun site _ => ?_
  exact (triple_copyTree isMemberName_siteInclude hdir hexposed).weaken (fun _ hd => hd)
    (fun _ _ hd => hd.1) fun _ hd => hd

/-- A copy of the common configuration is put where nothing was. -/
theorem triple_copyCommon (hdir : before.Reaches e.directory)
    (hexposed : ¬exposed (before.destination e.directory ++ [commonInclude])) :
    Triple (before.Spares exposed) (e.copyCommon : Build (StateM Workspace) Unit)
      (fun _ d => before.Spares exposed d ∧ (e.common = true →
        checkPath (e.directory.join ⟨commonInclude⟩) = .ok () →
          before.entryAt? (before.destination e.directory ++ [commonInclude]) = none))
      (before.Spares exposed) := by
  refine triple_copyCommon_of (fun hno _ hd => ⟨hd, fun h => ?_⟩) fun _ => ?_
  · rw [hno] at h
    cases h
  · exact (triple_copyTree isMemberName_commonInclude hdir hexposed).weaken (fun _ hd => hd)
      (fun _ _ hd => ⟨hd.1, fun _ => hd.2⟩) fun _ hd => hd

theorem destination_pinsFile (before : Disk) (e : Environment) :
    before.destination e.pinsFile =
      before.destination e.directory ++ [commonInclude, "packages.yaml"] := by
  rw [pinsFile, destination_join isMemberName_packages.toIsFileName,
    destination_join isMemberName_commonInclude.toIsFileName, List.append_assoc]
  rfl

private theorem checkPath_common (h : checkPath e.pinsFile = .ok ()) :
    checkPath (e.directory.join ⟨commonInclude⟩) = .ok () :=
  checkPath_of_join isMemberName_packages.toIsFileName
    (isEmpty_join isMemberName_commonInclude.toIsFileName) h

private theorem keeps_copyPins
    (hcommon : e.common = true → checkPath (e.directory.join ⟨commonInclude⟩) = .ok () →
      before.entryAt? (before.destination e.directory ++ [commonInclude]) = none)
    (hexposed : ∀ l, before.Replaced e.lonePins l → exposed l) :
    Keeps (before.Spares exposed) (e.copyPins : Build (StateM Workspace) Unit) := by
  refine triple_copyPins_of (fun _ _ hd => hd) (fun _ => (triple_makeDirectory _).weaken
    (fun _ hd => hd) (fun _ _ hd => hd.1) fun _ hd => hd) fun pins hpins => ?_
  refine keeps_copyFile _ _ fun hcheck => ?_
  cases hc : e.common with
  | true =>
    have hnone := hcommon hc (checkPath_common hcheck)
    rw [destination_pinsFile, List.append_cons]
    exact .inr (entryAt?_append_of_absent hnone _)
  | false => exact .inl (hexposed _ ⟨e.pinsFile, by simp [lonePins, hpins, hc], hcheck, rfl⟩)

/-- Whether a text is that of the environment's manifest, below a header of some revisions. -/
def Renders (e : Environment) (text : String) : Prop :=
  ∃ p : Provenance, e.composed.render (some p.header) = .ok text

def Written (e : Environment) (before d : Disk) : Prop :=
  ∃ text, e.Renders text ∧
    d.entryAt? (before.destination (e.directory.join manifestFile)) = some (.file text.toUTF8)

theorem triple_writeManifest {revisions : RevisionSource (StateM Workspace)}
    (hr : SparingSource revisions) (hsub : ∀ l, hidden l → exposed l)
    (hfree : checkPath (e.directory.join manifestFile) = .ok () →
      before.Free exposed (before.destination (e.directory.join manifestFile))) :
    Triple (before.Spares hidden) (e.writeManifest revisions)
      (fun _ d => before.Spares exposed d ∧ e.Written before d) (before.Spares hidden) := by
  refine triple_writeManifest_of (keeps_source hr) fun p _ => ?_
  refine (Manifest.triple_write hsub hfree).weaken (fun _ hd => hd) ?_ fun _ hd => hd
  rintro _ d ⟨hd, text, htext, hfile⟩
  exact ⟨hd, text, ⟨p, htext⟩, hfile⟩

/-- What has been seen of a disk on which an environment can be written. -/
structure Writable (e : Environment) (before : Disk) : Prop where
  not_found : (before.kind e.directory).toOption = none
  site : ∀ site ∈ e.site, (before.kind (e.layout.siteDir site)).toOption = some .directory

theorem triple_check (before : Disk) (e : Environment) :
    Triple (· = before) (e.check : Build (StateM Workspace) Unit)
      (fun _ d => d = before ∧ e.Writable before) (· = before) := by
  rw [check]
  refine triple_bind (triple_pathExists _) fun b => ?_
  cases b with
  | true => exact triple_throw fun _ hd => hd.1
  | false =>
    have hno : ∀ d, d = before ∧ false = (d.kind e.directory).toOption.isSome →
        (before.kind e.directory).toOption = none := by
      rintro d ⟨rfl, h⟩
      exact Option.not_isSome_iff_eq_none.mp (by simp [← h])
    simp only [Bool.false_eq_true, if_false]
    cases hsite : e.site with
    | none => exact triple_pure fun d hd => ⟨hd.1, hno d hd, by simp [hsite]⟩
    | some site =>
      refine triple_bind (triple_isDirectory _) fun b => ?_
      split
      · rename_i hb
        refine triple_pure fun d hd => ⟨hd.1.1, hno d hd.1, ?_⟩
        obtain ⟨⟨rfl, -⟩, hkind⟩ := hd
        rw [hb, eq_comm, beq_iff_eq] at hkind
        simpa [hsite] using hkind
      · exact triple_throw fun d hd => hd.1.1

private theorem eq_of_replaced_lonePins {l : Location} (h : before.Replaced e.lonePins l) :
    l = before.destination e.directory ++ [commonInclude, "packages.yaml"] := by
  obtain ⟨p, hp, -, rfl⟩ := h
  rw [lonePins] at hp
  split at hp
  · rw [List.mem_singleton.mp hp, destination_pinsFile]
  · cases hp

/-- What is built in a new directory is there, and all else on the disk is spared. -/
theorem triple_furnish {revisions : RevisionSource (StateM Workspace)}
    (hr : SparingSource revisions) (hdir : before.Reaches e.directory) :
    Triple (before.Spares (before.Replaced e.lonePins))
      (do e.copySite
          e.copyCommon
          e.copyPins
          Activation.during e.directory (e.writeManifest revisions) : Build (StateM Workspace) Path)
      (fun _ d => before.Spares (before.Replaced (e.directory.join manifestFile :: e.lonePins)) d ∧
        e.Written before d)
      (before.Spares (before.Replaced e.lonePins)) := by
  have hsite : ¬before.Replaced e.lonePins (before.destination e.directory ++ [siteInclude]) :=
    fun h => by simpa using eq_of_replaced_lonePins h
  have hcommon : ¬before.Replaced e.lonePins (before.destination e.directory ++ [commonInclude]) :=
    fun h => by simpa using eq_of_replaced_lonePins h
  refine triple_bind (keeps_copySite hdir hsite) fun _ => ?_
  refine triple_bind (triple_copyCommon hdir hcommon) fun _ => triple_of_and fun hfresh => ?_
  refine triple_bind (keeps_copyPins hfresh fun _ h => h) fun _ => ?_
  refine triple_during (triple_writeManifest hr ?_ fun hcheck => ?_) fun _ hd => hd
  · rintro l ⟨p, hp, hl⟩
    exact ⟨p, List.mem_cons_of_mem _ hp, hl⟩
  · exact .inl ⟨_, List.mem_cons_self, hcheck, rfl⟩

theorem triple_write {revisions : RevisionSource (StateM Workspace)} (hd : before.Sound)
    (hr : SparingSource revisions) :
    Triple (· = before) (e.write revisions)
      (fun _ d => (before.kind e.directory).toOption = none ∧
        before.Spares (before.Replaced (e.directory.join manifestFile :: e.lonePins)) d ∧
        e.Written before d)
      (fun d => d = before ∨ (before.kind e.directory).toOption = none ∧
        before.Spares (before.Replaced e.lonePins) d) := by
  rw [write]
  refine triple_bind ((triple_check before e).weaken (fun _ h => h) (fun _ _ h => h) fun _ h => .inl h)
    fun _ => triple_of_and fun ⟨hno, _⟩ => ?_
  have hmake : Triple (· = before) (makeDirectory e.directory : Build (StateM Workspace) Unit)
      (fun _ d => before.Spares (fun _ => False) d ∧ d.Reaches e.directory)
      (before.Spares fun _ => False) :=
    (triple_makeDirectory _).weaken (by rintro _ rfl; exact Spares.refl hd) (fun _ _ h => h)
      fun _ h => h
  refine triple_bind (hmake.weaken (fun _ h => h) (fun _ _ h => h) fun _ h =>
    .inr ⟨hno, h.mono fun _ h => h.elim⟩) fun _ => triple_of_each fun made hmade => ?_
  have hreplaced := fun ps => replaced_congr ps hmade.1.home
  refine (triple_furnish hr hmade.2).weaken (by rintro _ rfl; exact Spares.refl hmade.1.sound)
    (fun _ d h => ⟨hno, ?_, ?_⟩) fun d h => .inr ⟨hno, ?_⟩
  · rw [hreplaced] at h
    exact (hmade.1.mono fun _ h => h.elim).trans h.1 fun _ h => h
  · rw [Written, ← hmade.1.destination_eq]
    exact h.2
  · rw [hreplaced] at h
    exact (hmade.1.mono fun _ h => h.elim).trans h fun _ h => h

private theorem inside_lonePins : ∀ p ∈ e.lonePins, Inside e.directory p := by
  intro p hp
  rw [lonePins] at hp
  split at hp
  · rw [List.mem_singleton.mp hp]
    exact ⟨commonInclude, ["packages.yaml"], isMemberName_commonInclude.toIsFileName,
      checkPath_common, fun d => destination_pinsFile d e⟩
  · cases hp

private theorem destination_lonePins_ne : ∀ p ∈ e.lonePins,
    before.destination p ≠ before.destination (e.directory.join manifestFile) := by
  intro p hp
  rw [lonePins] at hp
  split at hp
  · rw [List.mem_singleton.mp hp, destination_pinsFile,
      destination_join isMemberName_manifestFile.toIsFileName]
    simp
  · cases hp

theorem writesInto {w : Workspace} (hd : w.disk.Sound) (e : Environment)
    {revisions : RevisionSource (StateM Workspace)} (hr : SparingSource revisions) :
    WritesInto w.disk e.directory e.lonePins e.Renders (w.run (e.write revisions)).1.isOk
      (w.run (e.write revisions)).2.disk := by
  have hwritten := triple_write (e := e) hd hr
  rcases hrun : w.run (e.write revisions) with ⟨_ | file, w'⟩
  · obtain heq | ⟨hno, hspares⟩ := hwritten.of_error rfl hrun
    · exact heq ▸ writesInto_refl _ _ _ _
    · exact hspares.writesInto_of_failed hd inside_lonePins destination_lonePins_ne hno
  · obtain ⟨hno, hspares, text, htext, hfile⟩ := hwritten.of_ok rfl hrun
    exact hspares.writesInto_of_written hd inside_lonePins hno htext hfile

end Environment

end EnvCompose
