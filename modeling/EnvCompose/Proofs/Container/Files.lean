import EnvCompose.Proofs.Container.Layers
import EnvCompose.Proofs.Environment.Files

/-!
# The file a container is written to

A container's manifest is composed from files that are only read, and written to a directory as that
of an environment is.
-/
namespace EnvCompose.Container
open Disk Workspace

variable {before : Disk} {c : Container}

section Reading

variable {kept : Disk → Prop}

private theorem keeps_readText (file : Path) :
    Keeps kept (Machine.readText file : Attempt (StateM Workspace) String) :=
  keeps_of_run fun w => by rw [run_readText]

private theorem keeps_load (file : Path) :
    Keeps kept (Manifest.load file : Build (StateM Workspace) Manifest) := by
  rw [Manifest.load]
  refine triple_bind (triple_adapt (keeps_readText file)) fun text => ?_
  exact triple_answer (fun _ _ _ hd => hd) fun _ hd => hd

private theorem keeps_loadPackages (pins : Path) :
    Keeps kept (loadPackages pins : Build (StateM Workspace) Yaml.Value) := by
  have hunmarked : Keeps kept (loadUnmarked pins : Build (StateM Workspace) Yaml.Value) := by
    rw [loadUnmarked]
    refine triple_bind (triple_adapt (keeps_readText pins)) fun text => ?_
    split
    · exact triple_throw fun _ hd => hd
    · exact triple_pure fun _ hd => hd
  rw [loadPackages]
  refine triple_bind hunmarked fun doc => ?_
  split
  · exact triple_bind (keeps_debug _) fun _ => triple_pure fun _ hd => hd
  · exact triple_throw fun _ hd => hd

theorem keeps_compose (c : Container) :
    Keeps kept (c.compose : Build (StateM Workspace) Manifest) := by
  rw [compose]
  refine triple_bind (triple_adapt (keeps_of_run fun w => by rw [run_templateRead])) fun text => ?_
  refine triple_bind (triple_answer (fun _ _ _ hd => hd) fun _ hd => hd) fun template => ?_
  refine triple_bind (keeps_load _) fun definition => ?_
  have hpackages : Keeps kept (c.basePackages.mapM loadPackages :
      Build (StateM Workspace) (Option Yaml.Value)) := by
    cases c.basePackages with
    | none => exact triple_pure fun _ hd => hd
    | some pins => exact triple_bind (keeps_loadPackages pins) fun _ => triple_pure fun _ hd => hd
  exact triple_bind hpackages fun packages => triple_pure fun _ hd => hd

end Reading

def Renders (c : Container) (w : Workspace) (text : String) : Prop :=
  ∃ m : Manifest, (w.run c.compose).1 = .ok m ∧ m.render none = .ok text

/-- What is left to do with a manifest that has been composed. -/
def writeComposed (c : Container) (manifest : Manifest) : Build (StateM Workspace) Path := do
  Environment.makeDirectory c.directory
  let file := c.directory.join manifestFile
  manifest.write file none
  (Machine.info s!"successfully wrote container manifest at {file}" : StateM Workspace Unit)
  return file

theorem run_write (w : Workspace) (c : Container) :
    w.run c.write = if (w.disk.kind c.directory).toOption.isSome then
        (.error (.alreadyExists c.directory), w)
      else w.run (c.compose >>= c.writeComposed) := by
  have hexists : (Machine.pathExists c.directory : StateM Workspace Bool) w =
      ((w.disk.kind c.directory).toOption.isSome, w) := rfl
  rw [write, run_bind, run_lift, hexists]
  cases (w.disk.kind c.directory).toOption.isSome <;> rfl

/-- The manifest is written once there is a directory for it. -/
theorem triple_writeComposed_of {c : Container} {manifest : Manifest}
    {pre made written failed : Disk → Prop} {post : Path → Disk → Prop}
    (hmake : Triple pre (Environment.makeDirectory c.directory : Build (StateM Workspace) Unit)
      (fun _ => made) failed)
    (hwrite : Triple made
      (manifest.write (c.directory.join manifestFile) none : Build (StateM Workspace) Unit)
      (fun _ => written) failed)
    (hpost : ∀ d, written d → post (c.directory.join manifestFile) d) :
    Triple pre (c.writeComposed manifest) post failed := by
  rw [writeComposed]
  refine triple_bind hmake fun _ => triple_bind hwrite fun _ => ?_
  exact triple_bind (triple_aside (fun _ => rfl) fun _ _ h => h) fun _ => triple_pure hpost

theorem triple_writeComposed (hd : before.Sound) (c : Container) (manifest : Manifest) :
    Triple (· = before) (c.writeComposed manifest)
      (fun _ d => before.Spares (before.Replaced [c.directory.join manifestFile]) d ∧
        ∃ text, manifest.render none = .ok text ∧
          d.entryAt? (before.destination (c.directory.join manifestFile)) =
            some (.file text.toUTF8))
      (before.Spares (before.Replaced [])) := by
  have hmake : Triple (· = before)
      (Environment.makeDirectory c.directory : Build (StateM Workspace) Unit)
      (fun _ => before.Spares (before.Replaced [])) (before.Spares (before.Replaced [])) :=
    (EnvCompose.triple_makeDirectory _).weaken (by rintro _ rfl; exact Spares.refl hd)
      (fun _ _ h => h.1) fun _ h => h
  have hsub : ∀ l, before.Replaced [] l → before.Replaced [c.directory.join manifestFile] l := by
    rintro l ⟨p, hp, -⟩
    cases hp
  have hfree : checkPath (c.directory.join manifestFile) = .ok () →
      before.Free (before.Replaced [c.directory.join manifestFile])
        (before.destination (c.directory.join manifestFile)) :=
    fun hcheck => .inl ⟨_, List.mem_cons_self, hcheck, rfl⟩
  exact triple_writeComposed_of hmake (Manifest.triple_write hsub hfree) fun _ h => h

theorem writesInto {w : Workspace} (hd : w.disk.Sound) (c : Container) :
    WritesInto w.disk c.directory [] (c.Renders w) (w.run c.write).1.isOk
      (w.run c.write).2.disk := by
  rw [run_write]
  cases hno : (w.disk.kind c.directory).toOption.isSome with
  | true => exact writesInto_refl _ _ _ _
  | false =>
    have hdisk : (w.run c.compose).2.disk = w.disk :=
      run_of_keeps (keeps_compose c : Keeps (· = w.disk) _) rfl
    rw [if_neg Bool.false_ne_true, run_bind]
    rcases hcompose : w.run c.compose with ⟨e | m, w₁⟩
    · rw [hcompose] at hdisk
      change WritesInto w.disk c.directory [] (c.Renders w) false w₁.disk
      exact hdisk ▸ writesInto_refl _ _ _ _
    · rw [hcompose] at hdisk
      have hwritten := triple_writeComposed hd c m
      have hnone : (w.disk.kind c.directory).toOption = none := by simpa using hno
      dsimp only
      rcases hrun : w₁.run (c.writeComposed m) with ⟨_ | file, w'⟩
      · exact (hwritten.of_error hdisk hrun).writesInto_of_failed hd (by simp) (by simp) hnone
      · obtain ⟨hspares, text, htext, hfile⟩ := hwritten.of_ok hdisk hrun
        have hrenders : c.Renders w text := ⟨m, by rw [hcompose], htext⟩
        exact hspares.writesInto_of_written hd (by simp) hnone hrenders hfile

end EnvCompose.Container

namespace EnvCompose
open Disk Workspace

/-- Both writers keep every file but those they write, and lose one of these only in a directory
that was there although a look at its path, which is empty or leads up, did not find it. The file
of the manifest is overwritten by a writer that succeeds and left by one that fails. -/
theorem writers_write_into {w : Workspace} (hd : w.disk.Sound) (e : Environment)
    {revisions : RevisionSource (StateM Workspace)} (hr : SparingSource revisions) (c : Container) :
    WritesInto w.disk e.directory e.lonePins e.Renders (w.run (e.write revisions)).1.isOk
        (w.run (e.write revisions)).2.disk ∧
      WritesInto w.disk c.directory [] (c.Renders w) (w.run c.write).1.isOk
        (w.run c.write).2.disk :=
  ⟨e.writesInto hd hr, c.writesInto hd⟩

section Witness

/-- A checkout in which there is one environment, `old`. -/
def checkoutWithOld : Workspace where
  disk := { root := .directory [("stack", .directory [
    (".spackstack", .file .empty),
    ("box.yaml", .file "spack:\n  container:\n    format: docker\n".toUTF8),
    ("envs", .directory [("old", .directory [
      ("spack.yaml", .file "spack:\n  view: true\n".toUTF8)])])])], home := ["stack"] }

/-- An environment whose directory is that of the one that is there, by way of one that is not. -/
def oldByWayOfNew : Environment :=
  .ofTemplate (.ofRoot ⟨"/stack"⟩) { name := some "new/../old", noCommon := true }
    ⟨"empty", .builtIn "spack:\n  view: false\n"⟩ ⟨[(.str "view", .bool false)], []⟩

def boxContainer : Container where
  definition := ⟨"/stack/box.yaml"⟩
  template := ⟨"empty", .builtIn "spack:\n  view: false\n"⟩
  name := "empty.box"
  dir := ⟨"envs"⟩
  basePackages := none

theorem sound_checkoutWithOld : checkoutWithOld.disk.Sound where
  names := by
    refine names_of_members (List.forall_mem_singleton.mpr ⟨by decide, names_of_members ?_⟩)
    refine List.forall_mem_cons.mpr ⟨⟨by decide, names_of_file _⟩, ?_⟩
    refine List.forall_mem_cons.mpr ⟨⟨by decide, names_of_file _⟩, ?_⟩
    refine List.forall_mem_singleton.mpr ⟨by decide, names_of_members ?_⟩
    refine List.forall_mem_singleton.mpr ⟨by decide, names_of_members ?_⟩
    exact List.forall_mem_singleton.mpr ⟨by decide, names_of_file _⟩
  home := by decide +kernel

theorem writers_write_into_checkoutWithOld : checkoutWithOld.disk.Sound ∧
    SparingSource (fixedRevision "abc1234") ∧
      WritesInto checkoutWithOld.disk oldByWayOfNew.directory [] oldByWayOfNew.Renders true
        (checkoutWithOld.run (oldByWayOfNew.write (fixedRevision "abc1234"))).2.disk ∧
      WritesInto checkoutWithOld.disk boxContainer.directory []
        (boxContainer.Renders checkoutWithOld) true
        (checkoutWithOld.run boxContainer.write).2.disk := by
  have hr := sparingSource_fixedRevision "abc1234"
  have h := writers_write_into sound_checkoutWithOld oldByWayOfNew hr boxContainer
  have henvironment :
      (checkoutWithOld.run (oldByWayOfNew.write (fixedRevision "abc1234"))).1.isOk = true := by
    decide +kernel
  have hcontainer : (checkoutWithOld.run boxContainer.write).1.isOk = true := by decide +kernel
  rw [henvironment, hcontainer] at h
  exact ⟨sound_checkoutWithOld, hr, h⟩

/-- The environment written by way of a missing directory takes the place of `old`. -/
theorem write_loses_file : ¬checkoutWithOld.disk.KeepsFiles
    (checkoutWithOld.run (oldByWayOfNew.write (fixedRevision "abc1234"))).2.disk := by
  intro h
  have hbefore : checkoutWithOld.disk.entryAt? ["stack", "envs", "old", "spack.yaml"] =
      some (.file "spack:\n  view: true\n".toUTF8) := by decide +kernel
  have hafter := h _ _ hbefore
  revert hafter
  decide +kernel

end Witness

end EnvCompose
