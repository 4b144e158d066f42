import EnvCompose.Proofs.Container.Files
import EnvCompose.Proofs.Environment.Contents

/-!
# What writing a container leaves

A container is composed before anything is made. If its manifest cannot be written in the end, the
directories made for it are all that is left, and if it can, it is alone in its directory.
-/
namespace EnvCompose.Container
open Disk Workspace

variable {before : Disk}

/-- What the directory of a container holds, with a text in the file of the manifest. -/
def contents (text : String) (name : String) : Location → Option Entry :=
  if name = manifestFile.text then leaf text.toUTF8 else fun _ => none

theorem update_contents (text : String) :
    Function.update (fun _ _ => none) manifestFile.text (leaf text.toUTF8) = contents text := by
  funext name
  rw [contents, Function.update_apply]

/-- The manifest is put into a directory that has been made for it, or nothing is. -/
theorem triple_writeComposed_furnished (hd : before.Sound) {c : Container}
    (hne : c.directory.isEmpty = false) (hup : ".." ∉ stepsOf c.directory)
    (hno : (before.kind c.directory).toOption = none) (manifest : Manifest) :
    Triple (· = before) (c.writeComposed manifest)
      (fun file d => file = c.directory.join manifestFile ∧
        ∃ text, manifest.render none = .ok text ∧ Furnished before c.directory (contents text) d)
      (before.Alters (before.MadeTo (before.destination c.directory))) := by
  have hn := isMemberName_manifestFile.toIsFileName
  have hwrite : Triple
      (fun d => before.Alters (before.MadeTo (before.destination c.directory)) d ∧
        d.Reaches c.directory)
      (manifest.write (c.directory.join manifestFile) none : Build (StateM Workspace) Unit)
      (fun _ d => ∃ text, manifest.render none = .ok text ∧
        Furnished before c.directory (contents text) d)
      (before.Alters (before.MadeTo (before.destination c.directory))) := by
    refine triple_of_each fun d ⟨hmade, hreaches⟩ => ?_
    refine (Manifest.triple_write_altering hmade.sound).weaken (fun _ h => h) (fun _ d' h => ?_)
      fun _ h => hmade.trans (h.mono fun _ _ => False.elim)
    obtain ⟨text, htext, halters, hfile, hcheck⟩ := h
    have hempty := Furnished.of_made hd hup (checkPath_of_join hn hne hcheck) hno hmade hreaches
    have hdone := hempty.put_file hn halters hfile
    rw [update_contents] at hdone
    exact ⟨text, htext, hdone⟩
  exact triple_writeComposed_of (Environment.triple_makeDirectory_made hd hup) hwrite
    fun _ h => ⟨rfl, h⟩

/-- A container that is there or cannot be composed is not written, and nothing is done. -/
theorem run_write_of_refused {w : Workspace} {c : Container}
    (h : (w.disk.kind c.directory).toOption.isSome = true ∨ (w.run c.compose).1.isOk = false) :
    (w.run c.write).1.isOk = false ∧ (w.run c.write).2.disk = w.disk := by
  rw [run_write]
  cases hno : (w.disk.kind c.directory).toOption.isSome with
  | true => exact ⟨rfl, rfl⟩
  | false =>
    have hcompose := h.resolve_left (by simp [hno])
    have hdisk : (w.run c.compose).2.disk = w.disk :=
      run_of_keeps (keeps_compose c : Keeps (· = w.disk) _) rfl
    rw [if_neg Bool.false_ne_true, run_bind]
    rcases hrun : w.run c.compose with ⟨e | m, w₁⟩
    · rw [hrun] at hdisk
      exact ⟨rfl, hdisk⟩
    · rw [hrun] at hcompose
      cases hcompose

/-- Of a container that can be composed where nothing is found, the manifest is what is written. -/
theorem run_write_of_composed {w : Workspace} {c : Container}
    (hno : (w.disk.kind c.directory).toOption = none) (h : (w.run c.compose).1.isOk = true) :
    ∃ m w₁, w.run c.compose = (.ok m, w₁) ∧ w₁.disk = w.disk ∧
      w.run c.write = w₁.run (c.writeComposed m) := by
  obtain ⟨m, w₁, hrun⟩ := exists_run_eq_ok h
  have hdisk : (w.run c.compose).2.disk = w.disk :=
    run_of_keeps (keeps_compose c : Keeps (· = w.disk) _) rfl
  rw [hrun] at hdisk
  refine ⟨m, w₁, hrun, hdisk, ?_⟩
  rw [run_write, hno, if_neg (by simp), run_bind, hrun]

/-- A container that is not written leaves directories on the way to its own at most, and not even
these if it was there or could not be composed. One that is written is in a new directory with its
manifest alone, and elsewhere directories are made on the way to it, and that is all. -/
theorem write_leaves_directories {w : Workspace} (hd : w.disk.Sound) {c : Container}
    (hne : c.directory.isEmpty = false) (hup : ".." ∉ stepsOf c.directory) :
    (∀ e w', w.run c.write = (.error e, w') →
      (((w.disk.kind c.directory).toOption.isSome = true ∨ (w.run c.compose).1.isOk = false) →
        w'.disk = w.disk) ∧
      ∀ l, w'.disk.entryAt? l = w.disk.entryAt? l ∨
        l <+: w.disk.destination c.directory ∧ w.disk.entryAt? l = none ∧
          w'.disk.entryAt? l = some .directory) ∧
    ∀ file w', w.run c.write = (.ok file, w') →
      file = c.directory.join manifestFile ∧
      w.disk.entryAt? (w.disk.destination c.directory) = none ∧
      w'.disk.entryAt? (w.disk.destination c.directory) = some .directory ∧
      (∃ text, c.Renders w text ∧ ∀ name rest,
        w'.disk.entryAt? (w.disk.destination c.directory ++ name :: rest) =
          contents text name rest) ∧
      ∀ l, ¬w.disk.destination c.directory <+: l → w'.disk.entryAt? l = w.disk.entryAt? l ∨
        l <+: w.disk.destination c.directory ∧ w.disk.entryAt? l = none ∧
          w'.disk.entryAt? l = some .directory := by
  by_cases hrefused : (w.disk.kind c.directory).toOption.isSome = true ∨
      (w.run c.compose).1.isOk = false
  · obtain ⟨hfails, hdisk⟩ := run_write_of_refused hrefused
    refine ⟨fun e w' h => ?_, fun file w' h => ?_⟩
    · rw [h] at hdisk
      exact ⟨fun _ => hdisk, fun l => .inl (congrArg (·.entryAt? l) hdisk)⟩
    · rw [h] at hfails
      cases hfails
  · obtain ⟨hno, hcompose⟩ := not_or.mp hrefused
    have hno : (w.disk.kind c.directory).toOption = none := by simpa using hno
    obtain ⟨m, w₁, hrun, hdisk, hwrite⟩ := run_write_of_composed hno (by simpa using hcompose)
    have houtcome := (triple_writeComposed_furnished hd hne hup hno m).outcome w₁ hdisk
    rw [← hwrite] at houtcome
    refine ⟨fun e w' h => ?_, fun file w' h => ?_⟩
    · rw [h] at houtcome
      exact ⟨fun hyes => (hrefused hyes).elim, fun l => (em _).imp_right (houtcome.allows l)⟩
    · rw [h] at houtcome
      obtain ⟨hfile, text, htext, hdone⟩ := houtcome
      refine ⟨hfile, hdone.absent, hdone.directory, ⟨text, ⟨m, by rw [hrun], htext⟩, ?_⟩,
        fun l hl => hdone.outside hl⟩
      intro name rest
      rw [List.append_cons]
      exact congrFun (hdone.holds name) rest

section Witness

/-- A container whose directory cannot be made, since its path ends in a point, but the one around
it can. -/
def boxEndingInPoint : Container := { boxContainer with name := "new/box/." }

theorem write_leaves_directories_checkoutWithOld : checkoutWithOld.disk.Sound ∧
    (∃ file w', checkoutWithOld.run boxContainer.write = (.ok file, w') ∧
      w'.disk.entryAt? ["stack", "envs", "empty.box", "spack.yaml"] ≠ none ∧
      w'.disk.entryAt? ["stack", "envs", "empty.box", temporaryName 0] = none) ∧
    ∃ e w', checkoutWithOld.run boxEndingInPoint.write = (.error e, w') ∧
      w'.disk.entryAt? ["stack", "envs", "new"] = some .directory ∧
      w'.disk.entryAt? ["stack", "envs", "old", "spack.yaml"] =
        some (.file "spack:\n  view: true\n".toUTF8) := by
  refine ⟨sound_checkoutWithOld, ?_, ?_⟩
  · obtain ⟨file, w', h⟩ := exists_run_eq_ok
      (by decide +kernel : (checkoutWithOld.run boxContainer.write).1.isOk = true)
    have hplace : checkoutWithOld.disk.destination boxContainer.directory =
        ["stack", "envs", "empty.box"] := by
      decide +kernel
    obtain ⟨-, -, -, ⟨text, -, hholds⟩, -⟩ := (write_leaves_directories sound_checkoutWithOld
      (by decide +kernel) (by decide +kernel)).2 file w' h
    rw [hplace] at hholds
    refine ⟨file, w', h, ?_, ?_⟩
    · refine ne_of_eq_of_ne (hholds manifestFile.text []) ?_
      simp [contents, leaf]
    · refine (hholds (temporaryName 0) []).trans ?_
      rw [contents, if_neg (by decide +kernel)]
  · have hrun : (checkoutWithOld.run boxEndingInPoint.write).1.isOk = false ∧
        (checkoutWithOld.run boxEndingInPoint.write).2.disk.entryAt? ["stack", "envs", "new"] =
          some .directory := by
      decide +kernel
    have hold : checkoutWithOld.disk.entryAt? ["stack", "envs", "old", "spack.yaml"] =
        some (.file "spack:\n  view: true\n".toUTF8) := by
      decide +kernel
    rcases h : checkoutWithOld.run boxEndingInPoint.write with ⟨e | file, w'⟩
    · rw [h] at hrun
      have hkept := ((write_leaves_directories sound_checkoutWithOld (by decide +kernel)
        (by decide +kernel)).1 e w' h).2 ["stack", "envs", "old", "spack.yaml"]
      refine ⟨e, w', rfl, hrun.2, ?_⟩
      obtain hsame | ⟨-, hnone, -⟩ := hkept
      · exact hsame.trans hold
      · rw [hold] at hnone
        cases hnone
    · rw [h] at hrun
      cases hrun.1

end Witness

end EnvCompose.Container
