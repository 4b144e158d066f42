import EnvCompose.Proofs.Workspace.Fresh
import EnvCompose.Proofs.Workspace.Watching

/-!
# The old file or the new one

A file is written to a temporary one beside it, which then takes its place. Whoever looks at the
disk in the meantime finds the file as it was or with all of its new text, whatever the temporary
file is called and wherever the writing fails.
-/
namespace EnvCompose

/-- Whether the temporary file for a file is called neither as that, in whose place it would be, nor
as anything beside it. -/
def Chance.Fresh (chance : Chance) (d : Disk) (file : Path) : Prop :=
  ∀ names, d.list (d.besides file) = .ok names →
    Disk.IsFresh (chance.nameAmong names) (file.fileName?.toList ++ names)

namespace Disk

variable {before d d' : Disk} {place : Location} {octets : ByteArray} {p file : Path}

/-- Whether all that is new is a file with the octets at a place. -/
structure Renewed (before : Disk) (place : Location) (octets : ByteArray) (d : Disk) : Prop where
  at_place : d.entryAt? place = some (.file octets)
  elsewhere : ∀ l, l ≠ place → d.entryAt? l = before.entryAt? l

/-- Whether there is at a place what was there before or a file with the octets. -/
structure OldOrNew (before : Disk) (place : Location) (octets : ByteArray) (d : Disk) : Prop where
  at_place : d.entryAt? place = before.entryAt? place ∨ d.entryAt? place = some (.file octets)
  /-- All else that was there before is there still. -/
  kept : ∀ l e, l ≠ place → before.entryAt? l = some e → d.entryAt? l = some e
  /-- No more than one thing has been added. -/
  apart : ∃ temporary, ∀ l, l ≠ place → l ≠ temporary → d.entryAt? l = before.entryAt? l

theorem Renewed.oldOrNew (h : before.Renewed place octets d) :
    before.OldOrNew place octets d where
  at_place := .inr h.at_place
  kept _ _ hne hl := (h.elsewhere _ hne).trans hl
  apart := ⟨place, fun _ hne _ => h.elsewhere _ hne⟩

theorem Alters.oldOrNew (h : before.Alters (fun _ _ => False) d) :
    before.OldOrNew place octets d where
  at_place := .inl (h.entryAt?_eq id)
  kept _ _ _ hl := (h.entryAt?_eq id).trans hl
  apart := ⟨place, fun _ _ _ => h.entryAt?_eq id⟩

/-- Whether there can be no file at a path because of the directories that are there. -/
inductive Refuses (d : Disk) (p : Path) : Prop where
  | directory (h : d.entryAt? (d.destination p) = some .directory)
  | parentless (h : p.parent? = none)
  | parent (q : Path) (hq : p.parent? = some q)
      (h : d.entryAt? (d.destination q) ≠ some .directory)

/-- Nothing is moved to where no file can be. -/
theorem not_refuses_of_rename (hd : d.Sound)
    (hfile : d.entryAt? (d.destination p) = some (.file octets))
    (hop : d.rename p file = .ok d') : ¬d.Refuses file := by
  obtain ⟨s, name, -, hfits, hold, -, -⟩ := of_rename hd hfile hop
  obtain ⟨q, hq, hdirectory⟩ := hfits.exists_parent
  intro hrefuses
  cases hrefuses with
  | directory h => exact hold h
  | parentless h =>
    rw [hq] at h
    cases h
  | parent q' hq' h =>
    rw [hq] at hq'
    cases hq'
    exact h hdirectory

end Disk

namespace Workspace
open Disk

variable {before d d' : Disk} {octets : ByteArray} {p file : Path}

/-- What refuses a file refuses it when there is a temporary one as well. -/
theorem Holds.refuses (h : Holds before p octets d) (hrefuses : before.Refuses file) :
    d.Refuses file := by
  cases hrefuses with
  | directory hdirectory =>
    refine .directory ?_
    rw [h.1.destination_eq]
    exact h.1.kept _ _ hdirectory (.inl rfl)
  | parentless hnone => exact .parentless hnone
  | parent q hq hno =>
    refine .parent q hq ?_
    rw [h.1.destination_eq]
    by_cases heq : before.destination q = before.destination p
    · rw [heq, h.2]
      simp
    · rwa [h.1.entryAt?_eq heq]

/-- Whether a path is one of a temporary file that is not in the place of the file it is for. -/
structure Beside (before : Disk) (file p : Path) : Prop extends Temporary before p where
  destination_ne : before.destination p ≠ before.destination file

theorem Beside.oldOrNew (hp : Beside before file p) (h : Holds before p octets d)
    (new : ByteArray) : before.OldOrNew (before.destination file) new d where
  at_place := .inl (h.1.entryAt?_eq (Ne.symm hp.destination_ne))
  kept l e _ hl := by
    have hne : l ≠ before.destination p := fun heq => by
      rw [heq, hp.absent] at hl
      cases hl
    exact (h.1.entryAt?_eq hne).trans hl
  apart := ⟨before.destination p, fun _ _ hne => h.1.entryAt?_eq hne⟩

variable {chance : Chance}

private theorem beside_of_createTemporaryAs (hd : before.Sound) (hfresh : chance.Fresh before file)
    (hop : before.createTemporaryAs chance.nameAmong (file.parent?.getD ⟨"."⟩) = .ok (d, p)) :
    Beside before file p ∧ Holds before p .empty d := by
  have hmembers : ∀ names, before.list (before.besides file) = .ok names →
      IsFresh (chance.nameAmong names) names :=
    fun names hlist => (hfresh names hlist).mono (List.subset_append_right _ _)
  obtain ⟨ht, hheld⟩ := temporary_of_createTemporaryAs hmembers hd hop
  obtain ⟨-, -, -, names, hlist, rfl⟩ := of_createTemporaryAs hmembers hop
  have hname := hfresh names hlist
  refine ⟨⟨ht, ?_⟩, hheld⟩
  rw [destination_join hname.toIsFileName, destination_homePath_join hd]
  refine destination_parent_concat_ne (fun hown => hname.not_mem ?_) hname.toIsFileName
  simp [hown]

private theorem triple_createTemporaryAs (hd : before.Sound) (hfresh : chance.Fresh before file) :
    Triple (· = before) (act (·.createTemporaryAs chance.nameAmong (file.parent?.getD ⟨"."⟩)))
      (fun p d => Holds before p .empty d ∧ Beside before file p)
      (before.Alters fun _ _ => False) := by
  refine triple_act (fun d d' p heq hop => ?_) (by rintro _ rfl; exact Alters.refl hd)
  subst heq
  exact (beside_of_createTemporaryAs hd hfresh hop).symm

/-- A temporary file is moved to the place of the file it is for, if a file can be there. -/
theorem triple_rename_temporary (ht : Temporary before p) :
    Triple (Holds before p octets) (Machine.rename p file : Attempt (StateM Workspace) Unit)
      (fun _ d => before.Renewed (before.destination file) octets d ∧ ¬before.Refuses file)
      (HoldsAny before p) := by
  refine triple_change (fun d d' h hop => ?_) fun _ h => ⟨_, h⟩
  obtain ⟨halters, hself, -⟩ := h.rename ht hop
  refine ⟨⟨hself, fun l hne => halters.entryAt?_eq hne⟩, fun hrefuses => ?_⟩
  have hfile := h.2
  rw [← h.1.destination_eq] at hfile
  exact not_refuses_of_rename h.1.sound hfile hop (h.refuses hrefuses)

end Workspace

namespace Watched
open Disk Workspace

variable {chance : Chance} {before : Disk} {file p : Path}

/-- While a temporary file is filled and moved, what is in the place of the file it is for is what
was there or has all of the octets. -/
private theorem passage_fill (hp : Beside before file p) (octets : ByteArray) :
    Passage (before.OldOrNew (before.destination file) octets) (Holds before p .empty)
      (do Machine.writeFile p octets
          Machine.sync p
          Machine.rename p file : Attempt (StateM (Watched chance)) Unit)
      (fun _ d => before.Renewed (before.destination file) octets d ∧ ¬before.Refuses file)
      (HoldsAny before p) := by
  have hheld (d : Disk) (h : HoldsAny before p d) :
      before.OldOrNew (before.destination file) octets d :=
    h.elim fun _ h => hp.oldOrNew h octets
  have hnothing (old : ByteArray) : Triple (Holds before p old)
      (pure () : Attempt (StateM Workspace) Unit) (fun _ => HoldsAny before p)
      (HoldsAny before p) :=
    triple_pure fun _ h => ⟨_, h⟩
  have htorn : Triple (Holds before p .empty)
      (Machine.writeFile p (chance.torn octets) : Attempt (StateM Workspace) Unit)
      (fun _ => HoldsAny before p) (HoldsAny before p) :=
    (triple_writeFile_temporary _ _).weaken (fun _ h => h) (fun _ _ h => ⟨_, h⟩) fun _ h => h
  refine passage_bind (passage_perform (triple_writeFile_temporary _ octets) htorn
    (fun _ d h => hheld d ⟨_, h⟩) hheld) fun _ => ?_
  refine passage_bind (passage_perform (triple_sync_temporary octets) (hnothing octets)
    (fun _ d h => hheld d ⟨_, h⟩) hheld) fun _ => ?_
  exact passage_perform (triple_rename_temporary hp.toTemporary) (hnothing octets)
    (fun _ _ h => h.1.oldOrNew) hheld

theorem passage_writeAtomic (hd : before.Sound) (hfresh : chance.Fresh before file)
    (text : String) :
    Passage (before.OldOrNew (before.destination file) text.toUTF8) (· = before)
      (writeAtomic file text : Build (StateM (Watched chance)) Unit)
      (fun _ d => before.Renewed (before.destination file) text.toUTF8 d ∧ ¬before.Refuses file)
      (before.Alters fun _ _ => False) := by
  have hnothing : Triple (· = before) (pure () : Attempt (StateM Workspace) Unit)
      (fun _ => before.Alters fun _ _ => False) (before.Alters fun _ _ => False) :=
    triple_pure (by rintro _ rfl; exact Alters.refl hd)
  rw [writeAtomic]
  refine passage_adapt (passage_bind (passage_perform (triple_createTemporaryAs hd hfresh) hnothing
    (fun _ _ h => h.2.oldOrNew h.1 _) fun _ h => h.oldOrNew) fun p => passage_of_and fun hp => ?_)
  refine passage_tryCatch (passage_fill hp text.toUTF8) fun e => ?_
  have hremove : Passage (before.OldOrNew (before.destination file) text.toUTF8)
      (HoldsAny before p) (Machine.remove p : Attempt (StateM (Watched chance)) Unit)
      (fun _ => before.Alters fun _ _ => False) (before.Alters fun _ _ => False) :=
    passage_observe (triple_remove_temporary hp.toTemporary) (fun _ _ h => h.oldOrNew)
      fun _ h => h.oldOrNew
  refine passage_bind (passage_tryCatch hremove fun _ => passage_pure fun _ h => h) fun _ => ?_
  exact passage_throw fun _ h => h

/-- The run of a workspace is the watched one in which nothing happens by chance. -/
theorem mirrors_writeAtomic (file : Path) (text : String) :
    Mirrors (writeAtomic file text : Build (StateM (Watched .plain)) Unit)
      (writeAtomic file text) := by
  rw [writeAtomic, writeAtomic]
  refine mirrors_adapt (mirrors_bind (mirrors_perform _ _) fun p => ?_)
  have hbody : Mirrors
      (do Machine.writeFile p text.toUTF8
          Machine.sync p
          Machine.rename p file : Attempt (StateM (Watched .plain)) Unit)
      (do Machine.writeFile p text.toUTF8
          Machine.sync p
          Machine.rename p file) :=
    mirrors_bind (mirrors_perform _ _) fun _ => mirrors_bind (mirrors_perform _ _) fun _ =>
      mirrors_perform _ _
  refine mirrors_tryCatch hbody fun e => ?_
  exact mirrors_bind (mirrors_tryCatch (mirrors_observe _) fun _ => mirrors_pure ()) fun _ =>
    mirrors_throw e

/-- After every operation there is at the place of a file what was there before or a file with the
new text. All of it has been written if that succeeds, and then nothing else is altered. If it
fails, nothing is, and it fails where there can be no file. -/
theorem writeAtomic_all_or_nothing {w : Workspace} (hd : w.disk.Sound)
    (hfresh : chance.Fresh w.disk file) (text : String) :
    let place := w.disk.destination file
    let ended := runFrom (⟨w, []⟩ : Watched chance) (writeAtomic file text)
    (∀ d ∈ ended.2.seen, w.disk.OldOrNew place text.toUTF8 d) ∧
      (ended.1.isOk = true → w.disk.Renewed place text.toUTF8 ended.2.workspace.disk) ∧
      (ended.1.isOk = false → ∀ l, ended.2.workspace.disk.entryAt? l = w.disk.entryAt? l) ∧
      (w.disk.Refuses file → ended.1.isOk = false) := by
  have h := (passage_writeAtomic hd hfresh text).outcome ⟨w, []⟩ ⟨rfl, by simp⟩
  dsimp only
  rcases hrun : runFrom (⟨w, []⟩ : Watched chance) (writeAtomic file text) with ⟨e | u, s⟩
  · rw [hrun] at h
    obtain ⟨hunaltered, hseen⟩ := h
    exact ⟨hseen, nofun, fun _ l => hunaltered.entryAt?_eq id, fun _ => rfl⟩
  · rw [hrun] at h
    obtain ⟨⟨hrenewed, hfree⟩, hseen⟩ := h
    exact ⟨hseen, fun _ => hrenewed, nofun, fun hrefuses => (hfree hrefuses).elim⟩

section Witness

/-- A file that is not named as a temporary one can be written by way of any of these. -/
theorem fresh_of_fileName? {d : Disk} (hname : chance.nameAmong = freshName)
    (hfile : ∀ n, file.fileName? ≠ some (temporaryName n)) : chance.Fresh d file := by
  intro names _
  obtain ⟨n, hn, hmem⟩ := exists_temporaryName_not_mem names
  rw [hname, hn]
  refine ⟨isFileName_temporaryName n, ?_⟩
  rw [List.mem_append, Option.mem_toList, not_or]
  exact ⟨hfile n, hmem⟩

private theorem temporaryName_ne {name : String} (h : name.toList.head? ≠ some '.') (n : Nat) :
    some name ≠ some (temporaryName n) := by
  intro heq
  rw [Option.some_inj.mp heq, toList_temporaryName] at h
  exact h rfl

/-- A workspace with a file, and a directory with another, where paths start. -/
def fileAndDirectory : Workspace where
  disk := { root := .directory [("work", .directory [
    ("folder", .directory [("leaf", .file "blue".toUTF8)]),
    ("note", .file "old".toUTF8)])], home := ["work"] }

/-- The operation after so many fails. Half of the octets are written then. -/
def failingAfter (n : Nat) : Chance where
  nameAmong := freshName
  failure? k := if k = n then some (.other "No space left on device (os error 28)") else none
  torn octets := octets.extract 0 (octets.size / 2)

def rewritten (chance : Chance) : Except BuildError Unit × Watched chance :=
  runFrom (⟨fileAndDirectory, []⟩ : Watched chance) (writeAtomic ⟨"note"⟩ "new")

private theorem sound_fileAndDirectory : fileAndDirectory.disk.Sound where
  names := by
    refine names_of_members (List.forall_mem_singleton.mpr ⟨by decide, names_of_members ?_⟩)
    refine List.forall_mem_cons.mpr ⟨⟨by decide, names_of_members ?_⟩, ?_⟩ <;>
    exact List.forall_mem_singleton.mpr ⟨by decide, names_of_file _⟩
  home := by decide +kernel

/-- The file is written anew where nothing fails, stays where the temporary one cannot be moved, and
is not put in the place of a directory. -/
theorem writeAtomic_all_or_nothing_fileAndDirectory : fileAndDirectory.disk.Sound ∧
    Chance.plain.Fresh fileAndDirectory.disk ⟨"note"⟩ ∧
    (failingAfter 3).Fresh fileAndDirectory.disk ⟨"note"⟩ ∧
    Chance.plain.Fresh fileAndDirectory.disk ⟨"folder"⟩ ∧
    fileAndDirectory.disk.Refuses ⟨"folder"⟩ ∧
    ((rewritten .plain).2.seen.length = 4 ∧
      (∀ d ∈ (rewritten .plain).2.seen,
        fileAndDirectory.disk.OldOrNew ["work", "note"] "new".toUTF8 d) ∧
      fileAndDirectory.disk.Renewed ["work", "note"] "new".toUTF8
        (rewritten .plain).2.workspace.disk) ∧
    ((rewritten (failingAfter 3)).2.seen.length = 5 ∧
      (∀ d ∈ (rewritten (failingAfter 3)).2.seen,
        fileAndDirectory.disk.OldOrNew ["work", "note"] "new".toUTF8 d) ∧
      ∀ l, (rewritten (failingAfter 3)).2.workspace.disk.entryAt? l =
        fileAndDirectory.disk.entryAt? l) ∧
    (runFrom (⟨fileAndDirectory, []⟩ : Watched .plain)
      (writeAtomic ⟨"folder"⟩ "new")).1.isOk = false := by
  have hnote (chance : Chance) (hname : chance.nameAmong = freshName) :
      chance.Fresh fileAndDirectory.disk ⟨"note"⟩ :=
    fresh_of_fileName? hname (temporaryName_ne (by decide))
  have hfolder : Chance.plain.Fresh fileAndDirectory.disk ⟨"folder"⟩ :=
    fresh_of_fileName? rfl (temporaryName_ne (by decide))
  have hrefuses : fileAndDirectory.disk.Refuses ⟨"folder"⟩ := .directory (by decide +kernel)
  have hplace : fileAndDirectory.disk.destination ⟨"note"⟩ = ["work", "note"] := by decide +kernel
  obtain ⟨hseen, hwritten, -, -⟩ :=
    writeAtomic_all_or_nothing sound_fileAndDirectory (hnote .plain rfl) "new"
  obtain ⟨hseen', -, hfailed, -⟩ :=
    writeAtomic_all_or_nothing sound_fileAndDirectory (hnote (failingAfter 3) rfl) "new"
  obtain ⟨-, -, -, hrefused⟩ := writeAtomic_all_or_nothing sound_fileAndDirectory hfolder "new"
  rw [hplace] at hseen hwritten hseen'
  exact ⟨sound_fileAndDirectory, hnote _ rfl, hnote _ rfl, hfolder, hrefuses,
    ⟨by decide +kernel, hseen, hwritten (by decide +kernel)⟩,
    ⟨by decide +kernel, hseen', hfailed (by decide +kernel)⟩, hrefused hrefuses⟩

/-- The old file is there until the last operation. -/
example : (rewritten .plain).2.seen.map (·.entryAt? ["work", "note"]) =
    [some (.file "new".toUTF8), some (.file "old".toUTF8), some (.file "old".toUTF8),
      some (.file "old".toUTF8)] := by decide +kernel

end Witness

end Watched
end EnvCompose
