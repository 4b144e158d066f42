import EnvCompose.Proofs.Disk.Sparing
import EnvCompose.Template.Basic

/-!
# What is overwritten

A writer looks whether anything is at the path of a directory, makes the directory and puts files
into it. All other files are kept. A file in the directory is overwritten only if the directory was
there although nothing was found at its path, which needs an empty path or a step up.
-/
namespace EnvCompose

/-- Whether a path may lead to a directory, once it is made, that was there and not found at it. -/
def Path.Strays (p : Path) : Prop := p.isEmpty = true ∨ ".." ∈ Disk.stepsOf p

namespace Disk

/-- Whether a file that was at a place is still there with its content. -/
def KeepsFile (before after : Disk) (l : Location) : Prop :=
  ∀ octets, before.entryAt? l = some (.file octets) → after.entryAt? l = some (.file octets)

def KeepsFiles (before after : Disk) : Prop := ∀ l, before.KeepsFile after l

/-- The places of files that are written without a look at what is there. -/
def Replaced (before : Disk) (files : List Path) (l : Location) : Prop :=
  ∃ p ∈ files, checkPath p = .ok () ∧ l = before.destination p

/-- Whether a path leads into a directory, by way of a name in it. -/
def Inside (dir p : Path) : Prop :=
  ∃ name rest, IsFileName name ∧ (checkPath p = .ok () → checkPath (dir.join ⟨name⟩) = .ok ()) ∧
    ∀ d : Disk, d.destination p = d.destination dir ++ name :: rest

/-- What becomes of the files of a disk when a manifest, with one of some texts, and other files are
written to a directory. -/
structure WritesInto (before : Disk) (dir : Path) (others : List Path) (texts : String → Prop)
    (succeeded : Bool) (after : Disk) : Prop where
  /-- Only the files written may be lost. -/
  keepsFiles_iff : before.KeepsFiles after ↔
    ∀ p ∈ dir.join manifestFile :: others, before.KeepsFile after (before.destination p)
  /-- Files are lost only in a directory that was there and not found, which its path must allow. -/
  of_lost : ¬before.KeepsFiles after → dir.Strays ∧ (before.kind dir).toOption = none ∧
    before.entryAt? (before.destination dir) = some .directory
  /-- A writer that succeeds leaves its text in the file of the manifest. -/
  written : succeeded = true → ∃ text, texts text ∧
    after.entryAt? (before.destination (dir.join manifestFile)) = some (.file text.toUTF8)
  /-- A writer that fails leaves the file of the manifest as it was. -/
  failed : succeeded = false →
    before.KeepsFile after (before.destination (dir.join manifestFile))

variable {before after : Disk} {files others : List Path} {dir : Path} {texts : String → Prop}

theorem KeepsFiles.refl (d : Disk) : d.KeepsFiles d := fun _ _ h => h

theorem replaced_congr {d : Disk} (files : List Path) (h : d.home = before.home) :
    d.Replaced files = before.Replaced files := by
  funext l
  simp only [Replaced, destination_congr h]

theorem isMemberName_manifestFile : IsMemberName manifestFile.text := by decide

theorem inside_manifestFile (dir : Path) : Inside dir (dir.join manifestFile) :=
  ⟨manifestFile.text, [], isMemberName_manifestFile.toIsFileName, id,
    fun _ => destination_join isMemberName_manifestFile.toIsFileName⟩

theorem Spares.keepsFiles_iff (h : before.Spares (before.Replaced files) after) :
    before.KeepsFiles after ↔ ∀ p ∈ files, before.KeepsFile after (before.destination p) := by
  refine ⟨fun hkeeps p _ => hkeeps _, fun hkeeps l octets hl => ?_⟩
  by_cases hreplaced : before.Replaced files l
  · obtain ⟨p, hp, -, rfl⟩ := hreplaced
    exact hkeeps p hp octets hl
  · exact h.kept l _ hl (.inr hreplaced)

/-- A path that goes down finds the directory it leads to. -/
theorem strays_of_not_found (hd : before.Sound) {name : String} (hn : IsFileName name)
    (hcheck : checkPath (dir.join ⟨name⟩) = .ok ()) (hno : (before.kind dir).toOption = none)
    (hdirectory : before.entryAt? (before.destination dir) = some .directory) : dir.Strays := by
  by_contra hdir
  rw [Path.Strays, not_or, Bool.not_eq_true] at hdir
  have hsome := isSome_kind_of_reaches (checkPath_of_join hn hdir.1 hcheck)
    (hd.reaches_of_no_points hdir.2 hdirectory)
  rw [hno] at hsome
  cases hsome

theorem Spares.of_lost (h : before.Spares (before.Replaced files) after) (hd : before.Sound)
    (hinside : ∀ p ∈ files, Inside dir p) (hno : (before.kind dir).toOption = none)
    (hlost : ¬before.KeepsFiles after) : dir.Strays ∧ (before.kind dir).toOption = none ∧
      before.entryAt? (before.destination dir) = some .directory := by
  simp only [KeepsFiles, KeepsFile, not_forall] at hlost
  obtain ⟨l, octets, hfile, hnot⟩ := hlost
  have hreplaced : before.Replaced files l := by
    by_contra hfree
    exact hnot (h.kept l _ hfile (.inr hfree))
  obtain ⟨p, hp, hcheck, rfl⟩ := hreplaced
  obtain ⟨name, rest, hn, hname, hdest⟩ := hinside p hp
  have hdirectory : before.entryAt? (before.destination dir) = some .directory := by
    refine Tree.entryAt?_of_append (List.cons_ne_nil name rest) ?_
    rw [← hdest, ← entryAt?, hfile]
    rfl
  exact ⟨strays_of_not_found hd hn (hname hcheck) hno hdirectory, hno, hdirectory⟩

/-- A disk that nothing has been done to has been written into by a writer that failed. -/
theorem writesInto_refl (before : Disk) (dir : Path) (others : List Path)
    (texts : String → Prop) : WritesInto before dir others texts false before where
  keepsFiles_iff := iff_of_true (KeepsFiles.refl before) fun _ _ => KeepsFiles.refl before _
  of_lost hlost := (hlost (KeepsFiles.refl before)).elim
  written h := by cases h
  failed _ := KeepsFiles.refl before _

theorem Spares.writesInto_of_failed (h : before.Spares (before.Replaced others) after)
    (hd : before.Sound) (hinside : ∀ p ∈ others, Inside dir p)
    (hne : ∀ p ∈ others, before.destination p ≠ before.destination (dir.join manifestFile))
    (hno : (before.kind dir).toOption = none) :
    WritesInto before dir others texts false after := by
  have hmanifest : before.KeepsFile after (before.destination (dir.join manifestFile)) :=
    fun octets hl => h.kept _ _ hl (.inr fun ⟨p, hp, _, heq⟩ => hne p hp heq.symm)
  constructor
  · rw [h.keepsFiles_iff, List.forall_mem_cons, and_iff_right hmanifest]
  · exact h.of_lost hd hinside hno
  · simp
  · exact fun _ => hmanifest

theorem Spares.writesInto_of_written {text : String}
    (h : before.Spares (before.Replaced (dir.join manifestFile :: others)) after)
    (hd : before.Sound) (hinside : ∀ p ∈ others, Inside dir p)
    (hno : (before.kind dir).toOption = none) (htext : texts text)
    (hfile : after.entryAt? (before.destination (dir.join manifestFile)) =
      some (.file text.toUTF8)) :
    WritesInto before dir others texts true after where
  keepsFiles_iff := h.keepsFiles_iff
  of_lost := h.of_lost hd (List.forall_mem_cons.mpr ⟨inside_manifestFile dir, hinside⟩) hno
  written _ := ⟨text, htext, hfile⟩
  failed h := by cases h

end Disk
end EnvCompose
