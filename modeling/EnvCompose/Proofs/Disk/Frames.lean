import EnvCompose.Proofs.Disk.Sparing

/-!
# What operations alter

An operation alters one place. What a sequence of operations alters is allowed if each of them puts
only there what is allowed there, and all else is as it was.
-/
namespace EnvCompose.Disk

/-- Whether all that has changed on a disk is allowed: the place, and what is there now. No
directory is lost. -/
structure Alters (before : Disk) (allowed : Location → Option Entry → Prop) (d : Disk) : Prop
    extends Spares before (fun _ => True) d where
  allows : ∀ l, d.entryAt? l ≠ before.entryAt? l → allowed l (d.entryAt? l)

/-- What may have changed where a directory has been made. -/
def MadeTo (before : Disk) (place l : Location) (e : Option Entry) : Prop :=
  l <+: place ∧ before.entryAt? l = none ∧ e = some .directory

def below (d : Disk) (place : Location) : Location → Option Entry :=
  fun rest => d.entryAt? (place ++ rest)

section Absent

variable {d : Disk} {place source l : Location} {octets : ByteArray}

/-- What is on a disk is not below a place where nothing is. -/
theorem not_prefix_of_absent (h : d.entryAt? place = none) (hl : d.entryAt? l ≠ none) :
    ¬place <+: l := by
  rintro ⟨rest, rfl⟩
  exact hl (entryAt?_append_of_absent h rest)

/-- A place where nothing is and that is not in a tree is apart from it. -/
theorem not_prefix_append (h : d.entryAt? place = none) (hsource : d.entryAt? source ≠ none)
    (hout : ¬source <+: place) (rest : Location) : ¬place <+: source ++ rest := by
  intro hplace
  obtain hp | hp := List.prefix_or_prefix_of_prefix hplace (List.prefix_append source rest)
  · exact not_prefix_of_absent h hsource hp
  · exact hout hp

end Absent

namespace Alters

variable {before d d' : Disk} {allowed : Location → Option Entry → Prop} {place l : Location}
  {e : Option Entry} {p source dest : Path} {octets : ByteArray}

theorem refl (hd : d.Sound) : d.Alters allowed d where
  toSpares := Spares.refl hd
  allows _ hne := (hne rfl).elim

theorem mono {other : Location → Option Entry → Prop} (h : before.Alters allowed d)
    (hsub : ∀ l, d.entryAt? l ≠ before.entryAt? l → allowed l (d.entryAt? l) →
      other l (d.entryAt? l)) : before.Alters other d where
  toSpares := h.toSpares
  allows l hne := hsub l hne (h.allows l hne)

theorem trans (h : before.Alters allowed d) (h' : d.Alters allowed d') :
    before.Alters allowed d' where
  toSpares := h.toSpares.trans h'.toSpares fun _ h => h
  allows l hne := by
    by_cases hsame : d'.entryAt? l = d.entryAt? l
    · rw [hsame] at hne ⊢
      exact h.allows l hne
    · exact h'.allows l hsame

theorem entryAt?_eq (h : before.Alters allowed d) (hl : ¬allowed l (d.entryAt? l)) :
    d.entryAt? l = before.entryAt? l := by
  by_contra hne
  exact hl (h.allows l hne)

theorem sets (h : before.Alters allowed d) (hs : Sets d place e d')
    (hnames : e ≠ none → ∀ n ∈ place, IsMemberName n)
    (hold : d.entryAt? place ≠ some .directory) (hallowed : allowed place e) :
    before.Alters allowed d' where
  toSpares := h.toSpares.sets hs hnames hold (.inl trivial)
  allows l hne := by
    by_cases heq : l = place
    · subst heq
      rwa [hs.self]
    · rw [hs.of_ne heq] at hne ⊢
      exact h.allows l hne

theorem makeDirectory (h : before.Alters allowed d) (hop : d.makeDirectory p = .ok d')
    (hallowed : d.entryAt? (before.destination p) = none →
      allowed (before.destination p) (some .directory)) : before.Alters allowed d' := by
  obtain ⟨s, name, hfits, hnone, hs⟩ := of_makeDirectory hop
  rw [← h.destination_eq] at hallowed
  exact h.sets hs (fun _ => hfits.names h.sound) (by simp [hnone]) (hallowed hnone)

theorem writeFile (h : before.Alters allowed d) (hop : d.writeFile p octets = .ok d')
    (hallowed : allowed (before.destination p) (some (.file octets))) :
    before.Alters allowed d' := by
  obtain ⟨s, name, hfits, hold, hs⟩ := of_writeFile hop
  rw [← h.destination_eq] at hallowed
  exact h.sets hs (fun _ => hfits.names h.sound) hold hallowed

theorem copyFile (h : before.Alters allowed d) (hop : d.copyFile source dest = .ok d')
    (hallowed : ∀ octets, allowed (before.destination dest) (some (.file octets))) :
    before.Alters allowed d' := by
  obtain ⟨octets, hop⟩ := of_copyFile hop
  exact h.writeFile hop (hallowed octets)

end Alters

section Operations

open Slot Position

variable {d d' : Disk} {p source dest : Path} {octets : ByteArray}

/-- What is copied is the file at the source, unless it is copied onto itself. -/
theorem of_copyFile_apart (h : d.copyFile source dest = .ok d')
    (hne : d.destination source ≠ d.destination dest) :
    ∃ octets, d.entryAt? (d.destination source) = some (.file octets) ∧
      d.writeFile dest octets = .ok d' := by
  rw [copyFile] at h
  obtain ⟨found, hlocate, h⟩ := bind_eq_ok.mp h
  obtain ⟨-, hon, hloc, -⟩ := of_locate hlocate
  have hentry := hon.entryAt?
  split at h
  · cases h
  rename_i octets htree
  obtain ⟨s, hs, h⟩ := bind_eq_ok.mp h
  have hapart : (s.name.any fun name => s.location name == found.location) = false := by
    cases hname : s.name with
    | none => rfl
    | some name =>
      rw [Option.any_some, beq_eq_false_iff_ne, location_eq,
        ← (fits_of_slot hs hname).destination_eq, hloc]
      exact Ne.symm hne
  rw [hloc, htree] at hentry
  rw [hapart] at h
  exact ⟨octets, hentry, h⟩

/-- A file that can be found can be taken away. -/
theorem exists_remove {around : Path} {name : String} (hn : IsMemberName name)
    (hcheck : checkPath (around.join ⟨name⟩) = .ok ()) (haround : d.Reaches around)
    (he : d.entryAt? (d.destination (around.join ⟨name⟩)) = some (.file octets)) :
    ∃ d', d.remove (around.join ⟨name⟩) = .ok d' := by
  rw [destination_join hn.toIsFileName] at he
  obtain ⟨found, hfound, htree⟩ := exists_locate_file hn hcheck haround he
  simp [remove, hfound, htree, Tree.isDirectory, bind, Except.bind, pure, Except.pure]

end Operations

end EnvCompose.Disk
