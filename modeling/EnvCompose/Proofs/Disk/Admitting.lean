import EnvCompose.Proofs.Disk.Making

/-!
# What can be copied

A disk admits a copy of a directory where a path leads to nothing and all the paths in it can be
taken. While the copy is made, each part of it comes to be ready for its own.
-/
namespace EnvCompose.Disk

/-- The path that names take from another. -/
def descend (p : Path) (names : List String) : Path := names.foldl (fun p name => p.join ⟨name⟩) p

/-- Whether paths lead to a part of a tree and to the place of its copy, and nothing about them
keeps the part from being copied. -/
structure Ready (before : Disk) (tree place rest : Location) (source dest : Path) : Prop where
  source_eq : before.destination source = tree ++ rest
  reaches : before.Reaches source
  dest_eq : before.destination dest = place ++ rest
  parent_ne : dest.parent? ≠ none
  descends : before.Descends dest
  size_le : ∀ step ∈ stepsOf dest, step.utf8ByteSize ≤ maxName
  last_ne : (stepsOf dest).getLast? ≠ some "."
  checked : ∀ more, before.entryAt? (tree ++ (rest ++ more)) ≠ none →
    checkPath (descend source more) = .ok () ∧ checkPath (descend dest more) = .ok ()

namespace Ready

variable {before : Disk} {tree place rest : Location} {source dest : Path} {name : String}
  (h : Ready before tree place rest source dest)
include h

theorem directory : before.entryAt? (tree ++ rest) = some .directory := by
  have hentry := h.reaches.entryAt?_destination
  rwa [h.source_eq] at hentry

theorem checked_self : checkPath source = .ok () ∧ checkPath dest = .ok () :=
  h.checked [] (by simp [h.directory])

theorem checked_join (he : before.entryAt? (tree ++ (rest ++ [name])) ≠ none) :
    checkPath (source.join ⟨name⟩) = .ok () ∧ checkPath (dest.join ⟨name⟩) = .ok () :=
  h.checked [name] he

theorem join (hn : IsMemberName name)
    (hdir : before.entryAt? (tree ++ (rest ++ [name])) = some .directory) :
    Ready before tree place (rest ++ [name]) (source.join ⟨name⟩) (dest.join ⟨name⟩) where
  source_eq := by rw [destination_join hn.toIsFileName, h.source_eq, List.append_assoc]
  reaches := h.reaches.join hn (by rwa [h.source_eq, List.append_assoc])
  dest_eq := by rw [destination_join hn.toIsFileName, h.dest_eq, List.append_assoc]
  parent_ne := parent?_join_ne_none hn.toIsFileName
  descends := h.descends.join hn.toIsFileName
  size_le step hstep := by
    rw [stepsOf_join hn.toIsFileName, List.mem_append, List.mem_singleton] at hstep
    exact hstep.elim (h.size_le step) fun heq => heq ▸ hn.size_le
  last_ne := by
    rw [stepsOf_join hn.toIsFileName, List.getLast?_concat]
    exact fun heq => hn.ne_point (Option.some.inj heq)
  checked more hmore := by
    refine h.checked (name :: more) ?_
    rwa [List.append_assoc, List.singleton_append] at hmore

end Ready

/-- Whether a path leads to a directory, nothing is at another, and nothing but where that leads and
how it ends keeps the directory from being copied there. -/
structure Admits (before : Disk) (source dest : Path) : Prop where
  source_kind : before.kind source = .ok .directory
  not_found : (before.kind dest).toOption = none
  clear : before.Clear dest
  checked : ∀ rest, before.entryAt? (before.destination source ++ rest) ≠ none →
    checkPath (descend source rest) = .ok () ∧ checkPath (descend dest rest) = .ok ()

namespace Admits

variable {before d : Disk} {source dest : Path} (h : before.Admits source dest)
include h

theorem reaches : before.Reaches source := reaches_of_kind (by rw [h.source_kind]; rfl)

theorem directory : before.entryAt? (before.destination source) = some .directory :=
  h.reaches.entryAt?_destination

theorem checked_self : checkPath source = .ok () ∧ checkPath dest = .ok () :=
  h.checked [] (by simp [h.directory])

theorem not_reaches : ¬before.Reaches dest := fun hreaches => by
  have hfound := h.not_found
  rw [kind_of_reaches h.checked_self.2 hreaches] at hfound
  cases hfound

theorem absent (hd : before.Sound) : before.entryAt? (before.destination dest) = none := by
  cases he : before.entryAt? (before.destination dest) with
  | none => rfl
  | some e =>
    cases e with
    | directory => exact (h.not_reaches (h.clear.descends.reaches hd he)).elim
    | file octets => exact (h.clear.no_file _ octets (List.prefix_refl _) he).elim

theorem parent_ne (hd : before.Sound) : dest.parent? ≠ none := fun hnone =>
  h.not_reaches (reaches_of_no_parent hd hnone)

/-- What is admitted is ready to be copied, and stays so while directories are made on the way to
the place. -/
theorem ready (hd : before.Sound) (hlast : (stepsOf dest).getLast? ≠ some ".")
    (hout : ¬before.destination source <+: before.destination dest)
    (hmade : before.Alters (before.MadeTo (before.destination dest)) d) :
    Ready d (before.destination source) (before.destination dest) [] source dest where
  source_eq := by rw [hmade.destination_eq, List.append_nil]
  reaches := hmade.reaches h.reaches
  dest_eq := by rw [hmade.destination_eq, List.append_nil]
  parent_ne := h.parent_ne hd
  descends := h.clear.descends.of_spares hmade.toSpares
  size_le := h.clear.size_le
  last_ne := hlast
  checked more hmore := by
    refine h.checked more ?_
    rwa [← hmade.entryAt?_eq fun hl => hout ((List.prefix_append _ _).trans hl.1)]

end Admits

def without (d : Disk) (place : Location) : Disk := { d with root := d.root.drop place }

section Without

variable {before d : Disk} {tree place l : Location}

theorem without_self (hplace : place ≠ []) (rest : Location) :
    (d.without place).entryAt? (place ++ rest) = none :=
  Tree.entryAt?_drop_self hplace rest

theorem without_elsewhere (hl : ¬place <+: l) : (d.without place).entryAt? l = d.entryAt? l :=
  Tree.entryAt?_drop_elsewhere hl

variable (hd : before.Sound) (habsent : before.entryAt? place = none)
include hd habsent

theorem ne_nil_of_absent : place ≠ [] := by
  rintro rfl
  rw [hd.root] at habsent
  cases habsent

/-- A disk without a directory that was made has new ones on the way to it at most. -/
theorem Alters.without (h : before.Alters (before.MadeTo place) d) :
    before.Alters (before.MadeTo place) (d.without place) where
  home := h.home
  sound := by
    have hplace := ne_nil_of_absent hd habsent
    constructor
    · intro l hl
      by_cases hbelow : place <+: l
      · obtain ⟨rest, rfl⟩ := hbelow
        exact (hl (without_self hplace rest)).elim
      · rw [without_elsewhere hbelow] at hl
        exact h.sound.names l hl
    · have hhome : ¬place <+: d.home := by
        rw [h.home]
        exact not_prefix_of_absent habsent (by simp [hd.home])
      exact (without_elsewhere hhome).trans h.sound.home
  kept l e hl _ := by
    rw [without_elsewhere (not_prefix_of_absent habsent (by simp [hl]))]
    by_cases hsame : d.entryAt? l = before.entryAt? l
    · rw [hsame, hl]
    · have hnone := (h.allows l hsame).2.1
      rw [hl] at hnone
      cases hnone
  allows l hne := by
    by_cases hbelow : place <+: l
    · obtain ⟨rest, rfl⟩ := hbelow
      refine (hne ?_).elim
      rw [without_self (ne_nil_of_absent hd habsent), entryAt?_append_of_absent habsent]
    · rw [without_elsewhere hbelow] at hne ⊢
      exact h.allows l hne

end Without

end EnvCompose.Disk
