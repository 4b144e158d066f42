import EnvCompose.Proofs.Disk.Making
import EnvCompose.Proofs.Workspace.Frames

/-!
# Making directories

On a clear path a directory is made with all those around it that are missing, and nothing of it can
fail.
-/
namespace EnvCompose.Workspace
open Disk

variable {before : Disk} {p : Path}

private theorem triple_acceptDirectory_of_reaches (hcheck : checkPath p = .ok ()) :
    Triple (·.Reaches p)
      (Machine.acceptDirectory p .alreadyExists : Attempt (StateM Workspace) Unit)
      (fun _ _ => True) (fun _ => False) := by
  have hlook : Triple (·.Reaches p)
      (liftM (Machine.isDirectory p : StateM Workspace Bool) : Attempt (StateM Workspace) Bool)
      (fun b _ => b = true) (fun _ => False) :=
    (triple_isDirectory p).weaken (fun _ h => h)
      (fun b d h => by rw [h.2, kind_of_reaches hcheck h.1]; rfl) fun _ h => h
  rw [Machine.acceptDirectory]
  refine triple_bind hlook fun b => ?_
  cases b with
  | true => exact triple_pure fun _ _ => trivial
  | false => exact triple_throw fun _ h => by cases h

section Refused

variable {d : Disk} {e : DiskError} (hcheck : checkPath p = .ok ())
  (he : d.makeDirectory p = .error e)
include hcheck he

/-- A directory that is refused because it is there is as good as a new one. -/
private theorem triple_acceptDirectory_refused (hreaches : d.Reaches p) : e = .alreadyExists ∧
    Triple (· = d) (Machine.acceptDirectory p e : Attempt (StateM Workspace) Unit)
      (fun _ _ => True) (fun _ => False) := by
  obtain rfl := Except.error.inj ((makeDirectory_of_reaches hcheck hreaches).symm.trans he)
  refine ⟨rfl, (triple_acceptDirectory_of_reaches hcheck).weaken ?_ (fun _ _ h => h) fun _ h => h⟩
  rintro _ rfl
  exact hreaches

end Refused

section Clear

variable {q : Path} (hclear : before.Clear p) (hp : p.parent? = some q)
  (hcheck : checkPath p = .ok ())
  (hlast : (∀ step ∈ stepsOf p, step = ".") ∨ (stepsOf p).getLast? ≠ some ".")
include hclear hp hcheck hlast

/-- On a clear path a directory is made where the one around it is there, unless it is there too. -/
private theorem triple_makeDirectory_clear :
    Triple (fun d => before.GrowsTo d ∧ d.Reaches q)
      (tryCatch (Machine.makeDirectory p) (Machine.acceptDirectory p) :
        Attempt (StateM Workspace) Unit) (fun _ _ => True) (fun _ => False) := by
  refine triple_of_each fun d h => triple_catch (fun _ _ => trivial) fun e he => ?_
  obtain ⟨hd, hq⟩ := h
  obtain h | ⟨-, d', h⟩ | ⟨h, -⟩ :=
    (hclear.of_growsTo hd).makeDirectory_of_parent? hd.sound hcheck hp hlast
  · exact (triple_acceptDirectory_refused hcheck he h).2
  · rw [h] at he
    cases he
  · exact (h hq).elim

/-- Where the directory around it can be made, one on a clear path can. -/
private theorem triple_makeUpTo_succ (bound : Nat)
    (hparent : Triple before.GrowsTo (Machine.makeUpTo bound q : Attempt (StateM Workspace) Unit)
      (fun _ _ => True) (fun _ => False)) :
    Triple before.GrowsTo (Machine.makeUpTo (bound + 1) p : Attempt (StateM Workspace) Unit)
      (fun _ _ => True) (fun _ => False) := by
  rw [Machine.makeUpTo.eq_3 _ _ _ hp]
  refine triple_of_each fun d hd => triple_catch (fun _ _ => trivial) fun e he => ?_
  obtain h | ⟨-, d', h⟩ | ⟨-, h⟩ :=
    (hclear.of_growsTo hd).makeDirectory_of_parent? hd.sound hcheck hp hlast
  · obtain ⟨rfl, haccept⟩ := triple_acceptDirectory_refused hcheck he h
    exact haccept
  · rw [h] at he
    cases he
  -- what is around it is made first, and then there is nothing left that could be missing
  obtain rfl : .notFound = e := Except.error.inj (h.symm.trans he)
  have hgrows : Keeps before.GrowsTo
      (Machine.makeUpTo bound q : Attempt (StateM Workspace) Unit) :=
    keeps_makeUpTo bound fun _ _ _ _ hd hop => hd.makeDirectory hop fun _ => rfl
  have hself : d.Spares (fun _ => True) d := .refl hd.sound
  have haround : Triple (· = d) (Machine.makeUpTo bound q : Attempt (StateM Workspace) Unit)
      (fun _ d' => before.GrowsTo d' ∧ d'.Reaches q) (fun _ => False) :=
    (triple_and hparent (triple_and hgrows (triple_makeUpTo bound q))).weaken
      (by rintro _ rfl; exact ⟨hd, hd, hself⟩) (fun _ _ h => ⟨h.2.1, h.2.2.2⟩) fun _ h => h.1
  exact triple_bind haround fun _ => triple_makeDirectory_clear hclear hp hcheck hlast

end Clear

/-- On a clear path a directory is made, however many of those around it are missing. -/
theorem triple_makeUpTo_clear (bound : Nat) (hbound : p.text.length ≤ bound)
    (hclear : before.Clear p) (hcheck : p.parent? ≠ none → checkPath p = .ok ())
    (hlast : (∀ step ∈ stepsOf p, step = ".") ∨ (stepsOf p).getLast? ≠ some ".") :
    Triple before.GrowsTo (Machine.makeUpTo bound p : Attempt (StateM Workspace) Unit)
      (fun _ _ => True) (fun _ => False) := by
  induction bound generalizing p with
  | zero =>
    cases hp : p.parent? with
    | none =>
      rw [Machine.makeUpTo.eq_1 _ _ hp]
      exact triple_pure fun _ _ => trivial
    | some q =>
      have hlength := length_lt_of_parent? hp
      omega
  | succ bound ih =>
    cases hp : p.parent? with
    | none =>
      rw [Machine.makeUpTo.eq_1 _ _ hp]
      exact triple_pure fun _ _ => trivial
    | some q =>
      have hlength := length_lt_of_parent? hp
      have hchecked := hcheck (by simp [hp])
      refine triple_makeUpTo_succ hclear hp hchecked hlast bound ?_
      exact ih (by omega) (hclear.above (above_of_parent? hp))
        (fun hq => checkPath_of_parent? hp hq hchecked) (last_ne_point_of_parent? hp)

/-- A directory is made on a clear path that ends in a name. -/
theorem triple_makeDirectories_clear (hd : before.Sound) (hclear : before.Clear p)
    (hcheck : checkPath p = .ok ()) (hlast : (stepsOf p).getLast? ≠ some ".") :
    Triple (· = before) (Machine.makeDirectories p : Attempt (StateM Workspace) Unit)
      (fun _ _ => True) (fun _ => False) := by
  have hself : before.GrowsTo before := .refl hd
  exact (triple_makeUpTo_clear _ (Nat.le_refl _) hclear (fun _ => hcheck) (.inr hlast)).weaken
    (by rintro _ rfl; exact hself) (fun _ _ h => h) fun _ h => h

/-- Whether a disk has what was there before, and nothing at a place. -/
def Misses (before : Disk) (place : Location) (d : Disk) : Prop :=
  before.Spares (fun _ => True) d ∧ d.entryAt? place = none

private theorem triple_makeDirectory_missed (before : Disk) (place : Location)
    (hlast : (stepsOf p).getLast? = some ".") : Triple (Misses before place)
      (Machine.makeDirectory p : Attempt (StateM Workspace) Unit)
      (fun _ _ => False) (Misses before place) := by
  refine triple_change (fun d d' _ hop => ?_) fun _ h => h
  obtain ⟨s, name, hfits, -⟩ := of_makeDirectory hop
  obtain ⟨steps, hsteps, -⟩ := hfits.passes
  rw [hsteps, List.getLast?_concat] at hlast
  exact hfits.isMemberName.ne_point (Option.some.inj hlast)

private theorem triple_acceptDirectory_missed (e : DiskError) :
    Triple (Misses before (before.destination p))
      (Machine.acceptDirectory p e : Attempt (StateM Workspace) Unit)
      (fun _ _ => False) (fun _ => True) := by
  rw [Machine.acceptDirectory]
  refine triple_bind (triple_isDirectory p) fun b => ?_
  split
  · rename_i hb
    refine triple_pure fun d hd => ?_
    rw [Bool.and_eq_true, hd.2] at hb
    have hdirectory := hd.1.1.reached (reaches_of_kind hb.2)
    rw [hd.1.2] at hdirectory
    cases hdirectory
  · exact triple_throw fun _ _ => trivial

/-- Directories are made around a place that is not above them without making it. -/
private theorem keeps_makeUpTo_missed {q : Path} (hdescends : before.Descends q)
    {place : Location} (hplace : ¬place <+: before.destination q) (bound : Nat) :
    Keeps (Misses before place) (Machine.makeUpTo bound q : Attempt (StateM Workspace) Unit) := by
  refine keeps_makeUpTo bound fun r d d' hr hd hop => ?_
  obtain ⟨hspares, hnone⟩ := hd
  obtain ⟨hlater, -⟩ := hspares.makeDirectory hop
  obtain ⟨s, name, -, -, hsets⟩ := of_makeDirectory hop
  have habove := hdescends.above_of_made hr hspares hop
  rw [hspares.destination_eq] at hsets
  have hne : place ≠ before.destination r := fun heq => hplace (heq ▸ habove)
  exact ⟨hlater, by rw [hsets.of_ne hne, hnone]⟩

/-- A path that ends in a point leads to a directory only if that is there already. -/
theorem triple_makeDirectories_pointed (hd : before.Sound) (hdescends : before.Descends p)
    (habsent : before.entryAt? (before.destination p) = none)
    (hlast : (stepsOf p).getLast? = some ".") :
    Triple (· = before) (Machine.makeDirectories p : Attempt (StateM Workspace) Unit)
      (fun _ _ => False) (fun _ => True) := by
  obtain ⟨q, hp, hplace⟩ := exists_parent_of_absent hd hdescends habsent
  have hmake := triple_makeDirectory_missed before (before.destination p) hlast
  have hparent (bound : Nat) := keeps_makeUpTo_missed
    (hdescends.of_above (above_of_parent? hp)).1 hplace bound
  obtain ⟨bound, hbound⟩ := Nat.exists_eq_add_of_lt (length_lt_of_parent? hp)
  have hnever : Triple (Misses before (before.destination p))
      (Machine.makeDirectories p : Attempt (StateM Workspace) Unit)
      (fun _ _ => False) (fun _ => True) := by
    rw [Machine.makeDirectories, hbound, Machine.makeUpTo.eq_3 _ _ _ hp]
    refine triple_tryCatch hmake fun e => ?_
    split
    · refine triple_bind (hparent _).dismiss fun _ => ?_
      exact triple_tryCatch hmake triple_acceptDirectory_missed
    · exact triple_acceptDirectory_missed e
  exact hnever.weaken (by rintro _ rfl; exact ⟨.refl hd, habsent⟩) (fun _ _ h => h) fun _ h => h

end EnvCompose.Workspace
