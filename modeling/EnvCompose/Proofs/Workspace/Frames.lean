import EnvCompose.Proofs.Disk.Making
import EnvCompose.Proofs.Workspace.Files

/-!
# What making, copying and writing alter

Directories are made on the way to a place, a copy alters what is below its place, and a file that
is written by way of a temporary one is all that is altered, or nothing is.
-/
namespace EnvCompose.Workspace
open Disk

variable {before : Disk} {allowed : Location → Option Entry → Prop}

section Directories

variable {kept : Disk → Prop}

private theorem keeps_acceptDirectory (p : Path) (e : DiskError) :
    Keeps kept (Machine.acceptDirectory p e : Attempt (StateM Workspace) Unit) := by
  rw [Machine.acceptDirectory]
  refine triple_bind (triple_isDirectory p) fun b => ?_
  split
  · exact triple_pure fun _ hd => hd.1
  · exact triple_throw fun _ hd => hd.1

/-- Only the directory and those above it are made. -/
theorem keeps_makeUpTo (bound : Nat) {p : Path}
    (hkept : ∀ q d d', Above q p → kept d → d.makeDirectory q = .ok d' → kept d') :
    Keeps kept (Machine.makeUpTo bound p : Attempt (StateM Workspace) Unit) := by
  have hmake : Keeps kept (Machine.makeDirectory p : Attempt (StateM Workspace) Unit) :=
    triple_change (fun d d' hd hop => hkept p d d' (.refl p) hd hop) fun _ hd => hd
  induction bound generalizing p with
  | zero =>
    cases hp : p.parent? with
    | none =>
      rw [Machine.makeUpTo.eq_1 _ _ hp]
      exact triple_pure fun _ hd => hd
    | some parent =>
      rw [Machine.makeUpTo.eq_2 _ _ hp]
      exact hmake
  | succ bound ih =>
    cases hp : p.parent? with
    | none =>
      rw [Machine.makeUpTo.eq_1 _ _ hp]
      exact triple_pure fun _ hd => hd
    | some parent =>
      have hparent : ∀ q d d', Above q parent → kept d → d.makeDirectory q = .ok d' → kept d' :=
        fun q d d' hq => hkept q d d' (hq.trans (above_of_parent? hp))
      have hmakeParent :
          Keeps kept (Machine.makeDirectory parent : Attempt (StateM Workspace) Unit) :=
        triple_change (fun d d' hd hop => hparent parent d d' (.refl parent) hd hop) fun _ hd => hd
      rw [Machine.makeUpTo.eq_3 _ _ _ hp]
      refine triple_tryCatch hmake fun e => ?_
      split
      · refine triple_bind (ih hparent hmakeParent) fun _ => ?_
        exact triple_tryCatch hmake (keeps_acceptDirectory p)
      · exact keeps_acceptDirectory p e

/-- A path that has been made a directory is one that may be taken, unless it is without parent. -/
theorem triple_makeUpTo_checked (bound : Nat) {p : Path} (hp : p.parent? ≠ none) :
    Triple (fun _ => True) (Machine.makeUpTo bound p : Attempt (StateM Workspace) Unit)
      (fun _ _ => checkPath p = .ok ()) (fun _ => True) := by
  have hmake : Triple (fun _ => True) (Machine.makeDirectory p : Attempt (StateM Workspace) Unit)
      (fun _ _ => checkPath p = .ok ()) (fun _ => True) := by
    refine triple_change (fun d d' _ hop => ?_) fun _ _ => trivial
    obtain ⟨s, name, hfits, -⟩ := of_makeDirectory hop
    exact hfits.checked
  have haccept (e : DiskError) :
      Triple (fun _ => True) (Machine.acceptDirectory p e : Attempt (StateM Workspace) Unit)
        (fun _ _ => checkPath p = .ok ()) (fun _ => True) := by
    rw [Machine.acceptDirectory]
    refine triple_bind (triple_isDirectory p) fun b => ?_
    split
    · rename_i hb
      refine triple_pure fun d hd => ?_
      rw [Bool.and_eq_true, hd.2, beq_iff_eq, beq_iff_eq] at hb
      have hsome : (d.kind p).toOption.isSome = true := by rw [hb.2]; rfl
      exact (of_kind hsome).1
    · exact triple_throw fun _ _ => trivial
  obtain ⟨parent, hparent⟩ := Option.ne_none_iff_exists'.mp hp
  cases bound with
  | zero =>
    rw [Machine.makeUpTo.eq_2 _ _ hparent]
    exact hmake
  | succ bound =>
    rw [Machine.makeUpTo.eq_3 _ _ _ hparent]
    refine triple_tryCatch hmake fun e => ?_
    split
    · refine triple_bind (keeps_makeUpTo bound fun _ _ _ _ _ _ => trivial) fun _ => ?_
      exact triple_tryCatch hmake haccept
    · exact haccept e

theorem triple_makeDirectories_keeping {p : Path} (hp : p.parent? ≠ none)
    (hsound : ∀ d, kept d → d.Sound)
    (hkept : ∀ q d d', Above q p → kept d → d.makeDirectory q = .ok d' → kept d') :
    Triple kept (Machine.makeDirectories p : Attempt (StateM Workspace) Unit)
      (fun _ d => kept d ∧ d.Reaches p ∧ checkPath p = .ok ()) kept := by
  have hreaches : Triple (·.Sound) (Machine.makeDirectories p : Attempt (StateM Workspace) Unit)
      (fun _ d => d.Reaches p) (fun _ => True) := by
    refine triple_of_each fun d hd => ?_
    have hself : d.Spares (fun _ => True) d := Spares.refl hd
    exact (triple_makeDirectories p).weaken (by rintro _ rfl; exact hself) (fun _ _ h => h.2)
      fun _ _ => trivial
  refine (triple_and (keeps_makeUpTo _ hkept)
    (triple_and hreaches (triple_makeUpTo_checked _ hp))).weaken ?_ (fun _ _ h => h) fun _ h => h.1
  exact fun d hd => ⟨hd, hsound d hd, trivial⟩

theorem triple_makeDirectories_altering {p : Path} (hp : p.parent? ≠ none)
    (hdescends : before.Descends p)
    (hallowed : ∀ l, l <+: before.destination p → before.entryAt? l ≠ some .directory →
      before.entryAt? l = none ∨ allowed l none → allowed l (some .directory)) :
    Triple (before.Alters allowed) (Machine.makeDirectories p : Attempt (StateM Workspace) Unit)
      (fun _ d => before.Alters allowed d ∧ d.Reaches p ∧ checkPath p = .ok ())
      (before.Alters allowed) := by
  refine triple_makeDirectories_keeping hp (fun d hd => hd.sound) fun q d d' hq hd hop => ?_
  have hplace := hdescends.above_of_made hq hd.toSpares hop
  refine hd.makeDirectory hop fun hnone => hallowed _ hplace ?_ ?_
  · intro hdirectory
    have hkept := hd.kept _ _ hdirectory (.inl rfl)
    rw [hnone] at hkept
    cases hkept
  · by_cases hsame : d.entryAt? (before.destination q) = before.entryAt? (before.destination q)
    · exact .inl (hsame ▸ hnone)
    · exact .inr (hnone ▸ hd.allows _ hsame)

/-- A directory is made, with what is missing on the way to it. -/
theorem triple_makeDirectories_made {p : Path} (hd : before.Sound) (hdescends : before.Descends p) :
    Triple (· = before) (Machine.makeDirectories p : Attempt (StateM Workspace) Unit)
      (fun _ d => before.Alters (before.MadeTo (before.destination p)) d ∧ d.Reaches p)
      (before.Alters (before.MadeTo (before.destination p))) := by
  by_cases hp : p.parent? = none
  · rw [Machine.makeDirectories, Machine.makeUpTo.eq_1 _ _ hp]
    refine triple_pure ?_
    rintro _ rfl
    exact ⟨.refl hd, reaches_of_no_parent hd hp⟩
  · refine (triple_makeDirectories_altering hp hdescends fun l hl _ hnone => ?_).weaken
      (by rintro _ rfl; exact .refl hd) (fun _ _ h => ⟨h.1, h.2.1⟩) fun _ h => h
    obtain hnone | ⟨-, -, hnone⟩ := hnone
    · exact ⟨hl, hnone, rfl⟩
    · cases hnone

end Directories

section Copying

variable {place : Location}

/-- On the way to what is below a place, nothing is made above it if that is there. -/
theorem triple_makeDirectories_below {p : Path} (hp : p.parent? ≠ none) (hup : ".." ∉ stepsOf p)
    (habove : ∀ l, l <+: place → l ≠ place → before.entryAt? l = some .directory)
    (hplace : place <+: before.destination p) (hallowed : ∀ l e, place <+: l → allowed l e) :
    Triple (before.Alters allowed) (Machine.makeDirectories p : Attempt (StateM Workspace) Unit)
      (fun _ d => before.Alters allowed d ∧ d.Reaches p ∧ checkPath p = .ok ())
      (before.Alters allowed) := by
  refine triple_makeDirectories_altering hp (descends_of_no_points hup) fun l hl hno _ =>
    hallowed l _ ?_
  obtain hbelow | hlabove := List.prefix_or_prefix_of_prefix hplace hl
  · exact hbelow
  · by_cases heq : l = place
    · exact heq ▸ List.prefix_refl l
    · exact (hno (habove l hlabove heq)).elim

/-- Whether a path goes down to a place or to one below it. -/
structure LeadsBelow (before : Disk) (place : Location) (p : Path) : Prop where
  has_parent : p.parent? ≠ none
  no_points : ".." ∉ stepsOf p
  below : place <+: before.destination p

private theorem LeadsBelow.join {p : Path} (h : LeadsBelow before place p) {name : String}
    (hn : IsFileName name) : LeadsBelow before place (p.join ⟨name⟩) := by
  refine ⟨parent?_join_ne_none hn, points_not_mem_join hn h.no_points, h.below.trans ?_⟩
  rw [destination_join hn]
  exact List.prefix_append _ _

private theorem keeps_copyDirectory_below (depth : Nat) (source : Path) {dest : Path}
    (hdest : dest.parent? ≠ none) (hup : ".." ∉ stepsOf dest)
    (habove : ∀ l, l <+: place → l ≠ place → before.entryAt? l = some .directory)
    (hplace : place <+: before.destination dest) (hallowed : ∀ l e, place <+: l → allowed l e) :
    Keeps (before.Alters allowed)
      (copyDirectory depth source dest : ExceptT TemplateError (StateM Workspace) Unit) := by
  refine keeps_copyDirectory_of (fun _ p => LeadsBelow before place p) (fun _ hd => hd.sound)
    (fun _ _ _ hn hp => hp.join hn) ?_ ?_ depth ⟨hdest, hup, hplace⟩
  · intro _ p hp
    exact (triple_makeDirectories_below hp.has_parent hp.no_points habove hp.below hallowed).weaken
      (fun _ h => h) (fun _ _ h => h.1) fun _ h => h
  · refine fun source p name hn hp => triple_change (fun _ _ hd hop => ?_) fun _ hd => hd
    exact hd.copyFile hop fun octets => hallowed _ _ (hp.join hn).below

/-- Above a place in a directory there are directories. -/
theorem directory_above {dir l : Location} {name : String}
    (hdir : before.entryAt? dir = some .directory) (hl : l <+: dir ++ [name])
    (hne : l ≠ dir ++ [name]) : before.entryAt? l = some .directory := by
  obtain heq | hl := List.prefix_concat_iff.mp hl
  · exact (hne heq).elim
  · exact entryAt?_above hdir hl

theorem keeps_copyTree_below {source dir : Path} {name : String} (hn : IsMemberName name)
    (hup : ".." ∉ stepsOf dir)
    (hdir : before.entryAt? (before.destination dir) = some .directory)
    (hallowed : ∀ l e, before.destination dir ++ [name] <+: l → allowed l e) :
    Keeps (before.Alters allowed)
      (copyTree source (dir.join ⟨name⟩) : ExceptT TemplateError (StateM Workspace) Unit) := by
  have hdest := destination_join (d := before) (p := dir) hn.toIsFileName
  refine triple_copyTree_of_not_found (fun _ hd _ => hd) ?_
  refine Triple.weaken ?_ (fun _ hd => hd.1) (fun _ _ hd => hd) fun _ hd => hd
  exact keeps_copyDirectory_below _ _ (parent?_join_ne_none hn.toIsFileName)
    (points_not_mem_join hn.toIsFileName hup) (fun l => directory_above hdir)
    (hdest ▸ List.prefix_refl _) hallowed

end Copying

section Writing

/-- Whether a path is one of a temporary file: nothing is there, but it can be found as soon as
something is. -/
structure Temporary (before : Disk) (p : Path) : Prop where
  absent : before.entryAt? (before.destination p) = none
  checked : checkPath p = .ok ()
  exists_join : ∃ around name, p = around.join ⟨name⟩ ∧ IsMemberName name ∧ before.Reaches around

/-- Whether a disk differs from the one before by a temporary file alone. -/
def Holds (before : Disk) (p : Path) (octets : ByteArray) (d : Disk) : Prop :=
  before.Alters (fun l _ => l = before.destination p) d ∧
    d.entryAt? (before.destination p) = some (.file octets)

/-- Whether a disk differs from the one before by a temporary file alone, whatever is in that. -/
abbrev HoldsAny (before : Disk) (p : Path) (d : Disk) : Prop := ∃ octets, Holds before p octets d

/-- Under any fresh name, a temporary file is made. -/
theorem temporary_of_createTemporaryAs {choose : List String → String} {d : Disk} {dir p : Path}
    (hfresh : ∀ names, before.list (before.homePath.join dir) = .ok names →
      IsFresh (choose names) names) (hd : before.Sound)
    (hop : before.createTemporaryAs choose dir = .ok (d, p)) :
    Temporary before p ∧ Holds before p .empty d := by
  obtain ⟨hwrite, hnone, hreaches, names, hlist, hp⟩ := of_createTemporaryAs hfresh hop
  obtain ⟨s, name, hfits, -, hs⟩ := of_writeFile hwrite
  have hn : IsMemberName (choose names) := by
    refine hfits.names hd _ ?_
    rw [hp, destination_join (hfresh names hlist).toIsFileName]
    simp
  have hsame : before.Alters (fun l _ => l = before.destination p) before := Alters.refl hd
  exact ⟨⟨hnone, hfits.checked, _, _, hp, hn, hreaches⟩, hsame.writeFile hwrite rfl, hs.self⟩

theorem temporary_of_createTemporary {d : Disk} {dir p : Path} (hd : before.Sound)
    (hop : before.createTemporary dir = .ok (d, p)) :
    Temporary before p ∧ Holds before p .empty d := by
  rw [← createTemporaryAs_freshName] at hop
  exact temporary_of_createTemporaryAs (fun names _ => isFresh_freshName names) hd hop

theorem Holds.writeFile {d d' : Disk} {p : Path} {old new : ByteArray} (h : Holds before p old d)
    (hop : d.writeFile p new = .ok d') : Holds before p new d' := by
  refine ⟨h.1.writeFile hop rfl, ?_⟩
  obtain ⟨s, name, hfits, -, hs⟩ := of_writeFile hop
  rw [← h.1.destination_eq]
  exact hs.self

/-- Without its temporary file a disk is what it was before. -/
theorem Holds.remove {d : Disk} {p : Path} {octets : ByteArray} (ht : Temporary before p)
    (h : Holds before p octets d) :
    ∃ d', d.remove p = .ok d' ∧ before.Alters (fun _ _ => False) d' := by
  obtain ⟨hspares, hfile⟩ := h
  obtain ⟨around, name, rfl, hn, hreaches⟩ := ht.exists_join
  rw [← hspares.destination_eq] at hfile
  obtain ⟨d', hop⟩ := exists_remove hn ht.checked (hspares.reaches hreaches) hfile
  obtain ⟨hold, hs⟩ := of_remove hspares.sound hop
  refine ⟨d', hop, hspares.toSpares.sets hs (fun hne => (hne rfl).elim) hold (.inl trivial), ?_⟩
  intro l hne
  rw [hspares.destination_eq] at hs
  by_cases heq : l = before.destination (around.join ⟨name⟩)
  · rw [heq, hs.self, ht.absent] at hne
    exact hne rfl
  · rw [hs.of_ne heq] at hne
    exact heq (hspares.allows l hne)

theorem Holds.rename {d d' : Disk} {p file : Path} {octets : ByteArray} (ht : Temporary before p)
    (h : Holds before p octets d) (hop : d.rename p file = .ok d') :
    before.Alters (fun l _ => l = before.destination file) d' ∧
      d'.entryAt? (before.destination file) = some (.file octets) ∧ checkPath file = .ok () := by
  obtain ⟨hspares, hfile⟩ := h
  rw [← hspares.destination_eq] at hfile
  obtain ⟨s, name, d₁, hfits, hold, hdrop, hput⟩ := of_rename hspares.sound hfile hop
  have hmoved := hspares.toSpares.sets hdrop (fun hne => (hne rfl).elim) (by simp [hfile])
    (.inl trivial)
  have hdone := hmoved.sets hput (fun _ => hfits.names hspares.sound)
    (hdrop.not_directory hold) (.inl trivial)
  rw [hspares.destination_eq] at hdrop hput
  refine ⟨⟨hdone, fun l hne => ?_⟩, hput.self, hfits.checked⟩
  by_contra heq
  rw [hput.of_ne heq] at hne
  by_cases htemporary : l = before.destination p
  · rw [htemporary, hdrop.self, ht.absent] at hne
    exact hne rfl
  · rw [hdrop.of_ne htemporary] at hne
    exact htemporary (hspares.allows l hne)

/-- A temporary file is written, or left with what is in it. -/
theorem triple_writeFile_temporary {p : Path} (old new : ByteArray) :
    Triple (Holds before p old) (Machine.writeFile p new : Attempt (StateM Workspace) Unit)
      (fun _ => Holds before p new) (HoldsAny before p) :=
  triple_change (fun _ _ h hop => h.writeFile hop) fun _ h => ⟨_, h⟩

theorem triple_sync_temporary {p : Path} (octets : ByteArray) :
    Triple (Holds before p octets) (Machine.sync p : Attempt (StateM Workspace) Unit)
      (fun _ => Holds before p octets) (HoldsAny before p) :=
  triple_ask (fun _ _ h _ => h) fun _ h => ⟨_, h⟩

/-- A temporary file can be taken away, whatever is in it. -/
theorem triple_remove_temporary {p : Path} {failed : Disk → Prop} (ht : Temporary before p) :
    Triple (HoldsAny before p) (Machine.remove p : Attempt (StateM Workspace) Unit)
      (fun _ => before.Alters fun _ _ => False) failed :=
  triple_change_of_ok fun _ h => h.elim fun _ h => h.remove ht

/-- Writing a file alters that file alone, or nothing if it fails. -/
theorem triple_writeAtomic_altering (hd : before.Sound) (file : Path) (text : String) :
    Triple (· = before) (writeAtomic file text : Build (StateM Workspace) Unit)
      (fun _ d => before.Alters (fun l _ => l = before.destination file) d ∧
        d.entryAt? (before.destination file) = some (.file text.toUTF8) ∧ checkPath file = .ok ())
      (before.Alters fun _ _ => False) := by
  have hcreate (dir : Path) : Triple (· = before)
      (Machine.createTemporary dir : Attempt (StateM Workspace) Path)
      (fun p d => Holds before p .empty d ∧ Temporary before p)
      (before.Alters fun _ _ => False) := by
    change Triple _ (act (·.createTemporary dir)) _ _
    refine triple_act (fun d d' p heq hop => ?_) (by rintro _ rfl; exact Alters.refl hd)
    subst heq
    exact (temporary_of_createTemporary hd hop).symm
  rw [writeAtomic]
  refine triple_adapt (triple_bind (hcreate _) fun p => triple_of_and fun ht => ?_)
  have hbody : Triple (Holds before p .empty)
      (do Machine.writeFile p text.toUTF8
          Machine.sync p
          Machine.rename p file : Attempt (StateM Workspace) Unit)
      (fun _ d => before.Alters (fun l _ => l = before.destination file) d ∧
        d.entryAt? (before.destination file) = some (.file text.toUTF8) ∧ checkPath file = .ok ())
      (HoldsAny before p) := by
    refine triple_bind (triple_writeFile_temporary _ _) fun _ => ?_
    refine triple_bind (triple_sync_temporary _) fun _ => ?_
    exact triple_change (fun _ _ h hop => h.rename ht hop) fun _ h => ⟨_, h⟩
  refine triple_tryCatch hbody fun e => ?_
  refine triple_bind (triple_tryCatch (triple_remove_temporary ht) fun _ =>
    triple_pure fun _ h => h) fun _ => ?_
  exact triple_throw fun _ h => h

theorem triple_writeAtomic_checked (file : Path) (text : String) :
    Triple (fun _ => True) (writeAtomic file text : Build (StateM Workspace) Unit)
      (fun _ _ => checkPath file = .ok ()) (fun _ => True) := by
  rw [writeAtomic]
  refine triple_adapt (triple_bind (triple_trivial _) fun p => ?_)
  have hbody : Triple (fun _ => True)
      (do Machine.writeFile p text.toUTF8
          Machine.sync p
          Machine.rename p file : Attempt (StateM Workspace) Unit)
      (fun _ _ => checkPath file = .ok ()) (fun _ => True) := by
    refine triple_bind (triple_trivial _) fun _ => triple_bind (triple_trivial _) fun _ => ?_
    exact triple_change (fun _ _ _ hop => checked_of_rename hop) fun _ _ => trivial
  refine triple_tryCatch hbody fun e => triple_bind (triple_trivial _) fun _ => ?_
  exact triple_throw fun _ _ => trivial

end Writing

end EnvCompose.Workspace
