import EnvCompose.Proofs.Disk.Sparing
import EnvCompose.Proofs.Workspace.Triple
import EnvCompose.Template.Include

/-!
# What making, copying and writing spare

Directories are made where nothing is, trees are copied to places where nothing is, and a file is
written by way of a temporary one. Each spares what was there before.
-/
namespace EnvCompose.Workspace
open Disk

variable {before : Disk} {exposed : Location → Prop}

section Directories

theorem triple_isDirectory {ε : Type} {pre failed : Disk → Prop} (p : Path) :
    Triple pre (liftM (Machine.isDirectory p : StateM Workspace Bool) :
        ExceptT ε (StateM Workspace) Bool)
      (fun b d => pre d ∧ b = ((d.kind p).toOption == some .directory)) failed :=
  triple_look (fun _ => rfl) fun _ hd => ⟨hd, rfl⟩

theorem triple_makeDirectory (p : Path) :
    Triple (before.Spares exposed) (Machine.makeDirectory p : Attempt (StateM Workspace) Unit)
      (fun _ d => before.Spares exposed d ∧ d.Reaches p) (before.Spares exposed) :=
  triple_change (fun _ _ hd hop => hd.makeDirectory hop) fun _ hd => hd

private theorem triple_acceptDirectory (p : Path) (e : DiskError) :
    Triple (before.Spares exposed) (Machine.acceptDirectory p e : Attempt (StateM Workspace) Unit)
      (fun _ d => before.Spares exposed d ∧ d.Reaches p) (before.Spares exposed) := by
  rw [Machine.acceptDirectory]
  refine triple_bind (triple_isDirectory p) fun b => ?_
  split
  · rename_i hb
    refine triple_pure fun d hd => ⟨hd.1, reaches_of_kind ?_⟩
    rw [← hd.2]
    exact (Bool.and_eq_true_iff.mp hb).2
  · exact triple_throw fun d hd => hd.1

/-- Whatever is there already, a directory that has been made is reached. -/
theorem triple_makeUpTo (bound : Nat) (p : Path) :
    Triple (before.Spares exposed) (Machine.makeUpTo bound p : Attempt (StateM Workspace) Unit)
      (fun _ d => before.Spares exposed d ∧ d.Reaches p) (before.Spares exposed) := by
  induction bound generalizing p with
  | zero =>
    cases hp : p.parent? with
    | none =>
      rw [Machine.makeUpTo.eq_1 _ _ hp]
      exact triple_pure fun d hd => ⟨hd, reaches_of_no_parent hd.sound hp⟩
    | some parent =>
      rw [Machine.makeUpTo.eq_2 _ _ hp]
      exact triple_makeDirectory p
  | succ bound ih =>
    cases hp : p.parent? with
    | none =>
      rw [Machine.makeUpTo.eq_1 _ _ hp]
      exact triple_pure fun d hd => ⟨hd, reaches_of_no_parent hd.sound hp⟩
    | some parent =>
      rw [Machine.makeUpTo.eq_3 _ _ _ hp]
      refine triple_tryCatch (triple_makeDirectory p) fun e => ?_
      split
      · refine triple_bind (ih parent) fun _ => ?_
        exact Triple.weaken (triple_tryCatch (triple_makeDirectory p) (triple_acceptDirectory p))
          (fun _ hd => hd.1) (fun _ _ hd => hd) fun _ hd => hd
      · exact triple_acceptDirectory p e

theorem triple_makeDirectories (p : Path) :
    Triple (before.Spares exposed) (Machine.makeDirectories p : Attempt (StateM Workspace) Unit)
      (fun _ d => before.Spares exposed d ∧ d.Reaches p) (before.Spares exposed) :=
  triple_makeUpTo _ p

end Directories

section Copying

variable {kept pre failed : Disk → Prop} {post : Unit → Disk → Prop}

private theorem triple_list (hsound : ∀ d, kept d → d.Sound) (p : Path) :
    Triple kept (Machine.list p : Attempt (StateM Workspace) (List String))
      (fun names d => kept d ∧ ∀ name ∈ names, IsMemberName name) kept :=
  triple_ask (fun d _ hd hop => ⟨hd, (hsound d hd).isMemberName_of_list hop⟩) fun _ hd => hd

/-- The part of a copy that is done for one name. -/
def copyMember (depth : Nat) (source dest : Path) (name : String) :
    ExceptT TemplateError (StateM Workspace) Unit := do
  let inner := source.join ⟨name⟩
  if ← (Machine.isDirectory inner : StateM Workspace Bool) then
    copyDirectory depth inner (dest.join ⟨name⟩)
  else (Machine.copyFile inner (dest.join ⟨name⟩)).adapt (.copy inner)

/-- The part of a copy that is left when its directory has been made. -/
def copyMembers (depth : Nat) (source dest : Path) :
    ExceptT TemplateError (StateM Workspace) Unit := do
  let names ← (Machine.list source).adapt (.copy source)
  names.forM (copyMember depth source dest)

theorem copyDirectory_succ (depth : Nat) (source dest : Path) :
    (copyDirectory (depth + 1) source dest : ExceptT TemplateError (StateM Workspace) Unit) =
      (Machine.makeDirectories dest).adapt (.copy dest) >>= fun _ =>
        copyMembers depth source dest := rfl

theorem keeps_copyMember {depth : Nat} {source dest : Path} {name : String}
    (hdirectory : Keeps kept (copyDirectory depth (source.join ⟨name⟩) (dest.join ⟨name⟩) :
      ExceptT TemplateError (StateM Workspace) Unit))
    (hfile : Keeps kept (Machine.copyFile (source.join ⟨name⟩) (dest.join ⟨name⟩) :
      Attempt (StateM Workspace) Unit)) :
    Keeps kept (copyMember depth source dest name) := by
  rw [copyMember]
  refine triple_bind (triple_isDirectory (source.join ⟨name⟩)) fun b => ?_
  refine Triple.weaken ?_ (fun _ hd => hd.1) (fun _ _ hd => hd) fun _ hd => hd
  split
  · exact hdirectory
  · exact triple_adapt hfile

/-- A copy keeps what each directory and each file of it keeps. Each of them and what it is a copy of
have a property that comes down to the members. -/
theorem keeps_copyDirectory_of (between : Path → Path → Prop) (hsound : ∀ d, kept d → d.Sound)
    (hjoin : ∀ p q name, IsFileName name → between p q →
      between (p.join ⟨name⟩) (q.join ⟨name⟩))
    (hmake : ∀ p q, between p q →
      Keeps kept (Machine.makeDirectories q : Attempt (StateM Workspace) Unit))
    (hcopy : ∀ p q name, IsFileName name → between p q →
      Keeps kept (Machine.copyFile (p.join ⟨name⟩) (q.join ⟨name⟩) :
        Attempt (StateM Workspace) Unit))
    (depth : Nat) {source dest : Path} (h : between source dest) :
    Keeps kept
      (copyDirectory depth source dest : ExceptT TemplateError (StateM Workspace) Unit) := by
  induction depth generalizing source dest with
  | zero => exact triple_throw fun _ hd => hd
  | succ depth ih =>
    rw [copyDirectory_succ]
    refine triple_bind (triple_adapt (hmake source dest h)) fun _ => ?_
    refine triple_bind (triple_adapt (triple_list hsound source)) fun names =>
      triple_of_and fun hnames => ?_
    refine keeps_forM fun name hname => ?_
    have hn := (hnames name hname).toIsFileName
    exact keeps_copyMember (ih (hjoin source dest name hn h)) (hcopy source dest name hn h)

theorem keeps_copyFile (source dest : Path)
    (hfree : checkPath dest = .ok () → before.Free exposed (before.destination dest)) :
    Keeps (before.Spares exposed)
      (Machine.copyFile source dest : Attempt (StateM Workspace) Unit) :=
  triple_change (fun _ _ hd hop => hd.copyFile hop hfree) fun _ hd => hd

/-- Whether all from the place of a path on may be changed, if the path may be taken. -/
structure FreeBelow (before : Disk) (exposed : Location → Prop) (p : Path) : Prop where
  not_empty : p.isEmpty = false
  free : checkPath p = .ok () → ∀ l, before.destination p <+: l → before.Free exposed l

private theorem FreeBelow.join {p : Path} (h : FreeBelow before exposed p) {name : String}
    (hn : IsFileName name) : FreeBelow before exposed (p.join ⟨name⟩) := by
  refine ⟨isEmpty_join hn, fun hcheck l hl => ?_⟩
  rw [destination_join hn] at hl
  exact h.free (checkPath_of_join hn h.not_empty hcheck) l ((List.prefix_append _ _).trans hl)

/-- What is copied comes below the place of the copy. -/
theorem keeps_copyDirectory (depth : Nat) (source dest : Path) (hdest : dest.isEmpty = false)
    (hfree : checkPath dest = .ok () →
      ∀ l, before.destination dest <+: l → before.Free exposed l) :
    Keeps (before.Spares exposed)
      (copyDirectory depth source dest : ExceptT TemplateError (StateM Workspace) Unit) := by
  refine keeps_copyDirectory_of (fun _ p => FreeBelow before exposed p) (fun _ hd => hd.sound)
    (fun _ _ _ hn hp => hp.join hn) ?_ ?_ depth ⟨hdest, hfree⟩
  · intro _ p _
    exact (triple_makeDirectories p).weaken (fun _ h => h) (fun _ _ h => h.1) fun _ h => h
  · intro source p name hn hp
    exact keeps_copyFile _ _ fun hcheck => (hp.join hn).free hcheck _ (List.prefix_refl _)

theorem triple_pathExists {ε : Type} (p : Path) :
    Triple pre (liftM (Machine.pathExists p : StateM Workspace Bool) :
        ExceptT ε (StateM Workspace) Bool)
      (fun b d => pre d ∧ b = (d.kind p).toOption.isSome) failed :=
  triple_look (fun _ => rfl) fun _ hd => ⟨hd, rfl⟩

theorem keeps_debug {ε : Type} (message : String) :
    Keeps kept (liftM (Machine.debug message : StateM Workspace Unit) :
      ExceptT ε (StateM Workspace) Unit) :=
  triple_aside (fun _ => rfl) fun _ _ hd => hd

/-- A tree is copied if nothing is found at the place, and else nothing is done. -/
theorem triple_copyTree_of_not_found {source dest : Path}
    (hfound : ∀ d, pre d → (d.kind dest).toOption.isSome = true → failed d)
    (hcopy : Triple (fun d => pre d ∧ (d.kind dest).toOption.isSome = false)
      (copyDirectory Disk.pathLimit source dest : ExceptT TemplateError (StateM Workspace) Unit)
      post failed) :
    Triple pre (copyTree source dest : ExceptT TemplateError (StateM Workspace) Unit)
      post failed := by
  rw [copyTree]
  refine triple_bind (triple_pathExists dest) fun b => ?_
  cases b with
  | true => exact triple_throw fun d hd => hfound d hd.1 hd.2.symm
  | false =>
    refine triple_bind (triple_aside (fun _ => rfl) fun _ _ hd => hd) fun _ => ?_
    exact hcopy.weaken (fun d hd => ⟨hd.1, hd.2.symm⟩) (fun _ _ h => h) fun _ h => h

/-- The place a tree is copied to in a directory is one where nothing was, unless the path to it is
refused. -/
theorem triple_copyTree {source dir : Path} {name : String} (hn : IsMemberName name)
    (hdir : before.Reaches dir) (hexposed : ¬exposed (before.destination dir ++ [name])) :
    Triple (before.Spares exposed)
      (copyTree source (dir.join ⟨name⟩) : ExceptT TemplateError (StateM Workspace) Unit)
      (fun _ d => before.Spares exposed d ∧ (checkPath (dir.join ⟨name⟩) = .ok () →
        before.entryAt? (before.destination dir ++ [name]) = none))
      (before.Spares exposed) := by
  refine triple_copyTree_of_not_found (fun _ hd _ => hd) ?_
  refine Triple.weaken (triple_of_and fun hnone => ?_)
    (fun d hd => ⟨hd.1, hd.1.entryAt?_of_not_exists hn hdir hexposed hd.2⟩)
    (fun _ _ hd => hd) fun _ hd => hd
  refine (keeps_copyDirectory _ source _ (isEmpty_join hn.toIsFileName) fun hcheck l hl => ?_).weaken
    (fun _ hd => hd) (fun _ _ hd => ⟨hd, hnone⟩) fun _ hd => hd
  rw [destination_join hn.toIsFileName] at hl
  obtain ⟨rest, rfl⟩ := hl
  exact .inr (entryAt?_append_of_absent (hnone hcheck) rest)

end Copying

section Writing

private theorem triple_createTemporary (dir : Path) :
    Triple (before.Spares exposed)
      (Machine.createTemporary dir : Attempt (StateM Workspace) Path)
      (fun p d => before.Spares exposed d ∧ before.Free exposed (before.destination p))
      (before.Spares exposed) := by
  change Triple _ (act (·.createTemporary dir)) _ _
  exact triple_act (fun _ _ _ hd hop => hd.createTemporary hop) fun _ hd => hd

theorem triple_writeFile (p : Path) (octets : ByteArray)
    (hfree : before.Free exposed (before.destination p)) :
    Triple (before.Spares exposed)
      (Machine.writeFile p octets : Attempt (StateM Workspace) Unit)
      (fun _ d => before.Spares exposed d ∧
        d.entryAt? (before.destination p) = some (.file octets))
      (before.Spares exposed) :=
  triple_change (fun _ _ hd hop => hd.writeFile hop fun _ => hfree) fun _ hd => hd

private theorem keeps_remove (p : Path) (hfree : before.Free exposed (before.destination p)) :
    Keeps (before.Spares exposed) (Machine.remove p : Attempt (StateM Workspace) Unit) :=
  triple_change (fun _ _ hd hop => hd.remove hop hfree) fun _ hd => hd

/-- A file that is written by way of a temporary one is there with its text; where the writing
fails, it is as it was. -/
theorem triple_writeAtomic {hidden : Location → Prop} (file : Path) (text : String)
    (hsub : ∀ l, hidden l → exposed l)
    (hfree : checkPath file = .ok () → before.Free exposed (before.destination file)) :
    Triple (before.Spares hidden) (writeAtomic file text : Build (StateM Workspace) Unit)
      (fun _ d => before.Spares exposed d ∧
        d.entryAt? (before.destination file) = some (.file text.toUTF8))
      (before.Spares hidden) := by
  rw [writeAtomic]
  refine triple_adapt ?_
  refine triple_bind (triple_createTemporary _) fun temporary => triple_of_and fun htemporary => ?_
  have hbody : Triple (before.Spares hidden)
      (do Machine.writeFile temporary text.toUTF8
          Machine.sync temporary
          Machine.rename temporary file : Attempt (StateM Workspace) Unit)
      (fun _ d => before.Spares exposed d ∧
        d.entryAt? (before.destination file) = some (.file text.toUTF8))
      (before.Spares hidden) := by
    refine triple_bind (triple_writeFile _ _ htemporary) fun _ => ?_
    refine triple_bind (triple_ask (fun d _ hd _ => hd) fun _ hd => hd.1) fun _ => ?_
    refine triple_change (fun d d' hd hop => ?_) fun _ hd => hd.1
    exact (hd.1.mono hsub).rename hop hd.2 (htemporary.imp_left (hsub _)) hfree
  refine triple_tryCatch hbody fun e => ?_
  refine triple_bind (triple_tryCatch (keeps_remove _ htemporary) fun _ => ?_) fun _ => ?_
  · exact triple_pure fun _ hd => hd
  · exact triple_throw fun _ hd => hd

end Writing

end EnvCompose.Workspace
