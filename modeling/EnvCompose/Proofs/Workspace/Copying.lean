import EnvCompose.Proofs.Workspace.Frames

/-!
# What a copy is

A directory that is copied to a fresh place apart from it is found there again with all it holds.
While it is copied, there is nothing below the place but what the source has.
-/
namespace EnvCompose.Workspace
open Disk

/-- Whether a tree can be copied to a place: the place is in a directory, nothing is there, and it
is not in the tree. -/
structure Copyable (before : Disk) (tree place : Location) : Prop where
  present : before.entryAt? tree ≠ none
  absent : before.entryAt? place = none
  apart : ¬tree <+: place
  above : ∀ l, l <+: place → l ≠ place → before.entryAt? l = some .directory

/-- What may be below a place to which a tree is copied. -/
def CopyOf (before : Disk) (tree place l : Location) (e : Option Entry) : Prop :=
  ∃ rest, l = place ++ rest ∧ e = before.entryAt? (tree ++ rest)

/-- Whether a tree is being copied to a place, and the parts that are done are there. -/
structure Copying (before : Disk) (tree place : Location) (done : Location → Prop)
    (d : Disk) : Prop extends Alters before (CopyOf before tree place) d where
  copied : ∀ rest, done rest → d.entryAt? (place ++ rest) = before.entryAt? (tree ++ rest)

namespace Copying

variable {before d d' : Disk} {tree place rest : Location} {done other : Location → Prop}
  {p source dest : Path}

theorem refl (hd : before.Sound) : Copying before tree place (fun _ => False) before where
  toAlters := .refl hd
  copied _ h := h.elim

theorem extend (h : Copying before tree place done d)
    (hother : ∀ rest, other rest →
      done rest ∨ d.entryAt? (place ++ rest) = before.entryAt? (tree ++ rest)) :
    Copying before tree place other d where
  toAlters := h.toAlters
  copied rest hrest := (hother rest hrest).elim (h.copied rest) id

/-- A copy that is being made leaves the tree itself as it was. -/
theorem source_eq (h : Copying before tree place done d) (hc : Copyable before tree place)
    (rest : Location) : d.entryAt? (tree ++ rest) = before.entryAt? (tree ++ rest) := by
  refine h.entryAt?_eq ?_
  rintro ⟨other, heq, -⟩
  exact not_prefix_append hc.absent hc.present hc.apart rest ⟨other, heq.symm⟩

private theorem eq_none_of_source (h : Copying before tree place done d)
    (hc : Copyable before tree place)
    (hrest : before.entryAt? (tree ++ rest) = none) : d.entryAt? (place ++ rest) = none := by
  by_cases hsame : d.entryAt? (place ++ rest) = before.entryAt? (place ++ rest)
  · rw [hsame, entryAt?_append_of_absent hc.absent]
  · obtain ⟨other, heq, he⟩ := h.allows _ hsame
    rw [he, ← List.append_cancel_left heq, hrest]

theorem sets (h : Copying before tree place done d)
    (hs : Sets d (place ++ rest) (before.entryAt? (tree ++ rest)) d')
    (hnames : ∀ n ∈ place ++ rest, IsMemberName n)
    (hold : d.entryAt? (place ++ rest) ≠ some .directory) :
    Copying before tree place (fun l => done l ∨ l = rest) d' where
  toAlters := h.toAlters.sets hs (fun _ => hnames) hold ⟨rest, rfl, rfl⟩
  copied l hl := by
    by_cases heq : l = rest
    · rw [heq, hs.self]
    · rw [hs.of_ne fun h => heq (List.append_cancel_left h)]
      exact h.copied l (hl.resolve_right heq)

/-- A directory made on the way to a copied one is a copy too. -/
theorem makeDirectory (h : Copying before tree place done d) (hc : Copyable before tree place)
    (hdir : before.entryAt? (tree ++ rest) = some .directory)
    (hp : before.destination p <+: place ++ rest) (hop : d.makeDirectory p = .ok d') :
    Copying before tree place done d' := by
  obtain ⟨s, name, hfits, hnone, hs⟩ := of_makeDirectory hop
  have hnames := hfits.names h.sound
  rw [h.destination_eq] at hnone hs hnames
  have hbelow : place <+: before.destination p := by
    obtain hbelow | habove := List.prefix_or_prefix_of_prefix (List.prefix_append place rest) hp
    · exact hbelow
    · by_cases heq : before.destination p = place
      · exact heq ▸ List.prefix_refl _
      · have hkept := h.kept _ _ (hc.above _ habove heq) (.inl rfl)
        rw [hnone] at hkept
        cases hkept
  obtain ⟨upper, hupper⟩ := hbelow
  rw [← hupper] at hp hnone hs hnames
  have hsource : before.entryAt? (tree ++ upper) = some .directory := by
    refine entryAt?_above hdir ?_
    rw [List.prefix_append_right_inj] at hp ⊢
    exact hp
  rw [← hsource] at hs
  exact (h.sets hs hnames (by simp [hnone])).extend fun l hl => .inl (.inl hl)

theorem copyFile (h : Copying before tree place done d) (hc : Copyable before tree place)
    (hsource : before.destination source = tree ++ rest)
    (hdest : before.destination dest = place ++ rest) (hop : d.copyFile source dest = .ok d') :
    Copying before tree place (fun l => done l ∨ rest <+: l) d' := by
  have hapart : d.destination source ≠ d.destination dest := by
    rw [h.destination_eq, h.destination_eq, hsource, hdest]
    intro heq
    exact not_prefix_append hc.absent hc.present hc.apart rest ⟨rest, heq.symm⟩
  obtain ⟨octets, hfile, hwrite⟩ := of_copyFile_apart hop hapart
  obtain ⟨s, name, hfits, hold, hs⟩ := of_writeFile hwrite
  have hnames := hfits.names h.sound
  rw [h.destination_eq, hsource, h.source_eq hc] at hfile
  rw [h.destination_eq, hdest] at hs hold hnames
  rw [← hfile] at hs
  refine (h.sets hs hnames hold).extend fun l hl => ?_
  obtain hl | ⟨more, rfl⟩ := hl
  · exact .inl (.inl hl)
  · cases more with
    | nil => exact .inl (.inr (List.append_nil rest))
    | cons name more =>
      -- neither the file nor its copy holds anything
      have hsourceFile : before.entryAt? (tree ++ rest) ≠ some .directory := by simp [hfile]
      have hcopyFile : d'.entryAt? (place ++ rest) ≠ some .directory := by simp [hs.self, hfile]
      rw [← List.append_assoc, ← List.append_assoc]
      exact .inr ((Tree.entryAt?_append_of_not_directory hcopyFile (by simp)).trans
        (Tree.entryAt?_append_of_not_directory hsourceFile (by simp)).symm)

/-- A directory is copied when it is there and all its members are copied. -/
theorem directory {names : List String}
    (h : Copying before tree place
      (fun l => (done l ∨ l = rest) ∨ ∃ name ∈ names, rest ++ [name] <+: l) d)
    (hc : Copyable before tree place)
    (hnames : ∀ name, before.entryAt? (tree ++ (rest ++ [name])) ≠ none → name ∈ names) :
    Copying before tree place (fun l => done l ∨ rest <+: l) d := by
  refine h.extend fun l hl => ?_
  obtain hl | ⟨more, rfl⟩ := hl
  · exact .inl (.inl (.inl hl))
  · cases more with
    | nil => exact .inl (.inl (.inr (List.append_nil rest)))
    | cons name more =>
      rw [List.append_cons]
      by_cases hmem : name ∈ names
      · exact .inl (.inr ⟨name, hmem, List.prefix_append _ _⟩)
      · have hnone := not_not.mp (mt (hnames name) hmem)
        have hbelow : before.entryAt? (tree ++ (rest ++ [name] ++ more)) = none := by
          rw [← List.append_assoc]
          exact entryAt?_append_of_absent hnone more
        exact .inr ((h.eq_none_of_source hc hbelow).trans hbelow.symm)

end Copying

variable {before : Disk} {tree place rest : Location} {done : Location → Prop} {source dest : Path}
  {name : String} {depth : Nat} {failed : Disk → Prop}

/-- The directory of a copy is made, if nothing else keeps it from that. -/
theorem triple_makeDirectories_copying (hc : Copyable before tree place)
    (hdest : before.destination dest = place ++ rest) (hparent : dest.parent? ≠ none)
    (hdescends : before.Descends dest) (hdir : before.entryAt? (tree ++ rest) = some .directory) :
    Triple (Copying before tree place done)
      (Machine.makeDirectories dest : Attempt (StateM Workspace) Unit)
      (fun _ => Copying before tree place fun l => done l ∨ l = rest) (fun _ => True) := by
  refine (triple_makeDirectories_keeping hparent (fun _ hd => hd.sound)
    fun q d d' hq hd hop => ?_).weaken (fun _ h => h) (fun _ d hd => ?_) fun _ _ => trivial
  · exact hd.makeDirectory hc hdir (hdest ▸ hdescends.above_of_made hq hd.toSpares hop) hop
  · have hentry := hd.1.reached hd.2.1
    rw [hdest, ← hdir] at hentry
    refine hd.1.extend fun l hl => hl.imp_right ?_
    rintro rfl
    exact hentry

theorem Copying.of_list {d : Disk} {names : List String} (hc : Copyable before tree place)
    (hd : Copying before tree place done d) (hsource : before.destination source = tree ++ rest)
    (hop : d.list source = .ok names) : (∀ name ∈ names, IsMemberName name) ∧
      ∀ name, name ∈ names ↔ before.entryAt? (tree ++ (rest ++ [name])) ≠ none := by
  refine ⟨hd.sound.isMemberName_of_list hop, fun name => ?_⟩
  rw [mem_list_iff hop, hd.destination_eq, hsource, List.append_assoc, hd.source_eq hc]

/-- Whether a copy finds a directory in its source, by what was there before. -/
theorem triple_isDirectory_copying {ε : Type} (hc : Copyable before tree place)
    (hsource : before.destination source = tree ++ rest) :
    Triple (Copying before tree place done)
      (liftM (Machine.isDirectory source : StateM Workspace Bool) :
        ExceptT ε (StateM Workspace) Bool)
      (fun b d => (Copying before tree place done d ∧
          b = ((d.kind source).toOption == some .directory)) ∧
        (b = true → before.entryAt? (tree ++ rest) = some .directory)) failed := by
  refine (triple_isDirectory source).weaken (fun _ h => h) (fun b d hd => ⟨hd, fun hb => ?_⟩)
    fun _ h => h
  have hentry := hd.1.reached (reaches_of_kind (hd.2.symm.trans hb))
  rwa [hsource, hd.1.source_eq hc] at hentry

theorem triple_copyMembers_of (hc : Copyable before tree place)
    (hlist : Triple (Copying before tree place fun l => done l ∨ l = rest)
      (Machine.list source : Attempt (StateM Workspace) (List String))
      (fun names d => Copying before tree place (fun l => done l ∨ l = rest) d ∧
        (∀ name ∈ names, IsMemberName name) ∧
          ∀ name, name ∈ names ↔ before.entryAt? (tree ++ (rest ++ [name])) ≠ none) failed)
    (hmember : ∀ name (other : Location → Prop), IsMemberName name →
      before.entryAt? (tree ++ (rest ++ [name])) ≠ none → (∀ l, done l ∨ l = rest → other l) →
      Triple (Copying before tree place other) (copyMember depth source dest name)
        (fun _ => Copying before tree place fun l => other l ∨ rest ++ [name] <+: l) failed) :
    Triple (Copying before tree place fun l => done l ∨ l = rest) (copyMembers depth source dest)
      (fun _ => Copying before tree place fun l => done l ∨ rest <+: l) failed := by
  rw [copyMembers]
  refine triple_bind (triple_adapt hlist) fun names => triple_of_and fun ⟨hmembers, hnames⟩ => ?_
  -- each member leaves its part done beside those of the members before
  have hstep (copied : List String) (name : String) (hname : name ∈ names) :
      Triple (Copying before tree place fun l =>
          (done l ∨ l = rest) ∨ ∃ n ∈ copied, rest ++ [n] <+: l) (copyMember depth source dest name)
        (fun _ => Copying before tree place fun l =>
          (done l ∨ l = rest) ∨ ∃ n ∈ copied ++ [name], rest ++ [n] <+: l) failed := by
    refine (hmember name _ (hmembers name hname) ((hnames name).mp hname) fun _ => .inl).weaken
      (fun _ h => h) (fun _ d hd => hd.extend fun l hl => .inl ?_) fun _ h => h
    obtain hl | ⟨n, hn, hl⟩ := hl
    · exact .inl (.inl hl)
    · obtain hn | hn := List.mem_append.mp hn
      · exact .inl (.inr ⟨n, hn, hl⟩)
      · exact .inr (List.mem_singleton.mp hn ▸ hl)
  refine (triple_forM hstep []).weaken (fun d hd => hd.extend fun l hl => .inl ?_)
    (fun _ d hd => hd.directory hc fun name => (hnames name).mpr) fun _ h => h
  simpa using hl

/-- What a directory holds is copied with it, down to the last part. -/
theorem triple_copyDirectory (hc : Copyable before tree place) (depth : Nat)
    (hsource : before.destination source = tree ++ rest)
    (hdest : before.destination dest = place ++ rest) (hparent : dest.parent? ≠ none)
    (hdescends : before.Descends dest) (hdir : before.entryAt? (tree ++ rest) = some .directory) :
    Triple (Copying before tree place done)
      (copyDirectory depth source dest : ExceptT TemplateError (StateM Workspace) Unit)
      (fun _ => Copying before tree place fun l => done l ∨ rest <+: l) (fun _ => True) := by
  induction depth generalizing source dest rest done with
  | zero => exact triple_throw fun _ _ => trivial
  | succ depth ih =>
    rw [copyDirectory_succ]
    refine triple_bind (triple_adapt
      (triple_makeDirectories_copying hc hdest hparent hdescends hdir)) fun _ => ?_
    refine triple_copyMembers_of hc ?_ fun name other hn _ _ => ?_
    · exact triple_ask (fun d names hd hop => ⟨hd, hd.of_list hc hsource hop⟩) fun _ _ => trivial
    · have hname := hn.toIsFileName
      have hinner : before.destination (source.join ⟨name⟩) = tree ++ (rest ++ [name]) := by
        rw [destination_join hname, hsource, List.append_assoc]
      have hplace : before.destination (dest.join ⟨name⟩) = place ++ (rest ++ [name]) := by
        rw [destination_join hname, hdest, List.append_assoc]
      rw [copyMember]
      refine triple_bind (triple_isDirectory_copying hc hinner) fun b =>
        triple_of_and fun hdirectory => ?_
      refine Triple.weaken ?_ (fun _ hd => hd.1) (fun _ _ h => h) fun _ h => h
      split
      · rename_i hb
        exact ih hinner hplace (parent?_join_ne_none hname) (hdescends.join hname) (hdirectory hb)
      · refine triple_adapt (triple_change (fun d d' hd hop => ?_) fun _ _ => trivial)
        exact hd.copyFile hc hinner hplace hop

/-- A copy is made at a path that may be taken. -/
theorem triple_copyDirectory_refused (depth : Nat) (hparent : dest.parent? ≠ none)
    (hcheck : checkPath dest ≠ .ok ()) :
    Triple (fun _ => True)
      (copyDirectory depth source dest : ExceptT TemplateError (StateM Workspace) Unit)
      (fun _ _ => False) (fun _ => True) := by
  cases depth with
  | zero => exact triple_throw fun _ _ => trivial
  | succ depth =>
    rw [copyDirectory]
    have hmake : Triple (fun _ => True)
        (Machine.makeDirectories dest : Attempt (StateM Workspace) Unit)
        (fun _ _ => True ∧ checkPath dest = .ok ()) (fun _ => True) :=
      (triple_makeUpTo_checked _ hparent).weaken (fun _ _ => trivial) (fun _ _ h => ⟨trivial, h⟩)
        fun _ h => h
    exact triple_bind (triple_adapt hmake) fun _ => triple_of_and fun h => (hcheck h).elim

/-- A tree is copied into a directory apart from it. -/
theorem triple_copyTree_copied {source dir : Path} {name : String} (hd : before.Sound)
    (hn : IsMemberName name) (hdir : before.Reaches dir) (hup : ".." ∉ stepsOf dir)
    (hsource : before.entryAt? (before.destination source) = some .directory)
    (hout : ¬before.destination source <+: before.destination dir) :
    Triple (· = before)
      (copyTree source (dir.join ⟨name⟩) : ExceptT TemplateError (StateM Workspace) Unit)
      (fun _ d => before.Alters (fun l _ => before.destination dir ++ [name] <+: l) d ∧
        d.below (before.destination dir ++ [name]) = before.below (before.destination source))
      (fun _ => True) := by
  have hdest := destination_join (d := before) (p := dir) hn.toIsFileName
  have hparent := parent?_join_ne_none (p := dir) hn.toIsFileName
  refine triple_copyTree_of_not_found (fun _ _ _ => trivial) (triple_of_each fun d ⟨heq, hno⟩ => ?_)
  subst heq
  by_cases hcheck : checkPath (dir.join ⟨name⟩) = .ok ()
  · have hself : d.Spares (fun _ => False) d := Spares.refl hd
    have habsent := hself.entryAt?_of_not_exists hn hdir id hno hcheck
    have hc : Copyable d (d.destination source) (d.destination dir ++ [name]) := by
      refine ⟨by simp [hsource], habsent, fun hprefix => ?_, fun l =>
        directory_above hdir.destination⟩
      obtain heq | hprefix := List.prefix_concat_iff.mp hprefix
      · rw [heq, habsent] at hsource
        cases hsource
      · exact hout hprefix
    have hnothing (l : Location) : l = l ++ [] := (List.append_nil l).symm
    refine (triple_copyDirectory hc Disk.pathLimit (hnothing _) (hdest.trans (hnothing _)) hparent
      (descends_of_no_points (points_not_mem_join hn.toIsFileName hup))
      (by rwa [List.append_nil])).weaken
      (by rintro _ rfl; exact Copying.refl hd) (fun _ d' hd' => ⟨?_, ?_⟩) fun _ h => h
    · refine hd'.toAlters.mono fun l _ hl => ?_
      obtain ⟨rest, rfl, -⟩ := hl
      exact List.prefix_append _ _
    · funext rest
      exact hd'.copied rest (.inr List.nil_prefix)
  · exact (triple_copyDirectory_refused _ hparent hcheck).weaken (fun _ _ => trivial)
      (fun _ _ h => h.elim) fun _ h => h

end EnvCompose.Workspace
