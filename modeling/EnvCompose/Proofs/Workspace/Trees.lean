import EnvCompose.Proofs.Disk.Admitting
import EnvCompose.Proofs.Workspace.Copying
import EnvCompose.Proofs.Workspace.Making

/-!
# Copying trees to fresh places

A tree is copied to a fresh place, with what is missing around it, unless the place is in the tree
itself. There a copy never ends well, since what it makes is always there to be copied next.
-/
namespace EnvCompose.Workspace
open Disk

section Succeeding

variable {before : Disk} {tree place rest : Location} {done : Location → Prop} {source dest : Path}

/-- While a tree is copied, the path to the place of a directory in it stays clear. -/
theorem clear_of_copying {d : Disk} (hc : Copyable before tree place)
    (h : Ready before tree place rest source dest) (hd : Copying before tree place done d) :
    d.Clear dest := by
  refine ⟨h.descends.of_spares hd.toSpares, h.size_le, fun l octets hl hfile => ?_⟩
  rw [hd.destination_eq, h.dest_eq] at hl
  by_cases hbelow : place <+: l
  · obtain ⟨upper, rfl⟩ := hbelow
    rw [List.prefix_append_right_inj] at hl
    have hsource : before.entryAt? (tree ++ upper) = some .directory :=
      entryAt?_above h.directory ((List.prefix_append_right_inj tree).mpr hl)
    by_cases hsame : d.entryAt? (place ++ upper) = before.entryAt? (place ++ upper)
    · rw [hsame, entryAt?_append_of_absent hc.absent] at hfile
      cases hfile
    · obtain ⟨other, heq, he⟩ := hd.allows _ hsame
      rw [← List.append_cancel_left heq, hsource, hfile] at he
      cases he
  · have habove : l <+: place :=
      (List.prefix_or_prefix_of_prefix hl (List.prefix_append place rest)).resolve_right hbelow
    have hne : l ≠ place := fun heq => hbelow (heq ▸ List.prefix_refl _)
    have hdirectory := hd.kept _ _ (hc.above l habove hne) (.inl rfl)
    rw [hfile] at hdirectory
    cases hdirectory

/-- The directory of a copy that is ready is made. -/
private theorem triple_makeDirectories_ready (hc : Copyable before tree place)
    (h : Ready before tree place rest source dest) :
    Triple (Copying before tree place done)
      (Machine.makeDirectories dest : Attempt (StateM Workspace) Unit)
      (fun _ => Copying before tree place fun l => done l ∨ l = rest) (fun _ => False) := by
  refine triple_of_each fun d hd => ?_
  have htotal := triple_makeDirectories_clear hd.sound (clear_of_copying hc h hd) h.checked_self.2
    h.last_ne
  exact (triple_and htotal (triple_makeDirectories_copying hc h.dest_eq h.parent_ne h.descends
    h.directory)).weaken (by rintro _ rfl; exact ⟨rfl, hd⟩) (fun _ _ h => h.2) fun _ h => h.1

/-- The source of a copy that is ready is listed, and no member is left out. -/
private theorem triple_list_ready (hc : Copyable before tree place)
    (h : Ready before tree place rest source dest) :
    Triple (Copying before tree place done)
      (Machine.list source : Attempt (StateM Workspace) (List String))
      (fun names d => Copying before tree place done d ∧ (∀ name ∈ names, IsMemberName name) ∧
        ∀ name, name ∈ names ↔ before.entryAt? (tree ++ (rest ++ [name])) ≠ none)
      (fun _ => False) := by
  refine triple_ask_of_ok fun d hd => ?_
  obtain ⟨names, hop⟩ := exists_list h.checked_self.1 (hd.toSpares.reaches h.reaches)
  exact ⟨names, hop, hd, hd.of_list hc h.source_eq hop⟩

/-- A file that is ready to be copied is copied. -/
private theorem triple_copyFile_ready (hc : Copyable before tree place)
    (h : Ready before tree place rest source dest) {name : String} (hn : IsMemberName name)
    {octets : ByteArray}
    (hfile : before.entryAt? (tree ++ (rest ++ [name])) = some (.file octets))
    (hmade : done rest) :
    Triple (Copying before tree place done)
      (Machine.copyFile (source.join ⟨name⟩) (dest.join ⟨name⟩) : Attempt (StateM Workspace) Unit)
      (fun _ => Copying before tree place fun l => done l ∨ rest ++ [name] <+: l)
      (fun _ => False) := by
  refine triple_change_of_ok fun d hd => ?_
  obtain ⟨hfrom, hto⟩ := h.checked_join (by rw [hfile]; simp)
  have hsource : d.entryAt? (d.destination source ++ [name]) = some (.file octets) := by
    rw [hd.destination_eq, h.source_eq, List.append_assoc, hd.source_eq hc, hfile]
  have hdest : d.Reaches dest := by
    refine (h.descends.of_spares hd.toSpares).reaches hd.sound ?_
    rw [hd.destination_eq, h.dest_eq, hd.copied rest hmade, h.directory]
  have hold : d.entryAt? (d.destination dest ++ [name]) ≠ some .directory := by
    rw [hd.destination_eq, h.dest_eq, List.append_assoc]
    by_cases hsame : d.entryAt? (place ++ (rest ++ [name])) =
        before.entryAt? (place ++ (rest ++ [name]))
    · rw [hsame, entryAt?_append_of_absent hc.absent]
      simp
    · obtain ⟨other, heq, he⟩ := hd.allows _ hsame
      rw [he, ← List.append_cancel_left heq, hfile]
      simp
  have hreaches := hd.toSpares.reaches h.reaches
  obtain ⟨d', hop⟩ := exists_copyFile hn hreaches hfrom hsource hdest hto hold
  refine ⟨d', hop, hd.copyFile hc ?_ ?_ hop⟩
  · rw [destination_join hn.toIsFileName, h.source_eq, List.append_assoc]
  · rw [destination_join hn.toIsFileName, h.dest_eq, List.append_assoc]

/-- Of a member that is a directory, the copy is that of the directory; otherwise it is a file. -/
private theorem triple_copyMember_ready (hc : Copyable before tree place) {depth : Nat}
    (h : Ready before tree place rest source dest) {name : String} (hn : IsMemberName name)
    (hthere : before.entryAt? (tree ++ (rest ++ [name])) ≠ none) (hmade : done rest)
    (hdirectory : before.entryAt? (tree ++ (rest ++ [name])) = some .directory →
      Triple (Copying before tree place done)
        (copyDirectory depth (source.join ⟨name⟩) (dest.join ⟨name⟩) :
          ExceptT TemplateError (StateM Workspace) Unit)
        (fun _ => Copying before tree place fun l => done l ∨ rest ++ [name] <+: l)
        (fun _ => False)) :
    Triple (Copying before tree place done) (copyMember depth source dest name)
      (fun _ => Copying before tree place fun l => done l ∨ rest ++ [name] <+: l)
      (fun _ => False) := by
  have hinner : before.destination (source.join ⟨name⟩) = tree ++ (rest ++ [name]) := by
    rw [destination_join hn.toIsFileName, h.source_eq, List.append_assoc]
  rw [copyMember]
  refine triple_bind (triple_isDirectory_copying hc hinner) fun b =>
    triple_of_and fun hb => triple_of_each fun d hlooked => ?_
  obtain ⟨hd, hlook⟩ := hlooked
  have hpre : ∀ d', d' = d → Copying before tree place done d' := by
    rintro _ rfl
    exact hd
  cases hentry : before.entryAt? (tree ++ (rest ++ [name])) with
  | none => exact (hthere hentry).elim
  | some e =>
    cases e with
    | directory =>
      have hreaches : d.Reaches (source.join ⟨name⟩) :=
        hd.toSpares.reaches (h.reaches.join hn (by rwa [h.source_eq, List.append_assoc]))
      have hyes : b = true := by
        rw [hlook, kind_of_reaches (h.checked_join hthere).1 hreaches]
        rfl
      rw [if_pos hyes]
      exact (hdirectory hentry).weaken hpre (fun _ _ h => h) fun _ h => h
    | file octets =>
      have hno : b ≠ true := fun hyes => by
        rw [hb hyes] at hentry
        cases hentry
      rw [if_neg hno]
      exact triple_adapt ((triple_copyFile_ready hc h hn hentry hmade).weaken hpre
        (fun _ _ h => h) fun _ h => h)

/-- What a directory holds is copied when that is ready. No path of the copy is longer than a path
can be, so none is deeper than the copy goes. -/
private theorem triple_copyMembers_ready (hc : Copyable before tree place) (depth : Nat)
    (h : Ready before tree place rest source dest)
    (hdepth : pathLimit ≤ depth + 1 + dest.text.utf8ByteSize) :
    Triple (Copying before tree place fun l => done l ∨ l = rest) (copyMembers depth source dest)
      (fun _ => Copying before tree place fun l => done l ∨ rest <+: l) (fun _ => False) := by
  induction depth generalizing source dest rest done with
  | zero =>
    refine triple_copyMembers_of hc (triple_list_ready hc h) fun name other hn hthere hother => ?_
    refine triple_copyMember_ready hc h hn hthere (hother rest (.inr rfl)) fun hdir => ?_
    obtain ⟨-, -, hsize⟩ := checkPath_eq_ok_iff.mp (h.join hn hdir).checked_self.2
    have hlonger := size_lt_join (p := dest) hn.toIsFileName
    omega
  | succ depth ih =>
    refine triple_copyMembers_of hc (triple_list_ready hc h) fun name other hn hthere hother => ?_
    refine triple_copyMember_ready hc h hn hthere (hother rest (.inr rfl)) fun hdir => ?_
    have hinner := h.join hn hdir
    have hlonger := size_lt_join (p := dest) hn.toIsFileName
    rw [copyDirectory_succ]
    exact triple_bind (triple_adapt (triple_makeDirectories_ready hc hinner)) fun _ =>
      ih hinner (by omega)

end Succeeding

section Made

variable {before d : Disk} {tree place : Location} (hd : before.Sound)
  (habsent : before.entryAt? place = none) (hdir : before.entryAt? tree = some .directory)
  (hout : ¬tree <+: place) (h : before.Alters (before.MadeTo place) d)
  (hmade : d.entryAt? place = some .directory)
include hd habsent hdir hout h hmade

/-- Where its place has been made, a tree can be copied as if to a disk without the place. -/
theorem copyable_without : Copyable (d.without place) tree place where
  present := by simp [(h.without hd habsent).kept tree _ hdir (.inl rfl)]
  absent := by
    have hself := without_self (d := d) (ne_nil_of_absent hd habsent) []
    rwa [List.append_nil] at hself
  apart := hout
  above l hl hne := by
    have hbelow : ¬place <+: l := fun hbelow => hne (hl.eq_of_length_le hbelow.length_le)
    rw [without_elsewhere hbelow, entryAt?_above hmade hl]

private theorem copying_without : Copying (d.without place) tree place (fun l => l = []) d where
  home := rfl
  sound := h.sound
  kept l e hl _ := by
    have hpresent : (d.without place).entryAt? l ≠ none := by simp [hl]
    rwa [← without_elsewhere
      (not_prefix_of_absent (copyable_without hd habsent hdir hout h hmade).absent hpresent)]
  allows l hne := by
    by_cases hbelow : place <+: l
    · obtain ⟨rest, rfl⟩ := hbelow
      refine ⟨rest, rfl, ?_⟩
      cases rest with
      | nil =>
        rw [List.append_nil, List.append_nil, hmade,
          (h.without hd habsent).kept tree _ hdir (.inl rfl)]
      | cons name rest =>
        -- nothing is in the directory yet
        refine (hne ?_).elim
        rw [without_self (ne_nil_of_absent hd habsent), h.entryAt?_eq fun hl => ?_,
          entryAt?_append_of_absent habsent]
        have hle := hl.1.length_le
        rw [List.length_append, List.length_cons] at hle
        omega
    · exact (hne (without_elsewhere hbelow).symm).elim
  copied rest hrest := by
    rw [hrest, List.append_nil, List.append_nil, hmade,
      (h.without hd habsent).kept tree _ hdir (.inl rfl)]

end Made

section Copied

variable {before : Disk} {source dest : Path}

/-- A tree is copied apart from itself, if the path of the copy ends in a name. -/
theorem triple_copyTree_ready (hd : before.Sound) (h : before.Admits source dest)
    (hlast : (stepsOf dest).getLast? ≠ some ".")
    (hout : ¬before.destination source <+: before.destination dest) :
    Triple (· = before) (copyTree source dest : ExceptT TemplateError (StateM Workspace) Unit)
      (fun _ d => d.below (before.destination dest) = before.below (before.destination source) ∧
        ∀ l, ¬before.destination dest <+: l → d.entryAt? l = before.entryAt? l ∨
          before.MadeTo (before.destination dest) l (d.entryAt? l))
      (fun _ => False) := by
  refine triple_copyTree_of_not_found (fun d heq hfound => ?_) ?_
  · rw [heq, h.not_found] at hfound
    cases hfound
  refine Triple.weaken ?_ (fun _ h => h.1) (fun _ _ h => h) fun _ h => h
  obtain ⟨depth, hdepth⟩ : ∃ depth, pathLimit = depth + 1 := ⟨_, rfl⟩
  rw [hdepth, copyDirectory_succ]
  have hmake : Triple (· = before) (Machine.makeDirectories dest : Attempt (StateM Workspace) Unit)
      (fun _ d => before.Alters (before.MadeTo (before.destination dest)) d ∧ d.Reaches dest)
      (fun _ => False) := by
    have htotal := triple_makeDirectories_clear hd h.clear h.checked_self.2 hlast
    exact (triple_and htotal (triple_makeDirectories_made hd h.clear.descends)).weaken
      (fun _ heq => ⟨heq, heq⟩) (fun _ _ h => h.2) fun _ h => h.1
  refine triple_bind (triple_adapt hmake) fun _ => triple_of_each fun d hd₁ => ?_
  obtain ⟨hgrown, hreaches⟩ := hd₁
  have hmade := hgrown.reached hreaches
  -- from here on it is as if the place had not been made yet
  have hfresh := hgrown.without hd (h.absent hd)
  have hready := h.ready hd hlast hout hfresh
  have hc := copyable_without hd (h.absent hd) h.directory hout hgrown hmade
  have hcopying := copying_without hd (h.absent hd) h.directory hout hgrown hmade
  have hmembers : Triple
      (Copying _ (before.destination source) (before.destination dest) fun l => False ∨ l = [])
      (copyMembers depth source dest) _ (fun _ => False) :=
    triple_copyMembers_ready hc depth hready (by omega)
  refine hmembers.weaken ?_ (fun _ d' hd' => ⟨?_, fun l hl => ?_⟩) fun _ h => h
  · rintro _ rfl
    exact hcopying.extend fun l hl => .inl (hl.resolve_left id)
  · funext rest
    rw [below, hd'.copied rest (.inr List.nil_prefix), below,
      hfresh.entryAt?_eq fun hl => hout ((List.prefix_append _ _).trans hl.1)]
  · rw [hd'.entryAt?_eq fun ⟨rest, heq, _⟩ => hl ⟨rest, heq.symm⟩]
    exact (em _).imp_right (hfresh.allows l)

/-- Whatever comes of it, a copy to a place where nothing is spares what is there. -/
theorem keeps_copyTree_fresh (hd : before.Sound) (h : before.Admits source dest) :
    Keeps (before.Spares fun _ => False)
      (copyTree source dest : ExceptT TemplateError (StateM Workspace) Unit) := by
  refine triple_copyTree_of_not_found (fun _ hd _ => hd) ?_
  refine Triple.weaken ?_ (fun _ h => h.1) (fun _ _ h => h) fun _ h => h
  obtain ⟨-, hempty, -⟩ := checkPath_eq_ok_iff.mp h.checked_self.2
  refine keeps_copyDirectory _ _ _ hempty fun _ l hl => .inr ?_
  obtain ⟨rest, rfl⟩ := hl
  exact entryAt?_append_of_absent (h.absent hd) rest

end Copied

section Failing

variable {before : Disk} {source dest : Path}

private theorem triple_copyFile_directory
    (hdir : before.entryAt? (before.destination source) = some .directory) :
    Triple (before.Spares fun _ => True)
      (Machine.copyFile source dest : Attempt (StateM Workspace) Unit) (fun _ _ => False)
      (fun _ => True) := by
  refine triple_change (fun d d' hd hop => ?_) fun _ _ => trivial
  obtain ⟨octets, hfile⟩ := exists_file_of_copyFile hop
  rw [hd.destination_eq, hd.kept _ _ hdir (.inl rfl)] at hfile
  cases hfile

private theorem triple_list_member {d : Disk} {name : String} (hd : d.Sound)
    (hthere : d.entryAt? (d.destination source ++ [name]) = some .directory) :
    Triple (· = d) (Machine.list source : Attempt (StateM Workspace) (List String))
      (fun names d' => d.Spares (fun _ => True) d' ∧ name ∈ names ∧ ∀ n ∈ names, IsMemberName n)
      (fun _ => True) := by
  refine triple_ask (fun d' names heq hop => ?_) fun _ _ => trivial
  subst heq
  exact ⟨.refl hd, (mem_list_iff hop).mpr (by simp [hthere]), hd.isMemberName_of_list hop⟩

/-- A copy into the tree itself never ends well: on the way to its place there is always one more
directory to be copied, and its place is in that. -/
theorem triple_copyDirectory_within (depth : Nat) {inside : Location} (hinside : inside ≠ [])
    (hplace : before.destination dest = before.destination source ++ inside) :
    Triple (before.Spares fun _ => True)
      (copyDirectory depth source dest : ExceptT TemplateError (StateM Workspace) Unit)
      (fun _ _ => False) (fun _ => True) := by
  induction depth generalizing before source dest inside with
  | zero => exact triple_throw fun _ _ => trivial
  | succ depth ih =>
    rw [copyDirectory_succ, copyMembers]
    refine triple_bind (triple_adapt (triple_makeDirectories dest).dismiss) fun _ =>
      triple_of_each fun d hmade => ?_
    obtain ⟨hd, hreaches⟩ := hmade
    obtain ⟨name, inside, rfl⟩ := List.exists_cons_of_ne_nil hinside
    have hplace : d.destination dest = d.destination source ++ name :: inside := by
      rw [hd.destination_eq, hd.destination_eq, hplace]
    have hthere : d.entryAt? (d.destination source ++ [name]) = some .directory := by
      refine entryAt?_above hreaches.entryAt?_destination ?_
      rw [hplace]
      exact ⟨inside, by simp⟩
    refine triple_bind (triple_adapt (triple_list_member hd.sound hthere)) fun names =>
      triple_of_and fun hlisted => ?_
    obtain ⟨hmem, hnames⟩ := hlisted
    have hkeep (n : String) (hn : n ∈ names) :
        Keeps (d.Spares fun _ => True) (copyMember depth source dest n) := by
      have hfile := (hnames n hn).toIsFileName
      exact keeps_copyMember
        (keeps_copyDirectory depth _ _ (isEmpty_join hfile) fun _ _ _ => .inl trivial)
        (keeps_copyFile _ _ fun _ => .inl trivial)
    refine triple_forM_never hmem (fun n hn => (hkeep n hn).dismiss) ?_
    have hn := (hnames name hmem).toIsFileName
    rw [copyMember]
    refine triple_bind (triple_isDirectory (source.join ⟨name⟩)) fun b => ?_
    refine Triple.weaken ?_ (fun _ hd => hd.1) (fun _ _ h => h) fun _ h => h
    split
    · -- the same again, one directory down
      have hinner : inside ++ [name] ≠ [] := by simp
      refine ih hinner ?_
      rw [destination_join hn, destination_join hn, hplace]
      simp
    · refine triple_adapt (triple_copyFile_directory ?_)
      rwa [destination_join hn]

/-- A copy into the tree itself, or to a path that ends in a point, never ends well. -/
theorem triple_copyTree_never (hd : before.Sound) (h : before.Admits source dest)
    (hno : before.destination source <+: before.destination dest ∨
      (stepsOf dest).getLast? = some ".") :
    Triple (· = before) (copyTree source dest : ExceptT TemplateError (StateM Workspace) Unit)
      (fun _ _ => False) (fun _ => True) := by
  refine triple_copyTree_of_not_found (fun _ _ _ => trivial) ?_
  refine Triple.weaken ?_ (fun _ h => h.1) (fun _ _ h => h) fun _ h => h
  have hself : before.Spares (fun _ => True) before := .refl hd
  obtain ⟨inside, hplace⟩ | hlast := hno
  · have hinside : inside ≠ [] := fun hnil => by
      have habsent := h.absent hd
      rw [← hplace, hnil, List.append_nil, h.directory] at habsent
      cases habsent
    exact (triple_copyDirectory_within _ hinside hplace.symm).weaken (by rintro _ rfl; exact hself)
      (fun _ _ h => h) fun _ h => h
  · obtain ⟨depth, hdepth⟩ : ∃ depth, pathLimit = depth + 1 := ⟨_, rfl⟩
    rw [hdepth, copyDirectory_succ]
    have hmake := triple_makeDirectories_pointed hd h.clear.descends (h.absent hd) hlast
    exact triple_bind (triple_adapt hmake) fun _ => triple_of_each fun _ hfalse => hfalse.elim

end Failing

/-- A directory is copied to a fresh path exactly if the path does not lead into the directory
itself and does not end in a point. The copy is then what the directory was, and elsewhere
directories are made on the way to it and that is all. In any case what was there is there still. -/
theorem copyTree_succeeds_iff {w : Workspace} (hd : w.disk.Sound) {source dest : Path}
    (h : w.disk.Admits source dest) {r : Except TemplateError Unit} {w' : Workspace}
    (hrun : w.run (copyTree source dest) = (r, w')) :
    (r.isOk = true ↔ ¬w.disk.destination source <+: w.disk.destination dest ∧
      (stepsOf dest).getLast? ≠ some ".") ∧
    (∀ l e, w.disk.entryAt? l = some e → w'.disk.entryAt? l = some e) ∧
    (r.isOk = true →
      (∀ rest, w'.disk.entryAt? (w.disk.destination dest ++ rest) =
        w.disk.entryAt? (w.disk.destination source ++ rest)) ∧
      ∀ l, ¬w.disk.destination dest <+: l → w'.disk.entryAt? l = w.disk.entryAt? l ∨
        l <+: w.disk.destination dest ∧ w.disk.entryAt? l = none ∧
          w'.disk.entryAt? l = some .directory) := by
  have hkept := run_of_keeps (keeps_copyTree_fresh hd h) (w := w) (.refl hd)
  rw [hrun] at hkept
  have hkept := fun l e hl => hkept.kept l e hl (.inr id)
  by_cases hout : ¬w.disk.destination source <+: w.disk.destination dest ∧
      (stepsOf dest).getLast? ≠ some "."
  · have houtcome := (triple_copyTree_ready hd h hout.2 hout.1).outcome w rfl
    rw [hrun] at houtcome
    cases r with
    | error e => exact houtcome.elim
    | ok _ => exact ⟨iff_of_true rfl hout, hkept, fun _ => ⟨congrFun houtcome.1, houtcome.2⟩⟩
  · have hno := hout
    rw [not_and_or, not_not, not_not] at hno
    have hfails := isOk_eq_false (triple_copyTree_never hd h hno) (rfl : w.disk = w.disk)
    rw [hrun] at hfails
    exact ⟨iff_of_false (by simp [hfails]) hout, hkept, fun hok => by simp [hfails] at hok⟩

section Witness

/-- A workspace with a directory where paths start. -/
def holding (members : List (String × Tree)) : Workspace where
  disk := { root := .directory [("work", .directory [("s", .directory members)])],
            home := ["work"] }

theorem sound_holding {members : List (String × Tree)}
    (h : ∀ m ∈ members, IsMemberName m.1 ∧
      ∀ l, m.2.entryAt? l ≠ none → ∀ name ∈ l, IsMemberName name) :
    (holding members).disk.Sound where
  names := by
    have hwork : IsMemberName "work" := by decide
    have hs : IsMemberName "s" := by decide
    refine names_of_members (List.forall_mem_singleton.mpr ⟨hwork, names_of_members ?_⟩)
    exact List.forall_mem_singleton.mpr ⟨hs, names_of_members h⟩
  home := rfl

/-- The members of a directory with a file in another. -/
def nestedFile : List (String × Tree) := [("a", .directory [("f", .file "x".toUTF8)])]

private theorem sound_holding_nestedFile : (holding nestedFile).disk.Sound := by
  refine sound_holding (List.forall_mem_singleton.mpr ⟨by decide, names_of_members ?_⟩)
  exact List.forall_mem_singleton.mpr ⟨by decide, names_of_file _⟩

private theorem admits_nestedFile : (holding nestedFile).disk.Admits ⟨"s"⟩ ⟨"x/y"⟩ where
  source_kind := by decide +kernel
  not_found := by decide +kernel
  clear := clear_of_no_points (by decide +kernel) (by decide +kernel) (by decide +kernel)
  checked := by
    have hplace : (holding nestedFile).disk.destination ⟨"s"⟩ = ["work", "s"] := by decide +kernel
    rw [hplace]
    refine forall_of_members (by decide +kernel) (List.forall_mem_singleton.mpr ?_)
    refine forall_of_members (by decide +kernel) (List.forall_mem_singleton.mpr ?_)
    exact forall_of_file (by decide +kernel)

theorem copyTree_succeeds_iff_nestedFile : (holding nestedFile).disk.Sound ∧
    (holding nestedFile).disk.Admits ⟨"s"⟩ ⟨"x/y"⟩ ∧
      ∃ w', (holding nestedFile).run (copyTree ⟨"s"⟩ ⟨"x/y"⟩) = (.ok (), w') ∧
        w'.disk.entryAt? ["work", "x", "y", "a", "f"] = some (.file "x".toUTF8) := by
  refine ⟨sound_holding_nestedFile, admits_nestedFile, ?_⟩
  rcases hrun : (holding nestedFile).run (copyTree ⟨"s"⟩ ⟨"x/y"⟩) with ⟨r, w'⟩
  obtain ⟨hiff, -, hcopied⟩ := copyTree_succeeds_iff sound_holding_nestedFile admits_nestedFile hrun
  have hok : r.isOk = true := hiff.mpr ⟨by decide +kernel, by decide +kernel⟩
  have hplace : (holding nestedFile).disk.destination ⟨"x/y"⟩ = ["work", "x", "y"] := by
    decide +kernel
  have hfile := (hcopied hok).1 ["a", "f"]
  rw [hplace] at hfile
  cases r with
  | error e => cases hok
  | ok _ => exact ⟨w', rfl, hfile⟩

/-- Nothing but where it is keeps a directory from being copied into itself. -/
theorem admits_within {name : String} (hn : IsMemberName name)
    (hcheck : checkPath ((⟨"s"⟩ : Path).join ⟨name⟩) = .ok ()) :
    (holding []).disk.Admits ⟨"s"⟩ ((⟨"s"⟩ : Path).join ⟨name⟩) := by
  have hsource : (holding []).disk.destination ⟨"s"⟩ = ["work", "s"] := by decide +kernel
  have hdest : (holding []).disk.destination ((⟨"s"⟩ : Path).join ⟨name⟩) =
      ["work", "s"] ++ [name] := by
    rw [destination_join hn.toIsFileName, hsource]
  have haround : (holding []).disk.entryAt? ["work", "s"] = some .directory := rfl
  have habsent : (holding []).disk.entryAt? (["work", "s"] ++ [name]) = none := rfl
  have hsteps : stepsOf ⟨"s"⟩ = ["s"] := by decide +kernel
  refine ⟨by decide +kernel, ?_, ⟨?_, fun step hstep => ?_, fun l octets hl hfile => ?_⟩, ?_⟩
  · by_contra hfound
    exact (of_kind (Option.isSome_iff_ne_none.mpr hfound)).2 (hdest ▸ habsent)
  · exact (descends_of_no_points (by simp [hsteps])).join hn.toIsFileName
  · rw [stepsOf_join hn.toIsFileName, hsteps, List.mem_append, List.mem_singleton,
      List.mem_singleton] at hstep
    obtain rfl | rfl := hstep
    · decide
    · exact hn.size_le
  · rw [hdest] at hl
    have hdirectory := directory_above haround hl fun heq => by
      rw [heq, habsent] at hfile
      cases hfile
    rw [hfile] at hdirectory
    cases hdirectory
  · rw [hsource]
    exact forall_of_members ⟨by decide +kernel, hcheck⟩ (by simp)

def longestName : String := String.ofList (List.replicate maxName 'd')

private theorem isMemberName_longestName : IsMemberName longestName := by
  have htext : longestName.toList = List.replicate maxName 'd' := String.toList_ofList
  have hmem : 'd' ∈ longestName.toList := by
    rw [htext]
    exact List.mem_replicate.mpr ⟨by decide, rfl⟩
  refine isMemberName_iff.mpr ⟨?_, ?_, ?_, ?_, by decide +kernel⟩
  · intro h
    simp [h] at hmem
  · rw [htext]
    exact fun hslash => absurd (List.eq_of_mem_replicate hslash) (by decide)
  · intro h
    simp [h] at hmem
  · intro h
    simp [h] at hmem

private theorem checkPath_longestName : checkPath ((⟨"s"⟩ : Path).join ⟨longestName⟩) = .ok () := by
  have htext : ((⟨"s"⟩ : Path).join ⟨longestName⟩).text = "s/" ++ longestName := by
    rw [Path.join, isMemberName_longestName.toIsFileName.not_isAbsolute]
    rfl
  refine checkPath_eq_ok_iff.mpr ⟨?_, isEmpty_join isMemberName_longestName.toIsFileName, ?_⟩
  · rw [hasNul, htext, String.toList_append, longestName, String.toList_ofList]
    simp
  · rw [htext]
    decide +kernel

/-- A directory with nothing in it cannot be copied into itself. -/
theorem copyTree_fails_within : (holding []).disk.Sound ∧
    (holding []).disk.Admits ⟨"s"⟩ ((⟨"s"⟩ : Path).join ⟨longestName⟩) ∧
      ((holding []).run (copyTree ⟨"s"⟩ ((⟨"s"⟩ : Path).join ⟨longestName⟩))).1.isOk = false := by
  have hd : (holding []).disk.Sound := sound_holding (by simp)
  have h := admits_within isMemberName_longestName checkPath_longestName
  refine ⟨hd, h, isOk_eq_false (triple_copyTree_never hd h (.inl ?_)) rfl⟩
  rw [destination_join isMemberName_longestName.toIsFileName]
  exact List.prefix_append _ _

end Witness

end EnvCompose.Workspace
