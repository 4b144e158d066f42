import EnvCompose.Proofs.Workspace.Rereading

/-!
# Writing into a new directory

In a directory that is there, another one can be made under a free name, and a file can be written
to the new one in one step. All this takes is that the paths may be taken, that of the temporary
file, which is found from the root, among them.
-/
namespace EnvCompose

namespace Disk
open Slot Position

variable {d : Disk} {p q dir : Path} {name : String} {octets : ByteArray}

/-- The path of the working directory takes the steps down to it. -/
theorem stepsOf_homePath (hd : d.Sound) : stepsOf d.homePath = d.home := by
  have hnames : ∀ n ∈ d.home, IsMemberName n := hd.names d.home (by rw [hd.home]; simp)
  have htext : (homePath d).text.toList =
      [] ++ '/' :: List.intercalate ['/'] (d.home.map String.toList) := by
    simp [homePath, String.toList_intercalate]
  rw [stepsOf_eq, htext, Text.piecesOf_append_cons, Text.piecesOf_nil, List.nil_append]
  cases hhome : d.home with
  | nil => simp [List.intercalate]
  | cons first rest =>
    rw [← hhome, Text.piecesOf, Text.split_intercalate (by simp [hhome])]
    · have hkept : ∀ cs ∈ d.home.map String.toList, (!cs.isEmpty) = true := by
        intro cs hcs
        obtain ⟨n, hn, rfl⟩ := List.mem_map.mp hcs
        simpa using (hnames n hn).ne_empty
      rw [List.filter_eq_self.mpr hkept, List.map_map]
      simp
    · intro cs hcs
      obtain ⟨n, hn, rfl⟩ := List.mem_map.mp hcs
      exact (hnames n hn).no_slash

private theorem foldl_follow_of_names {names : List String} (h : ∀ n ∈ names, IsMemberName n)
    (l : Location) : names.foldl follow l = l ++ names := by
  induction names generalizing l with
  | nil => simp
  | cons name names ih =>
    obtain ⟨hname, hnames⟩ := List.forall_mem_cons.mp h
    rw [List.foldl_cons, follow_name hname.ne_point hname.ne_points, ih hnames, List.append_assoc,
      List.singleton_append]

private theorem isAbsolute_homePath_join (d : Disk) (q : Path) :
    (d.homePath.join q).isAbsolute = true := by
  rw [Path.join]
  cases hq : q.isAbsolute with
  | true => simpa using hq
  | false =>
    rw [if_neg Bool.false_ne_true]
    split <;> simp [Path.isAbsolute, homePath]

private theorem origin_homePath_join (d : Disk) (q : Path) : d.origin (d.homePath.join q) = [] := by
  rw [origin, isAbsolute_homePath_join, if_pos rfl]

/-- Found from the root, a relative path takes the steps down to the working directory first. -/
theorem stepsOf_homePath_join (hd : d.Sound) (hq : q.isAbsolute = false) :
    stepsOf (d.homePath.join q) = d.home ++ stepsOf q := by
  rw [stepsOf_join_relative hq, stepsOf_homePath hd]

private theorem foldl_follow_home (hd : d.Sound) : d.home.foldl follow [] = d.home := by
  have hnames : ∀ n ∈ d.home, IsMemberName n := hd.names d.home (by rw [hd.home]; simp)
  rw [foldl_follow_of_names hnames, List.nil_append]

/-- A path found from the root by way of the working directory leads where it does from there. -/
theorem destination_homePath_join (hd : d.Sound) (q : Path) :
    d.destination (d.homePath.join q) = d.destination q := by
  cases hq : q.isAbsolute with
  | true => simp [Path.join, hq]
  | false =>
    have hstart : d.origin q = d.home := by rw [origin, hq, if_neg Bool.false_ne_true]
    rw [destination, destination, origin_homePath_join, stepsOf_homePath_join hd hq, hstart,
      List.foldl_append, foldl_follow_home hd]

/-- A path that leads to a directory does so when it is found from the root. -/
theorem reaches_homePath_join (hd : d.Sound) (h : d.Reaches q) : d.Reaches (d.homePath.join q) := by
  cases hq : q.isAbsolute with
  | true => simpa [Path.join, hq] using h
  | false =>
    have hnames : ∀ n ∈ d.home, IsMemberName n := hd.names d.home (by rw [hd.home]; simp)
    have hdown := foldl_follow_home hd
    have hup : ".." ∉ d.home := fun hmem => (hnames _ hmem).ne_points rfl
    have hhome : d.Passes [] d.home := hd.passes_of_no_points hup (by rw [hdown, hd.home])
    rw [Reaches, origin, hq, if_neg Bool.false_ne_true] at h
    rw [Reaches, origin_homePath_join, stepsOf_homePath_join hd hq]
    exact passes_append.mpr ⟨hhome, hdown.symm ▸ h⟩

theorem exists_writeFile (hn : IsMemberName name) (hdir : d.Reaches dir)
    (hcheck : checkPath (dir.join ⟨name⟩) = .ok ())
    (hold : d.entryAt? (d.destination dir ++ [name]) ≠ some .directory) :
    ∃ d', d.writeFile (dir.join ⟨name⟩) octets = .ok d' := by
  obtain ⟨s, hs, hname, hfree⟩ := exists_free_slot hn hdir hcheck hold
  have hslash := endsWithSlash_join (p := dir) hn.toIsFileName
  simp [writeFile, hs, hname, hfree, hslash, bind, Except.bind, pure, Except.pure]

theorem exists_rename {around : Path} {other : String} (hn : IsMemberName name)
    (hdir : d.Reaches dir) (hcheck : checkPath (dir.join ⟨name⟩) = .ok ())
    (hold : d.entryAt? (d.destination dir ++ [name]) ≠ some .directory)
    (hother : IsMemberName other) (haround : d.Reaches around)
    (hsource : checkPath (around.join ⟨other⟩) = .ok ())
    (hfile : d.entryAt? (d.destination around ++ [other]) = some (.file octets)) :
    ∃ d', d.rename (around.join ⟨other⟩) (dir.join ⟨name⟩) = .ok d' := by
  obtain ⟨s, hs, hname, hfree⟩ := exists_free_slot hn hdir hcheck hold
  obtain ⟨found, hfound⟩ := exists_locate_join hother hsource haround hfile
  have hslash := endsWithSlash_join (p := dir) hn.toIsFileName
  have hnul := (checkPath_eq_ok_iff.mp hcheck).1
  have hnul' := (checkPath_eq_ok_iff.mp hsource).1
  simp [rename, hnul, hnul', hfound, hs, hname, hfree, hslash, bind, Except.bind, pure,
    Except.pure]

/-- Whether a path leads to a directory that holds nothing. -/
structure Vacant (d : Disk) (dir : Path) : Prop where
  reaches : d.Reaches dir
  holds_nothing : ∀ name, d.entryAt? (d.destination dir ++ [name]) = none

/-- The directory in which the temporary file of a file is made, found from the root. -/
def besides (d : Disk) (file : Path) : Path := d.homePath.join (file.parent?.getD ⟨"."⟩)

/-- Whether the path of the first temporary file for a file may be taken. -/
structure HasRoom (d : Disk) (file : Path) : Prop where
  checked : checkPath ((d.besides file).join ⟨temporaryName 0⟩) = .ok ()

theorem HasRoom.of_home {d' : Disk} {file : Path} (h : d.HasRoom file) (hhome : d'.home = d.home) :
    d'.HasRoom file := by
  have hsame : d'.besides file = d.besides file := by
    rw [besides, besides, homePath, homePath, hhome]
  exact ⟨hsame.symm ▸ h.checked⟩

/-- The temporary file of a file in a vacant directory is made in that directory. -/
theorem Vacant.besides (hd : d.Sound) (hn : IsFileName name) (h : d.Vacant dir) :
    d.Vacant (d.besides (dir.join ⟨name⟩)) := by
  obtain ⟨q, hq⟩ := Option.ne_none_iff_exists'.mp (parent?_join_ne_none (p := dir) hn)
  obtain ⟨points, hdirSteps, hpoints⟩ := exists_points_of_parent? hq (stepsOf_join hn) hn.ne_point
  have horigin : d.origin q = d.origin dir := by
    rw [origin, (above_of_parent? hq).isAbsolute_eq, isAbsolute_join hn, origin]
  obtain ⟨hreaches, hnothing⟩ := h
  have hplace : d.destination dir = d.destination q := by
    rw [destination, destination, hdirSteps, List.foldl_append, foldl_follow_of_points hpoints,
      horigin]
  rw [Reaches, hdirSteps, passes_append, ← horigin] at hreaches
  rw [Disk.besides, hq, Option.getD_some]
  refine ⟨reaches_homePath_join hd hreaches.1, fun other => ?_⟩
  rw [destination_homePath_join hd, ← hplace, hnothing]

private theorem isEmpty_besides (d : Disk) (file : Path) : (d.besides file).isEmpty = false := by
  have habsolute := isAbsolute_homePath_join d (file.parent?.getD ⟨"."⟩)
  rw [← besides, Path.isAbsolute] at habsolute
  rw [Bool.eq_false_iff]
  intro hempty
  rw [Path.isEmpty, String.isEmpty_iff] at hempty
  simp [hempty] at habsolute

theorem isMemberName_temporaryName : IsMemberName (temporaryName 0) :=
  ⟨isFileName_temporaryName 0, by decide +kernel⟩

theorem exists_createTemporary {around : Path} (haround : d.homePath.join q = around)
    (hne : around.isEmpty = false) (hvacant : d.Vacant around)
    (hroom : checkPath (around.join ⟨temporaryName 0⟩) = .ok ()) :
    ∃ d', d.createTemporary q = .ok (d', around.join ⟨temporaryName 0⟩) := by
  have htemporary := isMemberName_temporaryName
  obtain ⟨names, hlist⟩ := exists_list (checkPath_of_join htemporary.toIsFileName hne hroom)
    hvacant.reaches
  have hnames : names = [] := by
    refine List.eq_nil_iff_forall_not_mem.mpr fun other hother => ?_
    exact (mem_list_iff hlist).mp hother (hvacant.holds_nothing other)
  have hfresh : freshName [] = temporaryName 0 := by decide +kernel
  obtain ⟨d', hwrite⟩ : ∃ d', d.writeFile (around.join ⟨temporaryName 0⟩) .empty = .ok d' :=
    exists_writeFile htemporary hvacant.reaches hroom (by rw [hvacant.holds_nothing]; simp)
  refine ⟨d', ?_⟩
  rw [hnames] at hlist
  simp [createTemporary, haround, hroom, hlist, hfresh, hwrite, bind, Except.bind, pure,
    Except.pure]

theorem hasRoom_of_createTemporary {file : Path} {r : Disk × Path}
    (h : d.createTemporary (file.parent?.getD ⟨"."⟩) = .ok r) : d.HasRoom file := by
  rw [createTemporary] at h
  obtain ⟨_, hcheck, -⟩ := bind_eq_ok.mp h
  exact ⟨hcheck⟩

end Disk

namespace Workspace
open Disk

variable {before : Disk} {dir : Path} {name : String}

/-- A file that has been written had room for its temporary file. -/
theorem triple_writeAtomic_room (file : Path) (text : String) :
    Triple (·.home = before.home) (writeAtomic file text : Build (StateM Workspace) Unit)
      (fun _ _ => before.HasRoom file) (fun _ => True) := by
  have hcreate : Triple (·.home = before.home)
      (Machine.createTemporary (file.parent?.getD ⟨"."⟩) : Attempt (StateM Workspace) Path)
      (fun _ _ => before.HasRoom file) (fun _ => True) := by
    change Triple _ (act (·.createTemporary (file.parent?.getD ⟨"."⟩))) _ _
    refine triple_act (fun d d' p hhome hop => ?_) fun _ _ => trivial
    exact (hasRoom_of_createTemporary hop).of_home hhome.symm
  rw [writeAtomic]
  refine triple_adapt (triple_bind hcreate fun p => triple_of_each fun d hroom => ?_)
  exact (triple_trivial _).weaken (fun _ _ => trivial) (fun _ _ _ => hroom) fun _ h => h

section Held

variable {around : Path} {other : String} {d : Disk} {octets : ByteArray}

/-- A temporary file that is held is an entry of its directory, which is still there. -/
theorem Holds.entry_of_join (hother : IsMemberName other) (haround : before.Reaches around)
    (h : Holds before (around.join ⟨other⟩) octets d) :
    d.Reaches around ∧ d.entryAt? (d.destination around ++ [other]) = some (.file octets) := by
  have hfile := h.2
  rw [destination_join hother.toIsFileName, ← h.1.destination_eq] at hfile
  exact ⟨h.1.reaches haround, hfile⟩

/-- In a vacant directory the first temporary file is made. -/
private theorem triple_createTemporary_vacant {q : Path} (hd : before.Sound)
    (haround : before.homePath.join q = around) (hne : around.isEmpty = false)
    (hvacant : before.Vacant around) (hroom : checkPath (around.join ⟨temporaryName 0⟩) = .ok ()) :
    Triple (· = before) (Machine.createTemporary q : Attempt (StateM Workspace) Path)
      (fun p d => Holds before (around.join ⟨temporaryName 0⟩) .empty d ∧
        p = around.join ⟨temporaryName 0⟩) (fun _ => False) := by
  obtain ⟨made, hcreate⟩ := exists_createTemporary haround hne hvacant hroom
  obtain ⟨-, hheld⟩ := temporary_of_createTemporary hd hcreate
  change Triple _ (act (·.createTemporary q)) _ _
  refine triple_act_of_ok ?_
  rintro _ rfl
  exact ⟨made, _, hcreate, hheld, rfl⟩

private theorem triple_writeFile_held (hother : IsMemberName other)
    (haround : before.Reaches around)
    (hroom : checkPath (around.join ⟨other⟩) = .ok ()) (old new : ByteArray) :
    Triple (Holds before (around.join ⟨other⟩) old)
      (Machine.writeFile (around.join ⟨other⟩) new : Attempt (StateM Workspace) Unit)
      (fun _ => Holds before (around.join ⟨other⟩) new) (fun _ => False) := by
  refine triple_change_of_ok fun d h => ?_
  obtain ⟨hreaches, hfile⟩ := h.entry_of_join hother haround
  obtain ⟨d', hwrite⟩ := exists_writeFile hother hreaches hroom (by rw [hfile]; simp)
  exact ⟨d', hwrite, h.writeFile hwrite⟩

private theorem triple_sync_held (hother : IsMemberName other) (haround : before.Reaches around)
    (hroom : checkPath (around.join ⟨other⟩) = .ok ()) (octets : ByteArray) :
    Triple (Holds before (around.join ⟨other⟩) octets)
      (Machine.sync (around.join ⟨other⟩) : Attempt (StateM Workspace) Unit)
      (fun _ => Holds before (around.join ⟨other⟩) octets) (fun _ => False) := by
  refine triple_ask_of_ok fun d h => ⟨(), ?_, h⟩
  obtain ⟨hreaches, hfile⟩ := h.entry_of_join hother haround
  obtain ⟨found, hlocate⟩ := exists_locate_join hother hroom hreaches hfile
  rw [find, hlocate]
  rfl

/-- A temporary file is put in the place of a name that was free before it was made. -/
private theorem triple_rename_held (hother : IsMemberName other) (haround : before.Reaches around)
    (hroom : checkPath (around.join ⟨other⟩) = .ok ()) (hn : IsMemberName name)
    (hdir : before.Reaches dir) (hcheck : checkPath (dir.join ⟨name⟩) = .ok ())
    (hfree : before.entryAt? (before.destination dir ++ [name]) = none) (octets : ByteArray) :
    Triple (Holds before (around.join ⟨other⟩) octets)
      (Machine.rename (around.join ⟨other⟩) (dir.join ⟨name⟩) : Attempt (StateM Workspace) Unit)
      (fun _ _ => True) (fun _ => False) := by
  refine triple_change_of_ok fun d h => ?_
  obtain ⟨hreaches, hfile⟩ := h.entry_of_join hother haround
  have hroomLeft : d.entryAt? (d.destination dir ++ [name]) ≠ some .directory := by
    rw [h.1.destination_eq]
    intro hdirectory
    have hplace := h.1.allows _ (by rw [hdirectory, hfree]; simp)
    rw [hplace, h.2] at hdirectory
    cases hdirectory
  obtain ⟨d', hrename⟩ :=
    exists_rename hn (h.1.reaches hdir) hcheck hroomLeft hother hreaches hroom hfile
  exact ⟨d', hrename, trivial⟩

end Held

/-- In a vacant directory a file is written. -/
theorem triple_writeAtomic_vacant (hd : before.Sound) (hn : IsMemberName name)
    (hvacant : before.Vacant dir) (hcheck : checkPath (dir.join ⟨name⟩) = .ok ())
    (hroom : before.HasRoom (dir.join ⟨name⟩)) (text : String) :
    Triple (· = before) (writeAtomic (dir.join ⟨name⟩) text : Build (StateM Workspace) Unit)
      (fun _ _ => True) (fun _ => False) := by
  obtain ⟨around, haround⟩ : ∃ around, before.besides (dir.join ⟨name⟩) = around := ⟨_, rfl⟩
  have hne := isEmpty_besides before (dir.join ⟨name⟩)
  have hbeside := hvacant.besides hd hn.toIsFileName
  have hchecked := hroom.checked
  rw [haround] at hne hbeside hchecked
  have hother := isMemberName_temporaryName
  have hbody : Triple (Holds before (around.join ⟨temporaryName 0⟩) .empty)
      (do Machine.writeFile (around.join ⟨temporaryName 0⟩) text.toUTF8
          Machine.sync (around.join ⟨temporaryName 0⟩)
          Machine.rename (around.join ⟨temporaryName 0⟩) (dir.join ⟨name⟩) :
        Attempt (StateM Workspace) Unit)
      (fun _ _ => True) (fun _ => False) := by
    refine triple_bind (triple_writeFile_held hother hbeside.reaches hchecked _ _) fun _ => ?_
    refine triple_bind (triple_sync_held hother hbeside.reaches hchecked _) fun _ => ?_
    exact triple_rename_held hother hbeside.reaches hchecked hn hvacant.reaches hcheck
      (hvacant.holds_nothing name) _
  have hcreated := triple_createTemporary_vacant hd haround hne hbeside hchecked
  rw [writeAtomic]
  refine triple_adapt (triple_bind hcreated fun p => triple_of_and fun hp => ?_)
  subst hp
  exact triple_tryCatch hbody fun e => ⟨fun _ h => h.elim⟩

/-- In a directory that is there, one is made under a free name, and nothing is in it. -/
theorem triple_makeDirectories_vacant (hd : before.Sound) (hn : IsMemberName name)
    (hdir : before.Reaches dir) (hcheck : checkPath (dir.join ⟨name⟩) = .ok ())
    (hfree : before.entryAt? (before.destination dir ++ [name]) = none) :
    Triple (· = before)
      (Machine.makeDirectories (dir.join ⟨name⟩) : Attempt (StateM Workspace) Unit)
      (fun _ d => before.Within d ∧ d.Vacant (dir.join ⟨name⟩)) (fun _ => False) := by
  have hplace := destination_join (d := before) (p := dir) hn.toIsFileName
  have hpass := hdir
  rw [Reaches, ← origin_join hn.toIsFileName] at hpass
  obtain ⟨d', hmake⟩ := exists_makeDirectory hcheck (stepsOf_join hn.toIsFileName) hn hpass
    (by rw [hplace, hfree])
  obtain ⟨-, -, -, -, hsets⟩ := of_makeDirectory hmake
  have hwithin : before.Within d' := ((Spares.refl hd).makeDirectory hmake).1
  have hmade : d'.entryAt? (d'.destination dir ++ [name]) = some .directory := by
    rw [hwithin.destination_eq, ← hplace, hsets.self]
  have hvacant : d'.Vacant (dir.join ⟨name⟩) := by
    refine ⟨(hwithin.reaches hdir).join hn hmade, fun other => ?_⟩
    rw [hwithin.destination_eq, hsets.of_ne (by simp), hplace]
    exact entryAt?_append_of_absent hfree [other]
  obtain ⟨q, hq⟩ := Option.ne_none_iff_exists'.mp
    (parent?_join_ne_none (p := dir) hn.toIsFileName)
  obtain ⟨bound, hbound⟩ := Nat.exists_eq_add_of_lt (length_lt_of_parent? hq)
  rw [Machine.makeDirectories, hbound, Machine.makeUpTo.eq_3 _ _ _ hq]
  refine triple_catch (fun d hop => ?_) fun e he => ?_
  · rw [hmake] at hop
    cases hop
    exact ⟨hwithin, hvacant⟩
  · rw [hmake] at he
    cases he

end Workspace
end EnvCompose
