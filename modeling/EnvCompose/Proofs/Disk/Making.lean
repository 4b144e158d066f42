import EnvCompose.Proofs.Disk.Frames

/-!
# Which directories can be made

A directory can be made unless a file is in the way, a name is too long or what is around it is
missing. A path may lead up only by way of directories that are there already.
-/
namespace EnvCompose.Disk

variable {d before : Disk} {p q : Path} {others : List String} {last name : String}

/-- Whether a path leads up only by way of directories that are there. -/
def Descends (d : Disk) (p : Path) : Prop :=
  ∃ front back, stepsOf p = front ++ back ∧ (front = [] ∨ d.Passes (d.origin p) front) ∧
    ".." ∉ back

theorem descends_of_no_points (hup : ".." ∉ stepsOf p) : d.Descends p :=
  ⟨[], stepsOf p, rfl, .inl rfl, hup⟩

namespace Descends

theorem join (hn : IsFileName name) (h : d.Descends p) : d.Descends (p.join ⟨name⟩) := by
  obtain ⟨front, back, hsteps, hfront, hback⟩ := h
  refine ⟨front, back ++ [name], ?_, ?_, ?_⟩
  · rw [stepsOf_join hn, hsteps, List.append_assoc]
  · rwa [origin_join hn]
  · rw [List.mem_append, List.mem_singleton, not_or]
    exact ⟨hback, Ne.symm hn.ne_points⟩

theorem of_spares {exposed : Location → Prop} (h : before.Descends p)
    (hd : before.Spares exposed d) : d.Descends p := by
  obtain ⟨front, back, hsteps, hfront, hback⟩ := h
  refine ⟨front, back, hsteps, hfront.imp_right fun hpass => ?_, hback⟩
  have hmono := passes_mono (fun l hl => hd.kept l _ hl (.inl rfl)) hpass
  rwa [origin, hd.home]

/-- A descending path to a directory that is there leads to it. -/
theorem reaches (hd : d.Sound) (h : d.Descends p)
    (hdir : d.entryAt? (d.destination p) = some .directory) : d.Reaches p := by
  obtain ⟨front, back, hsteps, hfront, hback⟩ := h
  rw [destination, hsteps, List.foldl_append] at hdir
  rw [Reaches, hsteps]
  obtain rfl | hpass := hfront
  · exact hd.passes_of_no_points hback hdir
  · exact passes_append.mpr ⟨hpass, hd.passes_of_no_points hback hdir⟩

/-- A path on the way of a descending one descends too, or leads to a directory that is there. -/
theorem of_above (h : d.Descends p) (hq : Above q p) :
    d.Descends q ∧ (d.destination q <+: d.destination p ∨ d.Reaches q) := by
  obtain ⟨front, back, hsteps, hfront, hback⟩ := h
  have horigin : d.origin q = d.origin p := by rw [origin, origin, hq.isAbsolute_eq]
  obtain ⟨more, hmore⟩ | ⟨more, hmore⟩ :=
    List.prefix_or_prefix_of_prefix (hsteps ▸ List.prefix_append front back) hq.steps
  · obtain ⟨rest, hrest⟩ := hq.steps
    rw [← hmore, hsteps, List.append_assoc, List.append_right_inj] at hrest
    rw [← hrest, List.mem_append, not_or] at hback
    refine ⟨⟨front, more, hmore.symm, by rwa [horigin], hback.1⟩, .inl ?_⟩
    rw [destination, destination, ← hmore, hsteps, ← hrest, horigin, ← List.append_assoc,
      List.foldl_append (l := front ++ more)]
    exact prefix_foldl_follow hback.2
  · have hreaches (hpass : d.Passes (d.origin p) front) : d.Reaches q := by
      rw [← hmore] at hpass
      rw [Reaches, horigin]
      exact (passes_append.mp hpass).1
    refine ⟨⟨stepsOf q, [], (List.append_nil _).symm, ?_, List.not_mem_nil⟩, ?_⟩
    · refine hfront.imp (fun hnil => ?_) hreaches
      rw [hnil, List.append_eq_nil_iff] at hmore
      exact hmore.1
    · refine (hfront.imp (fun hnil => ?_) hreaches)
      rw [hnil, List.append_eq_nil_iff] at hmore
      rw [hnil, List.nil_append] at hsteps
      rw [destination, hmore.1, horigin, destination, hsteps]
      exact prefix_foldl_follow hback

/-- What is made on the way of a descending path is above its destination. -/
theorem above_of_made {exposed : Location → Prop} {d' : Disk} (h : before.Descends p)
    (hq : Above q p) (hd : before.Spares exposed d) (hop : d.makeDirectory q = .ok d') :
    before.destination q <+: before.destination p := by
  obtain hplace | hreaches := (h.of_above hq).2
  · exact hplace
  · obtain ⟨s, name, -, hnone, -⟩ := of_makeDirectory hop
    have hdirectory := (hd.reaches hreaches).entryAt?_destination
    rw [hnone] at hdirectory
    cases hdirectory

end Descends

/-- Whether nothing but what is missing keeps a path from leading to a directory. -/
structure Clear (d : Disk) (p : Path) : Prop where
  descends : d.Descends p
  size_le : ∀ step ∈ stepsOf p, step.utf8ByteSize ≤ maxName
  no_file : ∀ l octets, l <+: d.destination p → d.entryAt? l ≠ some (.file octets)

/-- A path that goes down is clear if nothing but directories is on the way. -/
theorem clear_of_no_points (hup : ".." ∉ stepsOf p)
    (hsize : ∀ step ∈ stepsOf p, step.utf8ByteSize ≤ maxName)
    (hway : ∀ n ≤ (d.destination p).length,
      (d.entryAt? ((d.destination p).take n)).getD .directory = .directory) :
    d.Clear p where
  descends := descends_of_no_points hup
  size_le := hsize
  no_file l octets hl hfile := by
    have hdirectory := hway l.length hl.length_le
    rw [← List.prefix_iff_eq_take.mp hl, hfile] at hdirectory
    cases hdirectory

/-- Whether a disk differs from the one before by new directories alone. -/
abbrev GrowsTo (before d : Disk) : Prop := before.Alters (fun _ e => e = some .directory) d

namespace Clear

theorem above (h : d.Clear p) (hq : Above q p) : d.Clear q := by
  obtain ⟨hdescends, hplace⟩ := h.descends.of_above hq
  have hsizes : ∀ step ∈ stepsOf q, step.utf8ByteSize ≤ maxName := fun step hstep =>
    h.size_le step (hq.steps.subset hstep)
  refine ⟨hdescends, hsizes, fun l octets hl => ?_⟩
  obtain hplace | hreaches := hplace
  · exact h.no_file l octets (hl.trans hplace)
  · rw [entryAt?_above hreaches.entryAt?_destination hl]
    simp

theorem of_growsTo (h : before.Clear p) (hd : before.GrowsTo d) : d.Clear p := by
  refine ⟨h.descends.of_spares hd.toSpares, h.size_le, fun l octets hl hfile => ?_⟩
  rw [hd.destination_eq] at hl
  by_cases hsame : d.entryAt? l = before.entryAt? l
  · exact h.no_file l octets hl (hsame ▸ hfile)
  · have hdirectory := hd.allows l hsame
    rw [hfile] at hdirectory
    cases hdirectory

end Clear

open Position

private theorem step_eq_notFound {start : Position} {step : String} (hstart : On d start)
    (hdir : start.tree.isDirectory = true) (hup : step ≠ "..")
    (hsize : step.utf8ByteSize ≤ maxName) (he : d.entryAt? (follow start.location step) = none) :
    Position.step d.root start step = .error .notFound := by
  cases htree : start.tree with
  | file octets => simp [htree, Tree.isDirectory] at hdir
  | directory members =>
    by_cases hpoint : step = "."
    · subst hpoint
      rw [follow_point, hstart.entryAt?] at he
      cases he
    · rw [follow_name hpoint hup, entryAt?, Tree.entryAt?, Tree.get?_snoc, hstart] at he
      have hlookup : members.lookup step = none := by simpa [htree] using he
      simp [Position.step, htree, hpoint, hup, hlookup, Nat.not_lt.mpr hsize]

/-- Steps down lead through directories, or come to where nothing is. -/
theorem passes_or_walk_eq {start : Position} (hstart : On d start) {steps : List String}
    (hup : ".." ∉ steps) (hsize : ∀ step ∈ steps, step.utf8ByteSize ≤ maxName)
    (hfile : ∀ l octets, start.location <+: l → l <+: steps.foldl follow start.location →
      d.entryAt? l ≠ some (.file octets)) :
    d.Passes start.location steps ∨ d.walk start steps = .error .notFound := by
  induction steps generalizing start with
  | nil =>
    have hentry := hstart.entryAt?
    cases htree : start.tree with
    | directory members => exact .inl (by rw [Passes, hentry, htree]; rfl)
    | file octets =>
      rw [htree] at hentry
      exact (hfile _ octets (List.prefix_refl _) (List.prefix_refl _) hentry).elim
  | cons step steps ih =>
    rw [List.mem_cons, not_or] at hup
    obtain ⟨hle, hsizes⟩ := List.forall_mem_cons.mp hsize
    have hbelow : follow start.location step <+: (step :: steps).foldl follow start.location :=
      prefix_foldl_follow hup.2
    have hone : ".." ∉ [step] := by simpa using hup.1
    have hdown : start.location <+: follow start.location step := prefix_foldl_follow hone
    have hdirectory : start.tree.isDirectory = true := by
      cases htree : start.tree with
      | directory members => rfl
      | file octets =>
        have hentry := hstart.entryAt?
        rw [htree] at hentry
        exact (hfile _ octets (List.prefix_refl _) (hdown.trans hbelow) hentry).elim
    have hhere : d.entryAt? start.location = some .directory := by
      rw [hstart.entryAt?, Tree.isDirectory_iff.mp hdirectory]
    cases he : d.entryAt? (follow start.location step) with
    | none =>
      refine .inr ?_
      rw [walk, List.foldlM_cons, step_eq_notFound hstart hdirectory (Ne.symm hup.1) hle he]
      rfl
    | some e =>
      obtain ⟨next, hstep, hnext, hloc⟩ := exists_step hstart hdirectory (fun _ _ => hle) he
      rw [← hloc] at hbelow hdown
      have hrest := ih hnext hup.2 hsizes fun l octets hl hdest =>
        hfile l octets (hdown.trans hl) (by rwa [List.foldl_cons, ← hloc])
      refine hrest.imp (fun hpass => ⟨hhere, fun _ _ => hle, by rwa [← hloc]⟩) fun hwalk => ?_
      rw [walk, List.foldlM_cons, hstep]
      exact hwalk

theorem Sound.origin (hd : d.Sound) (p : Path) : d.entryAt? (d.origin p) = some .directory := by
  rw [Disk.origin]
  split
  · exact hd.root
  · exact hd.home

/-- The first steps of a clear path lead through directories, or come to where nothing is. -/
theorem Clear.passes_or_walk_eq (hd : d.Sound) (h : d.Clear p) {steps : List String}
    (hsteps : steps <+: stepsOf p) : d.Passes (d.origin p) steps ∨
      ∃ first, d.start p = .ok first ∧ d.walk first steps = .error .notFound := by
  obtain ⟨front, back, hall, hfront, hback⟩ := h.descends
  have hpass : d.Passes (d.origin p) front :=
    hfront.elim (fun hnil => by rw [hnil]; exact hd.origin p) id
  obtain ⟨more, hmore⟩ | ⟨more, hmore⟩ :=
    List.prefix_or_prefix_of_prefix (hall ▸ List.prefix_append front back) hsteps
  · obtain ⟨first, hstart, hfirst, hloc⟩ := exists_start (hd.origin p)
    rw [← hloc] at hpass ⊢
    obtain ⟨middle, hwalk, hmiddle, hdest⟩ := exists_walk hfirst hpass
    obtain ⟨rest, hrest⟩ := hsteps
    have hmoreRest : more ++ rest = back := by
      rw [← hmore, hall, List.append_assoc, List.append_right_inj] at hrest
      exact hrest
    rw [← hmoreRest, List.mem_append, not_or] at hback
    have hplace : more.foldl follow middle.location <+: d.destination p := by
      rw [destination, hall, ← hmoreRest, List.foldl_append, List.foldl_append, ← hloc, ← hdest]
      exact prefix_foldl_follow hback.2
    have hsizes : ∀ step ∈ more, step.utf8ByteSize ≤ maxName := fun step hstep =>
      h.size_le step (by rw [hall, ← hmoreRest]; simp [hstep])
    have hdown := Disk.passes_or_walk_eq hmiddle hback.1 hsizes fun l octets _ hl =>
      h.no_file l octets (hl.trans hplace)
    rw [← hmore]
    refine hdown.imp (fun hdown => ?_) fun hmissing => ⟨first, hstart, ?_⟩
    · rw [hdest] at hdown
      exact passes_append.mpr ⟨hpass, hdown⟩
    · rw [walk] at hwalk
      rw [walk, List.foldlM_append, hwalk]
      exact hmissing
  · rw [← hmore] at hpass
    exact .inl (passes_append.mp hpass).1

section Making

variable (hcheck : checkPath p = .ok ())
include hcheck

private theorem exists_slot (hsteps : stepsOf p = others ++ [last]) (hn : IsMemberName last)
    (hpass : d.Passes (d.origin p) others) : ∃ s, d.slot p = .ok s ∧ s.name = some last := by
  obtain ⟨first, dir, hstart, hwalk, -, -, hdirectory⟩ := hpass.exists_walk
  have hsize := Nat.not_lt.mpr hn.size_le
  exact ⟨⟨dir, some last⟩, by simp [slot, hcheck, hstart, hsteps, hwalk, hdirectory, hn.ne_point,
    hn.ne_points, hsize, bind, Except.bind, pure, Except.pure], rfl⟩

private theorem slot_eq_notFound {first : Position} (hsteps : stepsOf p = others ++ [last])
    (hstart : d.start p = .ok first) (hwalk : d.walk first others = .error .notFound) :
    d.slot p = .error .notFound := by
  simp [slot, hcheck, hstart, hsteps, hwalk, bind, Except.bind]

theorem exists_makeDirectory (hsteps : stepsOf p = others ++ [last]) (hn : IsMemberName last)
    (hpass : d.Passes (d.origin p) others) (hnone : d.entryAt? (d.destination p) = none) :
    ∃ d', d.makeDirectory p = .ok d' := by
  obtain ⟨s, hs, hname⟩ := exists_slot hcheck hsteps hn hpass
  have hfree : s.occupant? last = none := by
    rwa [← (Slot.fits_of_slot hs hname).occupant?_eq, Option.map_eq_none_iff] at hnone
  exact ⟨d.fill s last .empty, by
    simp [makeDirectory, hs, hname, hfree, bind, Except.bind, pure, Except.pure]⟩

/-- A directory that a path leads to is found there. -/
theorem kind_of_reaches (h : d.Reaches p) : d.kind p = .ok .directory := by
  obtain ⟨first, last, hstart, hwalk, -, -, hdir⟩ := h.exists_walk
  have hlocate := locate_of_walk hcheck hstart hwalk (.inr hdir)
  simp [kind, find, hlocate, hdir, bind, Except.bind, pure, Except.pure]

theorem exists_list (h : d.Reaches p) : ∃ names, d.list p = .ok names := by
  obtain ⟨first, last, hstart, hwalk, -, -, hdir⟩ := h.exists_walk
  have hlocate := locate_of_walk hcheck hstart hwalk (.inr hdir)
  cases htree : last.tree with
  | file octets => simp [htree, Tree.isDirectory] at hdir
  | directory members =>
    exact ⟨members.map (·.1), by
      simp [list, find, hlocate, htree, bind, Except.bind, pure, Except.pure]⟩

/-- A directory that a path leads to is not made anew. -/
theorem makeDirectory_of_reaches (h : d.Reaches p) :
    d.makeDirectory p = .error .alreadyExists := by
  have hnameless {s : Slot} (hs : d.slot p = .ok s) (hname : s.name = none) :
      d.makeDirectory p = .error .alreadyExists := by
    simp [makeDirectory, hs, hname, bind, Except.bind, throw, throwThe, MonadExceptOf.throw]
  obtain hnil | ⟨others, last, hsteps⟩ := List.eq_nil_or_concat (stepsOf p)
  · obtain ⟨first, hstart, -, -⟩ := exists_start h.directory
    refine hnameless (s := ⟨first, none⟩) ?_ rfl
    simp [slot, hcheck, hstart, hnil, bind, Except.bind, pure, Except.pure]
  rw [List.concat_eq_append] at hsteps
  have hall := h
  rw [Reaches, hsteps, passes_append] at hall
  obtain ⟨hpass, -, hsize, hdir⟩ := hall
  by_cases hpoints : last = "." ∨ last = ".."
  · obtain ⟨first, dir, hstart, hwalk, -, -, hdirectory⟩ := hpass.exists_walk
    refine hnameless (s := ⟨dir, none⟩) ?_ rfl
    simp [slot, hcheck, hstart, hsteps, hwalk, hdirectory, hpoints, bind, Except.bind, pure,
      Except.pure]
  · rw [not_or] at hpoints
    obtain ⟨hempty, hslash⟩ := of_mem_stepsOf (p := p) (s := last) (by rw [hsteps]; simp)
    have hn : IsMemberName last :=
      ⟨⟨hempty, hslash, hpoints.1, hpoints.2⟩, hsize hpoints.1 hpoints.2⟩
    obtain ⟨s, hs, hname⟩ := exists_slot hcheck hsteps hn hpass
    have hoccupied : (s.occupant? last).isSome = true := by
      have hentry := h.entryAt?_destination
      rw [← (Slot.fits_of_slot hs hname).occupant?_eq] at hentry
      rw [← Option.isSome_map, hentry]
      rfl
    simp [makeDirectory, hs, hname, hoccupied, bind, Except.bind, throw, throwThe,
      MonadExceptOf.throw]

end Making

/-- A directory on a clear path is there, or it is made where the one around it is there, or it is
missed. -/
theorem Clear.makeDirectory (hd : d.Sound) (h : d.Clear p) (hcheck : checkPath p = .ok ())
    (hsteps : stepsOf p = others ++ [last]) (hpoint : last ≠ ".") :
    d.Reaches p ∨ (d.Passes (d.origin p) others ∧ ∃ d', d.makeDirectory p = .ok d') ∨
      (¬d.Passes (d.origin p) others ∧ d.makeDirectory p = .error .notFound) := by
  by_cases hreaches : d.Reaches p
  · exact .inl hreaches
  refine .inr ?_
  have hpoints : last ≠ ".." := by
    rintro rfl
    obtain ⟨front, back, hall, hfront, hback⟩ := h.descends
    obtain rfl | ⟨back, step, rfl⟩ := back.eq_nil_or_concat
    · rw [List.append_nil] at hall
      refine hreaches (hfront.elim (fun hnil => ?_) fun hpass => by rwa [Reaches, hall])
      simp [hall, hnil] at hsteps
    · rw [hsteps, List.concat_eq_append, ← List.append_assoc] at hall
      rw [List.concat_eq_append] at hback
      obtain rfl : ".." = step := List.singleton_inj.mp (List.append_inj' hall rfl).2
      exact hback (by simp)
  obtain ⟨hempty, hslash⟩ := of_mem_stepsOf (p := p) (s := last) (by rw [hsteps]; simp)
  have hn : IsMemberName last :=
    ⟨⟨hempty, hslash, hpoint, hpoints⟩, h.size_le last (by rw [hsteps]; simp)⟩
  by_cases hpass : d.Passes (d.origin p) others
  · refine .inl ⟨hpass, exists_makeDirectory hcheck hsteps hn hpass ?_⟩
    cases he : d.entryAt? (d.destination p) with
    | none => rfl
    | some e =>
      cases e with
      | directory => exact (hreaches (h.descends.reaches hd he)).elim
      | file octets => exact (h.no_file _ octets (List.prefix_refl _) he).elim
  · obtain hpass' | ⟨first, hstart, hwalk⟩ :=
      h.passes_or_walk_eq hd (hsteps ▸ List.prefix_append others [last])
    · exact (hpass hpass').elim
    · refine .inr ⟨hpass, ?_⟩
      simp [Disk.makeDirectory, slot_eq_notFound hcheck hsteps hstart hwalk, bind, Except.bind]

theorem Clear.makeDirectory_of_parent? (hd : d.Sound) (h : d.Clear p)
    (hcheck : checkPath p = .ok ()) (hp : p.parent? = some q)
    (hlast : (∀ step ∈ stepsOf p, step = ".") ∨ (stepsOf p).getLast? ≠ some ".") :
    d.Reaches p ∨ (d.Reaches q ∧ ∃ d', d.makeDirectory p = .ok d') ∨
      (¬d.Reaches q ∧ d.makeDirectory p = .error .notFound) := by
  by_cases hpointed : ∀ step ∈ stepsOf p, step = "."
  · exact .inl (passes_of_points (hd.origin p) hpointed)
  obtain ⟨points, last, after, hsteps, hpoints, hafter, hpoint⟩ :=
    (exists_steps_of_parent? hp).resolve_left hpointed
  obtain rfl := eq_nil_of_points hafter (hsteps ▸ hlast.resolve_left hpointed)
  have horigin : d.origin q = d.origin p := by
    rw [origin, origin, (above_of_parent? hp).isAbsolute_eq]
  have hparent : d.Passes (d.origin p) (stepsOf q ++ points) ↔ d.Reaches q := by
    rw [Reaches, horigin, passes_append, and_iff_left_iff_imp]
    exact fun hpass => passes_of_points hpass.destination hpoints
  rw [← hparent]
  exact h.makeDirectory hd hcheck hsteps hpoint

/-- A path to a place where nothing is has a parent that does not lead below the place. -/
theorem exists_parent_of_absent (hd : before.Sound) (hdescends : before.Descends p)
    (habsent : before.entryAt? (before.destination p) = none) :
    ∃ q, p.parent? = some q ∧ ¬before.destination p <+: before.destination q := by
  have hnever : ¬before.Reaches p := fun hreaches => by
    have hdirectory := hreaches.entryAt?_destination
    rw [habsent] at hdirectory
    cases hdirectory
  cases hp : p.parent? with
  | none => exact (hnever (reaches_of_no_parent hd hp)).elim
  | some q =>
    refine ⟨q, rfl, fun hbelow => ?_⟩
    obtain hpoints | ⟨last, hpoint, -, hplace⟩ := destination_of_parent? hp
    · exact hnever (passes_of_points (hd.origin p) hpoints)
    have hplace := hplace before
    obtain habove | hreaches := (hdescends.of_above (above_of_parent? hp)).2
    · -- the way from the parent to the place goes neither up nor down
      have heq := habove.eq_of_length_le hbelow.length_le
      by_cases hpoints : last = ".."
      · have hlength := congrArg List.length (heq.trans hplace)
        rw [hpoints, follow_points, List.length_dropLast] at hlength
        have hnil := List.length_eq_zero_iff.mp (by omega : (before.destination q).length = 0)
        rw [← heq, hnil, hd.root] at habsent
        cases habsent
      · have hlength := congrArg List.length (heq.trans hplace)
        simp [follow_name hpoint hpoints] at hlength
    · have hdirectory := entryAt?_above hreaches.entryAt?_destination hbelow
      rw [habsent] at hdirectory
      cases hdirectory

theorem exists_file_of_copyFile {d' : Disk} {source dest : Path}
    (h : d.copyFile source dest = .ok d') :
    ∃ octets, d.entryAt? (d.destination source) = some (.file octets) := by
  rw [copyFile] at h
  obtain ⟨found, hlocate, h⟩ := bind_eq_ok.mp h
  obtain ⟨-, hon, hloc, -⟩ := of_locate hlocate
  have hentry := hon.entryAt?
  split at h
  · cases h
  · rename_i octets htree
    rw [hloc, htree] at hentry
    exact ⟨octets, hentry⟩

/-- Where there is no directory, a file can be put into one that is there. -/
theorem exists_free_slot {dir : Path} (hn : IsMemberName name) (hdir : d.Reaches dir)
    (hcheck : checkPath (dir.join ⟨name⟩) = .ok ())
    (hold : d.entryAt? (d.destination dir ++ [name]) ≠ some .directory) :
    ∃ s, d.slot (dir.join ⟨name⟩) = .ok s ∧ s.name = some name ∧
      (s.occupant? name).any Tree.isDirectory = false := by
  rw [Reaches, ← origin_join hn.toIsFileName] at hdir
  obtain ⟨s, hs, hname⟩ := exists_slot hcheck (stepsOf_join hn.toIsFileName) hn hdir
  refine ⟨s, hs, hname, ?_⟩
  rw [← destination_join hn.toIsFileName, ← (Slot.fits_of_slot hs hname).occupant?_eq] at hold
  cases hocc : s.occupant? name with
  | none => rfl
  | some t =>
    rw [hocc, Option.map_some, ne_eq, Option.some_inj, ← Tree.isDirectory_iff] at hold
    simpa using hold

/-- A file in a directory is copied into another under its name, unless a directory has that. -/
theorem exists_copyFile {source dest : Path} {octets : ByteArray} (hn : IsMemberName name)
    (hsource : d.Reaches source) (hfrom : checkPath (source.join ⟨name⟩) = .ok ())
    (hfile : d.entryAt? (d.destination source ++ [name]) = some (.file octets))
    (hdest : d.Reaches dest) (hto : checkPath (dest.join ⟨name⟩) = .ok ())
    (hold : d.entryAt? (d.destination dest ++ [name]) ≠ some .directory) :
    ∃ d', d.copyFile (source.join ⟨name⟩) (dest.join ⟨name⟩) = .ok d' := by
  obtain ⟨found, hfound, htree⟩ := exists_locate_file hn hfrom hsource hfile
  obtain ⟨s, hs, hname, hfree⟩ := exists_free_slot hn hdest hto hold
  have hslash := endsWithSlash_join (p := dest) hn.toIsFileName
  simp [copyFile, writeFile, hfound, htree, hs, hname, hfree, hslash, bind, Except.bind, pure,
    Except.pure]

end EnvCompose.Disk
