import EnvCompose.Proofs.Attempts
import EnvCompose.Proofs.Disk.Parents
import EnvCompose.Proofs.Disk.Tree

/-!
# Where paths lead

There are no links, so the place a path leads to is known from its steps alone. Whether the path
gets there depends on the directories on the way.
-/
namespace EnvCompose.Disk

def entryAt? (d : Disk) (l : Location) : Option Entry := d.root.entryAt? l

def follow (l : Location) (step : String) : Location :=
  if step = "." then l else if step = ".." then l.dropLast else l ++ [step]

def origin (d : Disk) (p : Path) : Location := if p.isAbsolute then [] else d.home

def destination (d : Disk) (p : Path) : Location := (stepsOf p).foldl follow (d.origin p)

/-- Whether steps lead through directories to a directory. -/
def Passes (d : Disk) : Location → List String → Prop
  | l, [] => d.entryAt? l = some .directory
  | l, step :: steps => d.entryAt? l = some .directory ∧
      (step ≠ "." → step ≠ ".." → step.utf8ByteSize ≤ maxName) ∧ d.Passes (follow l step) steps

def Reaches (d : Disk) (p : Path) : Prop := d.Passes (d.origin p) (stepsOf p)

@[simp] theorem follow_point (l : Location) : follow l "." = l := rfl

@[simp] theorem follow_points (l : Location) : follow l ".." = l.dropLast := rfl

theorem follow_name {name : String} (h : name ≠ ".") (h' : name ≠ "..") (l : Location) :
    follow l name = l ++ [name] := by
  rw [follow, if_neg h, if_neg h']

/-- Only a name leads from a place to one below it, and it is the name of that. -/
theorem eq_of_follow {l : Location} {step name : String} (h : follow l step = l ++ [name]) :
    step = name := by
  have hlength := congrArg List.length h
  rw [List.length_append, List.length_singleton] at hlength
  by_cases hpoint : step = "."
  · rw [hpoint, follow_point] at hlength
    omega
  · by_cases hpoints : step = ".."
    · rw [hpoints, follow_points, List.length_dropLast] at hlength
      omega
    · rw [follow_name hpoint hpoints] at h
      exact List.singleton_inj.mp (List.append_cancel_left h)

theorem foldl_follow_of_points {steps : List String} (h : ∀ s ∈ steps, s = ".") (l : Location) :
    steps.foldl follow l = l := by
  induction steps with
  | nil => rfl
  | cons step steps ih =>
    obtain ⟨rfl, hsteps⟩ := List.forall_mem_cons.mp h
    exact ih hsteps

/-- Without steps up the way leads down. -/
theorem prefix_foldl_follow {l : Location} {steps : List String} (hup : ".." ∉ steps) :
    l <+: steps.foldl follow l := by
  induction steps generalizing l with
  | nil => exact List.prefix_refl l
  | cons step steps ih =>
    rw [List.mem_cons, not_or] at hup
    refine List.IsPrefix.trans ?_ (ih hup.2)
    by_cases hpoint : step = "."
    · subst hpoint
      exact List.prefix_refl l
    · rw [follow_name hpoint (Ne.symm hup.1)]
      exact List.prefix_append l [step]

section Passes

variable {d : Disk} {l : Location} {steps rest : List String}

theorem Passes.directory (h : d.Passes l steps) : d.entryAt? l = some .directory := by
  cases steps with
  | nil => exact h
  | cons step steps => exact h.1

theorem Passes.destination (h : d.Passes l steps) :
    d.entryAt? (steps.foldl follow l) = some .directory := by
  induction steps generalizing l with
  | nil => exact h
  | cons step steps ih => exact ih h.2.2

theorem passes_append :
    d.Passes l (steps ++ rest) ↔ d.Passes l steps ∧ d.Passes (steps.foldl follow l) rest := by
  induction steps generalizing l with
  | nil => exact ⟨fun h => ⟨h.directory, h⟩, And.right⟩
  | cons step steps ih => simp only [List.cons_append, Passes, List.foldl_cons, ih, and_assoc]

theorem passes_mono {d' : Disk}
    (h : ∀ l, d.entryAt? l = some .directory → d'.entryAt? l = some .directory)
    (hd : d.Passes l steps) : d'.Passes l steps := by
  induction steps generalizing l with
  | nil => exact h l hd
  | cons step steps ih => exact ⟨h l hd.1, hd.2.1, ih hd.2.2⟩

theorem Reaches.entryAt?_destination {p : Path} (h : d.Reaches p) :
    d.entryAt? (d.destination p) = some .directory :=
  Passes.destination h

/-- Points lead nowhere. -/
theorem passes_of_points (hl : d.entryAt? l = some .directory) (h : ∀ s ∈ steps, s = ".") :
    d.Passes l steps := by
  induction steps with
  | nil => exact hl
  | cons step steps ih =>
    obtain ⟨rfl, hsteps⟩ := List.forall_mem_cons.mp h
    exact ⟨hl, fun hne => (hne rfl).elim, ih hsteps⟩

end Passes

namespace Position

def On (d : Disk) (p : Position) : Prop := d.root.get? p.location = some p.tree

variable {d : Disk} {p q : Position} {step : String} {steps : List String}

theorem On.entryAt? (h : On d p) : d.entryAt? p.location = some p.tree.entry := by
  rw [Disk.entryAt?, Tree.entryAt?, h]
  rfl

private theorem on_of_at? {upward : List String} (h : at? d.root upward = .ok p) :
    On d p ∧ p.location = upward.reverse := by
  rw [at?] at h
  split at h
  · rename_i t ht
    cases h
    exact ⟨ht, rfl⟩
  · cases h

private theorem exists_at? {upward : List String} {e : Entry}
    (h : d.entryAt? upward.reverse = some e) :
    ∃ p, at? d.root upward = .ok p ∧ On d p ∧ p.location = upward.reverse := by
  rw [Disk.entryAt?, Tree.entryAt?, Option.map_eq_some_iff] at h
  obtain ⟨t, ht, -⟩ := h
  exact ⟨⟨upward, t⟩, by rw [at?, ht], ht, rfl⟩

/-- The steps that a position allows lead from a directory to where they say. -/
theorem of_step (hp : On d p) (h : Position.step d.root p step = .ok q) :
    On d q ∧ q.location = follow p.location step ∧ p.tree.isDirectory = true ∧
      (step ≠ "." → step ≠ ".." → step.utf8ByteSize ≤ maxName) := by
  rw [Position.step] at h
  split at h
  · cases h
  rename_i members htree
  have hdir : p.tree.isDirectory = true := by rw [htree]; rfl
  by_cases hpoint : step = "."
  · subst hpoint
    cases h
    exact ⟨hp, rfl, hdir, fun hne => (hne rfl).elim⟩
  by_cases hpoints : step = ".."
  · subst hpoints
    obtain ⟨hq, hloc⟩ := on_of_at? (p := q) h
    refine ⟨hq, ?_, hdir, fun _ hne => (hne rfl).elim⟩
    rw [hloc, follow_points, location, List.dropLast_reverse]
  · simp only [beq_iff_eq, hpoint, hpoints, if_false] at h
    split at h
    · cases h
    rename_i hsize
    split at h
    · rename_i t ht
      cases h
      have hloc : Position.location ⟨step :: p.upward, t⟩ = p.location ++ [step] := by
        simp [location]
      refine ⟨?_, by rw [hloc, follow_name hpoint hpoints], hdir, fun _ _ => Nat.le_of_not_lt hsize⟩
      rw [On, hloc, Tree.get?_snoc, hp]
      simpa [htree] using ht
    · cases h

theorem exists_step {e : Entry} (hp : On d p) (hdir : p.tree.isDirectory = true)
    (hsize : step ≠ "." → step ≠ ".." → step.utf8ByteSize ≤ maxName)
    (he : d.entryAt? (follow p.location step) = some e) :
    ∃ q, Position.step d.root p step = .ok q ∧ On d q ∧ q.location = follow p.location step := by
  cases htree : p.tree with
  | file octets => simp [htree, Tree.isDirectory] at hdir
  | directory members =>
    by_cases hpoint : step = "."
    · subst hpoint
      exact ⟨p, by simp [Position.step, htree], hp, rfl⟩
    by_cases hpoints : step = ".."
    · subst hpoints
      rw [follow_points, location, List.dropLast_reverse] at he ⊢
      obtain ⟨q, hq, hon, hloc⟩ := exists_at? he
      exact ⟨q, by simpa [Position.step, htree] using hq, hon, hloc⟩
    · rw [follow_name hpoint hpoints] at he ⊢
      rw [Disk.entryAt?, Tree.entryAt?, Tree.get?_snoc, hp, Option.map_eq_some_iff] at he
      obtain ⟨t, ht, -⟩ := he
      have hlookup : members.lookup step = some t := by simpa [htree] using ht
      have hloc : Position.location ⟨step :: p.upward, t⟩ = p.location ++ [step] := by
        simp [location]
      refine ⟨⟨step :: p.upward, t⟩, ?_, ?_, hloc⟩
      · have hle := hsize hpoint hpoints
        simp [Position.step, htree, hpoint, hpoints, hlookup, Nat.not_lt.mpr hle]
      · rw [On, hloc, Tree.get?_snoc, hp]
        exact ht

end Position

section Walk

open Position

variable {d : Disk} {p q : Position} {steps : List String}

theorem of_walk (hp : On d p) (h : d.walk p steps = .ok q) :
    On d q ∧ q.location = steps.foldl follow p.location ∧
      (q.tree.isDirectory = true → d.Passes p.location steps) := by
  induction steps generalizing p with
  | nil =>
    cases h
    exact ⟨hp, rfl, fun hdir => by rw [Passes, hp.entryAt?, Tree.isDirectory_iff.mp hdir]⟩
  | cons step steps ih =>
    rw [walk, List.foldlM_cons] at h
    obtain ⟨next, hstep, h⟩ := bind_eq_ok.mp h
    obtain ⟨hnext, hloc, hdir, hsize⟩ := of_step hp hstep
    obtain ⟨hq, hdest, hpasses⟩ := ih hnext h
    rw [hloc] at hdest hpasses
    refine ⟨hq, hdest, fun hqdir => ⟨?_, hsize, hpasses hqdir⟩⟩
    rw [hp.entryAt?, Tree.isDirectory_iff.mp hdir]

theorem exists_walk (hp : On d p) (h : d.Passes p.location steps) :
    ∃ q, d.walk p steps = .ok q ∧ On d q ∧ q.location = steps.foldl follow p.location := by
  induction steps generalizing p with
  | nil => exact ⟨p, rfl, hp, rfl⟩
  | cons step steps ih =>
    obtain ⟨hdir, hsize, hrest⟩ := h
    rw [hp.entryAt?, Option.some_inj, ← Tree.isDirectory_iff] at hdir
    obtain ⟨next, hstep, hnext, hloc⟩ := exists_step hp hdir hsize hrest.directory
    rw [← hloc] at hrest
    obtain ⟨q, hq, hon, hdest⟩ := ih hnext hrest
    refine ⟨q, ?_, hon, by rw [hdest, hloc, List.foldl_cons]⟩
    rw [walk, List.foldlM_cons, hstep]
    exact hq

end Walk

section Locate

open Position

variable {d : Disk} {p : Path} {found : Position} {name : String}

theorem origin_join (hn : IsFileName name) : d.origin (p.join ⟨name⟩) = d.origin p := by
  rw [origin, origin, isAbsolute_join hn]

theorem destination_join (hn : IsFileName name) :
    d.destination (p.join ⟨name⟩) = d.destination p ++ [name] := by
  rw [destination, origin_join hn, stepsOf_join hn, List.foldl_append]
  exact follow_name hn.ne_point hn.ne_points _

theorem Reaches.join (h : d.Reaches p) (hn : IsMemberName name)
    (hdir : d.entryAt? (d.destination p ++ [name]) = some .directory) :
    d.Reaches (p.join ⟨name⟩) := by
  have hlast := follow_name hn.ne_point hn.ne_points (d.destination p)
  rw [Reaches, origin_join hn.toIsFileName, stepsOf_join hn.toIsFileName]
  refine passes_append.mpr ⟨h, h.destination, fun _ _ => hn.size_le, ?_⟩
  rw [Passes, ← destination, hlast, hdir]

theorem destination_congr {d' : Disk} (h : d'.home = d.home) : d'.destination p = d.destination p := by
  rw [destination, destination, origin, origin, h]

/-- A path leads one step further than its parent, by its last name or up, unless it leads nowhere
at all. -/
theorem destination_of_parent? {q : Path} (h : p.parent? = some q) :
    (∀ step ∈ stepsOf p, step = ".") ∨ ∃ last, last ≠ "." ∧
      (last ≠ ".." → p.fileName? = some last) ∧
      ∀ d : Disk, d.destination p = follow (d.destination q) last := by
  obtain hpoints | ⟨points, last, after, hsteps, hpoints, hafter, hpoint⟩ :=
    exists_steps_of_parent? h
  · exact .inl hpoints
  refine .inr ⟨last, hpoint, fun hup => ?_, fun d => ?_⟩
  · have hnone : after.reverse.find? (· ≠ ".") = none := by
      refine List.find?_eq_none.mpr fun step hstep => ?_
      simpa using hafter step (List.mem_reverse.mp hstep)
    rw [fileName?_eq, hsteps, List.reverse_append, List.reverse_cons, List.append_assoc,
      List.find?_append, hnone]
    simp [hpoint, hup]
  · rw [destination, destination, hsteps, List.foldl_append, List.foldl_append, List.foldl_cons,
      foldl_follow_of_points hpoints, foldl_follow_of_points hafter, origin, origin,
      (above_of_parent? h).isAbsolute_eq]

theorem destination_of_points (h : ∀ step ∈ stepsOf p, step = ".") : d.destination p = d.origin p :=
  foldl_follow_of_points h _

/-- Beside a path there is nothing at its place but what has its last name. -/
theorem destination_parent_concat_ne (hne : p.fileName? ≠ some name) (hn : IsFileName name) :
    d.destination (p.parent?.getD ⟨"."⟩) ++ [name] ≠ d.destination p := by
  intro heq
  have hlength := congrArg List.length heq
  rw [List.length_append, List.length_singleton] at hlength
  cases hparent : p.parent? with
  | none =>
    have hpoint : d.destination ⟨"."⟩ = d.home := destination_of_points (by decide)
    rw [hparent, Option.getD_none, hpoint, destination_of_points (of_parent?_eq_none hparent),
      origin] at hlength
    split at hlength
    · rw [List.length_nil] at hlength
      omega
    · omega
  | some q =>
    rw [hparent, Option.getD_some] at heq hlength
    have habove := above_of_parent? hparent
    obtain hpoints | ⟨last, -, hlast, hplace⟩ := destination_of_parent? hparent
    · have hq : d.destination q = d.origin q :=
        destination_of_points fun step hstep => hpoints step (habove.steps.subset hstep)
      rw [hq, destination_of_points hpoints, origin, origin, habove.isAbsolute_eq] at hlength
      omega
    · rw [hplace] at heq
      obtain rfl := eq_of_follow heq.symm
      exact hne (hlast hn.ne_points)

theorem origin_eq (d : Disk) (p : Path) :
    (if p.isAbsolute then [] else d.home.reverse).reverse = d.origin p := by
  rw [origin]
  split <;> simp

theorem of_start (h : d.start p = .ok found) : On d found ∧ found.location = d.origin p := by
  obtain ⟨hon, hloc⟩ := on_of_at? h
  exact ⟨hon, hloc.trans (origin_eq d p)⟩

theorem exists_start {e : Entry} (h : d.entryAt? (d.origin p) = some e) :
    ∃ found, d.start p = .ok found ∧ On d found ∧ found.location = d.origin p := by
  rw [← origin_eq d p] at h ⊢
  exact exists_at? h

theorem of_locate (h : d.locate p = .ok found) :
    checkPath p = .ok () ∧ On d found ∧ found.location = d.destination p ∧
      (found.tree.isDirectory = true → d.Reaches p) := by
  rw [locate] at h
  obtain ⟨_, hcheck, h⟩ := bind_eq_ok.mp h
  obtain ⟨first, hstart, h⟩ := bind_eq_ok.mp h
  obtain ⟨last, hwalk, h⟩ := bind_eq_ok.mp h
  obtain ⟨hfirst, hloc⟩ := of_start hstart
  obtain ⟨hlast, hdest, hpasses⟩ := of_walk hfirst hwalk
  rw [hloc] at hdest hpasses
  split at h
  · cases h
  · cases h
    exact ⟨hcheck, hlast, hdest, hpasses⟩

/-- A path that may be taken and whose steps lead somewhere is found, if it need not end at a
directory or does. -/
theorem locate_of_walk {first last : Position} (hcheck : checkPath p = .ok ())
    (hstart : d.start p = .ok first) (hwalk : d.walk first (stepsOf p) = .ok last)
    (hend : endsWithSlash p = false ∨ last.tree.isDirectory = true) : d.locate p = .ok last := by
  have hend : (endsWithSlash p && !last.tree.isDirectory) = false := by
    obtain h | h := hend <;> simp [h]
  simp [locate, hcheck, hstart, hwalk, hend, bind, Except.bind, pure, Except.pure]

theorem Passes.exists_walk {steps : List String} (h : d.Passes (d.origin p) steps) :
    ∃ first last, d.start p = .ok first ∧ d.walk first steps = .ok last ∧ On d last ∧
      last.location = steps.foldl follow (d.origin p) ∧ last.tree.isDirectory = true := by
  obtain ⟨first, hstart, hfirst, hloc⟩ := exists_start h.directory
  rw [← hloc] at h ⊢
  obtain ⟨last, hwalk, hlast, hdest⟩ := Disk.exists_walk hfirst h
  refine ⟨first, last, hstart, hwalk, hlast, hdest, ?_⟩
  have hdir := h.destination
  rw [← hdest, hlast.entryAt?, Option.some_inj] at hdir
  exact Tree.isDirectory_iff.mpr hdir

theorem Reaches.exists_walk (h : d.Reaches p) :
    ∃ first last, d.start p = .ok first ∧ d.walk first (stepsOf p) = .ok last ∧ On d last ∧
      last.location = d.destination p ∧ last.tree.isDirectory = true :=
  Passes.exists_walk h

theorem exists_locate_of_reaches (hcheck : checkPath p = .ok ()) (h : d.Reaches p) :
    ∃ found, d.locate p = .ok found := by
  obtain ⟨first, last, hstart, hwalk, -, -, hdir⟩ := h.exists_walk
  exact ⟨last, locate_of_walk hcheck hstart hwalk (.inr hdir)⟩

/-- What is in a directory that a path leads to is found under its name. -/
theorem exists_locate_join {e : Entry} (hn : IsMemberName name)
    (hcheck : checkPath (p.join ⟨name⟩) = .ok ()) (hp : d.Reaches p)
    (he : d.entryAt? (d.destination p ++ [name]) = some e) :
    ∃ found, d.locate (p.join ⟨name⟩) = .ok found := by
  obtain ⟨first, last, hstart, hwalk, hlast, hloc, hdir⟩ := hp.exists_walk
  rw [← follow_name hn.ne_point hn.ne_points, ← hloc] at he
  obtain ⟨found, hstep, -, -⟩ := exists_step hlast hdir (fun _ _ => hn.size_le) he
  have hstart' : d.start (p.join ⟨name⟩) = .ok first := by
    rwa [start, isAbsolute_join hn.toIsFileName]
  refine ⟨found, locate_of_walk hcheck hstart' ?_ (.inl (endsWithSlash_join hn.toIsFileName))⟩
  rw [walk] at hwalk
  rw [walk, stepsOf_join hn.toIsFileName, List.foldlM_append, hwalk]
  simp [bind, Except.bind, hstep, pure, Except.pure]

theorem exists_locate_file {octets : ByteArray} (hn : IsMemberName name)
    (hcheck : checkPath (p.join ⟨name⟩) = .ok ()) (hp : d.Reaches p)
    (hfile : d.entryAt? (d.destination p ++ [name]) = some (.file octets)) :
    ∃ found, d.locate (p.join ⟨name⟩) = .ok found ∧ found.tree = .file octets := by
  obtain ⟨found, hfound⟩ := exists_locate_join hn hcheck hp hfile
  obtain ⟨-, hon, hloc, -⟩ := of_locate hfound
  have hentry := hon.entryAt?
  rw [hloc, destination_join hn.toIsFileName, hfile, Option.some_inj] at hentry
  exact ⟨found, hfound, Tree.entry_eq_file.mp hentry.symm⟩

/-- A file in a directory that a path leads to is read under its name. -/
theorem read_join {octets : ByteArray} (hn : IsMemberName name)
    (hcheck : checkPath (p.join ⟨name⟩) = .ok ()) (hp : d.Reaches p)
    (hfile : d.entryAt? (d.destination p ++ [name]) = some (.file octets)) :
    d.read (p.join ⟨name⟩) = .ok octets := by
  obtain ⟨found, hfound, htree⟩ := exists_locate_file hn hcheck hp hfile
  simp [Disk.read, find, hfound, htree, bind, Except.bind, pure, Except.pure]

end Locate

namespace Slot

open Position

/-- Whether a slot with a name is the one that a path leads to. -/
structure Fits (d : Disk) (p : Path) (s : Slot) (name : String) : Prop where
  checked : checkPath p = .ok ()
  isMemberName : IsMemberName name
  on : On d s.directory
  around : d.entryAt? s.directory.location = some .directory
  destination_eq : d.destination p = s.directory.location ++ [name]
  passes : ∃ steps, stepsOf p = steps ++ [name] ∧ d.Passes (d.origin p) steps

variable {d : Disk} {p : Path} {s : Slot} {name : String}

theorem location_eq (s : Slot) (name : String) : s.location name = s.directory.location ++ [name] := by
  simp [location, Position.location]

theorem checked_of_slot (h : d.slot p = .ok s) : checkPath p = .ok () := by
  rw [slot] at h
  obtain ⟨_, hcheck, -⟩ := bind_eq_ok.mp h
  exact hcheck

theorem fits_of_slot (h : d.slot p = .ok s) (hname : s.name = some name) : Fits d p s name := by
  rw [slot] at h
  obtain ⟨_, hcheck, h⟩ := bind_eq_ok.mp h
  obtain ⟨first, hstart, h⟩ := bind_eq_ok.mp h
  obtain ⟨hfirst, hloc⟩ := of_start hstart
  split at h
  · cases h
    cases hname
  rename_i last others hsteps
  have hsteps : stepsOf p = others.reverse ++ [last] := by
    rw [← List.reverse_inj, hsteps]
    simp
  obtain ⟨dir, hwalk, h⟩ := bind_eq_ok.mp h
  obtain ⟨hon, hdest, hpasses⟩ := of_walk hfirst hwalk
  rw [hloc] at hdest hpasses
  by_cases hdir : dir.tree.isDirectory = true
  swap
  · simp [hdir, bind, Except.bind, throw, throwThe, MonadExceptOf.throw] at h
  by_cases hpoints : (last == "." || last == "..") = true
  · simp only [hdir, hpoints, if_true, Bool.not_true, Bool.false_eq_true, if_false] at h
    cases h
    cases hname
  by_cases hsize : last.utf8ByteSize > maxName
  · simp only [hdir, hpoints, hsize, Bool.not_true, Bool.false_eq_true, if_true, if_false] at h
    cases h
  simp only [hdir, hpoints, hsize, Bool.not_true, Bool.false_eq_true, if_false] at h
  cases h
  cases hname
  simp only [Bool.or_eq_true, beq_iff_eq, not_or] at hpoints
  obtain ⟨hne, hno⟩ := of_mem_stepsOf (p := p) (s := name) (by rw [hsteps]; simp)
  refine ⟨hcheck, ⟨⟨hne, hno, hpoints.1, hpoints.2⟩, Nat.le_of_not_lt hsize⟩, hon, ?_, ?_,
    others.reverse, hsteps, hpasses hdir⟩
  · rw [hon.entryAt?, Tree.isDirectory_iff.mp hdir]
  · rw [destination, hsteps, List.foldl_append, ← hdest]
    exact follow_name hpoints.1 hpoints.2 _

theorem Fits.occupant?_eq (h : Fits d p s name) :
    (s.occupant? name).map Tree.entry = d.entryAt? (d.destination p) := by
  rw [occupant?, entryAt?, Tree.entryAt?, h.destination_eq, Tree.get?_snoc, h.on]
  rfl

/-- Around a slot is the directory of the parent. -/
theorem Fits.exists_parent (h : Fits d p s name) :
    ∃ q, p.parent? = some q ∧ d.entryAt? (d.destination q) = some .directory := by
  obtain ⟨steps, hsteps, hpasses⟩ := h.passes
  have hpoint := h.isMemberName.ne_point
  have hparent : p.parent? ≠ none := fun hnone =>
    hpoint (of_parent?_eq_none hnone name (by simp [hsteps]))
  obtain ⟨q, hq⟩ := Option.ne_none_iff_exists'.mp hparent
  obtain ⟨points, rfl, -⟩ := exists_points_of_parent? hq hsteps hpoint
  have hdirectory := (passes_append.mp hpasses).1.destination
  rw [origin, ← (above_of_parent? hq).isAbsolute_eq] at hdirectory
  exact ⟨q, hq, hdirectory⟩

end Slot

end EnvCompose.Disk
