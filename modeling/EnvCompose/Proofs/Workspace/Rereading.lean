import EnvCompose.Proofs.Workspace.Frames

/-!
# Reading again on a larger disk

What is found on a disk is found on every disk that has all that it has. An operation that only
reads what is there gives the same answer on both.
-/
namespace EnvCompose

namespace Disk
open Position

variable {d d' : Disk} {p : Path}

/-- Whether a disk has all that another has. -/
abbrev Within (d d' : Disk) : Prop := d.Spares (fun _ => False) d'

theorem Within.entryAt?_eq (h : d.Within d') {l : Location} {e : Entry}
    (he : d.entryAt? l = some e) : d'.entryAt? l = some e :=
  h.kept l e he (.inr not_false)

theorem Within.step (h : d.Within d') {first first' last : Position} {name : String}
    (hfirst : On d first) (hfirst' : On d' first') (hloc : first'.location = first.location)
    (hstep : Position.step d.root first name = .ok last) :
    ∃ last', Position.step d'.root first' name = .ok last' ∧ On d' last' ∧
      last'.location = last.location := by
  obtain ⟨hlast, hdest, hdir, hsize⟩ := of_step hfirst hstep
  have hdir' : first'.tree.isDirectory = true := by
    have hentry := h.entryAt?_eq hfirst.entryAt?
    rw [← hloc, hfirst'.entryAt?, Option.some_inj] at hentry
    rw [Tree.isDirectory_iff, hentry, Tree.isDirectory_iff.mp hdir]
  have hentry := h.entryAt?_eq hlast.entryAt?
  rw [hdest, ← hloc] at hentry
  obtain ⟨last', hstep', hlast', hdest'⟩ := exists_step hfirst' hdir' hsize hentry
  exact ⟨last', hstep', hlast', by rw [hdest', hloc, hdest]⟩

theorem Within.walk (h : d.Within d') {first first' last : Position} {steps : List String}
    (hfirst : On d first) (hfirst' : On d' first') (hloc : first'.location = first.location)
    (hwalk : d.walk first steps = .ok last) :
    ∃ last', d'.walk first' steps = .ok last' ∧ On d' last' ∧ last'.location = last.location := by
  induction steps generalizing first first' with
  | nil =>
    cases hwalk
    exact ⟨first', rfl, hfirst', hloc⟩
  | cons name steps ih =>
    rw [Disk.walk, List.foldlM_cons] at hwalk
    obtain ⟨next, hstep, hwalk⟩ := bind_eq_ok.mp hwalk
    obtain ⟨next', hstep', hnext', hloc'⟩ := h.step hfirst hfirst' hloc hstep
    obtain ⟨last', hwalk', hlast', hdest⟩ := ih (of_step hfirst hstep).1 hnext' hloc' hwalk
    refine ⟨last', ?_, hlast', hdest⟩
    rw [Disk.walk, List.foldlM_cons, hstep']
    exact hwalk'

theorem Within.locate (h : d.Within d') {found : Position} (hfound : d.locate p = .ok found) :
    ∃ found', d'.locate p = .ok found' ∧ found'.tree.entry = found.tree.entry := by
  rw [Disk.locate] at hfound
  obtain ⟨_, hcheck, hfound⟩ := bind_eq_ok.mp hfound
  obtain ⟨first, hstart, hfound⟩ := bind_eq_ok.mp hfound
  obtain ⟨last, hwalk, hfound⟩ := bind_eq_ok.mp hfound
  obtain ⟨hfirst, horigin⟩ := of_start hstart
  have hentry := h.entryAt?_eq hfirst.entryAt?
  have hsame : d'.origin p = d.origin p := by rw [origin, origin, h.home]
  rw [horigin, ← hsame] at hentry
  obtain ⟨first', hstart', hfirst', hloc⟩ := exists_start hentry
  have hloc : first'.location = first.location := by rw [hloc, horigin, hsame]
  obtain ⟨last', hwalk', hlast', hdest⟩ := h.walk hfirst hfirst' hloc hwalk
  have htree : last'.tree.entry = last.tree.entry := by
    have hlast := h.entryAt?_eq (of_walk hfirst hwalk).1.entryAt?
    rwa [← hdest, hlast'.entryAt?, Option.some_inj] at hlast
  have hend : (endsWithSlash p && !last.tree.isDirectory) = false := by
    by_contra hslash
    rw [Bool.not_eq_false] at hslash
    rw [if_pos hslash] at hfound
    cases hfound
  rw [if_neg (Bool.eq_false_iff.mp hend)] at hfound
  cases hfound
  refine ⟨last', locate_of_walk hcheck hstart' hwalk' ?_, htree⟩
  cases hslash : endsWithSlash p with
  | false => exact .inl rfl
  | true =>
    refine .inr ?_
    rw [Tree.isDirectory_iff, htree, ← Tree.isDirectory_iff]
    simpa [hslash] using hend

theorem Within.read (h : d.Within d') {octets : ByteArray} (hread : d.read p = .ok octets) :
    d'.read p = .ok octets := by
  rw [Disk.read] at hread
  obtain ⟨t, hfind, hread⟩ := bind_eq_ok.mp hread
  obtain ⟨found, hfound, hfind⟩ := bind_eq_ok.mp hfind
  cases hfind
  obtain ⟨found', hfound', hentry⟩ := h.locate hfound
  split at hread
  · rename_i o htree
    cases hread
    rw [htree] at hentry
    have htree' := Tree.entry_eq_file.mp hentry
    simp [Disk.read, find, hfound', htree', bind, Except.bind, pure, Except.pure]
  · cases hread

end Disk

namespace Workspace
open Disk

variable {ε δ α β : Type}

/-- Whether an operation leaves the disk as it is and answers again as it has where there is more on
the disk. -/
structure Rereads (x : ExceptT ε (StateM Workspace) α) : Prop where
  again : ∀ w w' : Workspace, w.disk.Within w'.disk → ∀ a w₁, w.run x = (.ok a, w₁) →
    ∃ w₁', w'.run x = (.ok a, w₁') ∧ w₁.disk = w.disk ∧ w₁'.disk = w'.disk

theorem rereads_answer (r : Except ε α) :
    Rereads (ExceptT.mk (pure r) : ExceptT ε (StateM Workspace) α) := by
  constructor
  rintro w w' - a w₁ h
  rw [run_answer] at h
  cases h
  exact ⟨w', rfl, rfl, rfl⟩

theorem rereads_debug (message : String) :
    Rereads (liftM (Machine.debug message : StateM Workspace Unit) :
      ExceptT ε (StateM Workspace) Unit) := by
  constructor
  rintro w w' - a w₁ h
  cases h
  exact ⟨_, rfl, rfl, rfl⟩

theorem rereads_bind {x : ExceptT ε (StateM Workspace) α}
    {f : α → ExceptT ε (StateM Workspace) β} (hx : Rereads x) (hf : ∀ a, Rereads (f a)) :
    Rereads (x >>= f) := by
  constructor
  intro w w' hw b w₂ h
  obtain ⟨a, w₁, hrun, h⟩ := run_bind_eq_ok.mp h
  obtain ⟨w₁', hrun', hdisk, hdisk'⟩ := hx.again w w' hw a w₁ hrun
  obtain ⟨w₂', h', hlast, hlast'⟩ :=
    (hf a).again w₁ w₁' (by rw [hdisk, hdisk']; exact hw) b w₂ h
  exact ⟨w₂', run_bind_eq_ok.mpr ⟨a, w₁', hrun', h'⟩, hlast.trans hdisk, hlast'.trans hdisk'⟩

theorem rereads_adapt {x : ExceptT δ (StateM Workspace) α} {f : δ → ε} (hx : Rereads x) :
    Rereads (x.adapt f) := by
  constructor
  intro w w' hw a w₁ h
  obtain ⟨w₁', h', hdisk⟩ := hx.again w w' hw a w₁ (run_adapt_eq_ok.mp h)
  exact ⟨w₁', run_adapt_eq_ok.mpr h', hdisk⟩

theorem rereads_readText (p : Path) :
    Rereads (Machine.readText p : Attempt (StateM Workspace) String) := by
  have hread : Rereads (Machine.read p : Attempt (StateM Workspace) ByteArray) := by
    constructor
    intro w w' hw octets w₁ h
    obtain ⟨hoctets, rfl⟩ : w.disk.read p = .ok octets ∧ w = w₁ := Prod.mk.inj h
    exact ⟨w', Prod.ext (hw.read hoctets) rfl, rfl, rfl⟩
  rw [Machine.readText]
  refine rereads_bind hread fun octets => ?_
  cases Text.decode? octets with
  | some s => exact rereads_answer (.ok s)
  | none => exact rereads_answer (.error DiskError.notText)

end Workspace
end EnvCompose
