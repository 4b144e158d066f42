import EnvCompose.Proofs.Container.Outcomes
import EnvCompose.Proofs.Template.Listing
import EnvCompose.Proofs.Workspace.Fresh

/-!
# The names of containers

Without a name of its own a container is named after its template and its definition, without what
follows the last point of the latter. Two definitions that differ in that only share a directory, so
one of their containers cannot be written after the other; any other two can.
-/
namespace EnvCompose.Container
open Disk Workspace

section Stem

variable {name : String} (hslash : '/' ∉ name.toList)
include hslash

/-- A text without slashes is its own last name, unless it is empty or all of it is points. -/
theorem fileName?_of_no_slash : (⟨name⟩ : Path).fileName? =
    if name = "" ∨ name = "." ∨ name = ".." then none else some name := by
  have hpoint : name.toList = ['.'] ↔ name = "." := by rw [← String.toList_inj]; rfl
  have hpoints : name.toList = ['.', '.'] ↔ name = ".." := by rw [← String.toList_inj]; rfl
  rw [Path.fileName?, Path.segments, Text.split_of_not_mem hslash, List.reverse_singleton,
    Path.dropFillers]
  by_cases hempty : name = ""
  · simp [hempty, Path.isFiller, Path.dropFillers]
  · simp [hempty, Path.isFiller, hpoint, hpoints]

/-- A name without a point after its first character is its own stem. -/
theorem stem_eq_self (h : '.' ∉ name.toList.tail ∨ name = "..") : stem name = name := by
  rw [stem, Path.fileStem?, fileName?_of_no_slash hslash]
  split
  · rfl
  rename_i hname
  simp only [not_or] at hname
  obtain ⟨hempty, -, hpoints⟩ := hname
  have htail := h.resolve_right hpoints
  cases hcs : name.toList with
  | nil => exact (hempty (String.toList_eq_nil_iff.mp hcs)).elim
  | cons x tail =>
    rw [hcs, List.tail_cons] at htail
    have hdropped : ∀ ch ∈ tail.reverse, (ch != '.') = true := by
      intro ch hch
      rw [bne_iff_ne]
      rintro rfl
      exact htail (List.mem_reverse.mp hch)
    have hreversed : name.toList.reverse.dropWhile (· != '.') = [x].dropWhile (· != '.') := by
      rw [hcs, List.reverse_cons, List.dropWhile_append_of_pos hdropped]
    simp only [Option.map_some, Option.getD_some, hreversed]
    cases hx : x != '.' <;> simp [hx]

/-- A name with a point after its first character loses the last one and what follows. -/
theorem exists_toList_eq_stem (h : '.' ∈ name.toList.tail) (hpoints : name ≠ "..") :
    ∃ rest, name.toList = (stem name).toList ++ '.' :: rest ∧ '.' ∉ rest ∧ stem name ≠ "" := by
  obtain ⟨as, bs, hsplit, hno⟩ := List.eq_append_cons_of_mem (List.mem_reverse.mpr h)
  cases hcs : name.toList with
  | nil => simp [hcs] at h
  | cons x tail =>
    rw [hcs, List.tail_cons] at hsplit
    have htail : tail = bs.reverse ++ '.' :: as.reverse := by
      rw [← List.reverse_inj, hsplit]
      simp
    have hempty : name ≠ "" := fun heq => by simp [heq] at hcs
    have hpoint : name ≠ "." := fun heq => by
      rw [heq] at hcs
      simp [htail] at hcs
    have hdropped : ∀ ch ∈ as, (ch != '.') = true := by
      intro ch hch
      rw [bne_iff_ne]
      rintro rfl
      exact hno hch
    have hreversed : name.toList.reverse.dropWhile (· != '.') = '.' :: (bs ++ [x]) := by
      rw [hcs, List.reverse_cons, hsplit, List.append_assoc, List.dropWhile_append_of_pos hdropped]
      simp
    have hstem : stem name = String.ofList (bs ++ [x]).reverse := by
      rw [stem, Path.fileStem?, fileName?_of_no_slash hslash,
        if_neg (by simp [hempty, hpoint, hpoints])]
      simp only [Option.map_some, Option.getD_some, hreversed]
      cases bs <;> rfl
    refine ⟨as.reverse, ?_, by simpa using hno, by simp [hstem]⟩
    rw [hstem, htail]
    simp

theorem stem_eq_self_iff : stem name = name ↔ '.' ∉ name.toList.tail ∨ name = ".." := by
  refine ⟨fun heq => ?_, stem_eq_self hslash⟩
  by_contra hno
  simp only [not_or, not_not] at hno
  obtain ⟨rest, hname, -, -⟩ := exists_toList_eq_stem hslash hno.1 hno.2
  have hlength := congrArg List.length hname
  rw [heq] at hlength
  simp at hlength

theorem no_slash_stem : '/' ∉ (stem name).toList := by
  by_cases h : '.' ∉ name.toList.tail ∨ name = ".."
  · rwa [stem_eq_self hslash h]
  · simp only [not_or, not_not] at h
    obtain ⟨rest, hname, -, -⟩ := exists_toList_eq_stem hslash h.1 h.2
    rw [hname, List.mem_append, not_or] at hslash
    exact hslash.1

end Stem

private theorem fileStem?_eq (p : Path) : p.fileStem? = p.fileName?.map stem := by
  cases hname : p.fileName? with
  | none => rw [Path.fileStem?, hname]; rfl
  | some name =>
    have hn := isFileName_of_fileName? hname
    rw [Path.fileStem?, hname, Option.map_some, Option.map_some, stem, Path.fileStem?,
      fileName?_of_no_slash hn.no_slash, if_neg (by simp [hn.ne_empty, hn.ne_point, hn.ne_points])]
    rfl

section Templates

variable {w : Workspace} {templates : TemplateCollection} {t : Template}

/-- Whether a name can begin with a text that a point follows. -/
def Leads (name : String) : Prop := name ≠ "" ∧ '/' ∉ name.toList

private theorem leads_stem {name : String} (hn : IsFileName name) : Leads (stem name) := by
  refine ⟨?_, no_slash_stem hn.no_slash⟩
  by_cases h : '.' ∉ name.toList.tail ∨ name = ".."
  · rw [stem_eq_self hn.no_slash h]
    exact hn.ne_empty
  · simp only [not_or, not_not] at h
    obtain ⟨-, -, -, hne⟩ := exists_toList_eq_stem hn.no_slash h.1 h.2
    exact hne

private theorem leads_of_get {name : String} (h : (w.run (templates.get name)).1 = .ok t) :
    Leads t.name := by
  obtain hfound | ⟨-, hbuiltIn, -⟩ := TemplateCollection.get_eq_ok_iff.mp h
  · obtain ⟨dir, -, hname, -, rfl⟩ := TemplateCollection.found?_eq_some_iff.mp hfound
    have hn := (TemplateCollection.isMemberName_eq_true_iff.mp hname).1
    exact ⟨hn.ne_empty, hn.no_slash⟩
  · obtain rfl := List.mem_singleton.mp hbuiltIn
    exact ⟨by decide, by decide⟩

private theorem at?_apply (w : Workspace) (p : Path) :
    ∃ found, (Template.at? p : StateM Workspace (Option Template)) w = (found, w) ∧
      ∀ t, found = some t → Leads t.name := by
  have hkind : (Machine.kind? p : StateM Workspace (Option Kind)) w =
      ((w.disk.kind p).toOption, w) := rfl
  rw [Template.at?]
  simp only [bind, StateT.bind, hkind]
  cases (w.disk.kind p).toOption with
  | none => exact ⟨none, rfl, nofun⟩
  | some kind =>
    cases kind with
    | file =>
      refine ⟨_, rfl, fun t ht => ?_⟩
      rw [fileStem?_eq, Option.map_map] at ht
      obtain ⟨name, hname, rfl⟩ := Option.map_eq_some_iff.mp ht
      exact leads_stem (isFileName_of_fileName? hname)
    | directory =>
      refine ⟨_, Template.inDirectory?_apply w p, fun t ht => ?_⟩
      split at ht
      · obtain ⟨name, hname, rfl⟩ := Option.map_eq_some_iff.mp ht
        have hn := isFileName_of_fileName? hname
        exact ⟨hn.ne_empty, hn.no_slash⟩
      · cases ht

/-- The name of a template that is found can be put in front of a point. -/
theorem of_resolve (id : Option String) : (w.run (templates.resolve id)).2 = w ∧
    ∀ t, (w.run (templates.resolve id)).1 = .ok t → Leads t.name := by
  have hget (name : String) : (w.run (templates.get name)).2 = w := by
    rw [TemplateCollection.run_get]
  cases id with
  | none => exact ⟨hget _, fun t ht => leads_of_get ht⟩
  | some id =>
    cases habsolute : (⟨id⟩ : Path).isAbsolute with
    | false =>
      rw [TemplateCollection.run_resolve_of_relative habsolute]
      exact ⟨hget id, fun t ht => leads_of_get ht⟩
    | true =>
      obtain ⟨found, hfound, hleads⟩ := at?_apply w ⟨id⟩
      have hrun : w.run (templates.resolve (some id)) =
          (found.elim (.error (.unknown id)) .ok, w) := by
        rw [TemplateCollection.resolve]
        simp only [habsolute, if_true]
        rw [run_bind, run_lift, hfound]
        cases found <;> rfl
      rw [hrun]
      refine ⟨rfl, fun t ht => ?_⟩
      cases found with
      | none => cases ht
      | some u =>
        obtain rfl := Except.ok.inj ht
        exact hleads u rfl

end Templates

/-- Whether a directory has the file of a definition of the name. -/
structure Defines (d : Disk) (definitions : Path) (name : String) : Prop where
  no_slash : '/' ∉ name.toList
  no_backslash : '\\' ∉ name.toList
  kind_eq : d.kind (definitions.join ⟨name ++ ".yaml"⟩) = .ok .file

/-- The container of a definition in a directory without a name of its own. -/
def ofDefinition (definitions : Path) (t : Template) (dir : Path) (pins : Option Path)
    (name : String) : Container where
  definition := definitions.join ⟨name ++ ".yaml"⟩
  template := t
  name := t.name ++ "." ++ stem name
  dir := dir
  basePackages := pins

section New

variable {w : Workspace} {definitions dir : Path} {templates : TemplateCollection}
  {template name other : String} {t : Template} {pins : Option Path}

private theorem run_findDefinition (h : Defines w.disk definitions name) :
    w.run (findDefinition definitions name : Build (StateM Workspace) Path) =
      (.ok (definitions.join ⟨name ++ ".yaml"⟩), w) := by
  have hfile : (Machine.isFile (definitions.join ⟨name ++ ".yaml"⟩) : StateM Workspace Bool) w =
      (true, w) := by
    change ((w.disk.kind _).toOption == some .file, w) = _
    rw [h.kind_eq]
    rfl
  have hname : (name.toList.any fun ch => ch == '/' || ch == '\\') = false := by
    rw [List.any_eq_false]
    intro ch hch
    rw [Bool.or_eq_true, beq_iff_eq, beq_iff_eq]
    rintro (rfl | rfl)
    · exact h.no_slash hch
    · exact h.no_backslash hch
  rw [findDefinition]
  simp only [hname]
  rw [run_bind, run_lift, hfile]
  rfl

theorem run_new (h : Defines w.disk definitions name)
    (ht : (w.run (templates.resolve (some template))).1 = .ok t) :
    w.run (new definitions templates name template none dir pins) =
      (.ok (ofDefinition definitions t dir pins name), w) := by
  have hresolve : w.run (templates.resolve (some template)) = (.ok t, w) :=
    Prod.ext ht (of_resolve (some template)).1
  rw [new, run_bind, run_findDefinition h]
  dsimp only
  rw [run_bind, run_adapt, hresolve]
  rfl

/-- Containers of one template and in one directory have directories of their own if their
definitions differ before the last point. -/
theorem directory_eq_iff {pins' : Option Path} :
    (ofDefinition definitions t dir pins name).directory =
      (ofDefinition definitions t dir pins' other).directory ↔ stem name = stem other := by
  have habsolute : (⟨t.name ++ "." ++ stem name⟩ : Path).isAbsolute =
      (⟨t.name ++ "." ++ stem other⟩ : Path).isAbsolute := by
    cases hname : t.name.toList <;> simp [Path.isAbsolute, hname]
  refine (join_inj habsolute).trans ?_
  simp [← String.toList_inj]

end New

end EnvCompose.Container
