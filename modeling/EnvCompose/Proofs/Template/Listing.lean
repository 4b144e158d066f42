import EnvCompose.Proofs.Disk.Making
import EnvCompose.Proofs.Text.Order
import EnvCompose.Proofs.Workspace.Trees
import EnvCompose.Template.Collection

/-!
# Templates found and listed

A template is found by name exactly if it is listed, and a directory's template hides the built-in
one of its name both times. A directory without a path is none to the listing, but to the search it
is where paths start.
-/
namespace EnvCompose

namespace Disk

variable {d : Disk} {dir : Path} {name : String}

private theorem toOption_beq_iff {r : Except DiskError Kind} {k : Kind} :
    (r.toOption == some k) = true ↔ r = .ok k := by
  cases r <;> simp [Except.toOption]

instance (r : Except DiskError Kind) (k : Kind) : Decidable (r = .ok k) :=
  decidable_of_iff (r.toOption = some k) (by cases r <;> simp [Except.toOption])

/-- Whether directories list each of their members once. -/
def Distinct (d : Disk) : Prop := ∀ l t, d.root.get? l = some t → t.names.Nodup

/-- Whether a directory has a template of the name: a directory with a manifest. -/
structure HasTemplate (d : Disk) (dir : Path) (name : String) : Prop where
  directory : d.kind (dir.join ⟨name⟩) = .ok .directory
  manifest : d.kind ((dir.join ⟨name⟩).join manifestFile) = .ok .file

theorem hasTemplate_iff : d.HasTemplate dir name ↔ d.kind (dir.join ⟨name⟩) = .ok .directory ∧
    d.kind ((dir.join ⟨name⟩).join manifestFile) = .ok .file :=
  ⟨fun ⟨hdir, hfile⟩ => ⟨hdir, hfile⟩, fun ⟨hdir, hfile⟩ => ⟨hdir, hfile⟩⟩

instance (d : Disk) (dir : Path) (name : String) : Decidable (d.HasTemplate dir name) :=
  decidable_of_iff' _ hasTemplate_iff

theorem distinct_members {ms : List (String × Tree)} (hms : (ms.map (·.1)).Nodup)
    (h : ∀ m ∈ ms, ∀ l t, m.2.get? l = some t → t.names.Nodup) :
    ∀ l t, (Tree.directory ms).get? l = some t → t.names.Nodup := by
  intro l t ht
  cases l with
  | nil =>
    obtain rfl := Option.some_inj.mp ht
    exact hms
  | cons first rest =>
    obtain ⟨c, hc, hrest⟩ := Option.bind_eq_some_iff.mp ht
    obtain ⟨front, back, rfl, -⟩ := List.lookup_eq_some_iff.mp hc
    exact h (first, c) (by simp) rest t hrest

theorem distinct_file (octets : ByteArray) :
    ∀ l t, (Tree.file octets).get? l = some t → t.names.Nodup := by
  intro l t ht
  cases l with
  | nil =>
    obtain rfl := Option.some_inj.mp ht
    exact List.nodup_nil
  | cons first rest => cases ht

theorem Distinct.nodup {names : List String} (hd : d.Distinct) (h : d.list dir = .ok names) :
    names.Nodup := by
  obtain ⟨members, htree, rfl, -, -⟩ := of_list h
  exact hd _ _ htree

/-- The directory around a directory with a name is found as well, unless its path is empty. -/
theorem kind_of_join (hn : IsFileName name) (hdir : dir.isEmpty = false)
    (h : d.kind (dir.join ⟨name⟩) = .ok .directory) : d.kind dir = .ok .directory := by
  have hreaches : d.Reaches (dir.join ⟨name⟩) := reaches_of_kind (by rw [h]; rfl)
  obtain ⟨hcheck, -⟩ := of_kind (p := dir.join ⟨name⟩) (by rw [h]; rfl)
  rw [Reaches, origin_join hn, stepsOf_join hn, passes_append] at hreaches
  exact kind_of_reaches (checkPath_of_join hn hdir hcheck) hreaches.1

private theorem kind_of_list {names : List String} (h : d.list dir = .ok names) :
    d.kind dir = .ok .directory := by
  obtain ⟨-, -, -, hreaches, hcheck⟩ := of_list h
  exact kind_of_reaches hcheck hreaches

private theorem exists_list_of_kind (h : d.kind dir = .ok .directory) :
    ∃ names, d.list dir = .ok names := by
  have hreaches : d.Reaches dir := reaches_of_kind (by rw [h]; rfl)
  obtain ⟨hcheck, -⟩ := of_kind (p := dir) (by rw [h]; rfl)
  exact exists_list hcheck hreaches

theorem HasTemplate.mem_list {names : List String} (h : d.HasTemplate dir name)
    (hn : IsFileName name) (hlist : d.list dir = .ok names) : name ∈ names := by
  obtain ⟨-, hentry⟩ := of_kind (p := dir.join ⟨name⟩) (by rw [h.directory]; rfl)
  rw [destination_join hn] at hentry
  exact (mem_list_iff hlist).mpr hentry

end Disk

open Disk

namespace Workspace

/-- Questions that leave the workspace as it is, asked one after another, do so together. -/
theorem mapM_of_look {α β : Type} {f : α → StateM Workspace β} {g : α → β} {w : Workspace}
    {l : List α} (h : ∀ a ∈ l, f a w = (g a, w)) :
    (l.mapM f : StateM Workspace (List β)) w = (l.map g, w) := by
  induction l with
  | nil => rfl
  | cons a l ih =>
    obtain ⟨ha, hl⟩ := List.forall_mem_cons.mp h
    rw [List.mapM_cons]
    simp only [bind, StateT.bind, ha, ih hl]
    rfl

end Workspace

namespace Template

def inMember (dir : Path) (name : String) : Template :=
  ⟨name, .directory (dir.join ⟨name⟩) ((dir.join ⟨name⟩).join manifestFile)⟩

theorem inDirectory?_apply (w : Workspace) (dir : Path) :
    (inDirectory? dir : StateM Workspace (Option Template)) w =
      (if w.disk.kind dir = .ok .directory ∧ w.disk.kind (dir.join manifestFile) = .ok .file then
          dir.fileName?.map fun name => ⟨name, .directory dir (dir.join manifestFile)⟩
        else none, w) := by
  have hdir : (Machine.isDirectory dir : StateM Workspace Bool) w =
      ((w.disk.kind dir).toOption == some .directory, w) := rfl
  have hfile : (Machine.isFile (dir.join manifestFile) : StateM Workspace Bool) w =
      ((w.disk.kind (dir.join manifestFile)).toOption == some .file, w) := rfl
  rw [inDirectory?]
  simp only [bind, StateT.bind, hdir, hfile, Bool.and_eq_true, toOption_beq_iff]
  split <;> rfl

private theorem run_inDirectory? {w : Workspace} {dir : Path} {name : String}
    (hn : IsFileName name) :
    (inDirectory? (dir.join ⟨name⟩) : StateM Workspace (Option Template)) w =
      (if w.disk.HasTemplate dir name then some (inMember dir name) else none, w) := by
  rw [inDirectory?_apply, fileName?_join hn]
  simp only [hasTemplate_iff]
  rfl

end Template

namespace TemplateCollection

variable {c : TemplateCollection} {w : Workspace} {d : Disk} {dir : Path} {name : String}
  {t : Template}

theorem isMemberName_eq_true_iff :
    isMemberName name = true ↔ IsFileName name ∧ '\\' ∉ name.toList := by
  simp only [isMemberName, Bool.not_eq_true', Bool.or_eq_false_iff, beq_eq_false_iff_ne, ne_eq,
    List.any_eq_false, Bool.or_eq_true, beq_iff_eq]
  constructor
  · rintro ⟨⟨⟨hempty, hpoint⟩, hpoints⟩, hno⟩
    exact ⟨⟨hempty, fun h => hno _ h (.inl rfl), hpoint, hpoints⟩, fun h => hno _ h (.inr rfl)⟩
  · rintro ⟨⟨hempty, hslash, hpoint, hpoints⟩, hback⟩
    refine ⟨⟨⟨hempty, hpoint⟩, hpoints⟩, ?_⟩
    rintro ch hch (rfl | rfl)
    · exact hslash hch
    · exact hback hch

def found? (c : TemplateCollection) (d : Disk) (name : String) : Option Template :=
  c.dir.bind fun dir =>
    if isMemberName name ∧ d.HasTemplate dir name then some (.inMember dir name) else none

theorem found?_eq_some_iff : c.found? d name = some t ↔ ∃ dir, c.dir = some dir ∧
    isMemberName name = true ∧ d.HasTemplate dir name ∧ t = .inMember dir name := by
  rw [found?, Option.bind_eq_some_iff]
  grind

private theorem run_member? : (c.member? name : StateM Workspace (Option Template)) w =
    (c.found? w.disk name, w) := by
  rw [member?, found?]
  cases c.dir with
  | none => rfl
  | some dir =>
    cases hname : isMemberName name with
    | false =>
      simp only [Bool.false_eq_true, false_and, if_false, Option.bind_some]
      rfl
    | true => simp [Template.run_inDirectory? (isMemberName_eq_true_iff.mp hname).1]

theorem run_get : w.run (c.get name) =
    (match (c.found? w.disk name).or (Template.builtIns.find? (·.name == name)) with
      | some t => .ok t
      | none => .error (.unknown name), w) := by
  rw [get, Workspace.run_bind, Workspace.run_lift, run_member?]
  cases c.found? w.disk name with
  | some t => rfl
  | none =>
    dsimp only [Option.none_or]
    cases Template.builtIns.find? (·.name == name) <;> rfl

/-- The templates in the members of a directory, in the order of its list. -/
def templatesIn (d : Disk) (dir : Path) : List Template :=
  match d.list dir with
  | .ok names => (names.filter fun name => d.HasTemplate dir name).map (.inMember dir)
  | .error _ => []

theorem mem_templatesIn_iff (hd : d.Sound) : t ∈ templatesIn d dir ↔ dir.isEmpty = false ∧
    IsFileName t.name ∧ d.HasTemplate dir t.name ∧ t = .inMember dir t.name := by
  rw [templatesIn]
  constructor
  · intro ht
    split at ht
    · rename_i names hlist
      obtain ⟨name, hname, rfl⟩ := List.mem_map.mp ht
      rw [List.mem_filter, decide_eq_true_eq] at hname
      obtain ⟨-, -, -, -, hcheck⟩ := of_list hlist
      exact ⟨(checkPath_eq_ok_iff.mp hcheck).2.1,
        (hd.isMemberName_of_list hlist name hname.1).toIsFileName, hname.2, rfl⟩
    · simp at ht
  · rintro ⟨hdir, hname, htemplate, heq⟩
    have hkind := kind_of_join hname hdir htemplate.directory
    obtain ⟨names, hlist⟩ := exists_list_of_kind hkind
    rw [hlist, heq]
    have hmem := htemplate.mem_list hname hlist
    exact List.mem_map.mpr ⟨t.name, List.mem_filter.mpr ⟨hmem, decide_eq_true htemplate⟩, rfl⟩

private theorem nodup_templatesIn (hdistinct : d.Distinct) :
    ((templatesIn d dir).map Template.name).Nodup := by
  rw [templatesIn]
  split
  · rename_i names hlist
    rw [List.map_map]
    exact (List.map_id _).symm ▸ (hdistinct.nodup hlist).filter _
  · simp

private theorem filterMap_map_ite {α β : Type} (keep : α → Prop) [DecidablePred keep] (f : α → β)
    (l : List α) : (l.map fun a => if keep a then some (f a) else none).filterMap id =
      (l.filter fun a => keep a).map f := by
  induction l with
  | nil => rfl
  | cons a l ih => by_cases ha : keep a <;> simp [ha, ← ih]

private theorem run_members (hd : w.disk.Sound) : w.run c.members =
    (.ok ((c.dir.map (templatesIn w.disk)).getD []), w) := by
  rw [members]
  cases c.dir with
  | none => rfl
  | some dir =>
    have hdir : (Machine.isDirectory dir : StateM Workspace Bool) w =
      ((w.disk.kind dir).toOption == some .directory, w) := rfl
    dsimp only [Option.map_some, Option.getD_some]
    rw [templatesIn, Workspace.run_bind, Workspace.run_lift, hdir]
    cases hlist : w.disk.list dir with
    | error e =>
      have hkind : ((w.disk.kind dir).toOption == some .directory) = false := by
        rw [Bool.eq_false_iff]
        intro hkind
        obtain ⟨names, hnames⟩ := exists_list_of_kind (toOption_beq_iff.mp hkind)
        simp [hnames] at hlist
      simp [hkind]
    | ok names =>
      have hrun : w.run (Machine.list dir) = (.ok names, w) := by rw [← hlist]; rfl
      have hmember (name : String) (hname : name ∈ names) :
          (Template.inDirectory? (dir.join ⟨name⟩) : StateM Workspace (Option Template)) w =
            (if w.disk.HasTemplate dir name then some (.inMember dir name) else none, w) :=
        Template.run_inDirectory? (hd.isMemberName_of_list hlist name hname).toIsFileName
      have hfound := Workspace.mapM_of_look hmember
      simp only [kind_of_list hlist, Except.toOption, beq_self_eq_true, if_true]
      rw [Workspace.run_bind, Workspace.run_adapt, hrun]
      dsimp only [Except.mapError]
      rw [Workspace.run_bind, Workspace.run_lift, hfound]
      dsimp only
      rw [Workspace.run_pure, filterMap_map_ite]

/-- The templates of a collection: the built-in ones that are not hidden and those in the directory.
-/
def offered (c : TemplateCollection) (d : Disk) : List Template :=
  let members := (c.dir.map (templatesIn d)).getD []
  (Template.builtIns.filter fun t => members.all (·.name != t.name)) ++ members

private theorem run_list (hd : w.disk.Sound) : w.run c.list =
    (.ok ((c.offered w.disk).mergeSort fun a b => decide (a.name ≤ b.name)), w) := by
  rw [list, Workspace.run_bind, run_members hd]
  rfl

/-- Whether a directory is a collection's, has a path and holds a template of the name. -/
structure Holds (c : TemplateCollection) (d : Disk) (dir : Path) (name : String) : Prop where
  dir_eq : c.dir = some dir
  isEmpty_eq : dir.isEmpty = false
  isFileName : IsFileName name
  hasTemplate : d.HasTemplate dir name

theorem mem_members_iff (hd : d.Sound) : t ∈ (c.dir.map (templatesIn d)).getD [] ↔
    ∃ dir, c.Holds d dir t.name ∧ t = .inMember dir t.name := by
  cases hdir : c.dir with
  | none =>
    simp only [Option.map_none, Option.getD_none, List.not_mem_nil, false_iff, not_exists]
    rintro dir ⟨h, -⟩
    simp [h.dir_eq] at hdir
  | some dir =>
    rw [Option.map_some, Option.getD_some, mem_templatesIn_iff hd]
    constructor
    · rintro ⟨hempty, hname, htemplate, heq⟩
      exact ⟨dir, ⟨hdir, hempty, hname, htemplate⟩, heq⟩
    · rintro ⟨other, h, heq⟩
      obtain rfl : other = dir := Option.some_inj.mp (h.dir_eq.symm.trans hdir)
      exact ⟨h.isEmpty_eq, h.isFileName, h.hasTemplate, heq⟩

/-- Each built-in template is offered unless the directory holds one of its name. -/
theorem mem_offered_iff (hd : d.Sound) : t ∈ c.offered d ↔
    (∃ dir, c.Holds d dir t.name ∧ t = .inMember dir t.name) ∨
      t ∈ Template.builtIns ∧ ∀ dir, ¬c.Holds d dir t.name := by
  have hhidden : (((c.dir.map (templatesIn d)).getD []).all (·.name != t.name)) = true ↔
      ∀ dir, ¬c.Holds d dir t.name := by
    rw [List.all_eq_true]
    constructor
    · intro h dir hholds
      simpa [Template.inMember] using h (.inMember dir t.name)
        ((mem_members_iff hd).mpr ⟨dir, hholds, rfl⟩)
    · intro h u hu
      obtain ⟨dir, hholds, -⟩ := (mem_members_iff hd).mp hu
      rw [bne_iff_ne]
      intro heq
      exact h dir (heq ▸ hholds)
  rw [offered, List.mem_append, List.mem_filter, hhidden, mem_members_iff hd]
  exact or_comm

theorem nodup_offered (hdistinct : d.Distinct) : ((c.offered d).map Template.name).Nodup := by
  rw [offered, List.map_append, List.nodup_append]
  refine ⟨?_, ?_, ?_⟩
  · exact (List.filter_sublist.map _).nodup (by decide)
  · cases c.dir with
    | none => simp
    | some dir => exact nodup_templatesIn hdistinct
  · intro a ha b hb
    obtain ⟨t, ht, rfl⟩ := List.mem_map.mp ha
    obtain ⟨u, hu, rfl⟩ := List.mem_map.mp hb
    have hhidden := List.all_eq_true.mp (List.mem_filter.mp ht).2 u hu
    exact (bne_iff_ne.mp hhidden).symm

/-- Templates under distinct names are put into the strict order of the octets. -/
theorem pairwise_mergeSort_octets {ts : List Template} (h : (ts.map Template.name).Nodup) :
    (ts.mergeSort fun a b => decide (a.name ≤ b.name)).Pairwise
      fun a b => Text.octets a.name < Text.octets b.name := by
  have hle : (ts.mergeSort fun a b => decide (a.name ≤ b.name)).Pairwise
      fun a b => decide (a.name ≤ b.name) = true :=
    List.pairwise_mergeSort
      (fun a b c hab hbc => by simp only [decide_eq_true_eq] at *; exact String.le_trans hab hbc)
      (fun a b => by simpa using String.le_total a.name b.name) ts
  have hne : (ts.mergeSort fun a b => decide (a.name ≤ b.name)).Pairwise
      fun a b => a.name ≠ b.name :=
    List.pairwise_map.mp (((List.mergeSort_perm ts _).map Template.name).nodup_iff.mpr h)
  refine (hle.and hne).imp fun {a b} hab => Text.octets_lt ?_
  by_contra hlt
  exact hab.2 (String.le_antisymm (of_decide_eq_true hab.1) (String.not_lt.mp hlt))

/-- Whether a template is found that is not listed: the directory has no path, and the template
lies where paths start. -/
def FindsUnlisted (c : TemplateCollection) (d : Disk) (name : String) : Prop :=
  c.dir = some ⟨""⟩ ∧ isMemberName name = true ∧ d.HasTemplate ⟨""⟩ name

theorem get_eq_ok_iff : (w.run (c.get name)).1 = .ok t ↔ c.found? w.disk name = some t ∨
    c.found? w.disk name = none ∧ t ∈ Template.builtIns ∧ t.name = name := by
  have hbuiltIn : Template.builtIns.find? (·.name == name) = some t ↔
      t ∈ Template.builtIns ∧ t.name = name := by
    constructor
    · intro h
      exact ⟨List.mem_of_find?_eq_some h, by simpa using List.find?_some h⟩
    · rintro ⟨ht, rfl⟩
      obtain rfl := List.mem_singleton.mp ht
      rfl
  rw [run_get, ← hbuiltIn]
  cases c.found? w.disk name with
  | some u => simp
  | none => cases Template.builtIns.find? (·.name == name) <;> simp

theorem found?_eq_some_iff_holds (hback : '\\' ∉ name.toList) (h : ¬c.FindsUnlisted d name) :
    c.found? d name = some t ↔ (∃ dir, c.Holds d dir t.name ∧ t = .inMember dir t.name) ∧
      t.name = name := by
  rw [found?_eq_some_iff]
  constructor
  · rintro ⟨dir, hdir, hname, htemplate, rfl⟩
    refine ⟨⟨dir, ⟨hdir, ?_, (isMemberName_eq_true_iff.mp hname).1, htemplate⟩, rfl⟩, rfl⟩
    by_contra hempty
    have heq : dir = ⟨""⟩ := by
      rw [Bool.not_eq_false, Path.isEmpty, String.isEmpty_iff] at hempty
      exact congrArg Path.mk hempty
    exact h ⟨heq ▸ hdir, hname, heq ▸ htemplate⟩
  · rintro ⟨⟨dir, hholds, heq⟩, rfl⟩
    exact ⟨dir, hholds.dir_eq, isMemberName_eq_true_iff.mpr ⟨hholds.isFileName, hback⟩,
      hholds.hasTemplate, heq⟩

/-- What is found by a name and what is listed under it are one template, unless the directory has
no path. -/
theorem get_eq_ok_iff_mem_offered (hd : w.disk.Sound) (hback : '\\' ∉ name.toList)
    (h : ¬c.FindsUnlisted w.disk name) :
    (w.run (c.get name)).1 = .ok t ↔ t ∈ c.offered w.disk ∧ t.name = name := by
  have hfound := fun u => found?_eq_some_iff_holds (t := u) hback h
  have hnone : c.found? w.disk name = none ↔ ∀ dir, ¬c.Holds w.disk dir name := by
    rw [Option.eq_none_iff_forall_ne_some]
    constructor
    · intro hno dir hholds
      exact hno _ ((hfound (.inMember dir name)).mpr ⟨⟨dir, hholds, rfl⟩, rfl⟩)
    · intro hno u hu
      obtain ⟨⟨dir, hholds, -⟩, rfl⟩ := (hfound u).mp hu
      exact hno dir hholds
  rw [get_eq_ok_iff, mem_offered_iff hd, hfound, hnone]
  constructor
  · rintro (⟨hholds, rfl⟩ | ⟨hno, ht, rfl⟩)
    · exact ⟨.inl hholds, rfl⟩
    · exact ⟨.inr ⟨ht, hno⟩, rfl⟩
  · rintro ⟨hholds | ⟨ht, hno⟩, rfl⟩
    · exact .inl ⟨hholds, rfl⟩
    · exact .inr ⟨hno, ht, rfl⟩

/-- A template that is found in a directory without a path is got by its name and not listed. -/
theorem FindsUnlisted.get_eq_ok (hd : w.disk.Sound) (h : c.FindsUnlisted w.disk name) :
    (w.run (c.get name)).1 = .ok (.inMember ⟨""⟩ name) ∧
      .inMember ⟨""⟩ name ∉ c.offered w.disk := by
  obtain ⟨hdir, hname, htemplate⟩ := h
  refine ⟨get_eq_ok_iff.mpr (.inl (found?_eq_some_iff.mpr ⟨_, hdir, hname, htemplate, rfl⟩)), ?_⟩
  rw [mem_offered_iff hd]
  rintro (⟨dir, hholds, -⟩ | ⟨hbuiltIn, -⟩)
  · obtain rfl : dir = ⟨""⟩ := Option.some_inj.mp (hholds.dir_eq.symm.trans hdir)
    exact absurd hholds.isEmpty_eq (by decide)
  · simp [Template.builtIns, Template.inMember] at hbuiltIn

theorem run_resolve_of_relative (h : (⟨name⟩ : Path).isAbsolute = false) :
    w.run (c.resolve (some name)) = w.run (c.get name) := by
  rw [resolve]
  simp [h]

/-- A template is listed exactly if it is found by its name, unless the directory has no path. -/
theorem get_agrees_with_list (hd : w.disk.Sound) (hdistinct : w.disk.Distinct) :
    ∃ ts, w.run c.list = (.ok ts, w) ∧
      ts.Pairwise (fun a b => Text.octets a.name < Text.octets b.name) ∧
      (∀ t, t ∈ ts ↔ (∃ dir, c.Holds w.disk dir t.name ∧ t = .inMember dir t.name) ∨
        t ∈ Template.builtIns ∧ ∀ dir, ¬c.Holds w.disk dir t.name) ∧
      (∀ name, '\\' ∉ name.toList →
        ((∀ t, (w.run (c.get name)).1 = .ok t ↔ t ∈ ts ∧ t.name = name) ↔
          ¬c.FindsUnlisted w.disk name)) ∧
      (∀ name, (w.run (c.get name)).2 = w ∧ ((⟨name⟩ : Path).isAbsolute = false →
        w.run (c.resolve (some name)) = w.run (c.get name))) ∧
      w.run (c.resolve none) = w.run (c.get "empty") := by
  have hmem {t : Template} :
      t ∈ (c.offered w.disk).mergeSort (fun a b => decide (a.name ≤ b.name)) ↔
        t ∈ c.offered w.disk := List.mem_mergeSort
  refine ⟨_, run_list hd, pairwise_mergeSort_octets (nodup_offered hdistinct), ?_, ?_, ?_, rfl⟩
  · intro t
    rw [hmem, mem_offered_iff hd]
  · intro name hback
    simp only [hmem]
    refine ⟨fun hagree hunlisted => ?_, fun h t => get_eq_ok_iff_mem_offered hd hback h⟩
    obtain ⟨hget, hno⟩ := hunlisted.get_eq_ok hd
    exact hno ((hagree _).mp hget).1
  · intro name
    exact ⟨by rw [run_get], run_resolve_of_relative⟩

section Witness

open Workspace

/-- A directory with a template that hides a built-in one, another one, and a directory without a
manifest. -/
def shadowingTemplates : List (String × Tree) :=
  [("b", .directory [("spack.yaml", .file .empty)]), ("half", .empty),
    ("empty", .directory [("spack.yaml", .file .empty)])]

private theorem sound_shadowingTemplates : (holding shadowingTemplates).disk.Sound := by
  have hfile : IsMemberName "spack.yaml" := by decide
  have hmanifest : ∀ l, (Tree.directory [("spack.yaml", .file .empty)]).entryAt? l ≠ none →
      ∀ name ∈ l, IsMemberName name :=
    names_of_members (List.forall_mem_singleton.mpr ⟨hfile, names_of_file _⟩)
  have hnone : ∀ l, Tree.empty.entryAt? l ≠ none → ∀ name ∈ l, IsMemberName name :=
    names_of_members (by simp)
  refine sound_holding ?_
  simp only [shadowingTemplates, List.forall_mem_cons]
  exact ⟨⟨by decide, hmanifest⟩, ⟨by decide, hnone⟩, ⟨by decide, hmanifest⟩, by simp⟩

private theorem distinct_holding {members : List (String × Tree)} (hms : (members.map (·.1)).Nodup)
    (h : ∀ m ∈ members, ∀ l t, m.2.get? l = some t → t.names.Nodup) :
    (holding members).disk.Distinct := by
  refine distinct_members (by simp) (List.forall_mem_singleton.mpr ?_)
  refine distinct_members (by simp) (List.forall_mem_singleton.mpr ?_)
  exact distinct_members hms h

private theorem distinct_shadowingTemplates : (holding shadowingTemplates).disk.Distinct := by
  have hmanifest : ∀ l t, (Tree.directory [("spack.yaml", .file .empty)]).get? l = some t →
      t.names.Nodup := distinct_members (by simp) (by simpa using distinct_file _)
  have hnone : ∀ l t, Tree.empty.get? l = some t → t.names.Nodup :=
    distinct_members (by simp) (by simp)
  refine distinct_holding (by decide) ?_
  simp only [shadowingTemplates, List.forall_mem_cons]
  exact ⟨hmanifest, hnone, hmanifest, by simp⟩

theorem get_agrees_with_list_shadowingTemplates : (holding shadowingTemplates).disk.Sound ∧
    (holding shadowingTemplates).disk.Distinct ∧
    ∃ ts, (holding shadowingTemplates).run (list ⟨some ⟨"s"⟩⟩) =
        (.ok ts, holding shadowingTemplates) ∧
      ((holding shadowingTemplates).run (get ⟨some ⟨"s"⟩⟩ "empty")).1 =
        .ok (.inMember ⟨"s"⟩ "empty") ∧
      (∀ t ∈ ts, t.name ≠ "half") := by
  refine ⟨sound_shadowingTemplates, distinct_shadowingTemplates, ?_⟩
  obtain ⟨ts, hlist, -, hmem, hget, -⟩ := get_agrees_with_list (c := ⟨some ⟨"s"⟩⟩)
    sound_shadowingTemplates distinct_shadowingTemplates
  have hstray (name : String) :
      ¬FindsUnlisted ⟨some ⟨"s"⟩⟩ (holding shadowingTemplates).disk name := fun h => absurd h.1 (by decide)
  refine ⟨ts, hlist, ?_, ?_⟩
  · refine ((hget "empty" (by decide)).mpr (hstray _) _).mpr ⟨(hmem _).mpr (.inl ?_), rfl⟩
    have hname : IsMemberName "empty" := by decide
    exact ⟨⟨"s"⟩, ⟨rfl, by decide, hname.toIsFileName, by decide +kernel⟩, rfl⟩
  · intro t ht hname
    have hhalf := ((hget "half" (by decide)).mpr (hstray _) t).mpr ⟨ht, hname⟩
    have hno : (found? ⟨some ⟨"s"⟩⟩ (holding shadowingTemplates).disk "half").or
        (Template.builtIns.find? (·.name == "half")) = none := by decide +kernel
    rw [run_get, hno] at hhalf
    cases hhalf

/-- A directory with a manifest, in the directory where paths start. -/
def pathless : Workspace := holding [("spack.yaml", .file .empty)]

private theorem sound_pathless : pathless.disk.Sound :=
  sound_holding (List.forall_mem_singleton.mpr ⟨by decide, names_of_file _⟩)

/-- Where the directory has no path, a template that is found is not listed. -/
theorem get_disagrees_with_list_pathless : pathless.disk.Sound ∧ pathless.disk.Distinct ∧
    (pathless.run (get ⟨some ⟨""⟩⟩ "s")).1 = .ok (.inMember ⟨""⟩ "s") ∧
      pathless.run (list ⟨some ⟨""⟩⟩) = (.ok Template.builtIns, pathless) ∧
      ∀ t ∈ Template.builtIns, t.name ≠ "s" := by
  have hfinds : FindsUnlisted ⟨some ⟨""⟩⟩ pathless.disk "s" :=
    ⟨rfl, by decide, by decide +kernel⟩
  refine ⟨sound_pathless, distinct_holding (by decide) ?_, (hfinds.get_eq_ok sound_pathless).1, ?_,
    by decide⟩
  · exact List.forall_mem_singleton.mpr (distinct_file _)
  · have hoffered : offered ⟨some ⟨""⟩⟩ pathless.disk = Template.builtIns := by decide +kernel
    rw [run_list sound_pathless, hoffered, Template.builtIns, List.mergeSort_singleton]

end Witness

end TemplateCollection
end EnvCompose
