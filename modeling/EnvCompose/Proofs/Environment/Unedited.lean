import EnvCompose.Proofs.Environment.Overrides
import EnvCompose.Proofs.Manifest.Closure
import EnvCompose.Proofs.Merge.Restoring

/-!
# Environments without overrides

Where nothing is overridden, restoring the template's sections ought to give the template back. It
does if every section agrees with itself, and otherwise a key or a value of the template is lost.
-/
namespace EnvCompose
open Yaml Merge Manifest

namespace Yaml

/-- Of equal mappings with the same keys in the same order the values are equal one by one. -/
private theorem forall₂_of_beq {m n : Mapping} (hn : (Value.map n).proper = true)
    (hkeys : m.map (·.1) = n.map (·.1))
    (h : ∀ e ∈ m, ∃ f ∈ n, (e.1 == f.1) = true ∧ (e.2 == f.2) = true) :
    List.Forall₂ (fun e f => e.1 = f.1 ∧ (e.2 == f.2) = true) m n := by
  obtain ⟨hdistinct, hproper⟩ := (Value.proper_map n).mp hn
  clear hn
  induction n generalizing m with
  | nil =>
    obtain rfl := List.map_eq_nil_iff.mp hkeys
    exact .nil
  | cons f n ih =>
    obtain ⟨e, m, rfl⟩ := List.exists_cons_of_ne_nil (l := m) (by rintro rfl; simp at hkeys)
    obtain ⟨hkey, hrest⟩ : e.1 = f.1 ∧ m.map (·.1) = n.map (·.1) := List.cons.inj hkeys
    obtain ⟨hhead, htail⟩ := List.pairwise_cons.mp hdistinct
    rw [List.forall_mem_cons] at h hproper
    constructor
    · obtain ⟨g, hg, heg, hvalue⟩ := h.1
      rcases List.mem_cons.mp hg with rfl | hg
      · exact ⟨hkey, hvalue⟩
      · have hne := hhead g hg
        rw [← hkey, heg] at hne
        cases hne
    · refine ih hrest (fun e' he' => ?_) htail hproper.2
      obtain ⟨g, hg, heg, hvalue⟩ := h.2 e' he'
      rcases List.mem_cons.mp hg with rfl | hg
      · have hin : e'.1 ∈ n.map (·.1) := hrest ▸ List.mem_map_of_mem he'
        obtain ⟨f', hf', hsame⟩ := List.mem_map.mp hin
        have hne := hhead f' hf'
        rw [← hsame] at heg
        rw [Value.beq_symm (hproper.2 f' hf').1 hproper.1.1 heg] at hne
        cases hne
      · exact ⟨g, hg, heg, hvalue⟩

private theorem valueFor?_of_beq {m n : Mapping} (hn : (Value.map n).proper = true)
    (hkeys : m.map (·.1) = n.map (·.1)) (h : (Value.map m == .map n) = true) (key : Value) :
    Option.Rel (fun v w => (v == w) = true) (valueFor? m key) (valueFor? n key) := by
  have hpairs := forall₂_of_beq hn hkeys ((Value.map_beq_map m n).mp h).2
  rw [valueFor?, valueFor?, entryFor?_eq_find?, entryFor?_eq_find?]
  clear hn hkeys h
  induction hpairs with
  | nil => exact .none
  | cons hef _ ih =>
    rw [List.find?_cons, List.find?_cons, hef.1]
    split
    · exact .some hef.2
    · exact ih

end Yaml

namespace Manifest

/-- Whether each configuration section agrees with itself. -/
def sectionsAgree (m : Manifest) : Bool :=
  sectionNames.all fun name => (m.get? name).all fun v => agrees v v

section Restoring

variable {name : String} {m : Manifest}

theorem restoreSection_of_none (hp : namesOn name = [name]) (hn : IsName name) {old : Value}
    (h : valueFor? m.body (.str name) = none) : m.restoreSection (.str name, old) = m := by
  have htext : (Value.str name).text? = some name := rfl
  simp [restoreSection, htext, get?_section hp hn, h]

theorem restoreSection_of_some (hp : namesOn name = [name]) (hn : IsName name) {old v : Value}
    (h : valueFor? m.body (.str name) = some v) :
    m.restoreSection (.str name, old) = m.set name (Merge.merge .restore v old) := by
  have htext : (Value.str name).text? = some name := rfl
  simp [restoreSection, htext, get?_section hp hn, h]

/-- Where a section is, its key is one of the body's. -/
theorem exists_key_of_section (hn : IsName name) {v : Value}
    (h : valueFor? m.body (.str name) = some v) :
    ∃ s, keyFor m.body name = .str s ∧ (.str s, v) ∈ m.body := by
  obtain ⟨s, hs, -, hfirst⟩ := keyFor_eq_str hn m.body
  obtain ⟨e, he, rfl⟩ := Option.map_eq_some_iff.mp h
  refine ⟨s, hs, ?_⟩
  rw [← hfirst e he]
  exact mem_of_entryFor? he

private theorem restoreSection_keys (hp : namesOn name = [name]) (hn : IsName name) (old : Value) :
    (m.restoreSection (.str name, old)).body.map (·.1) = m.body.map (·.1) := by
  cases h : valueFor? m.body (.str name) with
  | none => rw [restoreSection_of_none hp hn h]
  | some v =>
    obtain ⟨s, hs, hmem⟩ := exists_key_of_section hn h
    rw [restoreSection_of_some hp hn h, set_section_body hp hn, hs]
    exact Mapping.keys_insert_of_present ⟨_, hmem, beq_self_eq_true _⟩ _

/-- A section that is restored to an equal value changes nothing. -/
theorem restoreSection_beq (hp : namesOn name = [name]) (hn : IsName name)
    (hm : (Value.map m.body).proper = true) {old : Value}
    (h : ∀ v ∈ valueFor? m.body (.str name), (Merge.merge .restore v old == v) = true) :
    (Value.map (m.restoreSection (.str name, old)).body == .map m.body) = true := by
  cases hv : valueFor? m.body (.str name) with
  | none =>
    rw [restoreSection_of_none hp hn hv]
    exact beq_self_eq_true _
  | some v =>
    obtain ⟨s, hs, hmem⟩ := exists_key_of_section hn hv
    obtain ⟨hdistinct, hproper⟩ := (Value.proper_map m.body).mp hm
    rw [restoreSection_of_some hp hn hv, set_section_body hp hn, hs,
      Mapping.insert_eq_map hm (by simp) ⟨_, hmem, beq_self_eq_true _⟩, Value.map_beq_map]
    refine ⟨List.length_map _, fun e' he' => ?_⟩
    obtain ⟨e, he, rfl⟩ := List.mem_map.mp he'
    refine ⟨e, he, ?_⟩
    by_cases hkey : (e.1 == .str s) = true
    · obtain rfl := hdistinct.eq_of_beq hproper he hmem hkey
      simpa using h v hv
    · simp [hkey]

def snapshotOf (before : Manifest) (names : List String) : Mapping :=
  names.filterMap fun name => (before.heldSection name).map fun v => (.str name, v)

theorem configSections_eq (m : Manifest) : m.configSections = m.snapshotOf sectionNames := rfl

theorem heldSection_eq_some {v : Value} :
    m.heldSection name = some v ↔ m.get? name = some v ∧ v.isBlank = false := by
  simp [heldSection, Option.filter_eq_some_iff]

theorem snapshotOf_cons (before : Manifest) (name : String) (names : List String) :
    before.snapshotOf (name :: names) =
      ((before.heldSection name).map fun v => (.str name, v)).toList ++ before.snapshotOf names := by
  cases h : before.heldSection name <;> simp [snapshotOf, h]

variable {names : List String} (hp : ∀ name ∈ names, namesOn name = [name])
  (hn : ∀ name ∈ names, IsName name)
include hp hn

theorem restoreSections_keys (m before : Manifest) :
    (m.restoreSections (before.snapshotOf names)).body.map (·.1) = m.body.map (·.1) := by
  induction names generalizing m with
  | nil => rfl
  | cons name names ih =>
    rw [List.forall_mem_cons] at hp hn
    rw [snapshotOf_cons]
    cases before.heldSection name with
    | none => exact ih hp.2 hn.2 m
    | some old => exact (ih hp.2 hn.2 _).trans (restoreSection_keys hp.1 hn.1 old)

/-- Sections that are all restored to equal values change nothing. -/
theorem restoreSections_beq (hnodup : names.Nodup) (m : Manifest) {before : Manifest}
    (hm : (Value.map m.body).proper = true)
    (h : ∀ name ∈ names, ∀ old ∈ before.heldSection name,
      valueFor? m.body (.str name) = some old ∧ old.proper = true ∧ agrees old old = true) :
    (Value.map (m.restoreSections (before.snapshotOf names)).body == .map m.body) = true := by
  induction names generalizing m with
  | nil => exact beq_self_eq_true _
  | cons name names ih =>
    rw [List.forall_mem_cons] at hp hn h
    obtain ⟨hnew, hnodup⟩ := List.nodup_cons.mp hnodup
    rw [snapshotOf_cons]
    cases hold : before.heldSection name with
    | none => exact ih hp.2 hn.2 hnodup m hm h.2
    | some old =>
      obtain ⟨hvalue, hproper, hagrees⟩ := h.1 old hold
      have hstep : (Value.map (m.restoreSection (.str name, old)).body == .map m.body) = true := by
        refine restoreSection_beq hp.1 hn.1 hm fun v hv => ?_
        obtain rfl := Option.some.inj (hvalue.symm.trans hv)
        exact (merge_restore_beq_iff hproper hproper).mpr hagrees
      have hrest := ih hp.2 hn.2 hnodup (m.restoreSection (.str name, old))
        (closed_proper.restoreSection hm hproper) fun other ho v hv => by
          have hne : name ≠ other := by rintro rfl; exact hnew ho
          rw [valueFor?_restoreSection hp.1 hn.1 (hn.2 other ho), if_neg hne]
          exact h.2 other ho v hv
      exact Value.beq_trans hrest hstep

end Restoring

private theorem agrees_of_isBlank {v : Value} (h : v.isBlank = true) : agrees v v = true := by
  unfold Value.isBlank at h
  split at h <;> simp_all [agrees, agreesEach]

theorem sectionsAgree_iff {m : Manifest} : m.sectionsAgree = true ↔
    ∀ name ∈ sectionNames, ∀ v ∈ m.get? name, agrees v v = true := by
  rw [sectionsAgree, List.all_eq_true]
  refine forall₂_congr fun name _ => ?_
  cases m.get? name <;> simp

/-- A manifest survives its own snapshot exactly if its sections agree with themselves. -/
theorem restoreSections_configSections_iff {m : Manifest} (hm : (Value.map m.body).proper = true) :
    (m.restoreSections m.configSections == m) = true ↔ m.sectionsAgree = true := by
  have hp : ∀ name ∈ sectionNames, namesOn name = [name] := fun _ => namesOn_section
  have hn : ∀ name ∈ sectionNames, IsName name := fun _ => isName_section
  have hnodup : sectionNames.Nodup := by decide
  have hsection : ∀ name ∈ sectionNames, ∀ v, m.get? name = some v →
      valueFor? m.body (.str name) = some v ∧ v.proper = true := by
    intro name hname v hv
    rw [get?_section (hp name hname) (hn name hname)] at hv
    exact ⟨hv, valueFor?_proper hm _ v hv⟩
  rw [beq_iff, restoreSections_extra, configSections_eq, sectionsAgree_iff]
  constructor
  · rintro ⟨hbody, -⟩ name hname v hv
    obtain ⟨hvalue, hproper⟩ := hsection name hname v hv
    cases hblank : v.isBlank with
    | true => exact agrees_of_isBlank hblank
    | false =>
      have hrestored := valueFor?_restoreSections hp hn hnodup (hn name hname) m m
      rw [if_pos hname, heldSection_eq_some.mpr ⟨hv, hblank⟩, hvalue] at hrestored
      have hsame := valueFor?_of_beq hm (restoreSections_keys hp hn m m) hbody (.str name)
      rw [snapshotOf, hrestored, hvalue] at hsame
      cases hsame with
      | some hback => exact (merge_restore_beq_iff hproper hproper).mp hback
  · intro hagrees
    refine ⟨restoreSections_beq hp hn hnodup m hm fun name hname old hold => ?_,
      beq_self_eq_true _⟩
    obtain ⟨hget, -⟩ := heldSection_eq_some.mp hold
    obtain ⟨hvalue, hproper⟩ := hsection name hname old hget
    exact ⟨hvalue, hproper, hagrees name hname old hget⟩

end Manifest

namespace Environment

variable {e : Environment} (hm : (Value.map e.manifest.body).proper = true)
  (hcompiler : e.compiler = none) (hmpi : e.mpi = none) (hinstall : e.installPrefix = none)
include hm hcompiler hmpi hinstall

theorem composed_beq_iff : (e.composed == e.manifest.setIncludes e.includeNames) = true ↔
    e.manifest.sectionsAgree = true := by
  have hproper := closed_proper.setIncludes hm e.includeNames
  have hcomposed : e.composed = (e.manifest.setIncludes e.includeNames).restoreSections
      (e.manifest.setIncludes e.includeNames).configSections := by
    simp [composed, overrides, hcompiler, hmpi, hinstall]
  rw [hcomposed, restoreSections_configSections_iff hproper, sectionsAgree_iff, sectionsAgree_iff]
  refine forall₂_congr fun name hname => ?_
  rw [get?_setIncludes hname]

theorem composed_beq_of_tidy (h : ∀ name ∈ sectionNames, ∀ v ∈ e.manifest.get? name, Tidy v) :
    (e.composed == e.manifest.setIncludes e.includeNames) = true := by
  refine (composed_beq_iff hm hcompiler hmpi hinstall).mpr (sectionsAgree_iff.mpr ?_)
  intro name hname v hv
  exact (h name hname v hv).agrees_self

end Environment

/-- A manifest that is restored from its own sections stays as it is exactly if they agree with
themselves. So an environment that names no override has its template's manifest with its own list
of includes exactly if the template's sections do. -/
theorem unedited_iff_sectionsAgree {m : Manifest} (hm : (Value.map m.body).proper = true) :
    ((m.restoreSections m.configSections == m) = true ↔ m.sectionsAgree = true) ∧
      ∀ e : Environment, e.manifest = m → e.compiler = none → e.mpi = none → e.installPrefix = none →
        ((e.composed == m.setIncludes e.includeNames) = true ↔ m.sectionsAgree = true) := by
  refine ⟨restoreSections_configSections_iff hm, ?_⟩
  rintro e rfl hcompiler hmpi hinstall
  exact Environment.composed_beq_iff hm hcompiler hmpi hinstall

section Witness

/-- A template with a marked key, a list and names of their own. -/
def pinnedTemplate : Manifest where
  body := [(.str "packages", .map [(.str "zlib:", .map [(.str "version", .seq [.str "1.3"])]),
    (.str "mpi", .map [])]), (.str "view", .bool false)]
  extra := []

def plainEnvironment (m : Manifest) : Environment :=
  .ofTemplate (.ofRoot ⟨"/stack"⟩) {} ⟨"plain", .builtIn ""⟩ m

theorem unedited_iff_sectionsAgree_pinned : (Value.map pinnedTemplate.body).proper = true ∧
    (pinnedTemplate.restoreSections pinnedTemplate.configSections == pinnedTemplate) = true ∧
      ((plainEnvironment pinnedTemplate).composed ==
        pinnedTemplate.setIncludes (plainEnvironment pinnedTemplate).includeNames) = true := by
  have hproper : (Value.map pinnedTemplate.body).proper = true := by decide
  have hagree : pinnedTemplate.sectionsAgree = true := by decide +kernel
  obtain ⟨hrestored, hcomposed⟩ := unedited_iff_sectionsAgree hproper
  exact ⟨hproper, hrestored.mpr hagree,
    (hcomposed (plainEnvironment pinnedTemplate) rfl rfl rfl rfl).mpr hagree⟩

/-- A template with two keys of one name in a section. -/
def collidingText : String := "spack:\n  packages:\n    zlib: 1\n    \"zlib:\": 2\n"

/-- The value under a marked key is lost to the one under the key of that name before it. -/
theorem colliding_keys_edited : ∃ m, Manifest.parse collidingText = .ok m ∧
    (m.restoreSections m.configSections == m) = false ∧
      ((plainEnvironment m).composed ==
        m.setIncludes (plainEnvironment m).includeNames) = false := by
  have hcheck : (Manifest.parse collidingText).toOption.any (fun m =>
      !(m.restoreSections m.configSections == m) && !((plainEnvironment m).composed ==
        m.setIncludes (plainEnvironment m).includeNames)) = true := by
    decide +kernel
  cases hm : Manifest.parse collidingText with
  | error e => simp [hm, Except.toOption] at hcheck
  | ok m => exact ⟨m, rfl, by simpa [hm, Except.toOption] using hcheck⟩

end Witness
end EnvCompose
