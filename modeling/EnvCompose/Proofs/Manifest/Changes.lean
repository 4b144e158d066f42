import EnvCompose.Proofs.Manifest.Closure

/-!
# Changes that are restored

Changes at paths none of which is a start of another do not see one another. If what was there
before is merged back, a change stays where the old document left room for it, and elsewhere the
old value is there again.
-/
namespace EnvCompose.Manifest
open Yaml Merge

/-- The names of a path and the value assigned there. -/
abbrev Change := List String × Value

namespace Change

/-- Neither path is a start of the other. -/
def Apart (a b : Change) : Prop := ¬a.1 <+: b.1 ∧ ¬b.1 <+: a.1

/-- What changes make of the value in a place, one after the other. -/
def apply (changes : List Change) (old : Option Value) : Option Value :=
  changes.foldl (fun old a => some (placed a.1 a.2 old)) old

/-- A change under a name, told from there. -/
def under? (name : String) (a : Change) : Option Change :=
  match a.1 with
  | first :: rest => if first = name then some (rest, a.2) else none
  | [] => none

def below (name : String) (changes : List Change) : List Change := changes.filterMap (under? name)

/-- Whether changes do not see one another and assign proper values other than mappings. -/
structure Separate (changes : List Change) : Prop where
  names : ∀ a ∈ changes, ∀ name ∈ a.1, IsName name
  values : ∀ a ∈ changes, a.2.proper = true ∧ ∀ m, a.2 ≠ .map m
  apart : changes.Pairwise Apart

variable {changes : List Change} {name : String} {names : List String} {v : Value}

private theorem under?_eq_some {a b : Change} :
    under? name a = some b ↔ a = (name :: b.1, b.2) := by
  rcases a with ⟨_ | ⟨first, rest⟩, w⟩
  · simp [under?]
  · by_cases hf : first = name <;> simp [under?, hf, Prod.ext_iff]

theorem mem_below : (names, v) ∈ below name changes ↔ (name :: names, v) ∈ changes := by
  simp [below, List.mem_filterMap, under?_eq_some]

theorem Separate.below (h : Separate changes) (name : String) : Separate (below name changes) where
  names a ha n hn := h.names (name :: a.1, a.2) (mem_below.mp ha) n (by simp [hn])
  values a ha := h.values (name :: a.1, a.2) (mem_below.mp ha)
  apart := by
    refine h.apart.filterMap _ fun a b hab a' ha' b' hb' => ?_
    rw [under?_eq_some.mp ha', under?_eq_some.mp hb'] at hab
    simpa [Apart, List.cons_prefix_cons] using hab

/-- A change of the whole is the only one. -/
theorem Separate.eq_singleton (h : Separate changes) (hmem : ([], v) ∈ changes) :
    changes = [([], v)] := by
  have hlone : ∀ b : Change, ¬Apart ([], v) b ∧ ¬Apart b ([], v) := fun b => by simp [Apart]
  obtain ⟨front, back, rfl⟩ := List.append_of_mem hmem
  obtain ⟨-, hback, hacross⟩ := List.pairwise_append.mp h.apart
  have hfront : front = [] := List.eq_nil_iff_forall_not_mem.mpr fun b hb =>
    (hlone b).2 (hacross b hb _ (by simp))
  have hback : back = [] := List.eq_nil_iff_forall_not_mem.mpr fun b hb =>
    (hlone b).1 ((List.pairwise_cons.mp hback).1 b hb)
  rw [hfront, hback, List.nil_append]

theorem Separate.ne_nil (h : Separate changes) (hmem : (name :: names, v) ∈ changes) :
    ∀ a ∈ changes, a.1 ≠ [] := by
  rintro ⟨path, w⟩ ha rfl
  rw [h.eq_singleton ha] at hmem
  simp at hmem

/-- What changes make of a mapping shows under a name as what those under the name make of the value
there. -/
theorem valueFor?_foldl_assign (hnames : ∀ a ∈ changes, ∀ n ∈ a.1, IsName n)
    (hne : ∀ a ∈ changes, a.1 ≠ []) (hn : IsName name) (m : Mapping) :
    valueFor? (changes.foldl (fun m a => assign m a.1 a.2) m) (.str name) =
      apply (below name changes) (valueFor? m (.str name)) := by
  induction changes generalizing m with
  | nil => rfl
  | cons a changes ih =>
    rw [List.forall_mem_cons] at hnames hne
    rw [List.foldl_cons, ih hnames.2 hne.2]
    obtain ⟨first, rest, hpath⟩ := List.exists_cons_of_ne_nil hne.1
    have hfirst : IsName first := hnames.1 first (by simp [hpath])
    rw [hpath, valueFor?_assign hfirst hn]
    by_cases heq : first = name
    · have hbelow : below name (a :: changes) = (rest, a.2) :: below name changes := by
        simp [below, under?, hpath, heq]
      rw [if_pos heq, hbelow]
      rfl
    · have hbelow : below name (a :: changes) = below name changes := by
        simp [below, under?, hpath, heq]
      rw [if_neg heq, hbelow]

theorem exists_apply_some (changes : List Change) (old : Value) :
    ∃ new, apply changes (some old) = some new := by
  induction changes generalizing old with
  | nil => exact ⟨old, rfl⟩
  | cons a changes ih => exact ih (placed a.1 a.2 (some old))

theorem apply_map (hne : ∀ a ∈ changes, a.1 ≠ []) (m : Mapping) :
    apply changes (some (.map m)) = some (.map (changes.foldl (fun m a => assign m a.1 a.2) m)) := by
  induction changes generalizing m with
  | nil => rfl
  | cons a changes ih =>
    rw [List.forall_mem_cons] at hne
    have hfirst : placed a.1 a.2 (some (.map m)) = .map (assign m a.1 a.2) := by
      simp [placed, hne.1]
    rw [apply, List.foldl_cons, hfirst]
    exact ih hne.2 (assign m a.1 a.2)

/-- A place without anything is as good as one with an empty mapping. -/
theorem apply_of_blank {old : Option Value} (hold : ∀ v ∈ old, v.isBlank = true)
    (hne : ∀ a ∈ changes, a.1 ≠ []) (hsome : changes ≠ []) :
    apply changes old = apply changes (some (.map [])) := by
  cases changes with
  | nil => exact (hsome rfl).elim
  | cons a changes =>
    have hfirst : placed a.1 a.2 old = placed a.1 a.2 (some (.map [])) := by
      have ha := hne a (by simp)
      rcases old with _ | v
      · simp [placed, ha]
      · have hv := hold v rfl
        unfold Value.isBlank at hv
        split at hv
        all_goals simp_all [placed, Value.isMap, Value.entries?, Value.untagged]
    simp only [apply, List.foldl_cons, hfirst]

/-- In a place without anything a change is found where it was made. -/
theorem lookup_apply_of_blank (h : Separate changes) {old : Option Value}
    (hold : ∀ v ∈ old, v.isBlank = true) (hmem : (names, v) ∈ changes) :
    ∃ w, apply changes old = some w ∧ lookup names w = some v := by
  induction names generalizing changes old with
  | nil =>
    rw [h.eq_singleton hmem]
    exact ⟨v, rfl, rfl⟩
  | cons name names ih =>
    have hne := h.ne_nil hmem
    have hn : IsName name := h.names _ hmem name (by simp)
    refine ⟨_, (apply_of_blank hold hne (List.ne_nil_of_mem hmem)).trans (apply_map hne []), ?_⟩
    have hnone : ∀ u ∈ (none : Option Value), u.isBlank = true := by simp
    obtain ⟨w, hw, hlookup⟩ := ih (h.below name) hnone (mem_below.mpr hmem)
    have hvalue := valueFor?_foldl_assign h.names hne hn []
    have hempty : valueFor? [] (.str name) = none := by simp [valueFor?, entryFor?_eq_find?]
    rw [hempty, hw] at hvalue
    rw [lookup_cons_map hn, hvalue]
    exact hlookup

end Change

/-- What a document has under names in mappings without a tag, by keys without a marker. -/
def plainlyAt? : List String → Value → Option Value
  | [], v => some v
  | name :: names, .map m =>
    (entryNamed? m name).bind fun e => if isMarked e.1 then none else plainlyAt? names e.2
  | _ :: _, _ => none

/-- Whether a document leaves room at names: some mapping on the way has no key of the next name. -/
def LeavesRoom (names : List String) (v : Value) : Prop :=
  ∃ start next rest m, names = start ++ next :: rest ∧ plainlyAt? start v = some (.map m) ∧
    entryNamed? m next = none

section Room

variable {name : String} {names : List String}

theorem not_leavesRoom_nil (v : Value) : ¬LeavesRoom [] v := by
  rintro ⟨start, next, rest, m, hsplit, -⟩
  simp at hsplit

theorem not_leavesRoom_of_not_map {v : Value} (h : ∀ m, v ≠ .map m) : ¬LeavesRoom names v := by
  rintro ⟨start, next, rest, m, -, hat, -⟩
  cases start with
  | nil => exact h m (Option.some.inj hat)
  | cons first start =>
    cases v with
    | map m => exact h m rfl
    | _ => simp [plainlyAt?] at hat

/-- A mapping leaves room where it has no key, or where the value under an unmarked key does. -/
theorem leavesRoom_cons_map {m : Mapping} : LeavesRoom (name :: names) (.map m) ↔
    entryNamed? m name = none ∨
      ∃ e, entryNamed? m name = some e ∧ isMarked e.1 = false ∧ LeavesRoom names e.2 := by
  constructor
  · rintro ⟨start, next, rest, inner, hsplit, hat, hnext⟩
    cases start with
    | nil =>
      obtain ⟨rfl, rfl⟩ := List.cons.inj hsplit
      obtain rfl : m = inner := by simpa [plainlyAt?] using hat
      exact .inl hnext
    | cons first start =>
      obtain ⟨rfl, rfl⟩ := List.cons.inj hsplit
      rw [plainlyAt?] at hat
      obtain ⟨e, he, hat⟩ := Option.bind_eq_some_iff.mp hat
      cases hmark : isMarked e.1 with
      | true => simp [hmark] at hat
      | false =>
        rw [hmark, if_neg (by simp)] at hat
        exact .inr ⟨e, he, hmark, start, next, rest, inner, rfl, hat, hnext⟩
  · rintro (hnone | ⟨e, he, hmark, start, next, rest, inner, rfl, hat, hnext⟩)
    · exact ⟨[], name, names, m, rfl, rfl, hnone⟩
    · exact ⟨name :: start, next, rest, inner, rfl, by simp [plainlyAt?, he, hmark, hat], hnext⟩

instance decidableLeavesRoom : (names : List String) → (v : Value) → Decidable (LeavesRoom names v)
  | [], v => isFalse (not_leavesRoom_nil v)
  | name :: names, v =>
    match v with
    | .map m =>
      match hentry : entryNamed? m name with
      | none => isTrue (leavesRoom_cons_map.mpr (.inl hentry))
      | some e =>
        haveI := decidableLeavesRoom names e.2
        decidable_of_iff (isMarked e.1 = false ∧ LeavesRoom names e.2)
          (by simp [leavesRoom_cons_map, hentry])
    | .null | .bool _ | .int _ | .float _ | .str _ | .seq _ | .tagged _ _ =>
      isFalse (not_leavesRoom_of_not_map (by simp))

end Room

namespace Change

variable {changes : List Change} {name : String} {names : List String} {v : Value}

/-- Changes keep what is closed and holds of all that they assign. -/
theorem foldl_assign_closed {P : Value → Prop} (hP : Closed P)
    (hnames : ∀ a ∈ changes, ∀ name ∈ a.1, IsName name) (hvalues : ∀ a ∈ changes, P a.2)
    {m : Mapping} (hm : P (.map m)) :
    P (.map (changes.foldl (fun m a => assign m a.1 a.2) m)) := by
  induction changes generalizing m with
  | nil => exact hm
  | cons a changes ih =>
    rw [List.forall_mem_cons] at hnames hvalues
    exact ih hnames.2 hvalues.2 (hP.assign hnames.1 hm hvalues.1)

theorem merge_restore_of_not_map {old v : Value} (h : (∀ m, v ≠ .map m) ∨ ∀ m, old ≠ .map m) :
    Merge.merge .restore v old = old := by
  rw [merge_of_not_map _ h]
  rfl

/-- What restoring makes of a mapping under a name: the old value under a marked key, the old value
merged back under another, and the new value if there is no old one. -/
theorem lookup_restored_map {new old : Mapping} (hnew : (Value.map new).proper = true)
    (hold : (Value.map old).proper = true) (hn : IsName name) (names : List String) :
    lookup (name :: names) (Merge.merge .restore (.map new) (.map old)) =
      match valueFor? new (.str name), entryNamed? old name with
      | some v, some f =>
        lookup names (if isMarked f.1 then f.2 else Merge.merge .restore v f.2)
      | some v, none => lookup names v
      | none, f => f.bind fun f => lookup names f.2 := by
  rw [merge_map, lookup_cons_map hn, valueFor?, entryFor?_mergeMappings hnew hold (by simp),
    valueFor?, ← entryFor?_of_isName hn old]
  cases entryFor? new (.str name) with
  | none => cases entryFor? old (.str name) <;> rfl
  | some e =>
    cases entryFor? old (.str name) with
    | none => rfl
    | some f =>
      have hover : Strategy.restore.precedence = .overlay := rfl
      simp only [mergePair, Strategy.winner, hover, Option.map_some, Option.bind_some]
      cases isMarked f.1 <;> rfl

private theorem lookup_cons_entryNamed (hn : IsName name) (names : List String) (m : Mapping) :
    lookup (name :: names) (.map m) =
      (entryNamed? m name).bind fun f => lookup names f.2 := by
  rw [lookup_cons_map hn, valueFor?, entryFor?_of_isName hn]
  cases entryNamed? m name <;> rfl

/-- A change of the whole of a value is undone where that is restored. -/
private theorem exists_apply_whole (h : Separate changes) (hmem : ([], v) ∈ changes) (old : Value) :
    ∃ new, apply changes (some old) = some new ∧ Merge.merge .restore new old = old := by
  refine ⟨v, ?_, merge_restore_of_not_map (.inl (h.values _ hmem).2)⟩
  rw [h.eq_singleton hmem]
  rfl

/-- What becomes of a change that is restored in a mapping, by what becomes of it in the value under
the first of its names. -/
private theorem lookup_restored_of_map (h : Separate changes) {m : Mapping}
    (hold : (Value.map m).proper = true) (hmem : (name :: names, v) ∈ changes)
    (hbelow : ∀ f ∈ m, ∃ new, apply (below name changes) (some f.2) = some new ∧
      (LeavesRoom names f.2 → lookup names (Merge.merge .restore new f.2) = some v) ∧
      (¬LeavesRoom names f.2 →
        lookup names (Merge.merge .restore new f.2) = lookup names f.2)) :
    ∃ new, apply changes (some (.map m)) = some new ∧
      (LeavesRoom (name :: names) (.map m) →
        lookup (name :: names) (Merge.merge .restore new (.map m)) = some v) ∧
      (¬LeavesRoom (name :: names) (.map m) →
        lookup (name :: names) (Merge.merge .restore new (.map m)) =
          lookup (name :: names) (.map m)) := by
  have hpaths := h.ne_nil hmem
  have hn : IsName name := h.names _ hmem name (by simp)
  have hproper := foldl_assign_closed closed_proper h.names (fun a ha => (h.values a ha).1) hold
  refine ⟨_, apply_map hpaths m, ?_⟩
  rw [lookup_restored_map hproper hold hn, leavesRoom_cons_map,
    valueFor?_foldl_assign h.names hpaths hn m, lookup_cons_entryNamed hn, valueFor?,
    entryFor?_of_isName hn]
  cases hf : entryNamed? m name with
  | none =>
    have hnone : ∀ u ∈ (none : Option Value), u.isBlank = true := by simp
    obtain ⟨w, hw, hlookup⟩ := lookup_apply_of_blank (h.below name) hnone (mem_below.mpr hmem)
    rw [Option.map_none, hw]
    exact ⟨fun _ => hlookup, fun hroom => (hroom (.inl rfl)).elim⟩
  | some f =>
    have hroom : (some f = none ∨ ∃ e, some f = some e ∧ isMarked e.1 = false ∧
        LeavesRoom names e.2) ↔ isMarked f.1 = false ∧ LeavesRoom names f.2 := by simp
    obtain ⟨new, hnew, hopen, hclosed⟩ := hbelow f (List.mem_of_find?_eq_some hf)
    rw [hroom, Option.map_some, hnew]
    cases hmark : isMarked f.1 with
    | true => simp [hmark]
    | false => simpa [hmark] using ⟨hopen, hclosed⟩

/-- A change that is restored stays where there was room for it; elsewhere the old value is back. -/
theorem lookup_restored (h : Separate changes) {old : Value} (hold : old.proper = true)
    (hne : names ≠ []) (hmem : (names, v) ∈ changes) : ∃ new, apply changes (some old) = some new ∧
      (LeavesRoom names old → lookup names (Merge.merge .restore new old) = some v) ∧
      (¬LeavesRoom names old →
        lookup names (Merge.merge .restore new old) = lookup names old) := by
  induction names generalizing changes old with
  | nil => exact (hne rfl).elim
  | cons name names ih =>
    by_cases hmap : ∃ m, old = .map m
    · obtain ⟨m, rfl⟩ := hmap
      refine lookup_restored_of_map h hold hmem fun f hf => ?_
      have hmem' : (names, v) ∈ below name changes := mem_below.mpr hmem
      by_cases hlast : names = []
      · subst hlast
        obtain ⟨new, hnew, hsame⟩ := exists_apply_whole (h.below name) hmem' f.2
        exact ⟨new, hnew, fun hroom => (not_leavesRoom_nil _ hroom).elim, fun _ => by rw [hsame]⟩
      · exact ih (h.below name) (((Value.proper_map m).mp hold).2 f hf).2 hlast hmem'
    · have hnot : ∀ m, old ≠ .map m := by simpa using hmap
      obtain ⟨new, hnew⟩ := exists_apply_some changes old
      refine ⟨new, hnew, fun hroom => (not_leavesRoom_of_not_map hnot hroom).elim, fun _ => ?_⟩
      rw [merge_restore_of_not_map (.inr hnot)]

end Change
end EnvCompose.Manifest
