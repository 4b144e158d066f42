import EnvCompose.Proofs.Manifest.Sections

/-!
# Looking up what has been assigned

A value that is assigned at a path is found there, by way of mappings made for it wherever something
else was in the way. Only a mapping with a tag bars the way: it passes for a mapping when the path is
cleared and for none when it is entered, so nothing is assigned.
-/
namespace EnvCompose.Manifest
open Yaml Merge

section Paths

private theorem valueAt?_append (start rest : List Value) (v : Value) :
    valueAt? (start ++ rest) v = (valueAt? start v).bind (valueAt? rest) := by
  induction start generalizing v with
  | nil => rfl
  | cons key start ih =>
    by_cases hmap : ∃ m, v = .map m
    · obtain ⟨m, rfl⟩ := hmap
      rw [List.cons_append, valueAt?_cons_map, valueAt?_cons_map, Option.bind_assoc]
      exact congrArg _ (funext ih)
    · have hnot : ∀ m, v ≠ .map m := by simpa using hmap
      rw [List.cons_append, valueAt?_cons_of_not_map hnot, valueAt?_cons_of_not_map hnot]
      rfl

/-- What is found through mappings without a tag is what a lookup finds. -/
theorem lookup_of_valueAt? {names : List String} (hn : ∀ name ∈ names, IsName name) {v w : Value}
    (h : valueAt? (names.map .str) v = some w) : lookup names v = some w := by
  induction names generalizing v with
  | nil => exact h
  | cons name names ih =>
    rw [List.forall_mem_cons] at hn
    cases v with
    | map m =>
      rw [List.map_cons, valueAt?_cons_map] at h
      obtain ⟨u, hu, hw⟩ := Option.bind_eq_some_iff.mp h
      rw [lookup_cons_map hn.1, hu]
      exact ih hn.2 hw
    | _ => simp [valueAt?] at h

theorem get?_eq_lookup {path : String} (h : namesOn path ≠ []) (m : Manifest) :
    m.get? path = lookup (namesOn path) (.map m.body) := by
  unfold get?
  split
  · rename_i hnil
    exact (h hnil).elim
  · rfl

end Paths

/-- Whether a mapping with a tag stands where some of the names lead, but not all. -/
def Barred (names : List String) (v : Value) : Prop :=
  ∃ start next rest w, names = start ++ next :: rest ∧ valueAt? (start.map .str) v = some w ∧
    w.isMap = true ∧ ∀ m, w ≠ .map m

section Barred

variable {name : String} {names : List String}

private theorem not_barred_nil (v : Value) : ¬Barred [] v := by
  rintro ⟨start, next, rest, w, hsplit, -⟩
  simp at hsplit

theorem Barred.ne_nil {v : Value} (h : Barred names v) : names.isEmpty = false := by
  cases names with
  | nil => exact (not_barred_nil v h).elim
  | cons => rfl

private theorem barred_of_not_map {v : Value} (h : ∀ m, v ≠ .map m) :
    Barred names v ↔ names.isEmpty = false ∧ v.isMap = true := by
  constructor
  · intro hbar
    refine ⟨hbar.ne_nil, ?_⟩
    obtain ⟨start, next, rest, w, -, hat, htagged, -⟩ := hbar
    cases start with
    | nil => exact Option.some.inj hat ▸ htagged
    | cons first start => simp [valueAt?_cons_of_not_map h] at hat
  · rintro ⟨hne, htagged⟩
    cases names with
    | nil => simp at hne
    | cons name names => exact ⟨[], name, names, v, rfl, rfl, htagged, h⟩

/-- The way through a mapping is barred where it is barred further on. -/
theorem barred_cons_map {m : Mapping} : Barred (name :: names) (.map m) ↔
    ∃ old, valueFor? m (.str name) = some old ∧ Barred names old := by
  constructor
  · rintro ⟨start, next, rest, w, hsplit, hat, htagged, hnot⟩
    cases start with
    | nil => exact (hnot m (Option.some.inj hat).symm).elim
    | cons first start =>
      obtain ⟨rfl, rfl⟩ := List.cons.inj hsplit
      rw [List.map_cons, valueAt?_cons_map] at hat
      obtain ⟨old, hold, hat⟩ := Option.bind_eq_some_iff.mp hat
      exact ⟨old, hold, start, next, rest, w, rfl, hat, htagged, hnot⟩
  · rintro ⟨old, hold, start, next, rest, w, rfl, hat, htagged, hnot⟩
    exact ⟨name :: start, next, rest, w, rfl, by simpa [hold] using hat, htagged, hnot⟩

private theorem barred_append {start rest : List String} {v w : Value}
    (h : valueAt? (start.map .str) v = some w) (hbar : Barred rest w) :
    Barred (start ++ rest) v := by
  obtain ⟨front, next, back, u, rfl, hat, htagged, hnot⟩ := hbar
  refine ⟨start ++ front, next, back, u, by simp, ?_, htagged, hnot⟩
  rw [List.map_append, valueAt?_append, h]
  exact hat

end Barred

/-- The mapping in a place, or an empty one if there is anything else. -/
def mappingOf : Option Value → Mapping
  | some (.map m) => m
  | _ => []

section Placing

variable {names : List String} {v : Value}

/-- Where the way is not barred, the value in a place becomes a mapping that is assigned to. -/
theorem placed_eq_assign (hne : names.isEmpty = false) {old : Option Value}
    (h : ∀ w ∈ old, ¬Barred names w) :
    placed names v old = .map (assign (mappingOf old) names v) := by
  cases old with
  | none => simp [placed, hne, mappingOf]
  | some w =>
    by_cases hmap : ∃ m, w = .map m
    · obtain ⟨m, rfl⟩ := hmap
      simp [placed, hne, mappingOf]
    · have hnot : ∀ m, w ≠ .map m := by simpa using hmap
      have htagged : w.isMap = false := Bool.eq_false_iff.mpr fun hw =>
        h w rfl ((barred_of_not_map hnot).mpr ⟨hne, hw⟩)
      have hnil : mappingOf (some w) = [] := by cases w <;> simp_all [mappingOf]
      rw [placed_of_not_map hne v hnot, htagged, hnil, if_neg (by simp)]

theorem assign_of_barred (hn : ∀ name ∈ names, IsName name) {m : Mapping}
    (h : Barred names (.map m)) (v : Value) : assign m names v = m := by
  induction names generalizing m with
  | nil => exact (not_barred_nil _ h).elim
  | cons name names ih =>
    rw [List.forall_mem_cons] at hn
    obtain ⟨old, hold, hbar⟩ := barred_cons_map.mp h
    have hkept : placed names v (some old) = old := by
      by_cases hmap : ∃ inner, old = .map inner
      · obtain ⟨inner, rfl⟩ := hmap
        rw [placed, hbar.ne_nil, if_neg (by simp), ih hn.2 hbar]
      · have hnot : ∀ inner, old ≠ .map inner := by simpa using hmap
        rw [placed_of_not_map hbar.ne_nil v hnot, ((barred_of_not_map hnot).mp hbar).2, if_pos rfl]
    rw [assign_cons hn.1, hold, hkept]
    exact insert_of_get? ((get?_keyFor hn.1 m).trans hold)

/-- What is placed at names shows at a start of them as what is placed there at the rest. -/
theorem valueAt?_placed {start rest : List String} (hn : ∀ name ∈ start, IsName name)
    {old : Option Value} (h : ∀ w ∈ old, ¬Barred (start ++ rest) w) :
    valueAt? (start.map .str) (placed (start ++ rest) v old) =
      some (placed rest v (old.bind (valueAt? (start.map .str)))) := by
  induction start generalizing old with
  | nil => cases old <;> rfl
  | cons name start ih =>
    rw [List.forall_mem_cons] at hn
    have hold : old.bind (valueAt? ((name :: start).map .str)) =
        (valueFor? (mappingOf old) (.str name)).bind (valueAt? (start.map .str)) := by
      have hnone : valueFor? [] (.str name) = none := by simp [valueFor?, entryFor?_eq_find?]
      cases old with
      | none => simp [mappingOf, hnone]
      | some w => cases w <;> simp [mappingOf, valueAt?, hnone]
    have hfurther : ∀ w ∈ valueFor? (mappingOf old) (.str name), ¬Barred (start ++ rest) w := by
      intro w hw hbar
      cases old with
      | none => simp [mappingOf, valueFor?, entryFor?_eq_find?] at hw
      | some u =>
        cases u with
        | map m => exact h _ rfl (barred_cons_map.mpr ⟨w, hw, hbar⟩)
        | _ => simp [mappingOf, valueFor?, entryFor?_eq_find?] at hw
    rw [placed_eq_assign (by simp) h, hold, List.map_cons, valueAt?_cons_map, List.cons_append,
      valueFor?_assign hn.1 hn.1, if_pos rfl]
    exact ih hn.2 hfurther

end Placing

variable {path : String}

/-- Where the way is not barred, the path leads through mappings to the value. -/
theorem valueAt?_set (m : Manifest) (hopen : ¬Barred (namesOn path) (.map m.body)) (v : Value)
    {start rest : List String} (hsplit : namesOn path = start ++ rest) (hne : namesOn path ≠ []) :
    valueAt? (start.map .str) (.map (m.set path v).body) =
      some (placed rest v (valueAt? (start.map .str) (.map m.body))) := by
  have hnames : ∀ name ∈ start, IsName name := fun name hname =>
    isName_of_mem_namesOn path (by rw [hsplit]; exact List.mem_append_left rest hname)
  have hplaced : valueAt? (start.map .str) (placed (start ++ rest) v (some (.map m.body))) =
      some (placed rest v (valueAt? (start.map .str) (.map m.body))) :=
    valueAt?_placed hnames (by simpa [← hsplit] using hopen)
  have hroot : placed (namesOn path) v (some (.map m.body)) = .map (m.set path v).body := by
    simp [placed, hne, Manifest.set]
  rw [← hsplit, hroot] at hplaced
  exact hplaced

/-- What is set at a path is got there, unless a mapping with a tag bars the way and the same value
was not there before. Then setting changes nothing; otherwise every mapping on the way has been
assigned to, or an empty one where there was none. -/
theorem get?_set_iff (hp : namesOn path ≠ []) (m : Manifest) (v : Value) :
    ((m.set path v).get? path = some v ↔
      (Barred (namesOn path) (.map m.body) → m.get? path = some v)) ∧
    (Barred (namesOn path) (.map m.body) → m.set path v = m) ∧
    (¬Barred (namesOn path) (.map m.body) → ∀ start rest, namesOn path = start ++ rest → rest ≠ [] →
      valueAt? (start.map .str) (.map (m.set path v).body) =
        some (.map (assign (mappingOf (valueAt? (start.map .str) (.map m.body))) rest v))) := by
  have hnames : ∀ name ∈ namesOn path, IsName name := fun _ => isName_of_mem_namesOn path
  have hsame (hbar : Barred (namesOn path) (.map m.body)) : m.set path v = m :=
    congrArg (fun body => { m with body }) (assign_of_barred hnames hbar v)
  refine ⟨?_, hsame, fun hopen start rest hsplit hrest => ?_⟩
  · by_cases hbar : Barred (namesOn path) (.map m.body)
    · simp [hsame hbar, hbar]
    · have hfound := valueAt?_set m hbar v (List.append_nil _).symm hp
      rw [get?_eq_lookup hp, lookup_of_valueAt? hnames hfound]
      simp [placed, hbar]
  · rw [valueAt?_set m hopen v hsplit hp, placed_eq_assign (by simpa using hrest)]
    intro w hw hbar
    exact hopen (hsplit ▸ barred_append hw hbar)

section Witness

/-- A marked key on the way, below it a scalar with a tag. -/
def scalarInTheWay : Manifest where
  body := [(.str "view", .bool false),
    (.str "packages:", .map [(.str "all", .tagged "site" (.str "gcc")), (.str "all:", .map [])])]
  extra := []

theorem get?_set_iff_scalarInTheWay : namesOn "packages:all:compiler" ≠ [] ∧
    (scalarInTheWay.set "packages:all:compiler" (.seq [.str "clang"])).get? "packages:all:compiler" =
      some (.seq [.str "clang"]) := by
  have hp : namesOn "packages:all:compiler" ≠ [] := by decide
  have hopen : ¬Barred (namesOn "packages:all:compiler") (.map scalarInTheWay.body) := by
    have hnames : namesOn "packages:all:compiler" = ["packages", "all", "compiler"] := by decide
    rw [hnames, barred_cons_map]
    rintro ⟨_, ⟨⟩, hbar⟩
    obtain ⟨_, ⟨⟩, hbar⟩ := barred_cons_map.mp hbar
    simp [barred_of_not_map, Value.isMap, Value.entries?, Value.untagged] at hbar
  exact ⟨hp, (get?_set_iff hp scalarInTheWay (.seq [.str "clang"])).1.mpr fun h => absurd h hopen⟩

/-- A template whose configuration carries a tag. -/
def taggedText : String := "spack:\n  config: !site\n    jobs: 4\n"

/-- A mapping with a tag on the way is neither entered nor replaced, and the value is lost. -/
theorem set_loses_value : ∃ m, Manifest.parse taggedText = .ok m ∧ namesOn "config:debug" ≠ [] ∧
    (m.set "config:debug" (.bool true)).get? "config:debug" = none := by
  have hcheck : (Manifest.parse taggedText).toOption.any (fun m =>
      ((m.set "config:debug" (.bool true)).get? "config:debug").isNone) = true := by
    decide +kernel
  cases hm : Manifest.parse taggedText with
  | error e => simp [hm, Except.toOption] at hcheck
  | ok m => exact ⟨m, rfl, by decide, by simpa [hm, Except.toOption] using hcheck⟩

end Witness

end EnvCompose.Manifest
