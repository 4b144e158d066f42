import EnvCompose.Proofs.Merge.Absorption
import EnvCompose.Proofs.Text.Split

/-!
# Assigning at a path

An assignment goes to the key that has the first name of its path, or to a new key, and leaves every
other key alone. It respects equality of tidy mappings and keeps them tidy.
-/
namespace EnvCompose.Manifest
open Yaml Merge

/-- Whether a key with this text goes by the text itself. -/
def IsName (text : String) : Prop := keyName? (.str text) = some text

theorem entryFor?_of_isName {name : String} (h : IsName name) (m : Mapping) :
    entryFor? m (.str name) = entryNamed? m name := by
  rw [entryFor?, show keyName? (.str name) = some name from h]

theorem isMarked_of_isName (h : IsName name) : isMarked (.str name) = false := by
  refine Bool.eq_false_iff.mpr fun hmark => ?_
  obtain ⟨hlen, hlast⟩ := isMarked_str.mp hmark
  have htrim : trimColons name = name := by simpa [IsName, keyName?, hlen] using h
  exact getLast?_trimColons name (htrim.symm ▸ hlast)

/-- The names on a path have no colons, so each goes by itself. -/
theorem isName_of_mem_namesOn (path : String) {name : String} (h : name ∈ namesOn path) :
    IsName name := by
  obtain ⟨piece, hpiece, rfl⟩ := List.mem_map.mp h
  have hno := Text.not_mem_of_mem_split (List.mem_filter.mp hpiece).1
  refine keyName?_of_unmarked (Bool.eq_false_iff.mpr fun hmark => hno ?_)
  have hlast := (isMarked_str.mp hmark).2
  rw [String.toList_ofList] at hlast
  exact List.mem_of_getLast? hlast

section Insertion

variable {m : Mapping} {key : Value} {s : String}

theorem entryFor?_insert_of_ne (h : keyMatches key (.str s) = false) (v : Value) :
    entryFor? (m.insert (.str s) v) key = entryFor? m key := by
  rw [entryFor?_eq_find?, entryFor?_eq_find?]
  induction m with
  | nil => simp [Mapping.insert, h]
  | cons e m ih =>
    by_cases he : (e.1 == .str s) = true
    · simp [Mapping.insert, Value.eq_str_of_beq he, h]
    · simp [Mapping.insert, he, List.find?_cons, ih]

/-- Where a lookup finds the key or nothing, it finds what has been put there. -/
theorem entryFor?_insert_self (hk : keyMatches key (.str s) = true)
    (h : ∀ e, entryFor? m key = some e → e.1 = .str s) (v : Value) :
    entryFor? (m.insert (.str s) v) key = some (.str s, v) := by
  rw [entryFor?_eq_find?] at h ⊢
  induction m with
  | nil => simp [Mapping.insert, hk]
  | cons e m ih =>
    rw [List.find?_cons] at h
    cases hm : keyMatches key e.1 with
    | true =>
      have he : e.1 = .str s := by simpa [hm] using h
      simp [Mapping.insert, he, hk]
    | false =>
      have he : (e.1 == .str s) = false := Bool.eq_false_iff.mpr fun he => by
        simp [Value.eq_str_of_beq he, hk] at hm
      simp only [hm] at h
      simpa [Mapping.insert, he, hm] using ih h

theorem get?_eq_valueFor? (hk : keyMatches key (.str s) = true)
    (h : ∀ e, entryFor? m key = some e → e.1 = .str s) : m.get? (.str s) = valueFor? m key := by
  unfold Mapping.get? Mapping.find? valueFor?
  rw [entryFor?_eq_find?] at h ⊢
  induction m with
  | nil => rfl
  | cons e m ih =>
    rw [List.find?_cons] at h
    cases hm : keyMatches key e.1 with
    | true =>
      have he : e.1 = .str s := by simpa [hm] using h
      simp [he, hk]
    | false =>
      have he : (e.1 == .str s) = false := Bool.eq_false_iff.mpr fun he => by
        simp [Value.eq_str_of_beq he, hk] at hm
      simp only [hm] at h
      simpa [he, hm] using ih h

theorem insert_of_get? {v : Value} (h : m.get? key = some v) : m.insert key v = m := by
  unfold Mapping.get? Mapping.find? at h
  induction m with
  | nil => simp at h
  | cons e m ih =>
    by_cases he : (e.1 == key) = true
    · have hv : e.2 = v := by simpa [he] using h
      simp [Mapping.insert, he, ← hv]
    · simp only [Bool.not_eq_true] at he
      simp only [List.find?_cons, he] at h
      simp [Mapping.insert, he, ih h]

theorem insert_proper (hm : (Value.map m).proper = true) {v : Value} (hk : key.proper = true)
    (hv : v.proper = true) : (Value.map (m.insert key v)).proper = true := by
  rw [Value.proper_map] at hm ⊢
  exact ⟨hm.1.insert key v, Mapping.forall_mem_insert (P := fun k => k.proper = true)
    (Q := fun v => v.proper = true) hm.2 hk hv⟩

end Insertion

/-- The key that an assignment under a name goes to. -/
def keyFor (m : Mapping) (name : String) : Value :=
  ((entryNamed? m name).map (·.1)).getD (.str name)

/-- What an assignment at further names makes of the value in a place. -/
def placed (names : List String) (v : Value) (old : Option Value) : Value :=
  if names.isEmpty then v
  else match old with
    | some (.map inner) => .map (assign inner names v)
    | some other => if other.isMap then other else .map (assign [] names v)
    | none => .map (assign [] names v)

section Assigning

variable {m : Mapping} {name : String}

theorem keyFor_eq_str (hn : IsName name) (m : Mapping) :
    ∃ s, keyFor m name = .str s ∧ keyMatches (.str name) (.str s) = true ∧
      ∀ e, entryFor? m (.str name) = some e → e.1 = .str s := by
  have hself := keyMatches_refl (.str name)
  unfold keyFor
  rw [← entryFor?_of_isName hn m]
  cases he : entryFor? m (.str name) with
  | none => exact ⟨name, rfl, hself, by simp⟩
  | some e =>
    rcases keyMatches_iff.mp (keyMatches_of_entryFor? he) with ⟨text, -, hname⟩ | ⟨hnone, -⟩
    · cases hkey : e.1 with
      | str s =>
        refine ⟨s, by simp [hkey], ?_, by simp [hkey]⟩
        rw [← hkey]
        exact keyMatches_of_entryFor? he
      | _ => simp [hkey, keyName?] at hname
    · simp [keyName?] at hnone

/-- An assignment replaces what a lookup of the name finds. -/
theorem get?_keyFor (hn : IsName name) (m : Mapping) :
    m.get? (keyFor m name) = valueFor? m (.str name) := by
  obtain ⟨s, hs, hm, hfirst⟩ := keyFor_eq_str hn m
  rw [hs]
  exact get?_eq_valueFor? hm hfirst

theorem assign_cons (hn : IsName name) (names : List String) (v : Value) :
    assign m (name :: names) v =
      m.insert (keyFor m name) (placed names v (valueFor? m (.str name))) := by
  have hget := get?_keyFor hn m
  have hkey : ((entryNamed? m name).map (·.1)).getD (.str name) = keyFor m name := rfl
  simp only [assign, placed, hkey, hget]
  cases names.isEmpty with
  | true => rfl
  | false =>
    cases hv : valueFor? m (.str name) with
    | none => rfl
    | some other =>
      cases other with
      | tagged tag w =>
        simp only [Bool.false_eq_true, if_false]
        split
        · exact (insert_of_get? (hget.trans hv)).symm
        · rfl
      | _ => rfl

theorem entryFor?_assign_self (hn : IsName name) (names : List String) (v : Value) :
    entryFor? (assign m (name :: names) v) (.str name) =
      some (keyFor m name, placed names v (valueFor? m (.str name))) := by
  obtain ⟨s, hs, hm, hfirst⟩ := keyFor_eq_str hn m
  rw [assign_cons hn, hs]
  exact entryFor?_insert_self hm hfirst _

theorem entryFor?_assign_of_ne (hn : IsName name) {key : Value}
    (h : keyMatches key (.str name) = false) (names : List String) (v : Value) :
    entryFor? (assign m (name :: names) v) key = entryFor? m key := by
  obtain ⟨s, hs, hm, -⟩ := keyFor_eq_str hn m
  rw [assign_cons hn, hs]
  refine entryFor?_insert_of_ne ?_ _
  refine Bool.eq_false_iff.mpr fun hkey => ?_
  have := keyMatches_trans hkey (keyMatches_symm (by simp) (by simp) hm)
  simp [h] at this

theorem keyMatches_names {a b : String} (ha : IsName a) (hb : IsName b) (h : a ≠ b) :
    keyMatches (.str a) (.str b) = false := by
  refine Bool.eq_false_iff.mpr fun hab => ?_
  rcases keyMatches_iff.mp hab with ⟨text, hta, htb⟩ | ⟨hnone, -⟩
  · rw [show keyName? (.str a) = some a from ha] at hta
    rw [show keyName? (.str b) = some b from hb] at htb
    exact h (Option.some.inj (hta.trans htb.symm))
  · cases hnone

theorem valueFor?_assign {other : String} (hn : IsName name) (ho : IsName other)
    (names : List String) (v : Value) :
    valueFor? (assign m (name :: names) v) (.str other) =
      if name = other then some (placed names v (valueFor? m (.str other)))
      else valueFor? m (.str other) := by
  rw [valueFor?]
  split
  · rename_i heq
    subst heq
    rw [entryFor?_assign_self hn]
    rfl
  · rename_i hne
    rw [entryFor?_assign_of_ne hn (keyMatches_names ho hn (Ne.symm hne)), valueFor?]

/-- What holds of the value assigned, of the old one, of the empty mapping and of mappings that are
assigned to holds of what comes of it. -/
theorem placed_induction {P : Value → Prop} {names : List String} {v : Value} {old : Option Value}
    (hv : P v) (hold : ∀ w ∈ old, P w) (hnil : P (.map []))
    (hassign : ∀ inner, P (.map inner) → P (.map (assign inner names v))) :
    P (placed names v old) := by
  unfold placed
  split
  · exact hv
  · split
    · exact hassign _ (hold _ rfl)
    · split
      · exact hold _ rfl
      · exact hassign [] hnil
    · exact hassign [] hnil

private theorem forall_valueFor? {P : Value → Prop} (h : ∀ e ∈ m, P e.2) (key : Value) :
    ∀ w ∈ valueFor? m key, P w := by
  intro w hw
  obtain ⟨e, he, rfl⟩ := Option.map_eq_some_iff.mp hw
  exact h e (mem_of_entryFor? he)

theorem valueFor?_proper (hm : (Value.map m).proper = true) (key : Value) :
    ∀ v ∈ valueFor? m key, v.proper = true :=
  forall_valueFor? (fun e he => (((Value.proper_map m).mp hm).2 e he).2) key

theorem valueFor?_tidy (hm : Tidy (.map m)) (key : Value) : ∀ v ∈ valueFor? m key, Tidy v :=
  forall_valueFor? (fun _ he => hm.value he) key

/-- What passes on to the values of a mapping, holds of the empty one and is kept where a value is put
under the key of a name is kept by an assignment. -/
theorem assign_closed {P : Value → Prop} (hnil : P (.map []))
    (hvalues : ∀ m : Mapping, P (.map m) → ∀ e ∈ m, P e.2)
    (hinsert : ∀ (m : Mapping) (name : String) (v : Value), IsName name → P (.map m) → P v →
      P (.map (m.insert (keyFor m name) v)))
    {names : List String} (hn : ∀ name ∈ names, IsName name) {v : Value} (hm : P (.map m))
    (hv : P v) : P (.map (assign m names v)) := by
  induction names generalizing m with
  | nil => rwa [assign]
  | cons name names ih =>
    rw [List.forall_mem_cons] at hn
    rw [assign_cons hn.1]
    exact hinsert m name _ hn.1 hm (placed_induction hv (forall_valueFor? (hvalues m hm) _) hnil
      fun inner hi => ih hn.2 hi)

theorem assign_unmarked {names : List String} (hn : ∀ name ∈ names, IsName name) {v : Value}
    (hm : Unmarked (.map m)) (hv : Unmarked v) : Unmarked (.map (assign m names v)) := by
  refine assign_closed (unmarked_map.mpr ⟨.nil, by simp⟩)
    (fun m hm e he => ((unmarked_map.mp hm).2 e he).2) (fun m name v hname hm hv => ?_) hn hm hv
  obtain ⟨hdistinct, hmem⟩ := unmarked_map.mp hm
  have hkey : (keyFor m name).proper = true ∧ isMarked (keyFor m name) = false := by
    rw [keyFor, ← entryFor?_of_isName hname]
    cases he : entryFor? m (.str name) with
    | none => exact ⟨by simp, isMarked_of_isName hname⟩
    | some e => exact (hmem e (mem_of_entryFor? he)).1
  exact unmarked_map.mpr ⟨hdistinct.insert _ _, Mapping.forall_mem_insert
    (P := fun key => key.proper = true ∧ isMarked key = false) (Q := Unmarked) hmem hkey hv⟩

/-- Tidiness is kept if the key is there already or matches none. -/
theorem tidy_insert {key v : Value} (hm : Tidy (.map m)) (hk : key.proper = true) (hv : Tidy v)
    (h : (∃ e ∈ m, (e.1 == key) = true) ∨ ∀ e ∈ m, keyMatches e.1 key = false) :
    Tidy (.map (m.insert key v)) := by
  rw [tidy_map] at hm ⊢
  refine ⟨?_, Mapping.forall_mem_insert (P := fun k => k.proper = true) (Q := Tidy) hm.2 hk hv⟩
  rcases h with hin | hnew
  · have hkeys : (m.insert key v).map (·.1) = m.map (·.1) := Mapping.keys_insert_of_present hin v
    have hapart : (m.map (·.1)).Pairwise fun k l => keyMatches k l = false :=
      List.pairwise_map.mpr hm.1
    rw [← hkeys] at hapart
    exact List.pairwise_map.mp hapart
  · have hfresh : ∀ e ∈ m, (e.1 == key) = false := fun e he => Bool.eq_false_iff.mpr fun heq => by
      simpa [keyMatches_of_beq (hm.2 e he).1 hk heq] using hnew e he
    rw [Mapping.insert_of_absent v hfresh]
    exact List.pairwise_append.mpr ⟨hm.1, by simp, by simpa using hnew⟩

/-- The key of a name is there already, or no other goes by the name. -/
theorem tidy_insert_keyFor (hn : IsName name) (hm : Tidy (.map m)) {v : Value} (hv : Tidy v) :
    Tidy (.map (m.insert (keyFor m name) v)) := by
  obtain ⟨s, hs, hmatch, hfirst⟩ := keyFor_eq_str hn m
  rw [hs]
  refine tidy_insert hm (by simp) hv ?_
  cases he : entryFor? m (.str name) with
  | some e => exact .inl ⟨e, mem_of_entryFor? he, by simp [hfirst e he]⟩
  | none =>
    refine .inr fun e hmem => Bool.eq_false_iff.mpr fun heq => ?_
    rw [entryFor?_eq_find?, List.find?_eq_none] at he
    have hback := keyMatches_symm (hm.key_proper hmem) (by simp) heq
    exact he e hmem (keyMatches_trans hmatch hback)

theorem assign_tidy {names : List String} (hn : ∀ name ∈ names, IsName name) {v : Value}
    (hm : Tidy (.map m)) (hv : Tidy v) : Tidy (.map (assign m names v)) :=
  assign_closed (tidy_map.mpr ⟨.nil, by simp⟩) (fun _ hm _ he => hm.value he)
    (fun _ _ _ hname hm hv => tidy_insert_keyFor hname hm hv) hn hm hv

end Assigning

private theorem isMap_of_beq {v w : Value} (h : (v == w) = true) : v.isMap = w.isMap := by
  induction v using Value.members_induction generalizing w with
  | tagged tag v ih =>
    obtain ⟨x, rfl, hvx⟩ := Value.eq_tagged_of_tagged_beq h
    have hmap := ih hvx
    exact hmap
  | map m =>
    obtain ⟨n, rfl⟩ := Value.eq_map_of_map_beq h
    rfl
  | seq items =>
    obtain ⟨ys, rfl⟩ := Value.eq_seq_of_seq_beq h
    rfl
  | scalar v hv =>
    cases v <;> cases w <;> simp_all [Value.isScalar, Value.beq_def, Value.same, Value.isMap,
      Value.entries?, Value.untagged]

theorem placed_of_not_map {names : List String} (hn : names.isEmpty = false) (v : Value)
    {old : Value} (h : ∀ m, old ≠ .map m) :
    placed names v (some old) = if old.isMap then old else .map (assign [] names v) := by
  cases old <;> simp_all [placed]

/-- An assignment makes the same of equal values. -/
private theorem placed_congr {names : List String} {v x y : Value} (h : (x == y) = true)
    (hassign : ∀ a b, x = .map a → y = .map b →
      (Value.map (assign a names v) == .map (assign b names v)) = true) :
    (placed names v (some x) == placed names v (some y)) = true := by
  cases hn : names.isEmpty with
  | true => simp [placed, hn]
  | false =>
    by_cases hx : ∃ a, x = .map a
    · obtain ⟨a, rfl⟩ := hx
      obtain ⟨b, rfl⟩ := Value.eq_map_of_map_beq h
      simpa [placed, hn] using hassign a b rfl rfl
    · have hy : ∀ b, y ≠ .map b := by
        rintro b rfl
        cases x <;> simp_all [Value.beq_def, Value.same]
      rw [placed_of_not_map hn v (by simpa using hx), placed_of_not_map hn v hy, isMap_of_beq h]
      split
      · exact h
      · exact beq_self_eq_true _

/-- An assignment respects equality of tidy mappings. -/
theorem assign_congr {a b : Mapping} (ha : Tidy (.map a)) (hb : Tidy (.map b))
    (h : (Value.map a == .map b) = true) {names : List String} (hn : ∀ name ∈ names, IsName name)
    {v : Value} (hv : Tidy v) :
    (Value.map (assign a names v) == .map (assign b names v)) = true := by
  induction names generalizing a b with
  | nil => simpa [assign] using h
  | cons name names ih =>
    have hname := (List.forall_mem_cons.mp hn).1
    refine map_beq_map_of_entryFor? (assign_tidy hn ha hv) (assign_tidy hn hb hv) fun key hk => ?_
    cases hkey : keyMatches key (.str name) with
    | false =>
      rw [entryFor?_assign_of_ne hname hkey, entryFor?_assign_of_ne hname hkey]
      exact sameEntry_of_beq ha hb h hk
    | true =>
      rw [entryFor?_congr _ hk (by simp) hkey, entryFor?_congr _ hk (by simp) hkey,
        entryFor?_assign_self hname, entryFor?_assign_self hname]
      have hsame := sameEntry_of_beq ha hb h (Value.proper_str name)
      generalize he : entryFor? a (.str name) = x, hf : entryFor? b (.str name) = y at hsame
      simp only [keyFor, valueFor?, ← entryFor?_of_isName hname, he, hf]
      cases hsame with
      | none => exact SameEntry.refl _
      | @some e f hef =>
        refine .some ⟨hef.1, placed_congr hef.2 fun inner inner' (hi : e.2 = _) (hi' : f.2 = _) => ?_⟩
        have htidy := ha.value (mem_of_entryFor? he)
        have htidy' := hb.value (mem_of_entryFor? hf)
        rw [hi] at htidy
        rw [hi'] at htidy'
        exact ih htidy htidy' (hi ▸ hi' ▸ hef.2) (List.forall_mem_cons.mp hn).2

theorem valueAt?_congr {a b : Value} (ha : Tidy a) (hb : Tidy b) (h : (a == b) = true)
    {path : List Value} (hp : ∀ key ∈ path, key.proper = true) :
    Option.Rel (fun v w => (v == w) = true) (valueAt? path a) (valueAt? path b) := by
  induction path generalizing a b with
  | nil => exact .some h
  | cons key path ih =>
    rw [List.forall_mem_cons] at hp
    cases a with
    | map m =>
      obtain ⟨n, rfl⟩ := Value.eq_map_of_map_beq h
      have hsame := sameEntry_of_beq ha hb h hp.1
      rw [valueAt?_cons_map, valueAt?_cons_map, valueFor?, valueFor?]
      generalize he : entryFor? m key = x, hf : entryFor? n key = y at hsame
      cases hsame with
      | none => exact .none
      | @some e f hef =>
        exact ih (ha.value (mem_of_entryFor? he)) (hb.value (mem_of_entryFor? hf)) hef.2 hp.2
    | _ =>
      have hnot : ∀ n, b ≠ .map n := by
        rintro n rfl
        simp [Value.beq_def, Value.same] at h
      rw [valueAt?_cons_of_not_map hnot, valueAt?_cons_of_not_map (by simp)]
      exact .none

/-- Whether a path of keys and a path of names part at some step. -/
def parts : List Value → List String → Bool
  | key :: path, name :: names => !keyMatches key (.str name) || parts path names
  | _, _ => false

/-- An assignment changes nothing at a path that parts from its own. -/
theorem valueAt?_assign_of_parts {m : Mapping} {path : List Value} {names : List String}
    (hn : ∀ name ∈ names, IsName name) (hp : ∀ key ∈ path, key.proper = true)
    (h : parts path names = true) (v : Value) :
    valueAt? path (.map (assign m names v)) = valueAt? path (.map m) := by
  induction path generalizing m names with
  | nil => simp [parts] at h
  | cons key path ih =>
    cases names with
    | nil => simp [parts] at h
    | cons name names =>
      rw [List.forall_mem_cons] at hn hp
      rw [valueAt?_cons_map, valueAt?_cons_map, valueFor?, valueFor?]
      cases hkey : keyMatches key (.str name) with
      | false => rw [entryFor?_assign_of_ne hn.1 hkey]
      | true =>
        have hrest : parts path names = true := by simpa [parts, hkey] using h
        obtain ⟨next, rest, rfl⟩ : ∃ next rest, path = next :: rest := by
          cases path with
          | nil => simp [parts] at hrest
          | cons next rest => exact ⟨next, rest, rfl⟩
        have hnames : names.isEmpty = false := by
          cases names with
          | nil => simp [parts] at hrest
          | cons => rfl
        have hempty : valueAt? (next :: rest) (.map (assign [] names v)) = none := by
          rw [ih hn.2 hp.2 hrest]
          simp [valueFor?, entryFor?_eq_find?]
        rw [entryFor?_congr _ hp.1 (by simp) hkey, entryFor?_congr _ hp.1 (by simp) hkey,
          entryFor?_assign_self hn.1]
        change valueAt? (next :: rest) (placed names v (valueFor? m (.str name))) =
          (valueFor? m (.str name)).bind (valueAt? (next :: rest))
        cases valueFor? m (.str name) with
        | none => simpa [placed, hnames] using hempty
        | some old =>
          by_cases hmap : ∃ inner, old = .map inner
          · obtain ⟨inner, rfl⟩ := hmap
            simpa [placed, hnames] using ih hn.2 hp.2 hrest
          · have hnot : ∀ inner, old ≠ .map inner := by simpa using hmap
            rw [placed_of_not_map hnames v hnot, Option.bind_some]
            split
            · rfl
            · rw [hempty, valueAt?_cons_of_not_map hnot]

end EnvCompose.Manifest
