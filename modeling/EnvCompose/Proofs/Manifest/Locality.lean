import EnvCompose.Proofs.Manifest.Sections

/-!
# What an assignment touches

An assignment has its effect on its own path only. Whatever can be got by a path that parts from it
stays, and in each mapping on the way all keys stay in their places: the first entry of the next name
may get another value, or an entry of that name comes last.
-/
namespace EnvCompose.Manifest
open Yaml Merge

/-- Whether a mapping has come of another by another value for the first entry of a name, or by one
more entry of that name at the end where there was none. -/
inductive TouchedAt (name : String) : Mapping → Mapping → Prop
  | kept (m : Mapping) : TouchedAt name m m
  | changed (before : Mapping) {key : Value} (old new : Value) (after : Mapping)
    (hkey : keyName? key = some name) (hfirst : ∀ e ∈ before, keyName? e.1 ≠ some name) :
    TouchedAt name (before ++ (key, old) :: after) (before ++ (key, new) :: after)
  | added {m : Mapping} (new : Value) (habsent : ∀ e ∈ m, keyName? e.1 ≠ some name) :
    TouchedAt name m (m ++ [(.str name, new)])

section Touching

variable {name : String} {m m' : Mapping}

theorem TouchedAt.cons {e : Value × Value} (he : keyName? e.1 ≠ some name)
    (h : TouchedAt name m m') : TouchedAt name (e :: m) (e :: m') := by
  cases h with
  | kept => exact .kept (e :: m)
  | changed before old new after hkey hfirst =>
    exact .changed (e :: before) old new after hkey (List.forall_mem_cons.mpr ⟨he, hfirst⟩)
  | added new habsent => exact .added new (List.forall_mem_cons.mpr ⟨he, habsent⟩)

/-- A mapping that is touched at a name keeps its keys in their order, and one at most comes after
them. -/
theorem TouchedAt.keys (h : TouchedAt name m m') :
    ∃ new, m'.map (·.1) = m.map (·.1) ++ new ∧ new.length ≤ 1 := by
  cases h with
  | kept => exact ⟨[], by simp, by simp⟩
  | changed => exact ⟨[], by simp, by simp⟩
  | added => exact ⟨[.str name], by simp, by simp⟩

theorem insert_keyFor_of_named {e : Value × Value} (he : keyName? e.1 = some name) (m : Mapping)
    (v : Value) : Mapping.insert (e :: m) (keyFor (e :: m) name) v = (e.1, v) :: m := by
  have hkey : keyFor (e :: m) name = e.1 := by simp [keyFor, entryNamed?, he]
  rw [hkey, Mapping.insert, if_pos (beq_self_eq_true e.1)]

theorem insert_keyFor_of_not_named {e : Value × Value} (hn : IsName name)
    (he : keyName? e.1 ≠ some name) (m : Mapping) (v : Value) :
    Mapping.insert (e :: m) (keyFor (e :: m) name) v = e :: m.insert (keyFor m name) v := by
  have hkey : keyFor (e :: m) name = keyFor m name := by simp [keyFor, entryNamed?, he]
  obtain ⟨s, hs, hmatch, -⟩ := keyFor_eq_str hn m
  -- A key equal to the one assigned to would go by its name.
  have hne : (e.1 == keyFor m name) = false := Bool.eq_false_iff.mpr fun heq => he <| by
    rw [hs] at heq
    rw [Value.eq_str_of_beq heq]
    simpa [keyMatches, show keyName? (.str name) = some name from hn] using hmatch
  rw [hkey, Mapping.insert, hne, if_neg Bool.false_ne_true]

private theorem touchedAt_insert (hn : IsName name) (m : Mapping) (v : Value) :
    TouchedAt name m (m.insert (keyFor m name) v) := by
  induction m with
  | nil => exact .added v (by simp)
  | cons e m ih =>
    by_cases he : keyName? e.1 = some name
    · rw [insert_keyFor_of_named he]
      exact .changed [] e.2 v m he (by simp)
    · rw [insert_keyFor_of_not_named hn he]
      exact ih.cons he

private theorem touchedAt_assign (hn : IsName name) (m : Mapping) (names : List String)
    (v : Value) : TouchedAt name m (assign m (name :: names) v) := by
  rw [assign_cons hn]
  exact touchedAt_insert hn m _

end Touching

/-- The mapping that names lead to, tagged or not. -/
def mappingAt? (names : List String) (v : Value) : Option Mapping :=
  (lookup names v).bind Value.entries?

section Paths

variable {names others : List String} {v : Value}

theorem isMap_eq_false_iff {w : Value} : w.isMap = false ↔ w.entries? = none := by
  rw [Value.isMap, Option.isSome_eq_false_iff, Option.isNone_iff_eq_none]

private theorem lookup_of_not_isMap (hne : others ≠ []) {w : Value} (h : w.isMap = false) :
    lookup others w = none := by
  cases others with
  | nil => exact (hne rfl).elim
  | cons other others => rw [lookup_cons, isMap_eq_false_iff.mp h, Option.bind_none]

private theorem lookup_nil_map (hn : ∀ name ∈ others, IsName name) (hne : others ≠ []) :
    lookup others (.map []) = none := by
  cases others with
  | nil => exact (hne rfl).elim
  | cons other others =>
    rw [lookup_cons_map (hn other (by simp)), valueFor?, entryFor?_eq_find?]
    rfl

/-- An assignment leaves what is found at names that part from its own. -/
theorem lookup_assign_of_apart (hn : ∀ name ∈ names, IsName name)
    (ho : ∀ name ∈ others, IsName name) (h : ¬names <+: others) (h' : ¬others <+: names)
    (m : Mapping) : lookup others (.map (assign m names v)) = lookup others (.map m) := by
  induction names generalizing others m with
  | nil => exact (h List.nil_prefix).elim
  | cons name names ih =>
    cases others with
    | nil => exact (h' List.nil_prefix).elim
    | cons other others =>
      rw [List.forall_mem_cons] at hn ho
      rw [lookup_cons_map ho.1, lookup_cons_map ho.1, valueFor?_assign hn.1 ho.1]
      split
      · rename_i heq
        subst heq
        have hapart : ¬names <+: others := by simpa [List.cons_prefix_cons] using h
        have hback : ¬others <+: names := by simpa [List.cons_prefix_cons] using h'
        have hnames : names.isEmpty = false := by cases names <;> simp_all
        have hothers : others ≠ [] := by rintro rfl; exact hback List.nil_prefix
        have hrest := ih hn.2 ho.2 hapart hback
        have hempty : lookup others (.map (assign [] names v)) = none := by
          rw [hrest, lookup_nil_map ho.2 hothers]
        cases valueFor? m (.str name) with
        | none => simpa [placed, hnames] using hempty
        | some old =>
          by_cases hmap : ∃ inner, old = .map inner
          · obtain ⟨inner, rfl⟩ := hmap
            simpa [placed, hnames] using hrest inner
          · rw [placed_of_not_map hnames v (by simpa using hmap), Option.bind_some, Option.bind_some]
            split
            · rfl
            · rename_i hnot
              rw [hempty, lookup_of_not_isMap hothers (Bool.eq_false_iff.mpr hnot)]
      · rfl

/-- A mapping on the way of an assignment is touched at the next name alone. -/
theorem mappingAt?_assign {start rest : List String} {next : String}
    (hn : ∀ name ∈ start ++ next :: rest, IsName name) {m inner : Mapping}
    (h : mappingAt? start (.map m) = some inner) :
    ∃ inner', mappingAt? start (.map (assign m (start ++ next :: rest) v)) = some inner' ∧
      TouchedAt next inner inner' := by
  induction start generalizing m with
  | nil =>
    obtain rfl : m = inner := Option.some.inj h
    exact ⟨_, rfl, touchedAt_assign (hn next (by simp)) m rest v⟩
  | cons first start ih =>
    rw [List.cons_append, List.forall_mem_cons] at hn
    rw [mappingAt?, lookup_cons_map hn.1] at h
    cases hold : valueFor? m (.str first) with
    | none => simp [hold] at h
    | some old =>
      have hinner : mappingAt? start old = some inner := by simpa [mappingAt?, hold] using h
      have hplaced : mappingAt? (first :: start) (.map (assign m (first :: start ++ next :: rest) v)) =
          mappingAt? start (placed (start ++ next :: rest) v (some old)) := by
        rw [mappingAt?, List.cons_append, lookup_cons_map hn.1, valueFor?_assign hn.1 hn.1, if_pos rfl,
          hold]
        rfl
      rw [hplaced]
      by_cases hmap : ∃ deeper, old = .map deeper
      · obtain ⟨deeper, rfl⟩ := hmap
        have hassign : placed (start ++ next :: rest) v (some (.map deeper)) =
            .map (assign deeper (start ++ next :: rest) v) := by simp [placed]
        rw [hassign]
        exact ih hn.2 hinner
      · rw [placed_of_not_map (by simp) v (by simpa using hmap)]
        cases htagged : old.isMap with
        | true => exact ⟨inner, hinner, .kept inner⟩
        | false =>
          have hnone : mappingAt? start old = none := by
            cases start with
            | nil => exact isMap_eq_false_iff.mp htagged
            | cons => rw [mappingAt?, lookup_of_not_isMap (by simp) htagged, Option.bind_none]
          rw [hnone] at hinner
          cases hinner

end Paths

/-- Setting a value at a path leaves what any other path leads to, unless one of them is a start of
the other, and it leaves the other entries of the document. A mapping on the way, be it tagged or
have two keys of one name, is found there afterwards and keeps its keys in their places; it changes
in the first entry of the next name or gets one at its end. -/
theorem set_touches_path (m : Manifest) (path : String) (v : Value) :
    (∀ other, ¬namesOn path <+: namesOn other → ¬namesOn other <+: namesOn path →
      (m.set path v).get? other = m.get? other) ∧
    (m.set path v).extra = m.extra ∧
    ∀ start next rest, namesOn path = start ++ next :: rest →
      ∀ inner, mappingAt? start (.map m.body) = some inner →
        ∃ inner', mappingAt? start (.map (m.set path v).body) = some inner' ∧
          TouchedAt next inner inner' ∧
          ∃ new, inner'.map (·.1) = inner.map (·.1) ++ new ∧ new.length ≤ 1 := by
  have hnames (path : String) : ∀ name ∈ namesOn path, IsName name := fun _ =>
    isName_of_mem_namesOn path
  refine ⟨fun other h h' => ?_, rfl, fun start next rest hsplit inner hinner => ?_⟩
  · unfold get?
    split
    · rfl
    · exact lookup_assign_of_apart (hnames path) (hnames other) h h' m.body
  · obtain ⟨inner', hinner', htouched⟩ := mappingAt?_assign (hsplit ▸ hnames path) hinner
    rw [set, hsplit]
    exact ⟨inner', hinner', htouched, htouched.keys⟩

section Witness

/-- Two keys of one name, the first with a scalar in the way, and a section with a tag. -/
def collidingAndTagged : Manifest where
  body := [(.str "packages:", .map [(.str "zlib:", .null), (.str "zlib", .map [(.str "x", .int 1)])]),
    (.str "config", .tagged "site" (.map [(.str "jobs", .int 4)]))]
  extra := [(.str "note", .null)]

theorem set_touches_path_collidingAndTagged :
    ¬namesOn "packages:zlib:version" <+: namesOn "config:jobs" ∧
      ¬namesOn "config:jobs" <+: namesOn "packages:zlib:version" ∧
      (collidingAndTagged.set "packages:zlib:version" .null).get? "config:jobs" = some (.int 4) ∧
      namesOn "packages:zlib:version" = ["packages"] ++ "zlib" :: ["version"] ∧
      mappingAt? ["packages"] (.map collidingAndTagged.body) =
        some [(.str "zlib:", .null), (.str "zlib", .map [(.str "x", .int 1)])] ∧
      ∃ inner, mappingAt? ["packages"]
          (.map (collidingAndTagged.set "packages:zlib:version" .null).body) = some inner ∧
        TouchedAt "zlib" [(.str "zlib:", .null), (.str "zlib", .map [(.str "x", .int 1)])] inner ∧
        ∃ new, inner.map (·.1) = [.str "zlib:", .str "zlib"] ++ new ∧ new.length ≤ 1 := by
  obtain ⟨hothers, -, hway⟩ := set_touches_path collidingAndTagged "packages:zlib:version" .null
  have happart : ¬namesOn "packages:zlib:version" <+: namesOn "config:jobs" := by decide
  have hback : ¬namesOn "config:jobs" <+: namesOn "packages:zlib:version" := by decide
  have hsplit : namesOn "packages:zlib:version" = ["packages"] ++ "zlib" :: ["version"] := by decide
  exact ⟨happart, hback, hothers "config:jobs" happart hback, hsplit, rfl,
    hway ["packages"] "zlib" ["version"] hsplit _ rfl⟩

end Witness

end EnvCompose.Manifest
