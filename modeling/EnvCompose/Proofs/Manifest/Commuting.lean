import EnvCompose.Proofs.Manifest.Locality
import EnvCompose.Proofs.Manifest.Survival

/-!
# Assignments that commute

Of two assignments at one path the second is all that counts. Two at paths that part give the same
in either order, but for the places of the entries they add. So the named overrides may be assigned
in any order.

Equality of mappings is not enough to carry this through further assignments: a name leads to the
first entry that goes by it, so entries of one name have to stay in their order.
-/
namespace EnvCompose.Manifest
open Yaml Merge

/-- Whether two mappings have the same entries, in an order that differs at most between entries of
different names, there and in the mappings below. -/
inductive Resorted : Mapping → Mapping → Prop
  | nil : Resorted [] []
  | cons (e : Value × Value) {m m' : Mapping} (h : Resorted m m') : Resorted (e :: m) (e :: m')
  | inside (key : Value) {inner inner' : Mapping} (h : Resorted inner inner') (m : Mapping) :
    Resorted ((key, .map inner) :: m) ((key, .map inner') :: m)
  | swap {k l : Value} (h : keyName? k ≠ keyName? l) (v w : Value) (m : Mapping) :
    Resorted ((k, v) :: (l, w) :: m) ((l, w) :: (k, v) :: m)
  | trans {m m' m'' : Mapping} (h : Resorted m m') (h' : Resorted m' m'') : Resorted m m''

theorem Resorted.refl (m : Mapping) : Resorted m m := by
  induction m with
  | nil => exact .nil
  | cons e m ih => exact .cons e ih

theorem Resorted.beq {m m' : Mapping} (h : Resorted m m') :
    (Value.map m == .map m') = true := by
  induction h with
  | nil => exact beq_self_eq_true _
  | cons e _ ih =>
    obtain ⟨hlength, hentries⟩ := (Value.map_beq_map _ _).mp ih
    refine (Value.map_beq_map _ _).mpr ⟨congrArg (· + 1) hlength, ?_⟩
    refine List.forall_mem_cons.mpr ⟨⟨e, by simp⟩, fun f hf => ?_⟩
    obtain ⟨g, hg, hfg⟩ := hentries f hf
    exact ⟨g, List.mem_cons_of_mem e hg, hfg⟩
  | inside key _ m ih =>
    refine (Value.map_beq_map _ _).mpr ⟨rfl, ?_⟩
    exact List.forall_mem_cons.mpr
      ⟨⟨_, List.mem_cons_self, by simp, ih⟩, fun f hf => ⟨f, List.mem_cons_of_mem _ hf, by simp⟩⟩
  | swap _ v w m =>
    refine (Value.map_beq_map _ _).mpr ⟨rfl, fun g hg => ⟨g, ?_, by simp⟩⟩
    simp only [List.mem_cons] at hg ⊢
    tauto
  | trans _ _ ih ih' => exact Value.beq_trans ih ih'

section Places

variable {name : String} {key : Value}

theorem assign_nil (hn : IsName name) (names : List String) (v : Value) :
    assign [] (name :: names) v = [(.str name, placed names v none)] := by
  rw [assign_cons hn]
  simp [keyFor, entryNamed?, valueFor?, entryFor?_eq_find?, Mapping.insert]

/-- Of the entries that have the first name of its path, an assignment changes the first and leaves
the rest. -/
private theorem assign_of_named (hn : IsName name) (hk : keyName? key = some name) (old : Value)
    (m : Mapping) (names : List String) (v : Value) :
    assign ((key, old) :: m) (name :: names) v = (key, placed names v (some old)) :: m := by
  have hfirst : entryNamed? ((key, old) :: m) name = some (key, old) := by simp [entryNamed?, hk]
  rw [assign_cons hn, insert_keyFor_of_named hk, valueFor?, entryFor?_of_isName hn, hfirst]
  rfl

/-- An assignment passes over an entry that has not the first name of its path. -/
private theorem assign_of_not_named (hn : IsName name) (hk : keyName? key ≠ some name) (old : Value)
    (m : Mapping) (names : List String) (v : Value) :
    assign ((key, old) :: m) (name :: names) v = (key, old) :: assign m (name :: names) v := by
  have hrest : entryNamed? ((key, old) :: m) name = entryNamed? m name := by
    simp [entryNamed?, hk]
  rw [assign_cons hn, assign_cons hn, insert_keyFor_of_not_named hn hk, valueFor?, valueFor?,
    entryFor?_of_isName hn, entryFor?_of_isName hn, hrest]

/-- Below a place there is a mapping to assign to, or a tag keeps every assignment out. -/
private theorem placed_cases (old : Option Value) :
    (∃ w, old = some w ∧ ∀ names v, names ≠ [] → placed names v old = w) ∨
      ∃ inner, ∀ names v, names ≠ [] → placed names v old = .map (assign inner names v) := by
  have hnames {names : List String} (hne : names ≠ []) : names.isEmpty = false := by
    simpa using hne
  cases old with
  | none => exact .inr ⟨[], fun names v hne => by simp [placed, hnames hne]⟩
  | some w =>
    by_cases hmap : ∃ inner, w = .map inner
    · obtain ⟨inner, rfl⟩ := hmap
      exact .inr ⟨inner, fun names v hne => by simp [placed, hnames hne]⟩
    · have hnot : ∀ m, w ≠ .map m := by simpa using hmap
      have hplaced {names : List String} (hne : names ≠ []) (v : Value) :=
        placed_of_not_map (hnames hne) v hnot
      cases htagged : w.isMap with
      | true => exact .inl ⟨w, rfl, fun names v hne => by rw [hplaced hne, htagged, if_pos rfl]⟩
      | false =>
        refine .inr ⟨[], fun names v hne => ?_⟩
        rw [hplaced hne, htagged, if_neg Bool.false_ne_true]

private theorem placed_map {names : List String} (hne : names ≠ []) (v : Value) (inner : Mapping) :
    placed names v (some (.map inner)) = .map (assign inner names v) := by
  simp [placed, show names.isEmpty = false by simpa using hne]

end Places

section Assigning

variable {names others : List String} {v w : Value}

/-- Assignments do not see the order of entries of different names. -/
theorem Resorted.assign {m m' : Mapping} (h : Resorted m m') (hn : ∀ name ∈ names, IsName name)
    (v : Value) : Resorted (assign m names v) (assign m' names v) := by
  induction h generalizing names with
  | nil => exact .refl _
  | @cons e m m' h ih =>
    obtain ⟨key, old⟩ := e
    cases names with
    | nil => exact .cons _ h
    | cons name names =>
      have hname := hn name List.mem_cons_self
      by_cases hk : keyName? key = some name
      · rw [assign_of_named hname hk, assign_of_named hname hk]
        exact .cons _ h
      · rw [assign_of_not_named hname hk, assign_of_not_named hname hk]
        exact .cons _ (ih hn)
  | @inside key inner inner' h m ih =>
    cases names with
    | nil => exact .inside key h m
    | cons name names =>
      obtain ⟨hname, hrest⟩ := List.forall_mem_cons.mp hn
      by_cases hk : keyName? key = some name
      · rw [assign_of_named hname hk, assign_of_named hname hk]
        cases names with
        | nil => exact .refl _
        | cons next names => exact .inside key (ih hrest) m
      · rw [assign_of_not_named hname hk, assign_of_not_named hname hk]
        exact .inside key h _
  | @swap k l h x y m =>
    cases names with
    | nil => exact .swap h x y m
    | cons name names =>
      have hname := hn name List.mem_cons_self
      by_cases hk : keyName? k = some name
      · have hl : keyName? l ≠ some name := fun hl => h (hk.trans hl.symm)
        rw [assign_of_named hname hk, assign_of_not_named hname hl, assign_of_named hname hk]
        exact .swap h _ y m
      · rw [assign_of_not_named hname hk]
        by_cases hl : keyName? l = some name
        · rw [assign_of_named hname hl, assign_of_named hname hl]
          exact .swap h x _ m
        · rw [assign_of_not_named hname hl, assign_of_not_named hname hl,
            assign_of_not_named hname hk]
          exact .swap h x y _
  | trans _ _ ih ih' => exact .trans (ih hn) (ih' hn)

/-- The second of two assignments at one path is all that counts. -/
theorem assign_assign (hn : ∀ name ∈ names, IsName name) (m : Mapping) (v w : Value) :
    assign (assign m names v) names w = assign m names w := by
  induction names generalizing m with
  | nil => rfl
  | cons name names ih =>
    obtain ⟨hname, hrest⟩ := List.forall_mem_cons.mp hn
    have hplaced (old : Option Value) :
        placed names w (some (placed names v old)) = placed names w old := by
      by_cases hne : names = []
      · subst hne
        rfl
      · obtain ⟨x, rfl, hkept⟩ | ⟨inner, hinner⟩ := placed_cases old
        · rw [hkept names v hne]
        · rw [hinner names v hne, hinner names w hne, placed_map hne, ih hrest]
    induction m with
    | nil => rw [assign_nil hname, assign_nil hname, assign_of_named hname hname, hplaced]
    | cons e m ihm =>
      obtain ⟨key, old⟩ := e
      by_cases hk : keyName? key = some name
      · rw [assign_of_named hname hk, assign_of_named hname hk, assign_of_named hname hk, hplaced]
      · rw [assign_of_not_named hname hk, assign_of_not_named hname hk,
          assign_of_not_named hname hk, ihm]

section Parting

variable {name other : String}

/-- Assignments under different names go to different entries, so their order leaves no trace but
that of the entries. -/
private theorem resorted_assign_of_ne (hname : IsName name) (hother : IsName other)
    (h : name ≠ other) (m : Mapping) (names others : List String) (v w : Value) :
    Resorted (assign (assign m (name :: names) v) (other :: others) w)
      (assign (assign m (other :: others) w) (name :: names) v) := by
  have hne {key : Value} (hk : keyName? key = some name) : keyName? key ≠ some other :=
    fun hk' => h (Option.some.inj (hk.symm.trans hk'))
  have hne' {key : Value} (hk : keyName? key = some other) : keyName? key ≠ some name :=
    fun hk' => hne hk' hk
  induction m with
  | nil =>
    rw [assign_nil hname, assign_nil hother, assign_of_not_named hother (hne hname),
      assign_of_not_named hname (hne' hother), assign_nil hname, assign_nil hother]
    exact .swap (fun hsame => hne hname (hsame.trans hother)) _ _ []
  | cons e m ih =>
    obtain ⟨key, old⟩ := e
    by_cases hk : keyName? key = some name
    · rw [assign_of_named hname hk, assign_of_not_named hother (hne hk),
        assign_of_not_named hother (hne hk), assign_of_named hname hk]
      exact .refl _
    · rw [assign_of_not_named hname hk]
      by_cases hk' : keyName? key = some other
      · rw [assign_of_named hother hk', assign_of_named hother hk',
          assign_of_not_named hname (hne' hk')]
        exact .refl _
      · rw [assign_of_not_named hother hk', assign_of_not_named hother hk',
          assign_of_not_named hname hk]
        exact .cons _ ih

/-- Assignments under one name may change places if what they place there one after the other may.
-/
private theorem resorted_assign_of_placed (hname : IsName name) {names others : List String}
    {v w : Value}
    (h : ∀ key old m, Resorted ((key, placed others w (some (placed names v old))) :: m)
      ((key, placed names v (some (placed others w old))) :: m)) (m : Mapping) :
    Resorted (assign (assign m (name :: names) v) (name :: others) w)
      (assign (assign m (name :: others) w) (name :: names) v) := by
  induction m with
  | nil =>
    rw [assign_nil hname, assign_nil hname, assign_of_named hname hname,
      assign_of_named hname hname]
    exact h _ none []
  | cons e m ih =>
    obtain ⟨key, old⟩ := e
    by_cases hk : keyName? key = some name
    · rw [assign_of_named hname hk, assign_of_named hname hk, assign_of_named hname hk,
        assign_of_named hname hk]
      exact h key (some old) m
    · rw [assign_of_not_named hname hk, assign_of_not_named hname hk,
        assign_of_not_named hname hk, assign_of_not_named hname hk]
      exact .cons _ ih

end Parting

/-- Assignments at paths that part give the same in either order, but for the order of entries. -/
theorem resorted_assign_assign (hn : ∀ name ∈ names, IsName name)
    (ho : ∀ name ∈ others, IsName name) (h : ¬names <+: others) (h' : ¬others <+: names)
    (m : Mapping) (v w : Value) :
    Resorted (assign (assign m names v) others w) (assign (assign m others w) names v) := by
  induction names generalizing others m with
  | nil => exact (h List.nil_prefix).elim
  | cons name names ih =>
    cases others with
    | nil => exact (h' List.nil_prefix).elim
    | cons other others =>
      obtain ⟨hname, hrest⟩ := List.forall_mem_cons.mp hn
      obtain ⟨hother, horest⟩ := List.forall_mem_cons.mp ho
      by_cases heq : name = other
      · subst heq
        have hapart : ¬names <+: others := by simpa [List.cons_prefix_cons] using h
        have hback : ¬others <+: names := by simpa [List.cons_prefix_cons] using h'
        have hne : names ≠ [] := by rintro rfl; exact hapart List.nil_prefix
        have hone : others ≠ [] := by rintro rfl; exact hback List.nil_prefix
        refine resorted_assign_of_placed hname (fun key old m => ?_) m
        obtain ⟨x, rfl, hkept⟩ | ⟨inner, hinner⟩ := placed_cases old
        · rw [hkept names v hne, hkept others w hone, hkept names v hne]
          exact .refl _
        · rw [hinner names v hne, hinner others w hone, placed_map hone, placed_map hne]
          exact .inside key (ih hrest horest hapart hback inner) m
      · exact resorted_assign_of_ne hname hother heq m names others v w

section Runs

variable {changes changes' : List Change} {m m' : Mapping}

theorem Resorted.foldl_assign (h : Resorted m m')
    (hn : ∀ a ∈ changes, ∀ name ∈ a.1, IsName name) :
    Resorted (changes.foldl (fun m a => Manifest.assign m a.1 a.2) m)
      (changes.foldl (fun m a => Manifest.assign m a.1 a.2) m') := by
  induction changes generalizing m m' with
  | nil => exact h
  | cons a changes ih =>
    obtain ⟨ha, hrest⟩ := List.forall_mem_cons.mp hn
    exact ih (h.assign ha a.2) hrest

/-- Changes at paths that part may be made in any order. -/
theorem resorted_of_perm (hperm : changes.Perm changes')
    (hn : ∀ a ∈ changes, ∀ name ∈ a.1, IsName name) (hapart : changes.Pairwise Change.Apart)
    (m : Mapping) : Resorted (changes.foldl (fun m a => assign m a.1 a.2) m)
      (changes'.foldl (fun m a => assign m a.1 a.2) m) := by
  induction hperm generalizing m with
  | nil => exact .refl m
  | cons a _ ih =>
    exact ih (List.forall_mem_cons.mp hn).2 (List.pairwise_cons.mp hapart).2 (assign m a.1 a.2)
  | swap a b changes =>
    obtain ⟨hb, ha, hrest⟩ : _ ∧ _ ∧ _ := by simpa only [List.forall_mem_cons] using hn
    obtain ⟨hba, hab⟩ := (List.pairwise_cons.mp hapart).1 a List.mem_cons_self
    exact (resorted_assign_assign hb ha hba hab m b.2 a.2).foldl_assign hrest
  | trans hperm _ ih ih' =>
    have hmiddle := hperm.pairwise hapart fun hab => hab.symm
    exact .trans (ih hn hapart m) (ih' (fun a ha => hn a (hperm.mem_iff.mpr ha)) hmiddle m)

end Runs

end Assigning

theorem setAll_beq_of_perm {l l' : List (String × Value)} (hperm : l.Perm l')
    (h : l.Pairwise fun a b => ¬namesOn a.1 <+: namesOn b.1 ∧ ¬namesOn b.1 <+: namesOn a.1)
    (m : Manifest) : (setAll m l == setAll m l') = true := by
  have hnames : ∀ c ∈ l.map fun a => (namesOn a.1, a.2), ∀ name ∈ c.1, IsName name := by
    intro c hc name hname
    obtain ⟨a, -, rfl⟩ := List.mem_map.mp hc
    exact isName_of_mem_namesOn a.1 hname
  rw [setAll, setAll, foldl_set, foldl_set, beq_iff]
  exact ⟨(resorted_of_perm (hperm.map _) hnames (List.pairwise_map.mpr h) m.body).beq,
    beq_self_eq_true _⟩

/-- Values set at two paths neither of which is a start of the other leave equal manifests in either
order. Of two values set at one path the second is all that counts, down to the order of keys. So
the named overrides of an environment leave equal manifests in whatever order their assignments are
made. -/
theorem sets_commute (m : Manifest) :
    (∀ p q v w, ¬namesOn p <+: namesOn q → ¬namesOn q <+: namesOn p →
      ((m.set p v).set q w == (m.set q w).set p v) = true) ∧
    (∀ p v w, (m.set p v).set p w = m.set p w) ∧
    ∀ e : Environment, e.overrides.foldl Environment.applyOverride m = setAll m e.assignments ∧
      ∀ l l', l.Perm e.assignments → l'.Perm e.assignments →
        (setAll m l == setAll m l') = true := by
  refine ⟨fun p q v w h h' => ?_, fun p v w => ?_, fun e => ⟨?_, fun l l' hl hl' => ?_⟩⟩
  · exact setAll_beq_of_perm (.swap (q, w) (p, v) []) (by simpa using ⟨h, h'⟩) m
  · have hassign := assign_assign (fun _ => isName_of_mem_namesOn p) m.body v w
    exact congrArg (fun body => (⟨body, m.extra⟩ : Manifest)) hassign
  · exact Environment.foldl_applyOverride_eq e.overrides m
  · have hapart := List.pairwise_map.mp (Environment.separate_changes e).apart
    exact setAll_beq_of_perm (hl.trans hl'.symm)
      (hl.symm.pairwise hapart fun hab => hab.symm) m

section Witness

def compilerAndProvider : Environment :=
  .ofTemplate (.ofRoot ⟨"/stack"⟩) { compiler := some "gcc", mpi := some "openmpi" }
    ⟨"mpi", .file ⟨"mpi.yaml"⟩⟩ collidingAndTagged

theorem sets_commute_collidingAndTagged :
    ¬namesOn "packages:zlib:version" <+: namesOn "packages:zlib:variants" ∧
      ¬namesOn "packages:zlib:variants" <+: namesOn "packages:zlib:version" ∧
      ((collidingAndTagged.set "packages:zlib:version" .null).set
          "packages:zlib:variants" (.str "+pic") ==
        (collidingAndTagged.set "packages:zlib:variants" (.str "+pic")).set
          "packages:zlib:version" .null) = true ∧
      compilerAndProvider.assignments.reverse.Perm compilerAndProvider.assignments ∧
      (setAll collidingAndTagged compilerAndProvider.assignments.reverse ==
        setAll collidingAndTagged compilerAndProvider.assignments) = true := by
  obtain ⟨hpaths, -, hoverrides⟩ := sets_commute collidingAndTagged
  have hapart : ¬namesOn "packages:zlib:version" <+: namesOn "packages:zlib:variants" := by decide
  have hback : ¬namesOn "packages:zlib:variants" <+: namesOn "packages:zlib:version" := by decide
  have hperm := List.reverse_perm compilerAndProvider.assignments
  exact ⟨hapart, hback, hpaths _ _ _ _ hapart hback, hperm,
    (hoverrides compilerAndProvider).2 _ _ hperm (.refl _)⟩

end Witness

end EnvCompose.Manifest
