import EnvCompose.Proofs.Yaml.Equality

/-!
# Building mappings entry by entry

An entry is assigned in place where its key is already there and appended otherwise. So a list of
entries becomes a mapping with distinct keys, and a list whose equal keys have equal values is found
in just as before.
-/
namespace EnvCompose.Yaml.Mapping

theorem insert_of_absent {m : Mapping} {key : Value} (value : Value)
    (h : ∀ e ∈ m, (e.1 == key) = false) : m.insert key value = m ++ [(key, value)] := by
  induction m with
  | nil => rfl
  | cons e m ih =>
    rw [List.forall_mem_cons] at h
    simp [insert, h.1, ih h.2]

theorem insert_of_present {m : Mapping} {key value : Value}
    (h : ∃ e ∈ m, (e.1 == key) = true) (hv : ∀ e ∈ m, (e.1 == key) = true → e.2 = value) :
    m.insert key value = m := by
  induction m with
  | nil => simp at h
  | cons e m ih =>
    rw [List.forall_mem_cons] at hv
    by_cases he : (e.1 == key) = true
    · simp [insert, he, ← hv.1 he]
    · simp only [List.mem_cons, exists_eq_or_imp, he, Bool.false_eq_true, false_or] at h
      simp [insert, he, ih h hv.2]

theorem keys_insert_of_present {m : Mapping} {key : Value} (h : ∃ e ∈ m, (e.1 == key) = true)
    (value : Value) : (m.insert key value).map (·.1) = m.map (·.1) := by
  induction m with
  | nil => simp at h
  | cons e m ih =>
    by_cases he : (e.1 == key) = true
    · simp [insert, he]
    · simp only [List.mem_cons, exists_eq_or_imp, he, Bool.false_eq_true, false_or] at h
      simp [insert, he, ih h]

theorem forall_mem_insert {P Q : Value → Prop} {m : Mapping} {key value : Value}
    (h : ∀ e ∈ m, P e.1 ∧ Q e.2) (hk : P key) (hv : Q value) :
    ∀ e ∈ m.insert key value, P e.1 ∧ Q e.2 := by
  induction m with
  | nil => simpa [insert] using ⟨hk, hv⟩
  | cons e m ih =>
    rw [List.forall_mem_cons] at h
    by_cases he : (e.1 == key) = true
    · simp only [insert, he, if_true, List.forall_mem_cons]
      exact ⟨⟨h.1.1, hv⟩, h.2⟩
    · simp only [insert, he, if_false, Bool.false_eq_true, List.forall_mem_cons]
      exact ⟨h.1, ih h.2⟩

theorem Distinct.insert {m : Mapping} (h : m.Distinct) (key value : Value) :
    (m.insert key value).Distinct := by
  induction m with
  | nil => simp [Mapping.insert, Distinct]
  | cons e m ih =>
    obtain ⟨hhead, htail⟩ := List.pairwise_cons.mp h
    by_cases he : (e.1 == key) = true
    · simp only [Mapping.insert, he, if_true]
      exact List.pairwise_cons.mpr ⟨hhead, htail⟩
    · simp only [Mapping.insert, he]
      refine List.pairwise_cons.mpr ⟨fun f hf => ?_, ih htail⟩
      have hkeys : ∀ f ∈ m, (e.1 == f.1) = false ∧ True := fun f hf => ⟨hhead f hf, trivial⟩
      exact (forall_mem_insert (P := fun k => (e.1 == k) = false) (Q := fun _ => True) hkeys
        (Bool.eq_false_iff.mpr he) trivial f hf).1

theorem Distinct.eq_of_beq {m : Mapping} (h : m.Distinct)
    (hm : ∀ e ∈ m, e.1.proper = true ∧ e.2.proper = true) {e f : Value × Value} (he : e ∈ m)
    (hf : f ∈ m) (hef : (e.1 == f.1) = true) : e = f := by
  induction m with
  | nil => simp at he
  | cons a m ih =>
    obtain ⟨hhead, htail⟩ := List.pairwise_cons.mp h
    rcases List.mem_cons.mp he with rfl | he' <;> rcases List.mem_cons.mp hf with rfl | hf'
    · rfl
    · simp [hhead f hf'] at hef
    · have := Value.beq_symm (hm e he).1 (hm f hf).1 hef
      simp [hhead e he'] at this
    · exact ih htail (fun x hx => hm x (List.mem_cons_of_mem _ hx)) he' hf'

/-- In a proper mapping that has the key an assignment changes one entry. -/
theorem insert_eq_map {m : Mapping} (h : (Value.map m).proper = true) {key : Value}
    (hk : key.proper = true) (hin : ∃ e ∈ m, (e.1 == key) = true) (value : Value) :
    m.insert key value = m.map fun e => if e.1 == key then (e.1, value) else e := by
  obtain ⟨hdistinct, hmem⟩ := (Value.proper_map m).mp h
  clear h
  induction m with
  | nil => simp at hin
  | cons e m ih =>
    rw [List.forall_mem_cons] at hmem
    obtain ⟨hhead, htail⟩ := List.pairwise_cons.mp hdistinct
    by_cases he : (e.1 == key) = true
    · have hrest : ∀ f ∈ m, (f.1 == key) = false := fun f hf => Bool.eq_false_iff.mpr fun hfk => by
        have := Value.beq_trans he (Value.beq_symm (hmem.2 f hf).1 hk hfk)
        simp [hhead f hf] at this
      have hsame : m.map (fun e => if e.1 == key then (e.1, value) else e) = m := by
        rw [List.map_congr_left fun f hf => by rw [hrest f hf, if_neg (by simp)], List.map_id']
      simp only [insert, List.map_cons, he, if_true, hsame]
    · simp only [List.mem_cons, exists_eq_or_imp, he, Bool.false_eq_true, false_or] at hin
      simp only [insert, List.map_cons, he, if_false, Bool.false_eq_true, ih hin htail hmem.2]

theorem forall_mem_ofList {P Q : Value → Prop} {entries : List (Value × Value)}
    (h : ∀ e ∈ entries, P e.1 ∧ Q e.2) : ∀ e ∈ ofList entries, P e.1 ∧ Q e.2 := by
  suffices hacc : ∀ m : Mapping, (∀ e ∈ m, P e.1 ∧ Q e.2) →
      ∀ e ∈ entries.foldl (fun (m : Mapping) e => m.insert e.1 e.2) m, P e.1 ∧ Q e.2 from
    hacc [] (by simp)
  induction entries with
  | nil => exact fun m hm => hm
  | cons e entries ih =>
    rw [List.forall_mem_cons] at h
    exact fun m hm => ih h.2 _ (forall_mem_insert hm h.1.1 h.1.2)

theorem distinct_ofList (entries : List (Value × Value)) : (ofList entries).Distinct := by
  suffices hacc : ∀ m : Mapping, m.Distinct →
      (entries.foldl (fun (m : Mapping) e => m.insert e.1 e.2) m).Distinct from hacc [] .nil
  induction entries with
  | nil => exact fun m hm => hm
  | cons e entries ih => exact fun m hm => ih _ (hm.insert e.1 e.2)

theorem ofList_eq_self {entries : List (Value × Value)} (h : Distinct entries) :
    ofList entries = entries := by
  suffices hacc : ∀ m : Mapping, Distinct (m ++ entries) →
      entries.foldl (fun (m : Mapping) e => m.insert e.1 e.2) m = m ++ entries from hacc [] h
  clear h
  induction entries with
  | nil => simp
  | cons e entries ih =>
    intro m hm
    have hfresh : ∀ f ∈ m, (f.1 == e.1) = false := fun f hf =>
      (List.pairwise_append.mp hm).2.2 f hf e (by simp)
    rw [List.foldl_cons, insert_of_absent _ hfresh]
    simpa using ih (m ++ [e]) (by simpa using hm)

/-- In a list whose equal keys have equal values, later repetitions do not matter. -/
theorem find?_ofList {p : Value → Bool} {entries : List (Value × Value)}
    (hp : ∀ e ∈ entries, ∀ f ∈ entries, (e.1 == f.1) = true → p e.1 = p f.1)
    (hv : ∀ e ∈ entries, ∀ f ∈ entries, (e.1 == f.1) = true → e.2 = f.2) :
    List.find? (fun e => p e.1) (ofList entries) = entries.find? fun e => p e.1 := by
  suffices hacc : ∀ m : Mapping,
      (∀ e ∈ m ++ entries, ∀ f ∈ m ++ entries, (e.1 == f.1) = true → p e.1 = p f.1 ∧ e.2 = f.2) →
      List.find? (fun e => p e.1) (entries.foldl (fun (m : Mapping) e => m.insert e.1 e.2) m) =
        List.find? (fun e => p e.1) (m ++ entries) from
    hacc [] fun e he f hf h => ⟨hp e he f hf h, hv e he f hf h⟩
  clear hp hv
  induction entries with
  | nil => simp
  | cons e entries ih =>
    intro m hm
    rw [List.foldl_cons]
    by_cases hin : ∃ f ∈ m, (f.1 == e.1) = true
    · have hsame : m.insert e.1 e.2 = m := insert_of_present hin fun f hf hfe =>
        (hm f (by simp [hf]) e (by simp) hfe).2
      rw [hsame, ih m fun a ha b hb => hm a (List.mem_append.mpr
        ((List.mem_append.mp ha).imp_right (List.mem_cons_of_mem _))) b (List.mem_append.mpr
        ((List.mem_append.mp hb).imp_right (List.mem_cons_of_mem _)))]
      obtain ⟨f, hf, hfe⟩ := hin
      have hpe : p f.1 = p e.1 := (hm f (by simp [hf]) e (by simp) hfe).1
      simp only [List.find?_append, List.find?_cons]
      cases hfound : List.find? (fun e => p e.1) m with
      | some g => rfl
      | none =>
        have hno : p e.1 = false := by simpa [hpe] using List.find?_eq_none.mp hfound f hf
        simp [hno]
    · have hfresh : ∀ f ∈ m, (f.1 == e.1) = false := fun f hf => by
        simpa using fun h => hin ⟨f, hf, h⟩
      rw [insert_of_absent _ hfresh]
      simpa using ih (m ++ [e]) (by simpa using hm)

end EnvCompose.Yaml.Mapping
