import EnvCompose.Yaml.Value
import Mathlib.Data.List.Forall2

/-!
# Equality of documents

Equality of values is reflexive and transitive. It is symmetric on proper documents, in which no
mapping has two equal keys; every document that is read is proper, and so are those made from it.
-/
namespace EnvCompose.Yaml

namespace Value

def isScalar : Value → Bool
  | .seq _ | .map _ | .tagged _ _ => false
  | _ => true

/-- Induction over a document and all that it holds, keys included. -/
@[elab_as_elim]
theorem members_induction {P : Value → Prop} (scalar : ∀ v, v.isScalar = true → P v)
    (seq : ∀ items, (∀ v ∈ items, P v) → P (.seq items))
    (map : ∀ entries, (∀ e ∈ entries, P e.1 ∧ P e.2) → P (.map entries))
    (tagged : ∀ tag v, P v → P (.tagged tag v)) : ∀ v, P v
  | .null => scalar _ rfl
  | .bool _ => scalar _ rfl
  | .int _ => scalar _ rfl
  | .float _ => scalar _ rfl
  | .str _ => scalar _ rfl
  | .seq items => seq items fun v _ => members_induction scalar seq map tagged v
  | .map entries => map entries fun e _ =>
      ⟨members_induction scalar seq map tagged e.1, members_induction scalar seq map tagged e.2⟩
  | .tagged tag v => tagged tag v (members_induction scalar seq map tagged v)
termination_by v => sizeOf v
decreasing_by
  · have := List.sizeOf_lt_of_mem ‹_ ∈ items›
    simp only [Value.seq.sizeOf_spec]
    omega
  · have := List.sizeOf_lt_of_mem ‹e ∈ entries›
    have : sizeOf e.1 < sizeOf e := by rcases e with ⟨k, v⟩; simp only [Prod.mk.sizeOf_spec]; omega
    simp only [Value.map.sizeOf_spec]
    omega
  · have := List.sizeOf_lt_of_mem ‹e ∈ entries›
    have : sizeOf e.2 < sizeOf e := by rcases e with ⟨k, v⟩; simp only [Prod.mk.sizeOf_spec]; omega
    simp only [Value.map.sizeOf_spec]
    omega
  · simp only [Value.tagged.sizeOf_spec]
    omega

/-- What holds of a value with its tags and still without them holds of the mapping inside. -/
theorem of_entries? {P : Value → Prop} (htagged : ∀ tag v, P (.tagged tag v) → P v) {v : Value}
    (h : P v) {m : Mapping} (hm : v.entries? = some m) : P (.map m) := by
  induction v using members_induction with
  | tagged tag v ih => exact ih (htagged tag v h) hm
  | map entries =>
    obtain rfl := Option.some.inj hm
    exact h
  | scalar v hv =>
    cases v with
    | seq | map | tagged => cases hv
    | _ => cases hm
  | seq items => cases hm

theorem beq_def (a b : Value) : (a == b) = same a b := rfl

@[simp] theorem str_beq_str (s t : String) : (Value.str s == .str t) = (s == t) := rfl

@[simp] theorem tagged_beq_tagged (s t : String) (a b : Value) :
    (Value.tagged s a == .tagged t b) = (s == t && a == b) := rfl

private theorem sameItems_iff (as bs : List Value) :
    sameItems as bs = true ↔ List.Forall₂ (fun a b => (a == b) = true) as bs := by
  induction as generalizing bs with
  | nil => cases bs <;> simp [sameItems]
  | cons a as ih => cases bs <;> simp [sameItems, ih, beq_def]

private theorem sameEntries_iff (as bs : Mapping) :
    sameEntries as bs = true ↔
      ∀ e ∈ as, ∃ f ∈ bs, (e.1 == f.1) = true ∧ (e.2 == f.2) = true := by
  induction as with
  | nil => simp [sameEntries]
  | cons a as ih =>
    simp only [sameEntries, Bool.and_eq_true, List.any_eq_true, ih, beq_def, List.forall_mem_cons]

theorem seq_beq_seq (as bs : List Value) :
    (Value.seq as == .seq bs) = true ↔ List.Forall₂ (fun a b => (a == b) = true) as bs :=
  sameItems_iff as bs

theorem map_beq_map (as bs : Mapping) :
    (Value.map as == .map bs) = true ↔ as.length = bs.length ∧
      ∀ e ∈ as, ∃ f ∈ bs, (e.1 == f.1) = true ∧ (e.2 == f.2) = true := by
  rw [beq_def, same, Bool.and_eq_true, sameEntries_iff]
  simp

theorem eq_str_of_beq {s : String} {v : Value} (h : (v == .str s) = true) : v = .str s := by
  cases v with
  | str t =>
    rw [str_beq_str, beq_iff_eq] at h
    rw [h]
  | _ => cases h

theorem eq_str_of_str_beq {s : String} {v : Value} (h : (Value.str s == v) = true) :
    v = .str s := by
  cases v with
  | str t =>
    rw [str_beq_str, beq_iff_eq] at h
    rw [h]
  | _ => cases h

theorem eq_seq_of_seq_beq {xs : List Value} {v : Value} (h : (Value.seq xs == v) = true) :
    ∃ ys, v = .seq ys := by
  cases v with
  | seq ys => exact ⟨ys, rfl⟩
  | _ => cases h

theorem eq_seq_of_beq_seq {ys : List Value} {v : Value} (h : (v == .seq ys) = true) :
    ∃ xs, v = .seq xs := by
  cases v with
  | seq xs => exact ⟨xs, rfl⟩
  | _ => cases h

theorem eq_map_of_map_beq {m : Mapping} {v : Value} (h : (Value.map m == v) = true) :
    ∃ n, v = .map n := by
  cases v with
  | map n => exact ⟨n, rfl⟩
  | _ => cases h

theorem eq_tagged_of_tagged_beq {tag : String} {a v : Value}
    (h : (Value.tagged tag a == v) = true) : ∃ b, v = .tagged tag b ∧ (a == b) = true := by
  cases v with
  | tagged tag' b =>
    rw [tagged_beq_tagged, Bool.and_eq_true, beq_iff_eq] at h
    obtain ⟨rfl, hab⟩ := h
    exact ⟨b, rfl, hab⟩
  | _ => cases h

instance : ReflBEq Value where
  rfl := by
    intro a
    induction a using members_induction with
    | scalar v hv => cases v <;> simp_all [isScalar, beq_def, same, Decimal.Binary64.same_refl]
    | seq items ih => exact (seq_beq_seq _ _).mpr (List.forall₂_same.mpr ih)
    | map entries ih =>
      exact (map_beq_map _ _).mpr ⟨rfl, fun e he => ⟨e, he, ih e he⟩⟩
    | tagged tag v ih => simp [ih]

private theorem binary64_same_trans {a b c : Decimal.Binary64} (h : a.same b = true)
    (h' : b.same c = true) : a.same c = true := by
  simp only [Decimal.Binary64.same, Bool.or_eq_true, beq_iff_eq, Bool.and_eq_true] at *
  rcases h with rfl | ⟨ha, hb⟩
  · exact h'
  · rcases h' with rfl | ⟨_, hc⟩
    · exact .inr ⟨ha, hb⟩
    · exact .inr ⟨ha, hc⟩

theorem beq_trans {a b c : Value} (h : (a == b) = true) (h' : (b == c) = true) :
    (a == c) = true := by
  induction a using members_induction generalizing b c with
  | scalar v hv =>
    cases v <;> cases b <;> simp_all [isScalar, beq_def, same]
    cases c <;> simp_all [same]
    exact binary64_same_trans h h'
  | seq items ih =>
    obtain ⟨ys, rfl⟩ := eq_seq_of_seq_beq h
    obtain ⟨zs, rfl⟩ := eq_seq_of_seq_beq h'
    rw [seq_beq_seq] at h h' ⊢
    induction h generalizing zs with
    | nil => exact h'
    | cons hxy _ ih' =>
      cases h' with
      | cons hyz ht =>
        exact .cons (ih _ (by simp) hxy hyz) (ih' (fun v hv => ih v (by simp [hv])) _ ht)
  | map entries ih =>
    obtain ⟨n, rfl⟩ := eq_map_of_map_beq h
    obtain ⟨o, rfl⟩ := eq_map_of_map_beq h'
    rw [map_beq_map] at h h' ⊢
    refine ⟨h.1.trans h'.1, fun e he => ?_⟩
    obtain ⟨f, hf, hk, hv⟩ := h.2 e he
    obtain ⟨g, hg, hk', hv'⟩ := h'.2 f hf
    exact ⟨g, hg, (ih e he).1 hk hk', (ih e he).2 hv hv'⟩
  | tagged tag v ih =>
    obtain ⟨b, rfl, hb⟩ := eq_tagged_of_tagged_beq h
    obtain ⟨c, rfl, hc⟩ := eq_tagged_of_tagged_beq h'
    simp [ih hb hc]

end Value

/-- No two entries have equal keys. -/
def Mapping.Distinct (m : Mapping) : Prop := m.Pairwise fun e f => (e.1 == f.1) = false

instance (m : Mapping) : Decidable m.Distinct :=
  inferInstanceAs (Decidable (m.Pairwise fun e f => (e.1 == f.1) = false))

namespace Value

mutual
/-- Whether no mapping in the document, its keys included, has two equal keys. -/
def proper : Value → Bool
  | .seq items => properItems items
  | .map entries => decide (Mapping.Distinct entries) && properEntries entries
  | .tagged _ v => proper v
  | .null | .bool _ | .int _ | .float _ | .str _ => true

def properItems : List Value → Bool
  | [] => true
  | v :: items => proper v && properItems items

def properEntries : List (Value × Value) → Bool
  | [] => true
  | (k, v) :: entries => proper k && proper v && properEntries entries
end

@[simp] theorem proper_str (s : String) : (Value.str s).proper = true := by simp [proper]

@[simp] theorem proper_seq (items : List Value) :
    (Value.seq items).proper = true ↔ ∀ v ∈ items, v.proper = true := by
  rw [proper]
  induction items with
  | nil => simp [properItems]
  | cons v items ih => simp [properItems, ih]

private theorem properEntries_iff (m : Mapping) :
    properEntries m = true ↔ ∀ e ∈ m, e.1.proper = true ∧ e.2.proper = true := by
  induction m with
  | nil => simp [properEntries]
  | cons e m ih => simp only [properEntries, Bool.and_eq_true, ih, List.forall_mem_cons]

@[simp] theorem proper_map (m : Mapping) : (Value.map m).proper = true ↔
    m.Distinct ∧ ∀ e ∈ m, e.1.proper = true ∧ e.2.proper = true := by
  rw [proper, Bool.and_eq_true, decide_eq_true_eq, properEntries_iff]

@[simp] theorem proper_tagged (tag : String) (v : Value) :
    (Value.tagged tag v).proper = v.proper := by rw [proper]

end Value

/-- A list each of whose members is matched in another, no two by the same one, is no longer than
it; if it is no shorter either, it leaves none of the other's members unmatched. -/
private theorem matching {α β : Type} {R : α → β → Prop} {as : List α} {bs : List β}
    (h : ∀ a ∈ as, ∃ b ∈ bs, R a b) (hone : as.Pairwise fun a a' => ∀ b ∈ bs, R a b → ¬R a' b) :
    as.length ≤ bs.length ∧ (bs.length ≤ as.length → ∀ b ∈ bs, ∃ a ∈ as, R a b) := by
  induction as generalizing bs with
  | nil =>
    refine ⟨by simp, fun hlen b hb => ?_⟩
    simp [List.eq_nil_of_length_eq_zero (Nat.le_zero.mp hlen)] at hb
  | cons a as ih =>
    obtain ⟨b, hb, hab⟩ := h a (by simp)
    obtain ⟨l, r, rfl⟩ := List.append_of_mem hb
    obtain ⟨hfirst, hone⟩ := List.pairwise_cons.mp hone
    have hrest : ∀ a' ∈ as, ∃ b' ∈ l ++ r, R a' b' := by
      intro a' ha'
      obtain ⟨b', hb', hR⟩ := h a' (by simp [ha'])
      refine ⟨b', ?_, hR⟩
      have hne : b' ≠ b := fun he => hfirst a' ha' b (by simp) hab (he ▸ hR)
      simpa [hne] using hb'
    obtain ⟨hle, hall⟩ := ih hrest (hone.imp fun hp b' hb' => hp b' (by
      rcases List.mem_append.mp hb' with hm | hm <;> simp [hm]))
    simp only [List.length_append, List.length_cons] at hle hall ⊢
    refine ⟨by omega, fun hlen b' hb' => ?_⟩
    rcases List.mem_append.mp hb' with hm | hm
    · obtain ⟨a', ha', hR⟩ := hall (by omega) b' (by simp [hm])
      exact ⟨a', by simp [ha'], hR⟩
    · rcases List.mem_cons.mp hm with rfl | hm
      · exact ⟨a, by simp, hab⟩
      · obtain ⟨a', ha', hR⟩ := hall (by omega) b' (by simp [hm])
        exact ⟨a', by simp [ha'], hR⟩

namespace Value

theorem beq_symm {a b : Value} (ha : a.proper = true) (hb : b.proper = true)
    (h : (a == b) = true) : (b == a) = true := by
  induction a using members_induction generalizing b with
  | scalar v hv =>
    cases v <;> cases b <;> simp_all [isScalar, beq_def, same]
    rwa [Decimal.Binary64.same_comm]
  | seq items ih =>
    obtain ⟨ys, rfl⟩ := eq_seq_of_seq_beq h
    rw [proper_seq] at ha hb
    rw [seq_beq_seq] at h ⊢
    induction h with
    | nil => exact .nil
    | cons hxy _ ih' =>
      rw [List.forall_mem_cons] at ha hb ih
      exact .cons (ih.1 ha.1 hb.1 hxy) (ih' ih.2 ha.2 hb.2)
  | map entries ih =>
    obtain ⟨n, rfl⟩ := eq_map_of_map_beq h
    obtain ⟨hd, hm⟩ := (proper_map _).mp ha
    obtain ⟨hd', hm'⟩ := (proper_map _).mp hb
    rw [map_beq_map] at h ⊢
    have hone : entries.Pairwise fun e e' => ∀ f ∈ n,
        ((e.1 == f.1) = true ∧ (e.2 == f.2) = true) →
          ¬((e'.1 == f.1) = true ∧ (e'.2 == f.2) = true) := by
      refine List.Pairwise.imp_of_mem (fun {e e'} he he' hne f hf hef he'f => ?_) hd
      have := beq_trans hef.1 ((ih e' he').1 (hm e' he').1 (hm' f hf).1 he'f.1)
      simp [this] at hne
    obtain ⟨_, hall⟩ := matching h.2 hone
    refine ⟨h.1.symm, fun f hf => ?_⟩
    obtain ⟨e, he, hk, hv⟩ := hall (Nat.le_of_eq h.1.symm) f hf
    exact ⟨e, he, (ih e he).1 (hm e he).1 (hm' f hf).1 hk, (ih e he).2 (hm e he).2 (hm' f hf).2 hv⟩
  | tagged tag v ih =>
    obtain ⟨b, rfl, hb'⟩ := eq_tagged_of_tagged_beq h
    simp only [proper_tagged] at ha hb
    simp [ih ha hb hb']

theorem beq_comm {a b : Value} (ha : a.proper = true) (hb : b.proper = true) :
    (a == b) = (b == a) :=
  Bool.eq_iff_iff.mpr ⟨beq_symm ha hb, beq_symm hb ha⟩

/-- Mappings each of whose entries the other has are equal. -/
theorem map_beq_map_of_entries {m n : Mapping} (hm : (Value.map m).proper = true)
    (hn : (Value.map n).proper = true)
    (hmn : ∀ e ∈ m, ∃ f ∈ n, (e.1 == f.1) = true ∧ (e.2 == f.2) = true)
    (hnm : ∀ f ∈ n, ∃ e ∈ m, (f.1 == e.1) = true ∧ (f.2 == e.2) = true) :
    (Value.map m == .map n) = true := by
  have hone {a b : Mapping} (ha : (Value.map a).proper = true) (hb : (Value.map b).proper = true) :
      a.Pairwise fun e e' => ∀ f ∈ b, ((e.1 == f.1) = true ∧ (e.2 == f.2) = true) →
        ¬((e'.1 == f.1) = true ∧ (e'.2 == f.2) = true) := by
    rw [proper_map] at ha hb
    refine List.Pairwise.imp_of_mem (fun {e e'} _ he' hne f hf hef he'f => ?_) ha.1
    have := beq_trans hef.1 (beq_symm (ha.2 e' he').1 (hb.2 f hf).1 he'f.1)
    simp [this] at hne
  have hle := (matching hmn (hone hm hn)).1
  have hge := (matching hnm (hone hn hm)).1
  exact (map_beq_map m n).mpr ⟨by omega, hmn⟩

end Value
end EnvCompose.Yaml
