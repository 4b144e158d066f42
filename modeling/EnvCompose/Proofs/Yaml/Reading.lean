import EnvCompose.Manifest.Basic
import EnvCompose.Proofs.Attempts
import EnvCompose.Proofs.Yaml.Mapping

/-!
# Documents that are read are proper

The reader refuses a mapping with a repeated key, so no mapping of a document it gives back has two
equal keys.
-/
namespace EnvCompose
open Yaml

namespace Yaml

private theorem mappingOf?_eq_ok {entries : List (Value × Value)} {m : Mapping}
    (h : mappingOf? entries = .ok m) : m = entries ∧ Mapping.Distinct m := by
  induction entries generalizing m with
  | nil =>
    obtain rfl := Except.ok.inj h
    exact ⟨rfl, .nil⟩
  | cons e entries ih =>
    rw [mappingOf?] at h
    split at h
    · cases h
    · rename_i hnew
      cases hr : mappingOf? entries with
      | error e => simp [hr, bind, Except.bind] at h
      | ok rest =>
        obtain ⟨rfl, hrest⟩ := ih hr
        simp only [hr, bind, Except.bind, pure, Except.pure, Except.ok.injEq] at h
        subst h
        refine ⟨rfl, List.pairwise_cons.mpr ⟨fun f hf => ?_, hrest⟩⟩
        simpa using fun hef => hnew (List.any_eq_true.mpr ⟨f, hf, hef⟩)

theorem Value.proper_of_isScalar {v : Value} (h : v.isScalar = true) : v.proper = true := by
  cases v <;> simp_all [Value.isScalar, Value.proper]

private theorem resolvePlain?_isScalar {text : String} {v : Value}
    (h : resolvePlain? text = some v) : v.isScalar = true := by
  unfold resolvePlain? at h
  dsimp only at h
  repeat' split at h
  all_goals
    cases h
    try rfl

private theorem plainValue_isScalar {text : String} {v : Value} (h : plainValue text = .ok v) :
    v.isScalar = true := by
  unfold plainValue at h
  split at h
  · rename_i w hw
    obtain rfl := Except.ok.inj h
    exact resolvePlain?_isScalar hw
  · cases h

private theorem coreValue_isScalar {type text : String} {v : Value}
    (h : coreValue type text = .ok v) : v.isScalar = true := by
  unfold coreValue at h
  repeat' split at h
  all_goals
    cases h
    try rfl

theorem scalarValue_proper {tag : Option TagOctets} {style : ScalarStyle} {text : String} {v : Value}
    (h : scalarValue tag style text = .ok v) : v.proper = true := by
  have huntagged {w : Value}
      (hw : (if style == .plain then plainValue text else .ok (.str text)) = .ok w) :
      w.proper = true := by
    split at hw
    · exact Value.proper_of_isScalar (plainValue_isScalar hw)
    · obtain rfl := Except.ok.inj hw
      exact Value.proper_str text
  unfold scalarValue at h
  generalize (if style == .plain then plainValue text else .ok (.str text)) = untagged
    at h huntagged
  dsimp only at h
  split at h
  · exact huntagged h
  · split at h
    · cases untagged with
      | error e => cases h
      | ok w =>
        obtain rfl := Except.ok.inj h
        simpa using huntagged rfl
    · split at h
      · exact huntagged h
      · exact Value.proper_of_isScalar (coreValue_isScalar h)

private theorem withTag_proper (tag : Option TagOctets) {v : Value} (h : v.proper = true) :
    (withTag tag v).proper = true := by
  unfold withTag
  split
  · simpa using h
  · exact h

namespace Document

/-- One step of reading after another gives a result where both do. -/
theorem step_eq_ok {α β : Type} {x : Read α} {f : α → Read β} {n n' : Nat} {b : β} :
    (x >>= f) n = .ok (b, n') ↔ ∃ a n₁, x n = .ok (a, n₁) ∧ f a n₁ = .ok (b, n') :=
  bind_eq_ok.trans Prod.exists

private theorem done_eq_ok {α : Type} {a b : α} {n n' : Nat} :
    (pure a : Read α) n = .ok (b, n') ↔ a = b ∧ n = n' := by
  change Except.ok (a, n) = _ ↔ _
  simp

private theorem lift_eq_ok {α : Type} {x : Except ReadError α} {n n' : Nat} {b : α} :
    (liftM x : Read α) n = .ok (b, n') ↔ x = .ok b ∧ n = n' := by
  change (x >>= fun a => Except.ok (a, n)) = _ ↔ _
  cases x <;> simp [bind, Except.bind]

/-- What each reading of a member gives, whatever was counted before, all of the members give. -/
theorem forall_mem_of_mapM {α β : Type} {P : β → Prop} {f : α → Read β} {as : List α}
    (hf : ∀ a ∈ as, ∀ n b n', f a n = .ok (b, n') → P b) {n n' : Nat} {bs : List β}
    (h : as.mapM f n = .ok (bs, n')) : ∀ b ∈ bs, P b := by
  induction as generalizing n bs with
  | nil =>
    obtain ⟨rfl, -⟩ := done_eq_ok.mp h
    simp
  | cons a as ih =>
    rw [List.forall_mem_cons] at hf
    rw [List.mapM_cons] at h
    obtain ⟨b, n₁, hb, h⟩ := step_eq_ok.mp h
    obtain ⟨rest, n₂, hrest, h⟩ := step_eq_ok.mp h
    obtain ⟨rfl, rfl⟩ := done_eq_ok.mp h
    exact List.forall_mem_cons.mpr ⟨hf.1 n b n₁ hb, ih hf.2 hrest⟩

/-- Reading gives proper values, at whatever depth it stops. -/
theorem value_proper (d : Document) {depth : Nat} {node : Node} {n n' : Nat} {v : Value}
    (h : d.value depth node n = .ok (v, n')) : v.proper = true := by
  induction depth generalizing node n n' v with
  | zero =>
    obtain ⟨found, n₁, -, h⟩ := step_eq_ok.mp h
    cases found with
    | scalar anchor tag style text => exact scalarValue_proper (lift_eq_ok.mp h).1
    | _ => cases h
  | succ depth ih =>
    obtain ⟨found, n₁, -, h⟩ := step_eq_ok.mp h
    cases found with
    | «alias» target => cases h
    | scalar anchor tag style text => exact scalarValue_proper (lift_eq_ok.mp h).1
    | sequence anchor tag items =>
      obtain ⟨vs, n₂, hvs, h⟩ := step_eq_ok.mp h
      obtain ⟨rfl, -⟩ := done_eq_ok.mp h
      refine withTag_proper _ ((Value.proper_seq _).mpr ?_)
      exact forall_mem_of_mapM (fun a _ n b n' hb => ih hb) hvs
    | mapping anchor tag entries =>
      obtain ⟨es, n₂, hes, h⟩ := step_eq_ok.mp h
      obtain ⟨m, n₃, hm, h⟩ := step_eq_ok.mp h
      obtain ⟨rfl, -⟩ := done_eq_ok.mp h
      obtain ⟨rfl, hdistinct⟩ := mappingOf?_eq_ok (lift_eq_ok.mp hm).1
      refine withTag_proper _ ((Value.proper_map _).mpr ⟨hdistinct, ?_⟩)
      refine forall_mem_of_mapM (fun e _ n e' n' he => ?_) hes
      obtain ⟨k, n₄, hk, he⟩ := step_eq_ok.mp he
      obtain ⟨w, n₅, hw, he⟩ := step_eq_ok.mp he
      obtain ⟨rfl, -⟩ := done_eq_ok.mp he
      exact ⟨ih hk, ih hw⟩

end Document

theorem Value.proper_of_parse {text : String} {v : Value} (h : Value.parse text = .ok v) :
    v.proper = true := by
  unfold Value.parse at h
  cases hd : Document.ofText? text with
  | error e => simp [hd, bind, Except.bind] at h
  | ok found =>
    cases found with
    | none =>
      simp only [hd] at h
      obtain rfl := Except.ok.inj h
      rfl
    | some d =>
      simp only [hd, bind, Except.bind] at h
      cases hv : d.value Document.maxDepth d.root 0 with
      | error e => simp [StateT.run', hv, Functor.map, Except.map] at h
      | ok r =>
        simp only [StateT.run', hv, Functor.map, Except.map, Except.ok.injEq] at h
        subst h
        exact d.value_proper hv

/-- Taking out a key leaves the mapping as it is, or leaves what stood before and after the entry,
the last of which moves into its place. -/
theorem Mapping.remove_cases (m : Mapping) (key : Value) :
    (m.remove key).2 = m ∨ (∃ e, m = (m.remove key).2 ++ [e]) ∨
      ∃ before e after last, m = before ++ e :: after ++ [last] ∧
        (m.remove key).2 = before ++ last :: after := by
  unfold remove
  split
  · rename_i i last hi hlast
    obtain ⟨front, rfl⟩ := List.getLast?_eq_some_iff.mp hlast
    have hlt : i < (front ++ [last]).length := (List.findIdx?_eq_some_iff_findIdx_eq.mp hi).1
    simp only [List.length_append, List.length_singleton, Nat.add_right_cancel_iff] at hlt ⊢
    split
    · exact .inr (.inl ⟨last, by simp⟩)
    · have hfront : i < front.length := by omega
      refine .inr (.inr ⟨front.take i, front[i], front.drop (i + 1), last, ?_, ?_⟩)
      · simp
      · rw [List.set_append_left _ _ hfront, List.dropLast_concat,
          List.set_eq_take_append_cons_drop, if_pos hfront]
  · exact .inl rfl

theorem Mapping.remove_proper {m : Mapping} (h : (Value.map m).proper = true) (key : Value) :
    (Value.map (m.remove key).2).proper = true := by
  rw [Value.proper_map] at h ⊢
  obtain ⟨hdistinct, hmem⟩ := h
  rcases m.remove_cases key with hsame | ⟨e, he⟩ | ⟨before, e, after, last, rfl, hr⟩
  · rw [hsame]
    exact ⟨hdistinct, hmem⟩
  · rw [he] at hdistinct hmem
    exact ⟨(List.pairwise_append.mp hdistinct).1, fun f hf => hmem f (by simp [hf])⟩
  · rw [hr]
    have hlast : last ∈ before ++ e :: after ++ [last] := by simp
    obtain ⟨hfront, -, hthis⟩ := List.pairwise_append.mp hdistinct
    obtain ⟨hbefore, hafter, hacross⟩ := List.pairwise_append.mp hfront
    refine ⟨List.pairwise_append.mpr ⟨hbefore, List.pairwise_cons.mpr
      ⟨fun f hf => ?_, (List.pairwise_cons.mp hafter).2⟩, fun f hf g hg => ?_⟩, fun f hf => ?_⟩
    · have hf' : f ∈ before ++ e :: after := by simp [hf]
      rw [Value.beq_comm (hmem last hlast).1 (hmem f (List.mem_append_left _ hf')).1]
      exact hthis f hf' last (by simp)
    · rcases List.mem_cons.mp hg with rfl | hg
      · exact hthis f (by simp [hf]) g (by simp)
      · exact hacross f hf g (by simp [hg])
    · refine hmem f ?_
      simp only [List.mem_append, List.mem_cons] at hf ⊢
      tauto

theorem Mapping.remove_value_mem {m rest : Mapping} {key v : Value}
    (h : m.remove key = (some v, rest)) : ∃ e ∈ m, e.2 = v := by
  unfold remove at h
  split at h
  · rename_i i last hi hlast
    obtain ⟨e, he, rfl⟩ := Option.map_eq_some_iff.mp (Prod.mk.inj h).1
    exact ⟨e, List.mem_of_getElem? he, rfl⟩
  · cases h

end Yaml

/-- The parts of a manifest that is read are proper. -/
theorem Manifest.proper_of_parse {text : String} {m : Manifest} (h : Manifest.parse text = .ok m) :
    (Value.map m.body).proper = true ∧ (Value.map m.extra).proper = true := by
  unfold parse at h
  split at h
  · cases h
  · rename_i v hv
    have hproper := Value.proper_of_parse hv
    unfold ofValue at h
    split at h
    · rename_i entries
      have hrest := Mapping.remove_proper hproper bodyKey
      rw [Value.proper_map] at hproper
      split at h
      · rename_i body extra hr
        obtain ⟨e, he, hbody⟩ := Mapping.remove_value_mem hr
        obtain rfl := Except.ok.inj h
        rw [hr] at hrest
        exact ⟨hbody ▸ (hproper.2 e he).2, hrest⟩
      · rename_i extra hr
        obtain rfl := Except.ok.inj h
        rw [hr] at hrest
        exact ⟨rfl, hrest⟩
      · cases h
      · cases h
    · cases h

end EnvCompose
