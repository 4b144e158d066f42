import EnvCompose.Manifest.File
import EnvCompose.Proofs.Manifest.RoundTrip
import EnvCompose.Proofs.Yaml.Identity

/-!
# Saving a manifest again

A manifest is written with its body first. When it is read again the body is taken out of the
document and the last entry moves into its place, so each saving turns the other entries by one: the
last comes first. Equality of manifests does not see this; the text that is written does.
-/
namespace EnvCompose
open Yaml

namespace Yaml.Value

private theorem exists_render_iff {v : Value} :
    (∃ text, v.render = .ok text) ↔ obstacle? false v = none := by
  unfold render
  cases obstacle? false v <;> simp

private theorem obstacleInEntries?_eq_none {m : Mapping} : obstacleInEntries? m = none ↔
    ∀ e ∈ m, obstacle? false e.1 = none ∧ obstacle? false e.2 = none := by
  induction m with
  | nil => simp [obstacleInEntries?]
  | cons e m ih => simp [obstacleInEntries?, ih]

private theorem obstacle?_map {key v : Value} (h : isAmbiguousKey key = false) (m : Mapping) :
    obstacle? false (.map ((key, v) :: m)) = obstacleInEntries? ((key, v) :: m) := by
  cases m <;> simp [obstacle?, h]

end Yaml.Value

section Turning

private theorem rotateRight_concat {α : Type} (front : List α) (last : α) :
    (front ++ [last]).rotateRight = last :: front := by
  rcases front with _ | ⟨first, front⟩
  · rfl
  · have hmod : 1 % ((first :: front) ++ [last]).length = 1 :=
      Nat.mod_eq_of_lt (by simp)
    have hlen : ((first :: front) ++ [last]).length - 1 = (first :: front).length := by simp
    unfold List.rotateRight
    dsimp only
    rw [if_neg (by simp), hmod, hlen, List.take_left, List.drop_left, List.singleton_append]

private theorem mem_rotateRight {α : Type} {l : List α} {a : α} : a ∈ l.rotateRight ↔ a ∈ l := by
  rcases List.eq_nil_or_concat l with rfl | ⟨front, last, rfl⟩
  · rfl
  · rw [List.concat_eq_append, rotateRight_concat]
    simp [or_comm]

/-- The first entry is taken out and the last one moves into its place. -/
theorem Yaml.Mapping.remove_head (key v : Value) (rest : Mapping) :
    Mapping.remove ((key, v) :: rest) key = (some v, rest.rotateRight) := by
  have hindex : ((key, v) :: rest).findIdx? (·.1 == key) = some 0 := by
    simp [List.findIdx?_cons]
  rcases List.eq_nil_or_concat rest with rfl | ⟨front, last, rfl⟩
  · rw [Mapping.remove, hindex]
    rfl
  · rw [List.concat_eq_append] at hindex ⊢
    have hlast : ((key, v) :: (front ++ [last])).getLast? = some last := by
      rw [← List.cons_append, List.getLast?_concat]
    have hmoved : (((key, v) :: (front ++ [last])).set 0 last).dropLast = last :: front := by
      rw [List.set_cons_zero, ← List.cons_append, List.dropLast_concat]
    rw [Mapping.remove, hindex, hlast, rotateRight_concat]
    dsimp only
    rw [if_neg (by simp), hmoved]
    rfl

/-- Entries with keys apart are turned in place only if there is but one. -/
theorem Yaml.Mapping.Distinct.rotateRight_eq_iff {m : Mapping} (h : m.Distinct) :
    m.rotateRight = m ↔ m.length ≤ 1 := by
  constructor
  · intro hsame
    rcases List.eq_nil_or_concat m with rfl | ⟨front, last, rfl⟩
    · simp
    · rw [List.concat_eq_append] at h hsame ⊢
      rw [rotateRight_concat] at hsame
      cases front with
      | nil => simp
      | cons first front =>
        obtain ⟨rfl, -⟩ := List.cons.inj hsame
        have hapart := (List.pairwise_append.mp h).2.2 last (by simp) last (by simp)
        simp at hapart
  · intro hlen
    rw [List.rotateRight]
    simp [hlen]

end Turning

namespace Manifest

/-- The manifest with the last of its other entries first. -/
def turned (m : Manifest) : Manifest := { m with extra := m.extra.rotateRight }

theorem render_none_eq_ok {m : Manifest} {text : String} :
    m.render none = .ok text ↔ m.toValue.render = .ok text := by
  unfold Manifest.render
  cases m.toValue.render <;> simp

namespace WellFormed

variable {m : Manifest} (h : WellFormed m)
include h

/-- What is read from the document of a manifest is the manifest with its other entries turned. -/
theorem ofValue_toValue : ofValue m.toValue = .ok m.turned := by
  rw [h.toValue_eq, ofValue, Mapping.remove_head]
  rfl

theorem turned : WellFormed m.turned where
  body_proper := h.body_proper
  extra_proper := by
    have hrest := Mapping.remove_proper h.document_proper bodyKey
    rwa [Mapping.remove_head] at hrest
  body_apart e he := h.body_apart e (mem_rotateRight.mp he)

private theorem toValue_turned_iff : m.turned.toValue = m.toValue ↔ m.extra.length ≤ 1 := by
  rw [h.turned.toValue_eq, h.toValue_eq, Value.map.injEq, List.cons.injEq]
  have hdistinct := ((Value.proper_map m.extra).mp h.extra_proper).1
  exact (and_iff_right rfl).trans hdistinct.rotateRight_eq_iff

/-- Turning the other entries puts nothing in the writer's way. -/
theorem exists_render_turned {text : String} (hrender : m.render none = .ok text) :
    ∃ again, m.turned.render none = .ok again := by
  have hkey : isAmbiguousKey bodyKey = false := rfl
  have hclear := Value.exists_render_iff.mp ⟨text, render_none_eq_ok.mp hrender⟩
  rw [h.toValue_eq, Value.obstacle?_map hkey, Value.obstacleInEntries?_eq_none,
    List.forall_mem_cons] at hclear
  have hturned : obstacle? false m.turned.toValue = none := by
    rw [h.turned.toValue_eq, Value.obstacle?_map hkey, Value.obstacleInEntries?_eq_none,
      List.forall_mem_cons]
    exact ⟨hclear.1, fun e he => hclear.2 e (mem_rotateRight.mp he)⟩
  obtain ⟨again, hagain⟩ := Value.exists_render_iff.mpr hturned
  exact ⟨again, render_none_eq_ok.mpr hagain⟩

end WellFormed

/-- The text of a manifest is read back with the other entries turned, whatever stands in the header
above it. -/
theorem WellFormed.parse_of_render {m : Manifest} (h : WellFormed m)
    (hback : m.toValue.readsExactly = true) {header : Option String}
    (hheader : ∀ top ∈ header, isHeaderText top.toList = true) {text : String}
    (hrender : m.render header = .ok text) : Manifest.parse text = .ok m.turned := by
  rw [Manifest.render] at hrender
  split at hrender
  · cases hrender
  · rename_i document hdocument
    obtain rfl := Except.ok.inj hrender
    have hparse := Value.parse_of_readsExactly hback hdocument
    have hread : Value.parse ((header.map commentLines).getD "" ++ document) = .ok m.toValue := by
      cases header with
      | none => simpa using hparse
      | some top => exact Value.parse_commentLines (hheader top rfl) hparse
    rw [Manifest.parse, hread]
    dsimp only
    rw [h.ofValue_toValue]
    rfl

/-- A manifest that has been read, rendered and read again has its other entries turned. It is
rendered again, to the same text exactly if it has at most one other entry. -/
theorem resaving_turns_entries {source text : String} {m : Manifest}
    (h : Manifest.parse source = .ok m) (hrender : m.render none = .ok text)
    (hback : m.toValue.readsExactly = true) (hturned : m.turned.toValue.readsExactly = true) :
    Manifest.parse text = .ok m.turned ∧
      (m.turned.toValue = m.toValue ↔ m.extra.length ≤ 1) ∧
      ∃ again, m.turned.render none = .ok again ∧ (again = text ↔ m.extra.length ≤ 1) := by
  have hm := WellFormed.of_parse h
  have hread := Value.parse_of_readsExactly hback (render_none_eq_ok.mp hrender)
  obtain ⟨again, hagain⟩ := hm.exists_render_turned hrender
  have hreadAgain := Value.parse_of_readsExactly hturned (render_none_eq_ok.mp hagain)
  refine ⟨hm.parse_of_render hback (by simp) hrender, hm.toValue_turned_iff, again, hagain, ?_⟩
  · rw [← hm.toValue_turned_iff]
    constructor
    · rintro rfl
      exact Except.ok.inj (hreadAgain.symm.trans hread)
    · intro hsame
      rw [render_none_eq_ok, hsame, render_none_eq_ok.mp hrender] at hagain
      exact (Except.ok.inj hagain).symm

section Witness

/-- A document with the body between two other entries. -/
def flankedText : String := "a: 1\nspack:\n  view: true\nb: 2\n"

/-- The manifest of `flankedText`, in which the last entry stands where the body was. -/
def flanked : Manifest where
  body := [(.str "view", .bool true)]
  extra := [(.str "a", .int 1), (.str "b", .int 2)]

private theorem parse_flankedText : Manifest.parse flankedText = .ok flanked := by
  have hread : Value.parse flankedText = .ok (.map [(.str "a", .int 1),
      (bodyKey, .map [(.str "view", .bool true)]), (.str "b", .int 2)]) :=
    Value.parse_eq_of_identical (by decide +kernel)
  rw [Manifest.parse, hread]
  rfl

theorem resaving_turns_entries_flanked : Manifest.parse flankedText = .ok flanked ∧
    flanked.render none = .ok "spack:\n  view: true\na: 1\nb: 2\n" ∧
    flanked.toValue.readsExactly = true ∧ flanked.turned.toValue.readsExactly = true ∧
    Manifest.parse "spack:\n  view: true\na: 1\nb: 2\n" = .ok flanked.turned ∧
      (flanked.turned.toValue = flanked.toValue ↔ flanked.extra.length ≤ 1) ∧
      ∃ again, flanked.turned.render none = .ok again ∧
        (again = "spack:\n  view: true\na: 1\nb: 2\n" ↔ flanked.extra.length ≤ 1) := by
  have hrender : flanked.render none = .ok "spack:\n  view: true\na: 1\nb: 2\n" := by rfl
  have hback : flanked.toValue.readsExactly = true := by decide +kernel
  have hturned : flanked.turned.toValue.readsExactly = true := by decide +kernel
  exact ⟨parse_flankedText, hrender, hback, hturned,
    resaving_turns_entries parse_flankedText hrender hback hturned⟩

/-- Two other entries change places with each saving. -/
theorem resaving_swaps_entries : ∃ again,
    Manifest.parse flankedText = .ok flanked ∧
    flanked.render none = .ok "spack:\n  view: true\na: 1\nb: 2\n" ∧
    Manifest.parse "spack:\n  view: true\na: 1\nb: 2\n" = .ok again ∧
    again.toValue ≠ flanked.toValue ∧
    again.render none = .ok "spack:\n  view: true\nb: 2\na: 1\n" := by
  have hread : Value.parse "spack:\n  view: true\na: 1\nb: 2\n" = .ok (.map
      [(bodyKey, .map [(.str "view", .bool true)]), (.str "a", .int 1), (.str "b", .int 2)]) :=
    Value.parse_eq_of_identical (by decide +kernel)
  refine ⟨flanked.turned, parse_flankedText, by rfl, ?_, ?_, by rfl⟩
  · rw [Manifest.parse, hread]
    rfl
  · rw [ne_eq, ← Value.identical_iff]
    decide

end Witness

end Manifest
end EnvCompose
