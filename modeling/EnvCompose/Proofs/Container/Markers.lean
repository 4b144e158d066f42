import EnvCompose.Proofs.Container.Layers
import EnvCompose.Proofs.Manifest.RoundTrip
import EnvCompose.Proofs.Merge.Covering

/-!
# Override markers in a container's manifest

The markers of template and pins are taken off before they are merged, so the body of a container
whose definition has none is free of them. The template's other entries keep theirs, and the
definition covers them as far as it has entries of its own.
-/
namespace EnvCompose

namespace Manifest
open Yaml Merge

private theorem WellFormed.markFree_toValue {m : Manifest} (h : WellFormed m) :
    markFree m.toValue = (markFree (.map m.body) && markFree (.map m.extra)) := by
  have hkey : isMarked bodyKey = false := by decide
  rw [h.toValue_eq, markFree_map, List.all_cons, ← markFree_map, markFreeEntry, hkey, Bool.not_false,
    Bool.true_and]

end Manifest

namespace Container
open Yaml Merge Workspace

section Layering

variable {definition template : Manifest} {packages : Option Value}

/-- The layers of the other entries have no pins among them, and the template as it is. -/
theorem composeLayers_extra (definition template : Manifest) (packages : Option Value)
    (label : String) : (composeLayers definition template packages label).extra =
      mergeMappings .layer (mergeMappings .layer definition.extra template.extra)
        definition.extra := by
  cases packages <;> rfl

private theorem composeLayers_wellFormed (hd : definition.WellFormed) (ht : template.WellFormed)
    (hp : ∀ v ∈ packages, v.proper = true) (label : String) :
    (composeLayers definition template packages label).WellFormed := by
  have hlabel : (Value.str label).proper = true := Value.proper_str label
  cases packages with
  | none => exact ((hd.merge ht .layer).merge hd .layer).set templateLabel hlabel
  | some v =>
    have hpinned := hd.mergeSection "packages" (hp v rfl) .layer
    exact ((hpinned.merge ht .layer).merge hd .layer).set templateLabel hlabel

private theorem composeLayers_body_unmarked (hd : Unmarked (.map definition.body))
    (ht : Unmarked (.map template.body)) (hp : ∀ v ∈ packages, Unmarked v) (label : String) :
    Unmarked (.map (composeLayers definition template packages label).body) := by
  have hlabel : Unmarked (.str label) := unmarked_iff.mpr ⟨Value.proper_str label, rfl⟩
  have hpinned := hd.mergeMappings .layer (unmarked_pinsLayer hp)
  rw [composeLayers_body hd.toTidy hp]
  exact Manifest.assign_unmarked isName_of_templateLabel
    ((hpinned.mergeMappings .layer ht).mergeMappings .layer hd) hlabel

/-- A body without markers stays so, and what the other entries keep is what is not covered. -/
theorem markFree_composeLayers (hd : definition.WellFormed) (ht : template.WellFormed)
    (hbody : Unmarked (.map template.body)) (hp : ∀ v ∈ packages, Unmarked v)
    (hfree : markFree definition.toValue = true) (label : String) :
    markFree (composeLayers definition template packages label).toValue =
      coversMarks (.map definition.extra) (.map template.extra) := by
  rw [hd.markFree_toValue, Bool.and_eq_true] at hfree
  have hlower := unmarked_iff.mpr ⟨hd.body_proper, hfree.1⟩
  have hcover := unmarked_iff.mpr ⟨hd.extra_proper, hfree.2⟩
  have hcomposed := composeLayers_wellFormed hd ht (fun v hv => (hp v hv).proper) label
  have hclean := (composeLayers_body_unmarked hlower hbody hp label).mark_free
  rw [hcomposed.markFree_toValue, hclean, Bool.true_and, composeLayers_extra, ← merge_map,
    ← merge_map]
  exact markFree_covered hcover ht.extra_proper

end Layering

/-- If a definition has no override markers, a composition that succeeds has none but those of the
template's other entries that the definition does not cover. In particular it has none if only the
body of the template and the pins are marked. -/
theorem compose_markFree {c : Container} {w w' : Workspace} {m : Manifest}
    (h : w.run c.compose = (.ok m, w')) : ∃ template definition packages,
      c.Reads w template definition packages ∧ (markFree definition.toValue = true →
        markFree m.toValue = coversMarks (.map definition.extra) (.map template.extra) ∧
          (markFree (.map template.extra) = true → markFree m.toValue = true)) := by
  obtain ⟨template, definition, packages, hreads, rfl⟩ := run_compose_eq_ok h
  refine ⟨template, definition, packages, hreads, fun hfree => ?_⟩
  obtain ⟨_, hbody, hp⟩ := hreads.tidy
  obtain ⟨_, _, hdefinition⟩ := hreads.definition
  obtain ⟨_, _, htemplate⟩ := hreads.template
  have hd := Manifest.WellFormed.of_parse hdefinition
  have ht := Manifest.WellFormed.of_parse htemplate
  have hcovers := markFree_composeLayers hd ht.unmark hbody hp hfree c.template.name
  refine ⟨hcovers, fun hextra => ?_⟩
  rw [hd.markFree_toValue, Bool.and_eq_true] at hfree
  rw [hcovers]
  exact coversMarks_of_unmarked (unmarked_iff.mpr ⟨hd.extra_proper, hfree.2⟩)
    (unmarked_iff.mpr ⟨ht.extra_proper, hextra⟩)

section Witness

/-- What the reader finds out about the definition holds of it. -/
private theorem Reads.definition_passes {c : Container} {w : Workspace}
    {template definition : Manifest}
    {packages : Option Value} (h : c.Reads w template definition packages) (test : Manifest → Bool)
    (hcheck : ((w.run (Machine.readText c.definition)).1.toOption.bind fun text =>
      (Manifest.parse text).toOption).all test = true) : test definition = true := by
  obtain ⟨text, htext, hparse⟩ := h.definition
  simpa [htext, hparse, Except.toOption] using hcheck

/-- Marked sections in a template and in pins, and a template's note that a definition replaces. -/
def markedLowerLayers : Workspace where
  disk := { root := .directory [
    ("app.yaml", .file "spack:\n  packages::\n    all: [gcc]\nnotes:\n  \"x:\": 1\n".toUTF8),
    ("box.yaml", .file "spack:\n  view: true\nnotes: none\n".toUTF8),
    ("pins.yaml", .file "packages::\n  zlib::\n    version: [1]\n".toUTF8)], home := [] }

def coveringBox : Container where
  definition := ⟨"/box.yaml"⟩
  template := ⟨"app", .file ⟨"/app.yaml"⟩⟩
  name := "app.box"
  dir := ⟨"envs"⟩
  basePackages := some ⟨"/pins.yaml"⟩

theorem compose_markFree_covering : ∃ m w' template definition packages,
    markedLowerLayers.run coveringBox.compose = (.ok m, w') ∧
      coveringBox.Reads markedLowerLayers template definition packages ∧
      markFree definition.toValue = true ∧ markFree m.toValue = true ∧
      coversMarks (.map definition.extra) (.map template.extra) = true := by
  obtain ⟨m, w', h⟩ := exists_run_eq_ok
    (show (markedLowerLayers.run coveringBox.compose).1.isOk = true by
    decide +kernel)
  obtain ⟨template, definition, packages, hreads, hmarks⟩ := compose_markFree h
  have hfree : markFree definition.toValue = true :=
    hreads.definition_passes (fun d => markFree d.toValue) (by decide +kernel)
  have hclean : markFree m.toValue = true := by
    have hcheck : (markedLowerLayers.run coveringBox.compose).1.toOption.all
        (fun m => markFree m.toValue) = true := by
      decide +kernel
    simpa [h, Except.toOption] using hcheck
  exact ⟨m, w', template, definition, packages, h, hreads, hfree, hclean,
    (hmarks hfree).1.symm.trans hclean⟩

/-- A template with a marked key beside its body. -/
def markBesideBody : Workspace where
  disk := { root := .directory [
    ("app.yaml", .file "spack:\n  view: false\nother:\n  \"x:\": 1\n".toUTF8),
    ("box.yaml", .file "spack:\n  view: true\n".toUTF8)], home := [] }

def unpinnedBox : Container := { pinnedBox with basePackages := none }

/-- The marker beside the template's body outlives the composition. -/
theorem compose_keeps_mark : ∃ m w' template definition packages,
    markBesideBody.run unpinnedBox.compose = (.ok m, w') ∧
      unpinnedBox.Reads markBesideBody template definition packages ∧
      markFree definition.toValue = true ∧ markFree m.toValue = false := by
  obtain ⟨m, w', h⟩ := exists_run_eq_ok (show (markBesideBody.run unpinnedBox.compose).1.isOk = true by
    decide +kernel)
  obtain ⟨template, definition, packages, hreads, -⟩ := run_compose_eq_ok h
  have hfree : markFree definition.toValue = true :=
    hreads.definition_passes (fun d => markFree d.toValue) (by decide +kernel)
  have hmark : markFree m.toValue = false := by
    have hcheck : (markBesideBody.run unpinnedBox.compose).1.toOption.all
        (fun m => !markFree m.toValue) = true := by decide +kernel
    simpa [h, Except.toOption] using hcheck
  exact ⟨m, w', template, definition, packages, h, hreads, hfree, hmark⟩

end Witness

end Container
end EnvCompose
