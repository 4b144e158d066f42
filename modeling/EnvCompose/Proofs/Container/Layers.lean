import EnvCompose.Container
import EnvCompose.Proofs.Manifest.Sections
import EnvCompose.Proofs.Workspace.Running
import EnvCompose.Proofs.Yaml.Identity
import EnvCompose.Proofs.Yaml.Reading

/-!
# The layers of a container

A container's manifest is three layers, pins below template below definition, with the label of the
template set on top. That the definition is the first base of the merges as well leaves no trace.
-/
namespace EnvCompose.Container
open Yaml Merge Workspace

/-- What the files of a container hold: the manifests of template and definition and, if it has
pins, what is under the key `packages` in their document. -/
structure Reads (c : Container) (w : Workspace) (template definition : Manifest)
    (packages : Option Value) : Prop where
  template : ∃ text, (w.run c.template.read).1 = .ok text ∧ Manifest.parse text = .ok template
  definition : ∃ text, (w.run (Machine.readText c.definition)).1 = .ok text ∧
    Manifest.parse text = .ok definition
  pinned : packages.isSome = c.basePackages.isSome
  packages : ∀ file ∈ c.basePackages, ∃ text doc entries,
    (w.run (Machine.readText file)).1 = .ok text ∧ Value.parse text = .ok doc ∧
      (unmark doc).entries? = some entries ∧ entries.get? (.str "packages") = packages

def pinsLayer (packages : Option Value) : Mapping :=
  (packages.map fun v => (Value.str "packages", v)).toList

/-- The three layers of a container, the weakest first. -/
def layers (pins template definition : Mapping) : Mapping :=
  mergeMappings .layer (mergeMappings .layer pins template) definition

theorem run_templateRead (w : Workspace) (t : Template) :
    w.run t.read = ((w.run t.read).1, w) := by
  unfold Template.read
  cases t.source with
  | builtIn text => rfl
  | directory dir file => rw [run_adapt, run_readText]
  | file file => rw [run_adapt, run_readText]

private theorem run_readDocument_eq_ok {w w' : Workspace} {file : Path} {text : String}
    (h : w.run (readDocument file) = (.ok text, w')) :
    w' = w ∧ (w.run (Machine.readText file)).1 = .ok text := by
  have h' := run_adapt_eq_ok.mp h
  rw [run_readText] at h'
  obtain ⟨ht, hw⟩ := Prod.mk.inj h'
  exact ⟨hw.symm, ht⟩

private theorem run_loadUnmarked_eq_ok {w w' : Workspace} {file : Path} {v : Value}
    (h : w.run (loadUnmarked file) = (.ok v, w')) : w' = w ∧ ∃ text doc,
      (w.run (Machine.readText file)).1 = .ok text ∧ Value.parse text = .ok doc ∧ v = unmark doc := by
  obtain ⟨text, w₁, hread, hrest⟩ := run_bind_eq_ok.mp h
  obtain ⟨rfl, ht⟩ := run_readDocument_eq_ok hread
  split at hrest
  · cases hrest
  · rename_i doc hdoc
    obtain ⟨hv, hw⟩ := Prod.mk.inj hrest
    exact ⟨hw.symm, text, doc, ht, hdoc, (Except.ok.inj hv).symm⟩

private theorem run_load_eq_ok {w w' : Workspace} {file : Path} {m : Manifest}
    (h : w.run (Manifest.load file) = (.ok m, w')) : w' = w ∧ ∃ text,
      (w.run (Machine.readText file)).1 = .ok text ∧ Manifest.parse text = .ok m := by
  obtain ⟨text, w₁, hread, hrest⟩ := run_bind_eq_ok.mp h
  obtain ⟨rfl, ht⟩ := run_readDocument_eq_ok hread
  obtain ⟨hm, hw⟩ := Prod.mk.inj hrest
  exact ⟨hw.symm, text, ht, hm⟩

private theorem run_loadPackages_eq_ok {w w' : Workspace} {pins : Path} {v : Value}
    (h : w.run (loadPackages pins) = (.ok v, w')) : ∃ text doc entries,
      (w.run (Machine.readText pins)).1 = .ok text ∧ Value.parse text = .ok doc ∧
        (unmark doc).entries? = some entries ∧ entries.get? (.str "packages") = some v := by
  obtain ⟨doc, w₁, hload, hrest⟩ := run_bind_eq_ok.mp h
  obtain ⟨-, text, doc, ht, hdoc, rfl⟩ := run_loadUnmarked_eq_ok hload
  split at hrest
  · rename_i packages hp
    obtain ⟨-, w₂, -, hreturn⟩ := run_bind_eq_ok.mp hrest
    obtain ⟨hv, -⟩ := Prod.mk.inj hreturn
    obtain rfl := Except.ok.inj hv
    obtain ⟨entries, hentries, hget⟩ := Option.bind_eq_some_iff.mp hp
    exact ⟨text, doc, entries, ht, hdoc, hentries, hget⟩
  · cases hrest

/-- A composition that succeeds has read its files and put their layers together. -/
theorem run_compose_eq_ok {c : Container} {w w' : Workspace} {m : Manifest}
    (h : w.run c.compose = (.ok m, w')) : ∃ template definition packages,
      c.Reads w template definition packages ∧
        m = composeLayers definition template.unmark packages c.template.name := by
  obtain ⟨text, w₁, hread, h₁⟩ := run_bind_eq_ok.mp h
  obtain ⟨template, w₂, htemplate, h₂⟩ := run_bind_eq_ok.mp h₁
  obtain ⟨definition, w₃, hdefinition, h₃⟩ := run_bind_eq_ok.mp h₂
  obtain ⟨packages, w₄, hpackages, h₄⟩ := run_bind_eq_ok.mp h₃
  have hrun := run_adapt_eq_ok.mp hread
  rw [run_templateRead] at hrun
  obtain ⟨htext, rfl⟩ := Prod.mk.inj hrun
  obtain ⟨hparse, rfl⟩ := Prod.mk.inj htemplate
  obtain ⟨rfl, hload⟩ := run_load_eq_ok hdefinition
  obtain ⟨hm, -⟩ := Prod.mk.inj h₄
  refine ⟨template, definition, packages, ?_, (Except.ok.inj hm).symm⟩
  cases hpins : c.basePackages with
  | none =>
    rw [hpins] at hpackages
    obtain ⟨hnone, -⟩ := Prod.mk.inj hpackages
    obtain rfl := Except.ok.inj hnone
    exact ⟨⟨text, htext, hparse⟩, hload, by rw [hpins]; rfl, by simp [hpins]⟩
  | some file =>
    rw [hpins] at hpackages
    obtain ⟨v, w₅, hv, hsome⟩ := run_bind_eq_ok.mp hpackages
    obtain ⟨hsome, -⟩ := Prod.mk.inj hsome
    obtain rfl := Except.ok.inj hsome
    refine ⟨⟨text, htext, hparse⟩, hload, by rw [hpins]; rfl, fun file' hfile => ?_⟩
    obtain rfl : file = file' := by simpa [hpins] using hfile
    exact run_loadPackages_eq_ok hv

theorem unmarked_pinsLayer {packages : Option Value} (h : ∀ v ∈ packages, Unmarked v) :
    Unmarked (.map (pinsLayer packages)) := by
  have hmark : isMarked (.str "packages") = false := by decide
  cases packages with
  | none => exact unmarked_map.mpr ⟨.nil, by simp [pinsLayer]⟩
  | some v =>
    exact unmarked_map.mpr ⟨List.pairwise_singleton _ _, by simpa [pinsLayer, hmark] using h⟩

private theorem names_of_templateLabel :
    Manifest.namesOn templateLabel = ["container", "labels", "app"] := by
  decide

theorem isName_of_templateLabel : ∀ name ∈ Manifest.namesOn templateLabel, Manifest.IsName name := by
  rw [names_of_templateLabel]
  unfold Manifest.IsName
  decide

theorem composeLayers_body {definition : Manifest} (hd : Tidy (.map definition.body))
    {packages : Option Value} (hp : ∀ v ∈ packages, Unmarked v) (template : Manifest)
    (label : String) : (composeLayers definition template packages label).body =
      Manifest.assign (mergeMappings .layer (mergeMappings .layer (mergeMappings .layer
        definition.body (pinsLayer packages)) template.body) definition.body)
        (Manifest.namesOn templateLabel) (.str label) := by
  cases packages with
  | none =>
    rw [pinsLayer, Option.map_none, Option.toList_none, mergeMappings_nil hd]
    rfl
  | some v =>
    have hname : Manifest.namesOn "packages" = ["packages"] := by decide
    have hself : keyName? (.str "packages") = some "packages" := by decide
    have hpinned := Manifest.mergeSection_body (s := .layer) hname hself hd (hp v rfl).toTidy
      fun _ _ => Manifest.isMarked_of_isName hself
    rw [pinsLayer, Option.map_some, Option.toList_some, ← hpinned]
    rfl

/-- The first use of the definition, which the pins are merged into, leaves no trace. -/
theorem composeLayers_beq {definition template : Manifest} {packages : Option Value}
    (hd : Tidy (.map definition.body)) (ht : Unmarked (.map template.body))
    (hp : ∀ v ∈ packages, Unmarked v) (label : String) :
    (Value.map (composeLayers definition template packages label).body ==
      .map (Manifest.assign (layers (pinsLayer packages) template.body definition.body)
        (Manifest.namesOn templateLabel) (.str label))) = true := by
  have hpins := unmarked_pinsLayer hp
  have hlow := hpins.toTidy.mergeMappings .layer ht.toTidy
  have htwice := (hd.mergeMappings .layer hpins.toTidy).mergeMappings .layer ht.toTidy
  rw [composeLayers_body hd hp]
  exact Manifest.assign_congr (htwice.mergeMappings .layer hd) (hlow.mergeMappings .layer hd)
    (merge_merge_absorb hd hpins ht) isName_of_templateLabel (tidy_str label)

/-- Where two layers have sequences, the upper one's items come first and the lower one adds its
own. -/
private theorem valueAt?_merge_layer {below layer : Mapping} (hb : (Value.map below).proper = true)
    (hl : (Value.map layer).proper = true) {path : List Value}
    (hk : ∀ key ∈ path, key.proper = true) {items others : List Value}
    (hitems : valueAt? path (.map layer) = some (.seq items))
    (hmark : viaMark path (.map layer) = false)
    (hothers : valueAt? path (.map below) = some (.seq others)) :
    valueAt? path (.map (mergeMappings .layer below layer)) =
      some (.seq (combine items others)) := by
  have hrule := mergeSides_precedes .layer hl hb hk
  obtain ⟨r, hr, hsettled⟩ := hrule.kept _ hitems
  rw [hsettled (by simp), hothers, hmark] at hr
  rw [← merge_map]
  exact hr

private theorem valueAt?_layers {pins template definition : Mapping} (hd : Tidy (.map definition))
    (ht : Unmarked (.map template)) (hp : Unmarked (.map pins)) {path : List Value}
    (hk : ∀ key ∈ path, key.proper = true) {ds ts ps : List Value}
    (hds : valueAt? path (.map definition) = some (.seq ds))
    (hmark : viaMark path (.map definition) = false)
    (hts : valueAt? path (.map template) = some (.seq ts))
    (hps : valueAt? path (.map pins) = some (.seq ps)) :
    valueAt? path (.map (layers pins template definition)) = some (.seq (ds ++
      ts.filter (fun v => !ds.contains v) ++
      ps.filter fun v => !ts.contains v && !ds.contains v)) := by
  have hlow := valueAt?_merge_layer hp.proper ht.proper hk hts (viaMark_of_unmarked ht path) hps
  have hboth := hp.toTidy.mergeMappings .layer ht.toTidy
  rw [layers, valueAt?_merge_layer hboth.proper hd.proper hk hds hmark hlow]
  simp [combine, List.filter_filter, Bool.and_comm]

theorem Reads.tidy {c : Container} {w : Workspace} {template definition : Manifest}
    {packages : Option Value} (h : c.Reads w template definition packages) :
    (Value.map definition.body).proper = true ∧ Unmarked (.map template.unmark.body) ∧
      ∀ v ∈ packages, Unmarked v := by
  obtain ⟨_, _, hdefinition⟩ := h.definition
  obtain ⟨_, _, htemplate⟩ := h.template
  refine ⟨(Manifest.proper_of_parse hdefinition).1,
    unmarked_body (Manifest.proper_of_parse htemplate).1, fun v hv => ?_⟩
  obtain ⟨file, hfile⟩ : ∃ file, c.basePackages = some file := by
    rw [← Option.isSome_iff_exists, ← h.pinned, hv, Option.isSome_some]
  obtain ⟨text, doc, entries, -, hdoc, hentries, hget⟩ := h.packages file hfile
  obtain ⟨e, he, rfl⟩ := Option.map_eq_some_iff.mp (hget.trans hv)
  have hmap := (unmark_unmarked (Value.proper_of_parse hdoc)).entries hentries
  exact ((unmarked_map.mp hmap).2 e (List.mem_of_find?_eq_some he)).2

/-- The files of a container have one reading. -/
theorem Reads.unique {c : Container} {w : Workspace} {template definition template' definition' :
    Manifest} {packages packages' : Option Value} (h : c.Reads w template definition packages)
    (h' : c.Reads w template' definition' packages') :
    template' = template ∧ definition' = definition ∧ packages' = packages := by
  obtain ⟨_, hread, hparse⟩ := h.template
  obtain ⟨_, hread', hparse'⟩ := h'.template
  obtain rfl := Except.ok.inj (hread'.symm.trans hread)
  obtain rfl := Except.ok.inj (hparse'.symm.trans hparse)
  obtain ⟨_, hread, hparse⟩ := h.definition
  obtain ⟨_, hread', hparse'⟩ := h'.definition
  obtain rfl := Except.ok.inj (hread'.symm.trans hread)
  obtain rfl := Except.ok.inj (hparse'.symm.trans hparse)
  refine ⟨rfl, rfl, ?_⟩
  cases hpins : c.basePackages with
  | none =>
    have hnone := h.pinned
    have hnone' := h'.pinned
    rw [hpins, Option.isSome_none, Option.isSome_eq_false_iff, Option.isNone_iff_eq_none]
      at hnone hnone'
    rw [hnone, hnone']
  | some file =>
    obtain ⟨_, _, _, hread, hparse, hentries, rfl⟩ := h.packages file hpins
    obtain ⟨_, _, _, hread', hparse', hentries', rfl⟩ := h'.packages file hpins
    obtain rfl := Except.ok.inj (hread'.symm.trans hread)
    obtain rfl := Except.ok.inj (hparse'.symm.trans hparse)
    rw [Option.some.inj (hentries'.symm.trans hentries)]

/-- A composition that succeeds gives the label on top of the three layers, whatever override
markers the definition has, if no two keys of a mapping in it go by one name. In a place where all
layers have a sequence, that of the definition comes first, then what the template adds, then what
the pins add. -/
theorem compose_stacks_layers {c : Container} {w w' : Workspace} {m : Manifest}
    (h : w.run c.compose = (.ok m, w')) : ∃ template definition packages,
      c.Reads w template definition packages ∧
        (collisionFree (.map definition.body) = true →
          (Value.map m.body == .map (Manifest.set ⟨layers (pinsLayer packages) template.unmark.body
            definition.body, []⟩ "container:labels:app" (.str c.template.name)).body) = true ∧
          ∀ path ds ts ps, (∀ key ∈ path, key.proper = true) →
            Manifest.parts path ["container", "labels", "app"] = true →
            valueAt? path (.map definition.body) = some (.seq ds) →
            viaMark path (.map definition.body) = false →
            valueAt? path (.map template.unmark.body) = some (.seq ts) →
            valueAt? path (.map (pinsLayer packages)) = some (.seq ps) →
            ∃ items, valueAt? path (.map m.body) = some (.seq items) ∧
              (Value.seq items == .seq (ds ++ ts.filter (fun v => !ds.contains v) ++
                ps.filter fun v => !ts.contains v && !ds.contains v)) = true) := by
  obtain ⟨template, definition, packages, hreads, rfl⟩ := run_compose_eq_ok h
  refine ⟨template, definition, packages, hreads, fun hfree => ?_⟩
  obtain ⟨hproper, ht, hp⟩ := hreads.tidy
  have hd : Tidy (.map definition.body) := ⟨hproper, hfree⟩
  have hpins := unmarked_pinsLayer hp
  have hbody := composeLayers_beq hd ht hp c.template.name
  refine ⟨hbody, fun path ds ts ps hk hparts hds hmark hts hps => ?_⟩
  have hlow := hpins.toTidy.mergeMappings .layer ht.toTidy
  have htwice := (hd.mergeMappings .layer hpins.toTidy).mergeMappings .layer ht.toTidy
  have hresult := Manifest.assign_tidy isName_of_templateLabel (htwice.mergeMappings .layer hd)
    (tidy_str c.template.name)
  rw [← composeLayers_body hd hp] at hresult
  have hsame := Manifest.valueAt?_congr hresult (Manifest.assign_tidy isName_of_templateLabel
    (hlow.mergeMappings .layer hd) (tidy_str c.template.name)) hbody hk
  rw [← names_of_templateLabel] at hparts
  rw [Manifest.valueAt?_assign_of_parts isName_of_templateLabel hk hparts] at hsame
  have hstack := valueAt?_layers hd ht hpins hk hds hmark hts hps
  rw [layers] at hstack
  rw [hstack] at hsame
  generalize hv : valueAt? path _ = found at hsame ⊢
  cases hsame with
  | @some v _ hvalue =>
    obtain ⟨items, rfl⟩ := Value.eq_seq_of_beq_seq hvalue
    exact ⟨items, rfl, hvalue⟩

section Witness

/-- A definition, a template and pins with a list of compilers each. The definition marks a section
of its own, the pins mark theirs. -/
def threeLists : Workspace where
  disk := { root := .directory [
    ("app.yaml", .file "spack:\n  packages:\n    all: [clang, gcc]\n  config:\n    jobs: 4\n".toUTF8),
    ("box.yaml", .file "spack:\n  packages:\n    all: [gcc]\n  config::\n    debug: true\n".toUTF8),
    ("pins.yaml", .file "packages::\n  all: [intel, clang]\n".toUTF8)], home := [] }

def pinnedBox : Container where
  definition := ⟨"/box.yaml"⟩
  template := ⟨"app", .file ⟨"/app.yaml"⟩⟩
  name := "app.box"
  dir := ⟨"envs"⟩
  basePackages := some ⟨"/pins.yaml"⟩

def compilersOf (names : List String) : Value := .map [(.str "all", .seq (names.map .str))]

private theorem reads_threeLists : pinnedBox.Reads threeLists
    ⟨[(.str "packages", compilersOf ["clang", "gcc"]),
      (.str "config", .map [(.str "jobs", .int 4)])],
      []⟩
    ⟨[(.str "packages", compilersOf ["gcc"]),
      (.str "config:", .map [(.str "debug", .bool true)])], []⟩
    (some (compilersOf ["intel", "clang"])) where
  template := ⟨"spack:\n  packages:\n    all: [clang, gcc]\n  config:\n    jobs: 4\n", by rfl,
    Manifest.parse_of_identical (by decide +kernel)⟩
  definition := ⟨"spack:\n  packages:\n    all: [gcc]\n  config::\n    debug: true\n", by rfl,
    Manifest.parse_of_identical (by decide +kernel)⟩
  pinned := rfl
  packages := by
    intro file hfile
    obtain rfl := Option.some.inj hfile
    refine ⟨"packages::\n  all: [intel, clang]\n",
      .map [(.str "packages:", compilersOf ["intel", "clang"])], _, by rfl,
      Value.parse_eq_of_identical (by decide +kernel), by rfl, by rfl⟩

theorem compose_stacks_layers_pinned : ∃ m w' template definition packages,
    threeLists.run pinnedBox.compose = (.ok m, w') ∧
      pinnedBox.Reads threeLists template definition packages ∧
      collisionFree (.map definition.body) = true ∧
      packages = some (compilersOf ["intel", "clang"]) ∧
      (Value.map m.body == .map (Manifest.set ⟨layers (pinsLayer packages) template.unmark.body
        definition.body, []⟩ "container:labels:app" (.str "app")).body) = true ∧
      ∃ items, valueAt? [.str "packages", .str "all"] (.map m.body) = some (.seq items) ∧
        (Value.seq items == .seq [.str "gcc", .str "clang", .str "intel"]) = true := by
  obtain ⟨m, w', h⟩ := exists_run_eq_ok (show (threeLists.run pinnedBox.compose).1.isOk = true by
    decide +kernel)
  obtain ⟨template, definition, packages, hreads, hstack⟩ := compose_stacks_layers h
  obtain ⟨rfl, rfl, rfl⟩ := reads_threeLists.unique hreads
  have hfree : collisionFree (.map [(.str "packages", compilersOf ["gcc"]),
      (.str "config:", .map [(.str "debug", .bool true)])]) = true := by
    decide
  obtain ⟨hbody, hlists⟩ := hstack hfree
  refine ⟨m, w', _, _, _, h, hreads, hfree, rfl, hbody, ?_⟩
  exact hlists [.str "packages", .str "all"] _ _ _ (by decide) (by decide) rfl (by decide) rfl rfl

end Witness

end EnvCompose.Container
