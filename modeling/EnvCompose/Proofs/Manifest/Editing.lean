import EnvCompose.Proofs.Manifest.Closure
import EnvCompose.Proofs.Merge.KeyOrder
import EnvCompose.Proofs.Merge.Throughout

/-!
# Manifests under any edits

An edit merges, assigns, restores or takes markers off. Whatever edits are made one after the other,
no two keys of a mapping come to go by one name if they did not before, neither in the manifest nor
in what it was given. Merges keep the order of the base and put after it what is new.
-/
namespace EnvCompose.Manifest
open Yaml Merge

/-- A change of a manifest, with the documents it is given. -/
inductive Edit where
  | merge (other : Manifest) (s : Strategy)
  | mergeSection (name : String) (v : Value) (s : Strategy)
  | set (path : String) (v : Value)
  | setIncludes (names : List String)
  | restoreSections (snapshot : Mapping)
  | unmark

def Edit.apply (m : Manifest) : Edit → Manifest
  | .merge other s => m.merge other s
  | .mergeSection name v s => m.mergeSection name v s
  | .set path v => m.set path v
  | .setIncludes names => m.setIncludes names
  | .restoreSections snapshot => m.restoreSections snapshot
  | .unmark => m.unmark

def edited (m : Manifest) (edits : List Edit) : Manifest := edits.foldl Edit.apply m

/-- Whether something holds of the body and of the other entries. -/
structure All (P : Value → Prop) (m : Manifest) : Prop where
  body : P (.map m.body)
  extra : P (.map m.extra)

/-- Whether something holds of all that an edit is given. -/
def Edit.All (P : Value → Prop) : Edit → Prop
  | .merge other _ => other.All P
  | .mergeSection _ v _ | .set _ v => P v
  | .restoreSections snapshot => P (.map snapshot)
  | .setIncludes _ | .unmark => True

/-- Whether no other entry of the document goes by the name of the body. -/
def BodyAlone (m : Manifest) : Prop := ∀ e ∈ m.extra, keyMatches bodyKey e.1 = false

/-- One edit keeps what is closed, in the body and in the other entries. -/
theorem Closed.apply {P : Value → Prop} (hP : Closed P) {m : Manifest} (hm : m.All P) {e : Edit}
    (he : e.All P) : (e.apply m).All P := by
  cases e with
  | merge other s => exact ⟨hP.merged s hm.body he.body, hP.merged s hm.extra he.extra⟩
  | mergeSection name v s => exact ⟨hP.mergeSection hm.body name he s, hm.extra⟩
  | set path v => exact ⟨hP.set hm.body path he, hm.extra⟩
  | setIncludes names => exact ⟨hP.setIncludes hm.body names, hm.extra⟩
  | restoreSections snapshot =>
    refine ⟨hP.restoreSections hm.body (hP.values snapshot he), ?_⟩
    rw [Edit.apply, restoreSections_extra]
    exact hm.extra
  | unmark => exact ⟨hP.unmarked hm.body, hm.extra⟩

/-- Any edits, one after the other, keep what is closed, in the body and in the other entries. -/
theorem Closed.edited {P : Value → Prop} (hP : Closed P) {m : Manifest} (hm : m.All P)
    {edits : List Edit} (he : ∀ e ∈ edits, e.All P) : (m.edited edits).All P := by
  induction edits generalizing m with
  | nil => exact hm
  | cons e edits ih =>
    rw [List.forall_mem_cons] at he
    exact ih (hP.apply hm he.1) he.2

theorem closed_tidyThroughout : Closed TidyThroughout where
  str := tidyThroughout_str
  seq _ := tidyThroughout_seq
  tagged _ _ := tidyThroughout_tagged.mp
  values _ hm e he := ((tidyThroughout_map.mp hm).2 e he).2
  nil := tidyThroughout_map.mpr ⟨tidy_nil, by simp⟩
  insert m name v hn hm hv := by
    obtain ⟨s, hs, -⟩ := keyFor_eq_str hn m
    refine tidyThroughout_map.mpr ⟨tidy_insert_keyFor hn hm.tidy hv.tidy, ?_⟩
    rw [hs]
    exact Mapping.forall_mem_insert (tidyThroughout_map.mp hm).2 (tidyThroughout_str s) hv
  mergeMappings _ _ _ hb ho hvalues := hb.mergeMappings ho hvalues
  unmark _ h := tidyThroughout_unmark h

/-- Only a merge adds to the other entries, and it adds the other manifest's. -/
theorem BodyAlone.edited {m : Manifest} (hm : m.BodyAlone) {edits : List Edit}
    (he : ∀ other s, .merge other s ∈ edits → other.BodyAlone) : (m.edited edits).BodyAlone := by
  induction edits generalizing m with
  | nil => exact hm
  | cons e edits ih =>
    refine ih (m := e.apply m) ?_ fun other s h => he other s (List.mem_cons_of_mem e h)
    cases e with
    | merge other s =>
      exact forall_key_mergeMappings (P := fun key => keyMatches bodyKey key = false) hm
        (he other s (by simp))
    | restoreSections snapshot =>
      rw [BodyAlone, Edit.apply, restoreSections_extra]
      exact hm
    | _ => exact hm

section Document

variable {m : Manifest} (halone : m.BodyAlone)
include halone

private theorem tidy_document (hm : m.All Tidy) :
    Tidy (.map ((bodyKey, .map m.body) :: m.extra)) := by
  obtain ⟨hapart, hmem⟩ := tidy_map.mp hm.extra
  exact tidy_map.mpr ⟨List.pairwise_cons.mpr ⟨halone, hapart⟩,
    List.forall_mem_cons.mpr ⟨⟨Value.proper_str "spack", hm.body⟩, hmem⟩⟩

private theorem toValue_eq_document (hm : m.All Tidy) :
    m.toValue = .map ((bodyKey, .map m.body) :: m.extra) :=
  congrArg Value.map
    (Mapping.ofList_eq_self ((Value.proper_map _).mp (tidy_document halone hm).proper).1)

theorem tidy_toValue (hm : m.All Tidy) : Tidy m.toValue := by
  rw [toValue_eq_document halone hm]
  exact tidy_document halone hm

theorem tidyThroughout_toValue (hm : m.All TidyThroughout) : TidyThroughout m.toValue := by
  have htidy : m.All Tidy := ⟨hm.body.tidy, hm.extra.tidy⟩
  rw [toValue_eq_document halone htidy]
  exact tidyThroughout_map.mpr ⟨tidy_document halone htidy, List.forall_mem_cons.mpr
    ⟨⟨tidyThroughout_str "spack", hm.body⟩, (tidyThroughout_map.mp hm.extra).2⟩⟩

end Document

/-- Edits of any kind and number keep the names in every mapping apart, with the mappings in keys
left out or counted in, and so in the whole document if no entry besides the body has its name. A
merged mapping has the names of its base in their order, then those that only its overlay has in
theirs, each once. -/
theorem edits_keep_names_apart {P : Value → Prop} (hP : P = Tidy ∨ P = TidyThroughout) {m : Manifest}
    (hm : m.All P) {edits : List Edit} (he : ∀ e ∈ edits, e.All P) :
    (m.edited edits).All P ∧
      (m.BodyAlone → (∀ other s, .merge other s ∈ edits → other.BodyAlone) →
        P (m.edited edits).toValue) ∧
      ∀ (s : Strategy) (base overlay : Mapping), P (.map base) → P (.map overlay) →
        keyNames (mergeMappings s base overlay) = keyNames base ++
          (keyNames overlay).filter (fun name => !(keyNames base).contains name) ∧
        (keyNames (mergeMappings s base overlay)).Nodup := by
  have htidy : ∀ v, P v → Tidy v := by
    rcases hP with rfl | rfl
    · exact fun _ h => h
    · exact fun _ h => h.tidy
  have hclosed : Closed P := by
    rcases hP with rfl | rfl
    · exact closed_tidy
    · exact closed_tidyThroughout
  have hedited := hclosed.edited hm he
  refine ⟨hedited, fun halone hothers => ?_, fun s base overlay hb ho => ⟨?_, ?_⟩⟩
  · have hstill := halone.edited hothers
    rcases hP with rfl | rfl
    · exact tidy_toValue hstill hedited
    · exact tidyThroughout_toValue hstill hedited
  · exact keyNames_mergeMappings s (htidy _ hb) (htidy _ ho)
  · exact nodup_keyNames ((htidy _ hb).mergeMappings s (htidy _ ho))

section Witness

/-- Marked keys, one of them below a tag in a sequence, and a mapping for a key. -/
def marksBelowTags : Manifest where
  body := [(.str "packages:", .map [(.str "all::", .seq [.int 1]),
      (.map [(.str "x:", .null), (.str "y", .null)], .bool true)]),
    (.str "specs", .seq [.tagged "site" (.map [(.str "when:", .null)])])]
  extra := [(.str "note:", .str "kept")]

def otherManifest : Manifest where
  body := [(.str "view::", .bool false), (.str "packages", .map [(.str "all", .null)])]
  extra := [(.str "note", .null), (.str "date", .null)]

/-- One edit of each kind. The assignment goes by way of a marked key, which is kept. -/
def oneEditEach : List Edit :=
  [.merge otherManifest .layer, .mergeSection "specs" (.seq [.str "zlib"]) .fill,
    .set "view:colour" (.map [(.str "y:", .int 2)]), .setIncludes ["site"],
    .restoreSections [(.str "packages", .map [(.str "all:", .null)])], .unmark]

theorem edits_keep_names_apart_marksBelowTags : marksBelowTags.All TidyThroughout ∧
    (∀ e ∈ oneEditEach, e.All TidyThroughout) ∧ marksBelowTags.BodyAlone ∧ otherManifest.BodyAlone ∧
    (marksBelowTags.edited oneEditEach).All TidyThroughout ∧
    TidyThroughout (marksBelowTags.edited oneEditEach).toValue ∧
    keyNames (mergeMappings .layer marksBelowTags.body otherManifest.body) =
      ["packages", "specs", "view"] := by
  have hm : marksBelowTags.All TidyThroughout := ⟨⟨by decide, by decide⟩, ⟨by decide, by decide⟩⟩
  have hother : otherManifest.All TidyThroughout := ⟨⟨by decide, by decide⟩, ⟨by decide, by decide⟩⟩
  have he : ∀ e ∈ oneEditEach, e.All TidyThroughout := by
    simp only [oneEditEach, List.forall_mem_cons]
    exact ⟨hother, ⟨by decide, by decide⟩, ⟨by decide, by decide⟩, trivial,
      ⟨by decide, by decide⟩, trivial, by simp⟩
  have halone : marksBelowTags.BodyAlone := by unfold BodyAlone; decide
  have hothers : otherManifest.BodyAlone := by unfold BodyAlone; decide
  obtain ⟨hall, hdocument, horder⟩ := edits_keep_names_apart (.inr rfl) hm he
  refine ⟨hm, he, halone, hothers, hall, hdocument halone fun other s h => ?_, ?_⟩
  · have hsame : other = otherManifest := by simp [oneEditEach] at h; exact h.1
    exact hsame ▸ hothers
  · exact (horder .layer _ _ hm.body hother.body).1.trans (by decide)

end Witness

end EnvCompose.Manifest
