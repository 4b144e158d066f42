import EnvCompose.Proofs.Merge.Absorption

/-!
# The order of merged keys

A merged mapping has the names of its base in their order, whichever side's key stands for a name,
and then those of its overlay that the base lacks. No name is there twice.
-/
namespace EnvCompose.Merge
open Yaml

/-- The names that the keys of a mapping go by, in order. -/
def keyNames (m : Mapping) : List String := m.filterMap fun e => keyName? e.1

theorem mem_keyNames {m : Mapping} {name : String} :
    name ∈ keyNames m ↔ ∃ e ∈ m, keyName? e.1 = some name := List.mem_filterMap

private theorem keyName?_eq_of_keyMatches {a b : Value} (h : keyMatches a b = true) :
    keyName? b = keyName? a := by
  rcases keyMatches_iff.mp h with ⟨name, ha, hb⟩ | ⟨ha, hb, -⟩
  · exact hb.trans ha.symm
  · exact hb.trans ha.symm

private theorem keyNames_map_mergeEntry (s : Strategy) (base overlay : Mapping) :
    keyNames (base.map (mergeEntry s overlay)) = keyNames base := by
  rw [keyNames, List.filterMap_map]
  exact List.filterMap_congr fun e _ => keyName?_eq_of_keyMatches (mergeEntry_matches s overlay e)

/-- A mapping has no entry for a key just if it lacks the key's name. -/
theorem isNone_entryFor?_of_keyName? {m : Mapping} {key : Value} {name : String}
    (h : keyName? key = some name) :
    (entryFor? m key).isNone = !(keyNames m).contains name := by
  rw [Bool.eq_iff_iff, Option.isNone_iff_eq_none, entryFor?_eq_find?, List.find?_eq_none,
    Bool.not_eq_true', ← Bool.not_eq_true, List.contains_iff_mem, mem_keyNames]
  simp [keyMatches, h]

private theorem keyNames_filter_absent (base overlay : Mapping) :
    keyNames (overlay.filter fun e => (entryFor? base e.1).isNone) =
      (keyNames overlay).filter fun name => !(keyNames base).contains name := by
  unfold keyNames
  rw [List.filterMap_filter, List.filter_filterMap, ← keyNames]
  refine List.filterMap_congr fun e _ => ?_
  cases h : keyName? e.1 with
  | none => simp
  | some name =>
    rw [isNone_entryFor?_of_keyName? h]
    rfl

variable {base overlay : Mapping}

/-- The names of the base come first, then those that only the overlay has. -/
theorem keyNames_mergeMappings (s : Strategy) (hb : Tidy (.map base)) (ho : Tidy (.map overlay)) :
    keyNames (mergeMappings s base overlay) =
      keyNames base ++ (keyNames overlay).filter fun name => !(keyNames base).contains name := by
  rw [mergeMappings_eq_mergedEntries hb ho.proper, mergedEntries, ← keyNames_filter_absent,
    ← keyNames_map_mergeEntry s base overlay]
  exact List.filterMap_append

theorem nodup_keyNames {m : Mapping} (h : Tidy (.map m)) : (keyNames m).Nodup := by
  refine (tidy_map.mp h).1.filterMap _ fun e f hef name he name' hf heq => ?_
  have hmatch : keyMatches e.1 f.1 = true :=
    keyMatches_iff.mpr (.inl ⟨name, he, heq ▸ hf⟩)
  simp [hef] at hmatch

end EnvCompose.Merge
