import EnvCompose.Disk.Basic
import EnvCompose.Proofs.Text.Split

/-!
# The steps of a path

A path with a name below it takes the steps of the path and then the name, which is its last. A path
without a parent leads nowhere but where it starts.
-/
namespace EnvCompose.Disk

/-- Whether a text is a step down. -/
structure IsFileName (name : String) : Prop where
  ne_empty : name ≠ ""
  no_slash : '/' ∉ name.toList
  ne_point : name ≠ "."
  ne_points : name ≠ ".."

/-- Whether a directory can have a member of the name. -/
structure IsMemberName (name : String) : Prop extends IsFileName name where
  size_le : name.utf8ByteSize ≤ maxName

theorem isMemberName_iff {name : String} : IsMemberName name ↔ name ≠ "" ∧ '/' ∉ name.toList ∧
    name ≠ "." ∧ name ≠ ".." ∧ name.utf8ByteSize ≤ maxName :=
  ⟨fun ⟨⟨hempty, hslash, hpoint, hpoints⟩, hsize⟩ => ⟨hempty, hslash, hpoint, hpoints, hsize⟩,
    fun ⟨hempty, hslash, hpoint, hpoints, hsize⟩ => ⟨⟨hempty, hslash, hpoint, hpoints⟩, hsize⟩⟩

instance (name : String) : Decidable (IsMemberName name) := decidable_of_iff' _ isMemberName_iff

theorem stepsOf_eq (p : Path) : stepsOf p = Text.piecesOf '/' p.text.toList := rfl

theorem of_mem_stepsOf {p : Path} {s : String} (h : s ∈ stepsOf p) : s ≠ "" ∧ '/' ∉ s.toList :=
  Text.of_mem_piecesOf h

section Join

variable {p : Path} {name : String}

theorem IsFileName.not_isAbsolute (hn : IsFileName name) : (⟨name⟩ : Path).isAbsolute = false := by
  rw [Path.isAbsolute, Bool.eq_false_iff]
  intro h
  exact hn.no_slash (List.mem_of_mem_head? (eq_of_beq h))

/-- A name is put behind a slash. -/
theorem exists_toList_join (hn : IsFileName name) :
    (p.text = "" ∧ (p.join ⟨name⟩).text = name) ∨
      ∃ front, (p.join ⟨name⟩).text.toList = front ++ '/' :: name.toList ∧
        (p.text.toList = front ∧ front ≠ [] ∨ p.text.toList = front ++ ['/']) := by
  rw [Path.join, hn.not_isAbsolute]
  by_cases hempty : p.text = ""
  · left
    simp [Path.isEmpty, hempty]
  · right
    by_cases hslash : p.text.toList.getLast? = some '/'
    · obtain ⟨front, hfront⟩ := List.getLast?_eq_some_iff.mp hslash
      refine ⟨front, ?_, .inr hfront⟩
      simp [hfront]
    · refine ⟨p.text.toList, ?_, .inl ⟨rfl, by simpa using hempty⟩⟩
      simp [Path.isEmpty, hempty, hslash]

theorem join_inj {q r : Path} (h : q.isAbsolute = r.isAbsolute) :
    p.join q = p.join r ↔ q = r := by
  refine ⟨fun heq => ?_, fun heq => heq ▸ rfl⟩
  rw [Path.join, Path.join, h] at heq
  split at heq
  · exact heq
  · have htext : q.text = r.text := by
      split at heq <;> simpa [← String.toList_inj] using heq
    exact congrArg Path.mk htext

/-- A relative path below another takes the steps of both. -/
theorem stepsOf_join_relative {q : Path} (hq : q.isAbsolute = false) :
    stepsOf (p.join q) = stepsOf p ++ stepsOf q := by
  rw [Path.join, hq]
  by_cases hempty : p.text = ""
  · simp [Path.isEmpty, hempty, stepsOf_eq]
  by_cases hslash : p.text.toList.getLast? = some '/'
  · obtain ⟨front, hfront⟩ := List.getLast?_eq_some_iff.mp hslash
    have hjoin : (p.text ++ q.text).toList = front ++ '/' :: q.text.toList := by simp [hfront]
    have hp : p.text.toList = front ++ '/' :: [] := hfront
    simp [stepsOf_eq, hjoin, hp, Text.piecesOf_append_cons]
  · have hjoin : (p.text ++ "/" ++ q.text).toList = p.text.toList ++ '/' :: q.text.toList := by simp
    simp [Path.isEmpty, hempty, hslash, stepsOf_eq, hjoin, Text.piecesOf_append_cons]

theorem stepsOf_join (hn : IsFileName name) : stepsOf (p.join ⟨name⟩) = stepsOf p ++ [name] := by
  rw [stepsOf_join_relative hn.not_isAbsolute, stepsOf_eq ⟨name⟩,
    Text.piecesOf_of_not_mem hn.ne_empty hn.no_slash]

theorem isAbsolute_join (hn : IsFileName name) : (p.join ⟨name⟩).isAbsolute = p.isAbsolute := by
  obtain ⟨hp, hjoin⟩ | ⟨front, hjoin, hp⟩ := exists_toList_join (p := p) hn
  · have hname := hn.not_isAbsolute
    rw [Path.isAbsolute] at hname ⊢
    rw [hjoin, hname]
    simp [Path.isAbsolute, hp]
  · rw [Path.isAbsolute, Path.isAbsolute, hjoin]
    obtain ⟨hp, hne⟩ | hp := hp
    · obtain ⟨c, front, rfl⟩ := List.exists_cons_of_ne_nil hne
      simp [hp]
    · rw [hp]
      cases front <;> simp

theorem endsWithSlash_join (hn : IsFileName name) : endsWithSlash (p.join ⟨name⟩) = false := by
  have hlast : name.toList.getLast? ≠ some '/' := fun h => hn.no_slash (List.mem_of_getLast? h)
  have hname : name.toList ≠ [] := by simpa using hn.ne_empty
  rw [endsWithSlash, beq_eq_false_iff_ne]
  obtain ⟨hp, hjoin⟩ | ⟨front, hjoin, hp⟩ := exists_toList_join (p := p) hn
  · rwa [hjoin]
  · rwa [hjoin, List.getLast?_append, List.getLast?_cons_of_ne_nil hname,
      Option.or_of_isSome (by simpa using hname)]

theorem isEmpty_join (hn : IsFileName name) : (p.join ⟨name⟩).isEmpty = false := by
  obtain ⟨hp, hjoin⟩ | ⟨front, hjoin, hp⟩ := exists_toList_join (p := p) hn
  · simpa [Path.isEmpty, hjoin] using hn.ne_empty
  · have hne : (p.join ⟨name⟩).text.toList ≠ [] := by simp [hjoin]
    simpa [Path.isEmpty] using hne

theorem checkPath_eq_ok_iff : checkPath p = .ok () ↔
    hasNul p = false ∧ p.isEmpty = false ∧ p.text.utf8ByteSize < pathLimit := by
  rw [checkPath]
  split
  · simp_all
  · split
    · simp_all
    · split <;> simp_all

/-- Where a longer path is taken, so is its beginning, unless it is empty. -/
theorem checkPath_of_toList {q : Path} {rest : List Char}
    (htext : p.text.toList = q.text.toList ++ rest) (hq : q.isEmpty = false)
    (h : checkPath p = .ok ()) : checkPath q = .ok () := by
  have hp : p.text = q.text ++ String.ofList rest := by
    rw [← String.toList_inj, htext, String.toList_append, String.toList_ofList]
  obtain ⟨hnul, -, hsize⟩ := checkPath_eq_ok_iff.mp h
  rw [hp, String.utf8ByteSize_append] at hsize
  rw [hasNul, htext, List.contains_append, Bool.or_eq_false_iff] at hnul
  exact checkPath_eq_ok_iff.mpr ⟨hnul.1, hq, by omega⟩

/-- A path with a name below it begins as the path does. -/
theorem exists_toList_join_eq (hn : IsFileName name) :
    ∃ rest, (p.join ⟨name⟩).text.toList = p.text.toList ++ rest ∧ rest ≠ [] := by
  have hname : name.toList ≠ [] := by simpa using hn.ne_empty
  obtain ⟨hp, hjoin⟩ | ⟨front, hjoin, ⟨hp, -⟩ | hp⟩ := exists_toList_join (p := p) hn
  · exact ⟨name.toList, by simp [hp, hjoin], hname⟩
  · exact ⟨'/' :: name.toList, by rw [hjoin, hp], by simp⟩
  · exact ⟨name.toList, by rw [hjoin, hp, List.append_assoc, List.singleton_append], hname⟩

theorem size_lt_join (hn : IsFileName name) :
    p.text.utf8ByteSize < (p.join ⟨name⟩).text.utf8ByteSize := by
  obtain ⟨rest, htext, hrest⟩ := exists_toList_join_eq (p := p) hn
  have hjoin : (p.join ⟨name⟩).text = p.text ++ String.ofList rest := by
    rw [← String.toList_inj, htext, String.toList_append, String.toList_ofList]
  have hpos : (String.ofList rest).utf8ByteSize ≠ 0 := by
    simpa [String.utf8ByteSize_eq_zero_iff] using hrest
  rw [hjoin, String.utf8ByteSize_append]
  omega

theorem checkPath_of_join (hn : IsFileName name) (hp : p.isEmpty = false)
    (h : checkPath (p.join ⟨name⟩) = .ok ()) : checkPath p = .ok () := by
  obtain ⟨rest, htext, -⟩ := exists_toList_join_eq (p := p) hn
  exact checkPath_of_toList htext hp h

end Join

private theorem of_isFiller {first : Bool} {s : List Char} (h : Path.isFiller first s = true) :
    s = [] ∨ s = ['.'] := by
  simp only [Path.isFiller, Bool.or_eq_true, List.isEmpty_iff, Bool.and_eq_true, beq_iff_eq] at h
  exact h.imp_right And.right

/-- Only fillers are dropped from the end of a path's segments. -/
theorem exists_of_dropFillers (segments : List (List Char)) :
    ∃ fillers, segments = fillers ++ Path.dropFillers segments ∧
      ∀ s ∈ fillers, s = [] ∨ s = ['.'] := by
  induction segments with
  | nil => exact ⟨[], rfl, by simp⟩
  | cons s rest ih =>
    rw [Path.dropFillers]
    split
    · rename_i hfiller
      obtain ⟨fillers, heq, hfillers⟩ := ih
      exact ⟨s :: fillers, by rw [List.cons_append, ← heq],
        List.forall_mem_cons.mpr ⟨of_isFiller hfiller, hfillers⟩⟩
    · exact ⟨[], rfl, by simp⟩

/-- The last segment that is not dropped is no filler. -/
theorem isFiller_of_dropFillers {segments rest : List (List Char)} {s : List Char}
    (h : Path.dropFillers segments = s :: rest) : Path.isFiller rest.isEmpty s = false := by
  induction segments with
  | nil => cases h
  | cons first others ih =>
    rw [Path.dropFillers] at h
    split at h
    · exact ih h
    · rename_i hfiller
      obtain ⟨rfl, rfl⟩ := List.cons.inj h
      exact Bool.eq_false_iff.mpr hfiller

theorem isFiller_eq_false_iff {first : Bool} {s : List Char} :
    Path.isFiller first s = false ↔ s ≠ [] ∧ (first = true ∨ s ≠ ['.']) := by
  cases first <;> simp [Path.isFiller]

def stepsIn (segments : List (List Char)) : List String :=
  (segments.filter (!·.isEmpty)).map String.ofList

theorem stepsIn_append (a b : List (List Char)) : stepsIn (a ++ b) = stepsIn a ++ stepsIn b := by
  simp [stepsIn]

theorem stepsIn_cons {s : List Char} (h : s ≠ []) (rest : List (List Char)) :
    stepsIn (s :: rest) = String.ofList s :: stepsIn rest := by
  simp [stepsIn, h]

theorem stepsIn_concat {s : List Char} (h : s ≠ []) (rest : List (List Char)) :
    stepsIn (rest ++ [s]) = stepsIn rest ++ [String.ofList s] := by
  rw [stepsIn_append, stepsIn_cons h]
  rfl

theorem points_of_fillers {fillers : List (List Char)} (h : ∀ s ∈ fillers, s = [] ∨ s = ['.']) :
    ∀ step ∈ stepsIn fillers.reverse, step = "." := by
  intro step hstep
  obtain ⟨s, hs, rfl⟩ := List.mem_map.mp hstep
  obtain ⟨hmem, hne⟩ := List.mem_filter.mp hs
  obtain rfl | rfl := h s (List.mem_reverse.mp hmem)
  · simp at hne
  · rfl

/-- The last name of a path is its last step that is no point, unless that leads up. -/
theorem fileName?_eq (p : Path) :
    p.fileName? = ((stepsOf p).reverse.find? (· ≠ ".")).filter (· ≠ "..") := by
  obtain ⟨fillers, hsegments, hfillers⟩ :=
    exists_of_dropFillers (Path.segments p.text.toList).reverse
  have hsteps : stepsOf p =
      stepsIn (Path.dropFillers (Path.segments p.text.toList).reverse).reverse ++
        stepsIn fillers.reverse := by
    rw [← stepsIn_append, ← List.reverse_append, ← hsegments, List.reverse_reverse]
    rfl
  have hnone : (stepsIn fillers.reverse).reverse.find? (· ≠ ".") = none := by
    refine List.find?_eq_none.mpr fun step hstep => ?_
    simpa using points_of_fillers hfillers step (List.mem_reverse.mp hstep)
  rw [hsteps, List.reverse_append, List.find?_append, hnone, Option.none_or, Path.fileName?]
  cases hkept : Path.dropFillers (Path.segments p.text.toList).reverse with
  | nil => rfl
  | cons s rest =>
    obtain ⟨hne, honly⟩ := isFiller_eq_false_iff.mp (isFiller_of_dropFillers hkept)
    rw [List.reverse_cons, stepsIn_concat hne, List.reverse_concat]
    by_cases hpoint : s = ['.']
    · -- a point that is kept is all there is
      obtain rfl : rest = [] := by simpa [hpoint] using honly
      subst hpoint
      rfl
    · have hname : String.ofList s ≠ "." := fun h => hpoint (by simpa using congrArg String.toList h)
      by_cases hpoints : s = ['.', '.']
      · subst hpoints
        rfl
      · have hup : String.ofList s ≠ ".." :=
          fun h => hpoints (by simpa using congrArg String.toList h)
        simp [hname, hpoint, hpoints, Option.filter, hup]

/-- The last name of a path with a name below it is that name. -/
theorem fileName?_join {p : Path} {name : String} (hn : IsFileName name) :
    (p.join ⟨name⟩).fileName? = some name := by
  rw [fileName?_eq, stepsOf_join hn]
  simp [hn.ne_point, hn.ne_points]

theorem isFileName_of_fileName? {p : Path} {name : String} (h : p.fileName? = some name) :
    IsFileName name := by
  rw [fileName?_eq, Option.filter_eq_some_iff] at h
  obtain ⟨hlast, hpoints⟩ := h
  obtain ⟨hempty, hslash⟩ := of_mem_stepsOf (List.mem_reverse.mp (List.mem_of_find?_eq_some hlast))
  exact ⟨hempty, hslash, by simpa using List.find?_some hlast, by simpa using hpoints⟩

/-- Whether a path starts where another does and takes only the first of its steps. -/
structure Above (q p : Path) : Prop where
  isAbsolute_eq : q.isAbsolute = p.isAbsolute
  steps : stepsOf q <+: stepsOf p

theorem Above.refl (p : Path) : Above p p := ⟨rfl, List.prefix_refl _⟩

theorem Above.trans {p q r : Path} (h : Above r q) (h' : Above q p) : Above r p :=
  ⟨h.isAbsolute_eq.trans h'.isAbsolute_eq, h.steps.trans h'.steps⟩

theorem of_parent?_eq_none {p : Path} (h : p.parent? = none) : ∀ s ∈ stepsOf p, s = "." := by
  have hnil : Path.dropFillers (Path.segments p.text.toList).reverse = [] := by
    rw [Path.parent?] at h
    split at h
    · assumption
    · split at h <;> cases h
  obtain ⟨fillers, hfillers, hall⟩ := exists_of_dropFillers (Path.segments p.text.toList).reverse
  rw [hnil, List.append_nil] at hfillers
  intro s hs
  obtain ⟨piece, hpiece, rfl⟩ := List.mem_map.mp hs
  obtain ⟨hmem, hne⟩ := List.mem_filter.mp hpiece
  obtain rfl | rfl := hall piece (hfillers ▸ List.mem_reverse.mpr hmem)
  · simp at hne
  · rfl

theorem parent?_join_ne_none {p : Path} {name : String} (hn : IsFileName name) :
    (p.join ⟨name⟩).parent? ≠ none := by
  intro h
  refine hn.ne_point (of_parent?_eq_none h name ?_)
  rw [stepsOf_join hn]
  simp

theorem points_not_mem_join {p : Path} {name : String} (hn : IsFileName name)
    (hp : ".." ∉ stepsOf p) : ".." ∉ stepsOf (p.join ⟨name⟩) := by
  rw [stepsOf_join hn, List.mem_append, List.mem_singleton, not_or]
  exact ⟨hp, Ne.symm hn.ne_points⟩

end EnvCompose.Disk
