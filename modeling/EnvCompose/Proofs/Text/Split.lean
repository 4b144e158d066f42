import EnvCompose.Text.Split

/-!
# The pieces of a text

Pieces hold no separator, and a text put together at a separator has the pieces of both its parts.
-/
namespace EnvCompose.Text

variable {separator : Char} {cs ds piece : List Char}

theorem not_mem_of_mem_split (h : piece ∈ split separator cs) : separator ∉ piece := by
  induction cs generalizing piece with
  | nil => simp_all [split]
  | cons c rest ih =>
    rw [split] at h
    split at h
    · rcases List.mem_cons.mp h with rfl | h
      · simp
      · exact ih h
    · rename_i hc
      have hne : separator ≠ c := fun heq => hc (by simp [heq])
      split at h
      · simp_all
      · rename_i first others hsplit
        rcases List.mem_cons.mp h with rfl | h
        · simpa [hne] using ih (by simp [hsplit])
        · exact ih (by simp [hsplit, h])

private theorem split_ne_nil : split separator cs ≠ [] := by
  cases cs with
  | nil => simp [split]
  | cons c rest =>
    rw [split]
    split
    · simp
    · split <;> simp

theorem split_of_not_mem (h : separator ∉ cs) : split separator cs = [cs] := by
  induction cs with
  | nil => rfl
  | cons c rest ih =>
    rw [List.mem_cons, not_or] at h
    obtain ⟨hne, hrest⟩ := h
    have hc : (c == separator) = false := by simpa using Ne.symm hne
    simp [split, hc, ih hrest]

theorem split_append_cons :
    split separator (cs ++ separator :: ds) = split separator cs ++ split separator ds := by
  induction cs with
  | nil => simp [split]
  | cons c rest ih =>
    rw [List.cons_append, split, split, ih]
    split
    · rfl
    · cases hrest : split separator rest with
      | nil => exact (split_ne_nil hrest).elim
      | cons first others => rfl

private theorem intercalate_cons {ps : List (List Char)} (hne : ps ≠ []) (piece : List Char) :
    List.intercalate [separator] (piece :: ps) =
      piece ++ separator :: List.intercalate [separator] ps := by
  obtain ⟨next, ps, rfl⟩ := List.exists_cons_of_ne_nil hne
  simp [List.intercalate]

/-- Pieces without the separator are found again in the text put together from them. -/
theorem split_intercalate {ps : List (List Char)} (hne : ps ≠ [])
    (h : ∀ piece ∈ ps, separator ∉ piece) :
    split separator (List.intercalate [separator] ps) = ps := by
  induction ps with
  | nil => exact (hne rfl).elim
  | cons piece ps ih =>
    obtain ⟨hpiece, hrest⟩ := List.forall_mem_cons.mp h
    by_cases hnil : ps = []
    · simpa [hnil, List.intercalate] using split_of_not_mem hpiece
    · rw [intercalate_cons hnil, split_append_cons, split_of_not_mem hpiece, ih hnil hrest,
        List.singleton_append]

theorem intercalate_append {ps qs : List (List Char)} (hps : ps ≠ []) (hqs : qs ≠ []) :
    List.intercalate [separator] (ps ++ qs) =
      List.intercalate [separator] ps ++ separator :: List.intercalate [separator] qs := by
  induction ps with
  | nil => exact (hps rfl).elim
  | cons piece ps ih =>
    by_cases hnil : ps = []
    · rw [hnil, List.singleton_append, intercalate_cons hqs]
      simp [List.intercalate]
    · rw [List.cons_append, intercalate_cons (by simp [hnil]), ih hnil, intercalate_cons hnil,
        List.append_assoc, List.cons_append]

/-- The pieces of a text put together are the text again. -/
theorem intercalate_split (cs : List Char) :
    List.intercalate [separator] (split separator cs) = cs := by
  induction cs with
  | nil => simp [split, List.intercalate]
  | cons c rest ih =>
    rw [split]
    split
    · rename_i hc
      rw [intercalate_cons split_ne_nil, ih, List.nil_append, eq_of_beq hc]
    · split
      · rename_i hnil
        exact (split_ne_nil hnil).elim
      · rename_i piece others hsplit
        rw [hsplit] at ih
        rw [← ih]
        by_cases hnil : others = []
        · simp [hnil, List.intercalate]
        · rw [intercalate_cons hnil, intercalate_cons hnil, List.cons_append]

/-- The pieces that hold something, of a text given by its characters. -/
def piecesOf (separator : Char) (cs : List Char) : List String :=
  ((split separator cs).filter (!·.isEmpty)).map String.ofList

theorem piecesOf_append_cons :
    piecesOf separator (cs ++ separator :: ds) = piecesOf separator cs ++ piecesOf separator ds := by
  simp [piecesOf, split_append_cons]

theorem piecesOf_of_not_mem {s : String} (hne : s ≠ "") (h : separator ∉ s.toList) :
    piecesOf separator s.toList = [s] := by
  simp [piecesOf, split_of_not_mem h, hne]

@[simp] theorem piecesOf_nil : piecesOf separator [] = [] := rfl

theorem of_mem_piecesOf {s : String} (h : s ∈ piecesOf separator cs) :
    s ≠ "" ∧ separator ∉ s.toList := by
  obtain ⟨piece, hpiece, rfl⟩ := List.mem_map.mp h
  obtain ⟨hmem, hne⟩ := List.mem_filter.mp hpiece
  refine ⟨fun hempty => ?_, ?_⟩
  · have hnil : piece = [] := by simpa using congrArg String.toList hempty
    simp [hnil] at hne
  · rw [String.toList_ofList]
    exact not_mem_of_mem_split hmem

end EnvCompose.Text
