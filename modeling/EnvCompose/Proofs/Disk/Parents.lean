import EnvCompose.Proofs.Disk.Path

/-!
# The parent of a path

A path is its parent with one more step that leads somewhere, and with points around that step which
lead nowhere. The parent's text is the beginning of the path's own.
-/
namespace EnvCompose.Disk

variable {p q : Path} {kept more : List (List Char)}

/-- The first segments of a path, if any, are the segments of the path that they make. -/
theorem segments_joinSegments (hsegments : Path.segments p.text.toList = kept.reverse ++ more)
    (hkept : kept ≠ []) : Path.segments (Path.joinSegments kept).toList = kept.reverse := by
  rw [Path.segments, Path.joinSegments, String.toList_ofList]
  refine Text.split_intercalate (by simpa using hkept) fun s hs => ?_
  have hmem : s ∈ Text.split '/' p.text.toList := by
    rw [← Path.segments, hsegments]
    exact List.mem_append_left more hs
  exact Text.not_mem_of_mem_split hmem

/-- Whether the segments of a path are those of its parent, last one first, and then a segment that
is not empty, with fillers before and after it. -/
structure Parted (p q : Path) (kept between : List (List Char)) (s : List Char)
    (after : List (List Char)) : Prop where
  segments : Path.segments p.text.toList = kept.reverse ++ (after ++ s :: between).reverse
  between_points : ∀ t ∈ between, t = [] ∨ t = ['.']
  name : Path.isFiller (between ++ kept).isEmpty s = false
  after_points : ∀ t ∈ after, t = [] ∨ t = ['.']
  text : q.text = if kept = [] then if p.isAbsolute then "/" else "" else Path.joinSegments kept
  last : ∀ first others, kept = first :: others → Path.isFiller others.isEmpty first = false

private theorem exists_parted (h : p.parent? = some q) : ∃ kept between s after,
    Parted p q kept between s after := by
  rw [Path.parent?] at h
  obtain ⟨after, hafter, hfillers⟩ := exists_of_dropFillers (Path.segments p.text.toList).reverse
  split at h
  · cases h
  rename_i s rest hdrop
  obtain ⟨between, hbetween, hpoints⟩ := exists_of_dropFillers rest
  have hsegments : Path.segments p.text.toList =
      (Path.dropFillers rest).reverse ++ (after ++ s :: between).reverse := by
    rw [hdrop, hbetween] at hafter
    rw [← List.reverse_inj, hafter]
    simp
  have hname := isFiller_of_dropFillers hdrop
  rw [hbetween] at hname
  refine ⟨_, between, s, after, hsegments, hpoints, hname, hfillers, ?_,
    fun first others hkept => isFiller_of_dropFillers hkept⟩
  split at h
  · rename_i hnil
    cases h
    rw [if_pos hnil]
  · rename_i hkept
    cases h
    rw [if_neg hkept]

namespace Parted

variable {between after : List (List Char)} {s : List Char}

theorem ne_nil (h : Parted p q kept between s after) : s ≠ [] := by
  rintro rfl
  simpa [Path.isFiller] using h.name

private theorem stepsOf_parent (h : Parted p q kept between s after) :
    stepsOf q = stepsIn kept.reverse := by
  have htext := h.text
  split at htext
  · rename_i hnil
    rw [hnil, stepsOf, htext]
    cases p.isAbsolute <;> rfl
  · rename_i hkept
    rw [stepsOf, htext, segments_joinSegments h.segments hkept, stepsIn]

theorem stepsOf_eq (h : Parted p q kept between s after) : stepsOf p =
    stepsOf q ++ stepsIn between.reverse ++ String.ofList s :: stepsIn after.reverse := by
  rw [h.stepsOf_parent, stepsOf, h.segments, ← stepsIn]
  simp only [List.reverse_append, List.reverse_cons, stepsIn_append, List.append_assoc,
    List.singleton_append, stepsIn_cons h.ne_nil]

/-- The parent of a path does not end in points, unless it is nothing else. -/
theorem last_ne_point (h : Parted p q kept between s after) :
    (∀ step ∈ stepsOf q, step = ".") ∨ (stepsOf q).getLast? ≠ some "." := by
  rw [h.stepsOf_parent]
  cases hkept : kept with
  | nil => exact .inl (by simp [stepsIn])
  | cons first others =>
    obtain ⟨hne, honly⟩ := isFiller_eq_false_iff.mp (h.last first others hkept)
    rw [List.reverse_cons, stepsIn_concat hne]
    by_cases hpoint : first = ['.']
    · obtain rfl : others = [] := by simpa [hpoint] using honly
      exact .inl (by simp [hpoint, stepsIn])
    · refine .inr ?_
      rw [List.getLast?_concat]
      exact fun heq => hpoint (by simpa using congrArg String.toList (Option.some.inj heq))

/-- The text of a parent is the beginning of the path's own, and begins as that does. -/
theorem exists_toList (h : Parted p q kept between s after) :
    ∃ rest, rest ≠ [] ∧ p.text.toList = q.text.toList ++ rest ∧ q.isAbsolute = p.isAbsolute := by
  have hs : s ∈ Path.segments p.text.toList := by simp [h.segments]
  have htext := h.text
  split at htext
  · -- the parent is the root or the empty path
    have hne : p.text.toList ≠ [] := fun hnil => by
      rw [hnil, Path.segments, Text.split, List.mem_singleton] at hs
      exact h.ne_nil hs
    cases habsolute : p.isAbsolute with
    | false =>
      rw [habsolute] at htext
      exact ⟨_, hne, by simp [htext], by rw [Path.isAbsolute, htext]; rfl⟩
    | true =>
      rw [habsolute] at htext
      obtain ⟨c, rest, hcons⟩ := List.exists_cons_of_ne_nil hne
      obtain rfl : c = '/' := by simpa [Path.isAbsolute, hcons] using habsolute
      refine ⟨rest, ?_, by simp [htext, hcons], by rw [Path.isAbsolute, htext]; rfl⟩
      rintro rfl
      rw [hcons] at hs
      exact h.ne_nil (by simpa [Path.segments, Text.split] using hs)
  · rename_i hkept
    have hp : List.intercalate ['/'] (Path.segments p.text.toList) = p.text.toList :=
      Text.intercalate_split _
    rw [h.segments, Text.intercalate_append (by simpa using hkept) (by simp)] at hp
    have hq : q.text.toList = List.intercalate ['/'] kept.reverse := by
      rw [htext, Path.joinSegments, String.toList_ofList]
    rw [← hq] at hp
    refine ⟨_, List.cons_ne_nil _ _, hp.symm, ?_⟩
    -- its last segment is not empty, so neither is its text
    obtain ⟨first, others, hcons⟩ := List.exists_cons_of_ne_nil hkept
    have hne : q.text.toList ≠ [] := fun hnil => by
      have hsegments := segments_joinSegments h.segments hkept
      rw [← htext, hnil, hcons, List.reverse_cons] at hsegments
      have hempty : [] ++ [[]] = others.reverse ++ [first] := hsegments
      obtain rfl : [] = first := List.singleton_inj.mp (List.append_inj' hempty rfl).2
      simpa [Path.isFiller] using h.last [] others hcons
    obtain ⟨c, rest, hq⟩ := List.exists_cons_of_ne_nil hne
    simp [Path.isAbsolute, ← hp, hq]

end Parted

variable (h : p.parent? = some q)
include h

theorem above_of_parent? : Above q p := by
  obtain ⟨kept, between, s, after, hparted⟩ := exists_parted h
  obtain ⟨-, -, -, habsolute⟩ := hparted.exists_toList
  refine ⟨habsolute, ?_⟩
  rw [hparted.stepsOf_eq, List.append_assoc]
  exact List.prefix_append _ _

theorem last_ne_point_of_parent? :
    (∀ step ∈ stepsOf q, step = ".") ∨ (stepsOf q).getLast? ≠ some "." := by
  obtain ⟨kept, between, s, after, hparted⟩ := exists_parted h
  exact hparted.last_ne_point

/-- A path has one more step than its parent that is no point, unless all of them are. -/
theorem exists_steps_of_parent? : (∀ step ∈ stepsOf p, step = ".") ∨ ∃ points last after,
    stepsOf p = stepsOf q ++ points ++ last :: after ∧ (∀ step ∈ points, step = ".") ∧
      (∀ step ∈ after, step = ".") ∧ last ≠ "." := by
  obtain ⟨kept, between, s, after, hparted⟩ := exists_parted h
  have hafter := points_of_fillers hparted.after_points
  by_cases hpoint : String.ofList s = "."
  · -- a point that is kept is the first segment
    have hs : s = ['.'] := by simpa using congrArg String.toList hpoint
    have hname := hparted.name
    obtain ⟨rfl, rfl⟩ : between = [] ∧ kept = [] := by simpa [hs, Path.isFiller] using hname
    refine .inl ?_
    rw [hparted.stepsOf_eq, hparted.stepsOf_parent, hpoint]
    simpa [stepsIn] using hafter
  · have hbetween := points_of_fillers hparted.between_points
    exact .inr ⟨_, _, _, hparted.stepsOf_eq, hbetween, hafter, hpoint⟩

omit h in
/-- Points at the end of steps that do not end in one are none. -/
theorem eq_nil_of_points {front after : List String} {last : String}
    (hafter : ∀ step ∈ after, step = ".") (hlast : (front ++ last :: after).getLast? ≠ some ".") :
    after = [] := by
  obtain rfl | ⟨before, step, rfl⟩ := after.eq_nil_or_concat
  · rfl
  · rw [List.concat_eq_append] at hafter hlast
    rw [← List.cons_append, ← List.append_assoc, List.getLast?_concat] at hlast
    exact (hlast (congrArg some (hafter step (by simp)))).elim

/-- Where a path ends in a step that is no point, its parent takes the steps before that, but for
points at the end of them. -/
theorem exists_points_of_parent? {steps : List String} {last : String}
    (hsteps : stepsOf p = steps ++ [last]) (hlast : last ≠ ".") :
    ∃ points, steps = stepsOf q ++ points ∧ ∀ step ∈ points, step = "." := by
  obtain hpoints | ⟨points, _, after, hparted, hpoints, hafter, -⟩ := exists_steps_of_parent? h
  · exact (hlast (hpoints last (by simp [hsteps]))).elim
  have hend : (stepsOf p).getLast? ≠ some "." := by
    rw [hsteps, List.getLast?_concat]
    simpa using hlast
  obtain rfl := eq_nil_of_points hafter (hparted ▸ hend)
  rw [hparted] at hsteps
  exact ⟨points, (List.append_inj' hsteps rfl).1.symm, hpoints⟩

theorem length_lt_of_parent? : q.text.length < p.text.length := by
  obtain ⟨kept, between, s, after, hparted⟩ := exists_parted h
  obtain ⟨rest, hrest, htext, -⟩ := hparted.exists_toList
  have hlength := congrArg List.length htext
  rw [List.length_append, String.length_toList, String.length_toList] at hlength
  have hpos := List.length_pos_iff.mpr hrest
  omega

theorem checkPath_of_parent? (hq : q.parent? ≠ none) (hcheck : checkPath p = .ok ()) :
    checkPath q = .ok () := by
  obtain ⟨kept, between, s, after, hparted⟩ := exists_parted h
  obtain ⟨rest, -, htext, -⟩ := hparted.exists_toList
  refine checkPath_of_toList htext (Bool.eq_false_iff.mpr fun hempty => hq ?_) hcheck
  have hnil : q.text = "" := by simpa [Path.isEmpty] using hempty
  simp [Path.parent?, hnil, Path.segments, Text.split, Path.dropFillers, Path.isFiller]

end EnvCompose.Disk
