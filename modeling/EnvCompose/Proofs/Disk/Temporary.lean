import EnvCompose.Proofs.Disk.Path
import Mathlib.Data.List.Nodup
import Mathlib.Data.List.Perm.Subperm

/-!
# Names of temporary files

Different numbers give different names, so among one name more than a directory has members there
is one that is fresh.
-/
namespace EnvCompose.Disk

def sixDigits (n : Nat) : List Char :=
  List.replicate (6 - (toString n).length) '0' ++ (toString n).toList

theorem toList_temporaryName (n : Nat) :
    (temporaryName n).toList = '.' :: 't' :: 'm' :: 'p' :: sixDigits n := by
  simp [temporaryName, sixDigits]

private theorem isDigit_of_mem_sixDigits {n : Nat} {c : Char} (h : c ∈ sixDigits n) :
    c.isDigit = true := by
  rw [sixDigits, Nat.toString_eq_repr, Nat.toList_repr] at h
  obtain h | h := List.mem_append.mp h
  · rw [(List.mem_replicate.mp h).2]
    rfl
  · exact Nat.isDigit_of_mem_toDigits (by decide) (by decide) h

private theorem ofDigitChars_sixDigits (n : Nat) : Nat.ofDigitChars 10 (sixDigits n) 0 = n := by
  rw [sixDigits, Nat.toString_eq_repr, Nat.toList_repr, Nat.ofDigitChars_append]
  simp

theorem temporaryName_injective : Function.Injective temporaryName := by
  intro m n h
  have hdigits : sixDigits m = sixDigits n := by
    simpa [toList_temporaryName] using congrArg String.toList h
  rw [← ofDigitChars_sixDigits m, ← ofDigitChars_sixDigits n, hdigits]

theorem isFileName_temporaryName (n : Nat) : IsFileName (temporaryName n) where
  ne_empty h := by simpa [toList_temporaryName] using congrArg String.toList h
  no_slash h := by
    rw [toList_temporaryName] at h
    simp only [List.mem_cons, Char.reduceEq, false_or] at h
    exact absurd (isDigit_of_mem_sixDigits h) (by decide)
  ne_point h := by simpa [toList_temporaryName] using congrArg String.toList h
  ne_points h := by simpa [toList_temporaryName] using congrArg String.toList h

/-- Of more names than a directory has members, one is no member's. -/
theorem exists_temporaryName_not_mem (names : List String) :
    ∃ n, freshName names = temporaryName n ∧ temporaryName n ∉ names := by
  obtain ⟨name, hname⟩ :
      ∃ name, ((List.range (names.length + 1)).map temporaryName).find? (!names.contains ·) =
        some name := by
    rw [← Option.isSome_iff_exists, List.find?_isSome]
    by_contra hall
    have hsub : (List.range (names.length + 1)).map temporaryName ⊆ names := by
      intro name hmem
      by_contra hno
      exact hall ⟨name, hmem, by simpa using hno⟩
    have hnodup := (List.nodup_range (n := names.length + 1)).map temporaryName_injective
    have hle := (List.subperm_of_subset hnodup hsub).length_le
    rw [List.length_map, List.length_range] at hle
    omega
  obtain ⟨n, -, rfl⟩ := List.mem_map.mp (List.mem_of_find?_eq_some hname)
  refine ⟨n, by simp only [freshName]; rw [hname]; rfl, ?_⟩
  simpa using List.find?_some hname

/-- Whether a name can be that of a new file where some names are taken. -/
structure IsFresh (name : String) (taken : List String) : Prop extends IsFileName name where
  not_mem : name ∉ taken

theorem IsFresh.mono {name : String} {taken fewer : List String} (h : IsFresh name taken)
    (hsub : fewer ⊆ taken) : IsFresh name fewer :=
  ⟨h.toIsFileName, fun hmem => h.not_mem (hsub hmem)⟩

theorem isFresh_freshName (names : List String) : IsFresh (freshName names) names := by
  obtain ⟨n, hn, hmem⟩ := exists_temporaryName_not_mem names
  exact hn ▸ ⟨isFileName_temporaryName n, hmem⟩

/-- An empty file in a directory, found from the root, with a name that depends on those of the
members. -/
def createTemporaryAs (choose : List String → String) (d : Disk) (dir : Path) :
    Except DiskError (Disk × Path) := do
  let around := d.homePath.join dir
  checkPath (around.join ⟨temporaryName 0⟩)
  let names ← d.list around
  let p := around.join ⟨choose names⟩
  return (← d.writeFile p .empty, p)

theorem createTemporaryAs_freshName (d : Disk) (dir : Path) :
    d.createTemporaryAs freshName dir = d.createTemporary dir := rfl

end EnvCompose.Disk
