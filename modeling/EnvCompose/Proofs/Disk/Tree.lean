import EnvCompose.Disk.Tree
import Mathlib.Data.List.Basic

/-!
# What is at a location

Putting something at a location, or taking it away, changes what is at that location and below it
and nothing else.
-/
namespace EnvCompose

/-- What is at a location, the members of a directory left aside. -/
inductive Entry where
  | directory
  | file (octets : ByteArray)

instance : DecidableEq Entry
  | .directory, .directory => isTrue rfl
  | .directory, .file _ => isFalse nofun
  | .file _, .directory => isFalse nofun
  | .file a, .file b =>
    haveI := ByteArray.instDecidableEq a b
    decidable_of_iff (a = b) (by simp)

namespace Tree

def entry : Tree → Entry
  | .directory _ => .directory
  | .file octets => .file octets

def entryAt? (t : Tree) (location : Location) : Option Entry := (t.get? location).map entry

theorem isDirectory_iff {t : Tree} : t.isDirectory = true ↔ t.entry = .directory := by
  cases t <;> simp [isDirectory, entry]

theorem entry_eq_file {t : Tree} {octets : ByteArray} :
    t.entry = .file octets ↔ t = .file octets := by
  cases t <;> simp [entry]

private theorem get?_append (t : Tree) (l r : Location) :
    t.get? (l ++ r) = (t.get? l).bind fun c => c.get? r := by
  induction l generalizing t with
  | nil => rfl
  | cons name l ih =>
    rw [List.cons_append, get?, get?]
    cases t.child? name with
    | none => rfl
    | some c => exact ih c

@[simp] theorem child?_directory (ms : List (String × Tree)) (name : String) :
    (Tree.directory ms).child? name = ms.lookup name := rfl

@[simp] theorem child?_file (octets : ByteArray) (name : String) :
    (Tree.file octets).child? name = none := rfl

theorem get?_snoc (t : Tree) (l : Location) (name : String) :
    t.get? (l ++ [name]) = (t.get? l).bind fun c => c.child? name := by
  rw [get?_append]
  cases t.get? l with
  | none => rfl
  | some c => cases h : c.child? name <;> simp [get?, h]

/-- What holds something is a directory. -/
theorem entryAt?_of_append {t : Tree} {l r : Location} (hr : r ≠ [])
    (h : (t.entryAt? (l ++ r)).isSome = true) : t.entryAt? l = some .directory := by
  obtain ⟨name, rest, rfl⟩ := List.exists_cons_of_ne_nil hr
  rw [entryAt?, get?_append, Option.isSome_map] at h
  rw [entryAt?]
  cases hc : t.get? l with
  | none => simp [hc] at h
  | some c =>
    cases c with
    | directory ms => rfl
    | file octets => simp [hc, get?] at h

section Members

variable {name other : String} {t : Tree} {ms : List (String × Tree)}

private theorem lookup_putMember_self : (putMember name t ms).lookup name = some t := by
  induction ms with
  | nil => simp [putMember]
  | cons m ms ih =>
    obtain ⟨key, u⟩ := m
    rw [putMember]
    split
    · simp
    · rename_i hne
      split
      · simp
      · simpa [List.lookup_cons, hne] using ih

private theorem lookup_putMember_of_ne (h : other ≠ name) :
    (putMember name t ms).lookup other = ms.lookup other := by
  have hno : (other == name) = false := by simpa using h
  induction ms with
  | nil => simp [putMember, List.lookup_cons, hno]
  | cons m ms ih =>
    obtain ⟨key, u⟩ := m
    rw [putMember]
    split
    · rename_i heq
      obtain rfl : name = key := eq_of_beq heq
      simp [List.lookup_cons, hno]
    · split
      · simp [List.lookup_cons, hno]
      · simp [List.lookup_cons, ih]

private theorem lookup_dropMember_self : (dropMember name ms).lookup name = none := by
  rw [List.lookup_eq_none_iff]
  intro m hm
  have hne : (m.1 != name) = true := (List.mem_filter.mp hm).2
  rw [bne_iff_ne] at hne ⊢
  exact hne.symm

private theorem lookup_dropMember_of_ne (h : other ≠ name) :
    (dropMember name ms).lookup other = ms.lookup other := by
  have hno : (other == name) = false := by simpa using h
  induction ms with
  | nil => rfl
  | cons m ms ih =>
    obtain ⟨key, u⟩ := m
    by_cases hkey : key = name
    · subst hkey
      simpa [dropMember, List.lookup_cons, hno] using ih
    · simp only [dropMember, List.filter_cons, bne_iff_ne, ne_eq, hkey, not_false_eq_true, if_true,
        List.lookup_cons]
      rw [← ih]
      rfl

end Members

section Put

variable {ms : List (String × Tree)} {c new : Tree} {name : String} {rest dir l : Location}

theorem entryAt?_cons (hc : ms.lookup name = some c) :
    (Tree.directory ms).entryAt? (name :: rest) = c.entryAt? rest := by
  simp [entryAt?, get?, hc]

private theorem exists_lookup_of_entryAt? {t : Tree} {e : Entry}
    (h : t.entryAt? (name :: rest) = some e) :
    ∃ ms c, t = .directory ms ∧ ms.lookup name = some c ∧ c.entryAt? rest = some e := by
  cases t with
  | file octets => simp [entryAt?, get?] at h
  | directory ms =>
    cases hc : ms.lookup name with
    | none => simp [entryAt?, get?, hc] at h
    | some c => exact ⟨ms, c, rfl, hc, by rwa [entryAt?_cons hc] at h⟩

private theorem put_cons (hrest : rest ≠ []) (hc : ms.lookup name = some c) :
    (Tree.directory ms).put new (name :: rest) =
      .directory (putMember name (c.put new rest) ms) := by
  obtain ⟨next, rest, rfl⟩ := List.exists_cons_of_ne_nil hrest
  simp [put, hc]

private theorem drop_cons (hrest : rest ≠ []) (hc : ms.lookup name = some c) :
    (Tree.directory ms).drop (name :: rest) = .directory (putMember name (c.drop rest) ms) := by
  obtain ⟨next, rest, rfl⟩ := List.exists_cons_of_ne_nil hrest
  simp [drop, hc]

/-- Below the place of a new part there is what has been put there. -/
theorem get?_put_append {t : Tree} (h : t.entryAt? dir = some .directory) :
    (t.put new (dir ++ [name])).get? (dir ++ name :: rest) = new.get? rest := by
  induction dir generalizing t with
  | nil =>
    cases t with
    | file octets => simp [entryAt?, get?, entry] at h
    | directory ms => simp [put, get?, lookup_putMember_self]
  | cons first dir ih =>
    obtain ⟨ms, c, rfl, hc, hdir⟩ := exists_lookup_of_entryAt? h
    rw [List.cons_append, put_cons (by simp) hc, List.cons_append, get?, child?_directory,
      lookup_putMember_self]
    exact ih hdir

/-- Putting something at a place changes nothing elsewhere. -/
theorem entryAt?_put_elsewhere {t : Tree} (h : t.entryAt? dir = some .directory)
    (hn : ¬dir ++ [name] <+: l) : (t.put new (dir ++ [name])).entryAt? l = t.entryAt? l := by
  induction dir generalizing t l with
  | nil =>
    cases t with
    | file octets => simp [entryAt?, get?, entry] at h
    | directory ms =>
      cases l with
      | nil => rfl
      | cons other l =>
        have hne : other ≠ name := fun heq => hn (by simp [heq])
        simp [put, entryAt?, get?, lookup_putMember_of_ne hne]
  | cons first dir ih =>
    obtain ⟨ms, c, rfl, hc, hdir⟩ := exists_lookup_of_entryAt? h
    rw [List.cons_append, put_cons (by simp) hc]
    cases l with
    | nil => rfl
    | cons other l =>
      by_cases heq : other = first
      · subst heq
        rw [entryAt?_cons lookup_putMember_self, entryAt?_cons hc]
        exact ih hdir fun hp => hn (List.cons_prefix_cons.mpr ⟨rfl, hp⟩)
      · simp [entryAt?, get?, lookup_putMember_of_ne heq]

/-- Taking something away changes nothing elsewhere. -/
theorem entryAt?_drop_elsewhere {t : Tree} {dropped : Location} (hn : ¬dropped <+: l) :
    (t.drop dropped).entryAt? l = t.entryAt? l := by
  induction dropped generalizing t l with
  | nil => simp at hn
  | cons name rest ih =>
    cases t with
    | file octets => rfl
    | directory ms =>
      cases l with
      | nil =>
        cases rest with
        | nil => rfl
        | cons next rest => cases hc : ms.lookup name <;> simp [drop, hc, entryAt?, get?, entry]
      | cons other l =>
        by_cases hrest : rest = []
        · subst hrest
          have hne : other ≠ name := fun heq => hn (by simp [heq])
          simp [drop, entryAt?, get?, lookup_dropMember_of_ne hne]
        · cases hc : ms.lookup name with
          | none =>
            obtain ⟨next, rest, rfl⟩ := List.exists_cons_of_ne_nil hrest
            simp [drop, hc]
          | some c =>
            rw [drop_cons hrest hc]
            by_cases heq : other = name
            · subst heq
              rw [entryAt?_cons lookup_putMember_self, entryAt?_cons hc]
              exact ih fun hp => hn (List.cons_prefix_cons.mpr ⟨rfl, hp⟩)
            · simp [entryAt?, get?, lookup_putMember_of_ne heq]

theorem entryAt?_drop_self {t : Tree} {dropped : Location} (hne : dropped ≠ []) (rest : Location) :
    (t.drop dropped).entryAt? (dropped ++ rest) = none := by
  induction dropped generalizing t with
  | nil => exact (hne rfl).elim
  | cons name dropped ih =>
    cases t with
    | file octets => simp [drop, entryAt?, get?]
    | directory ms =>
      by_cases hnil : dropped = []
      · subst hnil
        simp [drop, entryAt?, get?, lookup_dropMember_self]
      · cases hc : ms.lookup name with
        | none =>
          obtain ⟨next, dropped, rfl⟩ := List.exists_cons_of_ne_nil hnil
          simp [drop, hc, entryAt?, get?]
        | some c =>
          rw [drop_cons hnil hc, List.cons_append, entryAt?_cons lookup_putMember_self]
          exact ih hnil

def IsLeaf (t : Tree) : Prop := ∀ l, l ≠ [] → t.get? l = none

theorem isLeaf_file (octets : ByteArray) : IsLeaf (.file octets) := by
  intro l hl
  obtain ⟨name, rest, rfl⟩ := List.exists_cons_of_ne_nil hl
  rfl

theorem isLeaf_empty : IsLeaf .empty := by
  intro l hl
  obtain ⟨name, rest, rfl⟩ := List.exists_cons_of_ne_nil hl
  rfl

theorem entryAt?_append_of_not_directory {t : Tree} {place : Location}
    (h : t.entryAt? place ≠ some .directory) (hrest : rest ≠ []) :
    t.entryAt? (place ++ rest) = none := by
  by_contra hne
  exact h (entryAt?_of_append hrest (Option.isSome_iff_ne_none.mpr hne))

/-- A leaf in the place of another or of nothing changes that place alone. -/
theorem entryAt?_put {t : Tree} (hdir : t.entryAt? dir = some .directory)
    (hold : t.entryAt? (dir ++ [name]) ≠ some .directory) (hnew : new.IsLeaf) (l : Location) :
    (t.put new (dir ++ [name])).entryAt? l =
      if l = dir ++ [name] then some new.entry else t.entryAt? l := by
  by_cases hp : dir ++ [name] <+: l
  · obtain ⟨rest, rfl⟩ := hp
    have hput : (t.put new (dir ++ [name])).get? (dir ++ [name] ++ rest) = new.get? rest := by
      simpa using get?_put_append hdir
    rw [entryAt?, hput]
    cases rest with
    | nil => simp [get?]
    | cons next rest =>
      rw [hnew _ (by simp), if_neg (by simp), entryAt?_append_of_not_directory hold (by simp)]
      rfl
  · have hne : l ≠ dir ++ [name] := fun heq => hp (heq ▸ List.prefix_refl _)
    rw [entryAt?_put_elsewhere hdir hp, if_neg hne]

/-- A file taken away leaves everything else. -/
theorem entryAt?_drop {t : Tree} {dropped : Location} (hne : dropped ≠ [])
    (hold : t.entryAt? dropped ≠ some .directory) (l : Location) :
    (t.drop dropped).entryAt? l = if l = dropped then none else t.entryAt? l := by
  by_cases hp : dropped <+: l
  · obtain ⟨rest, rfl⟩ := hp
    rw [entryAt?_drop_self hne rest]
    split
    · rfl
    · rename_i hrest
      exact (entryAt?_append_of_not_directory hold (by simpa using hrest)).symm
  · have hself : l ≠ dropped := fun heq => hp (heq ▸ List.prefix_refl _)
    rw [entryAt?_drop_elsewhere hp, if_neg hself]

end Put

end Tree
end EnvCompose
