import EnvCompose.Proofs.Workspace.Frames

/-!
# What the files of a copy are called

A copy gives its files the names they have in its source. So if no file of a name is in what is
copied, none is new in the copies, even where one of them becomes part of what is copied next.
-/
namespace EnvCompose.Workspace
open Disk

variable {before : Disk} {name : String} {sources targets : Location → Prop}

/-- What copies may bring: a file of the name comes to one of their places only, and only if one of
that name is in their sources. -/
def Named (before : Disk) (name : String) (sources targets : Location → Prop) (l : Location)
    (e : Option Entry) : Prop :=
  ∀ octets, e = some (.file octets) → l.getLast? = some name → targets l ∧
    ∃ l₀ octets₀, sources l₀ ∧ l₀.getLast? = some name ∧ before.entryAt? l₀ = some (.file octets₀)

private theorem named_directory (l : Location) :
    Named before name sources targets l (some .directory) :=
  fun _ h => by cases h

theorem keeps_makeDirectories_named (p : Path) :
    Keeps (before.Alters (Named before name sources targets))
      (Machine.makeDirectories p : Attempt (StateM Workspace) Unit) :=
  keeps_makeUpTo _ fun _ _ _ _ hd hop => hd.makeDirectory hop fun _ => named_directory _

/-- A file that is found in the sources was there before under its name, or is a copy of one that
was. -/
theorem exists_named {d : Disk} {l : Location} {octets : ByteArray}
    (hd : before.Alters (Named before name sources targets) d) (hl : sources l)
    (hlast : l.getLast? = some name) (hfile : d.entryAt? l = some (.file octets)) :
    ∃ l₀ octets₀, sources l₀ ∧ l₀.getLast? = some name ∧
      before.entryAt? l₀ = some (.file octets₀) := by
  by_cases hsame : d.entryAt? l = before.entryAt? l
  · exact ⟨l, octets, hl, hlast, hsame ▸ hfile⟩
  · exact (hd.allows l hsame octets hfile hlast).2

/-- Whether a path leads into the sources with all below it, and another into the targets. -/
def Between (before : Disk) (sources targets : Location → Prop) (p q : Path) : Prop :=
  (∀ rest, sources (before.destination p ++ rest)) ∧
    ∀ rest, targets (before.destination q ++ rest)

private theorem Between.join {p q : Path} (h : Between before sources targets p q) {n : String}
    (hn : IsFileName n) : Between before sources targets (p.join ⟨n⟩) (q.join ⟨n⟩) := by
  refine ⟨fun rest => ?_, fun rest => ?_⟩
  · rw [destination_join hn, List.append_assoc]
    exact h.1 _
  · rw [destination_join hn, List.append_assoc]
    exact h.2 _

private theorem keeps_copyDirectory_named (depth : Nat) {source dest : Path}
    (hsource : ∀ rest, sources (before.destination source ++ rest))
    (hdest : ∀ rest, targets (before.destination dest ++ rest)) :
    Keeps (before.Alters (Named before name sources targets))
      (copyDirectory depth source dest : ExceptT TemplateError (StateM Workspace) Unit) := by
  refine keeps_copyDirectory_of (Between before sources targets) (fun _ hd => hd.sound)
    (fun _ _ _ hn h => h.join hn) (fun _ q _ => keeps_makeDirectories_named q) ?_ depth
    ⟨hsource, hdest⟩
  refine fun p q n hn h => triple_change (fun d d' hd hop => ?_) fun _ hd => hd
  refine hd.copyFile hop fun octets _ _ hlast => ⟨?_, ?_⟩
  · rw [destination_join hn]
    exact h.2 _
  · -- the file that is copied has the same name
    obtain ⟨octets', hfile⟩ := exists_file_of_copyFile hop
    rw [destination_join hn, List.getLast?_concat] at hlast
    rw [hd.destination_eq, destination_join hn] at hfile
    exact exists_named hd (h.1 _) (by rw [List.getLast?_concat, hlast]) hfile

theorem keeps_copyTree_named {source dest : Path}
    (hsource : ∀ rest, sources (before.destination source ++ rest))
    (hdest : ∀ rest, targets (before.destination dest ++ rest)) :
    Keeps (before.Alters (Named before name sources targets))
      (copyTree source dest : ExceptT TemplateError (StateM Workspace) Unit) :=
  triple_copyTree_of_not_found (fun _ hd _ => hd)
    ((keeps_copyDirectory_named _ hsource hdest).weaken (fun _ hd => hd.1) (fun _ _ hd => hd)
      fun _ hd => hd)

end EnvCompose.Workspace
