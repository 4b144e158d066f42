import EnvCompose.Proofs.Disk.Temporary
import EnvCompose.Proofs.Disk.Walk

/-!
# What operations spare

An operation changes one place. What was on a disk before a sequence of operations is spared by all
of them, except for files at places that are exposed.
-/
namespace EnvCompose.Disk

/-- Whether a disk is one that operations can lead to. -/
structure Sound (d : Disk) : Prop where
  /-- All that is on the disk is under names. -/
  names : ∀ l, d.entryAt? l ≠ none → ∀ name ∈ l, IsMemberName name
  home : d.entryAt? d.home = some .directory

/-- What is known of a directory, and of all below each of its members, is known of all that it
holds. -/
theorem forall_of_members {ms : List (String × Tree)} {known : Location → Prop} (hself : known [])
    (h : ∀ m ∈ ms, ∀ l, m.2.entryAt? l ≠ none → known (m.1 :: l)) :
    ∀ l, (Tree.directory ms).entryAt? l ≠ none → known l := by
  intro l hl
  cases l with
  | nil => exact hself
  | cons first rest =>
    cases hc : ms.lookup first with
    | none => simp [Tree.entryAt?, Tree.get?, hc] at hl
    | some c =>
      rw [Tree.entryAt?_cons hc] at hl
      obtain ⟨l₁, l₂, rfl, -⟩ := List.lookup_eq_some_iff.mp hc
      exact h (first, c) (by simp) rest hl

theorem forall_of_file {octets : ByteArray} {known : Location → Prop} (hself : known []) :
    ∀ l, (Tree.file octets).entryAt? l ≠ none → known l := by
  intro l hl
  cases l with
  | nil => exact hself
  | cons first rest => simp [Tree.entryAt?, Tree.get?] at hl

/-- What a directory holds is under names if its members are, and what they hold. -/
theorem names_of_members {ms : List (String × Tree)}
    (h : ∀ m ∈ ms, IsMemberName m.1 ∧ ∀ l, m.2.entryAt? l ≠ none → ∀ name ∈ l, IsMemberName name) :
    ∀ l, (Tree.directory ms).entryAt? l ≠ none → ∀ name ∈ l, IsMemberName name :=
  forall_of_members (by simp) fun m hm l hl =>
    List.forall_mem_cons.mpr ⟨(h m hm).1, (h m hm).2 l hl⟩

theorem names_of_file (octets : ByteArray) :
    ∀ l, (Tree.file octets).entryAt? l ≠ none → ∀ name ∈ l, IsMemberName name :=
  forall_of_file (by simp)

/-- Whether the disks differ in one place at most, and what is there on the second. -/
structure Sets (d : Disk) (place : Location) (e : Option Entry) (d' : Disk) : Prop where
  home : d'.home = d.home
  entryAt?_eq : ∀ l, d'.entryAt? l = if l = place then e else d.entryAt? l

/-- Whether a disk still has what another had before: its directories and its files, as far as they
are not exposed. -/
structure Spares (before : Disk) (exposed : Location → Prop) (d : Disk) : Prop where
  home : d.home = before.home
  sound : d.Sound
  kept : ∀ l e, before.entryAt? l = some e → e = .directory ∨ ¬exposed l → d.entryAt? l = some e

/-- Whether a place may be changed: it is exposed, or nothing was there before. -/
def Free (before : Disk) (exposed : Location → Prop) (place : Location) : Prop :=
  exposed place ∨ before.entryAt? place = none

theorem Sets.self {d d' : Disk} {place : Location} {e : Option Entry} (h : Sets d place e d') :
    d'.entryAt? place = e := by
  rw [h.entryAt?_eq, if_pos rfl]

theorem Sets.of_ne {d d' : Disk} {place l : Location} {e : Option Entry} (h : Sets d place e d')
    (hne : l ≠ place) : d'.entryAt? l = d.entryAt? l := by
  rw [h.entryAt?_eq, if_neg hne]

theorem Sets.not_directory {d d' : Disk} {place l : Location} (h : Sets d place none d')
    (hl : d.entryAt? l ≠ some .directory) : d'.entryAt? l ≠ some .directory := by
  rw [h.entryAt?_eq]
  split
  · simp
  · exact hl

section Slots

open Slot

variable {d : Disk} {p : Path} {s : Slot} {name : String}

theorem Slot.Fits.names (h : Fits d p s name) (hd : d.Sound) :
    ∀ n ∈ d.destination p, IsMemberName n := by
  intro n hn
  rw [h.destination_eq] at hn
  obtain hn | hn := List.mem_append.mp hn
  · exact hd.names _ (by simp [h.around]) n hn
  · rw [List.mem_singleton.mp hn]
    exact h.isMemberName

theorem Slot.Fits.not_directory (h : Fits d p s name)
    (hocc : (s.occupant? name).any Tree.isDirectory = false) :
    d.entryAt? (d.destination p) ≠ some .directory := by
  rw [← h.occupant?_eq]
  cases hs : s.occupant? name with
  | none => simp
  | some t =>
    rw [hs, Option.any_some] at hocc
    simp [← Tree.isDirectory_iff, hocc]

theorem Slot.Fits.sets_fill (h : Fits d p s name)
    (hold : d.entryAt? (d.destination p) ≠ some .directory) {t : Tree} (ht : t.IsLeaf) :
    Sets d (d.destination p) (some t.entry) (d.fill s name t) where
  home := rfl
  entryAt?_eq l := by
    rw [h.destination_eq] at hold ⊢
    rw [entryAt?, fill, location_eq]
    exact Tree.entryAt?_put h.around hold ht l

end Slots

section Operations

open Slot Position

variable {d d' : Disk} {p source dest : Path} {octets : ByteArray}

theorem of_makeDirectory (h : d.makeDirectory p = .ok d') :
    ∃ s name, Fits d p s name ∧ d.entryAt? (d.destination p) = none ∧
      Sets d (d.destination p) (some .directory) d' := by
  rw [makeDirectory] at h
  obtain ⟨s, hs, h⟩ := bind_eq_ok.mp h
  cases hname : s.name with
  | none => simp [hname, throw, throwThe, MonadExceptOf.throw] at h
  | some name =>
    have hfits := fits_of_slot hs hname
    simp only [hname] at h
    by_cases hocc : (s.occupant? name).isSome = true
    · simp [hocc, throw, throwThe, MonadExceptOf.throw, bind, Except.bind] at h
    · simp only [hocc] at h
      cases h
      have hnone : d.entryAt? (d.destination p) = none := by
        rw [← hfits.occupant?_eq]
        simpa using hocc
      exact ⟨s, name, hfits, hnone, hfits.sets_fill (by simp [hnone]) Tree.isLeaf_empty⟩

theorem of_writeFile (h : d.writeFile p octets = .ok d') :
    ∃ s name, Fits d p s name ∧ d.entryAt? (d.destination p) ≠ some .directory ∧
      Sets d (d.destination p) (some (.file octets)) d' := by
  rw [writeFile] at h
  obtain ⟨s, hs, h⟩ := bind_eq_ok.mp h
  cases hname : s.name with
  | none => simp [hname, throw, throwThe, MonadExceptOf.throw] at h
  | some name =>
    have hfits := fits_of_slot hs hname
    simp only [hname] at h
    by_cases hocc : ((s.occupant? name).any Tree.isDirectory || endsWithSlash p) = true
    · simp [hocc, throw, throwThe, MonadExceptOf.throw, bind, Except.bind] at h
    · simp only [hocc] at h
      cases h
      rw [Bool.not_eq_true, Bool.or_eq_false_iff] at hocc
      have hold := hfits.not_directory hocc.1
      exact ⟨s, name, hfits, hold, hfits.sets_fill hold (Tree.isLeaf_file octets)⟩

theorem of_copyFile (h : d.copyFile source dest = .ok d') :
    ∃ octets, d.writeFile dest octets = .ok d' := by
  rw [copyFile] at h
  obtain ⟨found, -, h⟩ := bind_eq_ok.mp h
  split at h
  · cases h
  · obtain ⟨s, -, h⟩ := bind_eq_ok.mp h
    exact ⟨_, h⟩

theorem of_list {names : List String} (h : d.list p = .ok names) :
    ∃ members, d.root.get? (d.destination p) = some (.directory members) ∧
      names = members.map (·.1) ∧ d.Reaches p ∧ checkPath p = .ok () := by
  rw [list] at h
  obtain ⟨t, hfind, h⟩ := bind_eq_ok.mp h
  obtain ⟨found, hlocate, hfind⟩ := bind_eq_ok.mp hfind
  cases hfind
  obtain ⟨hcheck, hon, hloc, hreaches⟩ := of_locate hlocate
  split at h
  · rename_i members htree
    cases h
    exact ⟨members, by rw [← hloc, hon, htree], rfl, hreaches (by rw [htree]; rfl), hcheck⟩
  · cases h

/-- The names listed are those of all that is in the directory. -/
theorem mem_list_iff {names : List String} (h : d.list p = .ok names) {name : String} :
    name ∈ names ↔ d.entryAt? (d.destination p ++ [name]) ≠ none := by
  obtain ⟨members, htree, rfl, -, -⟩ := of_list h
  rw [entryAt?, Tree.entryAt?, Tree.get?_snoc, htree, Option.bind_some, Tree.child?_directory,
    ne_eq, Option.map_eq_none_iff, List.lookup_eq_none_iff, List.mem_map]
  constructor
  · rintro ⟨m, hm, rfl⟩ hnone
    simpa using hnone m hm
  · intro hsome
    by_contra hno
    refine hsome fun m hm => bne_iff_ne.mpr fun heq => hno ⟨m, hm, heq.symm⟩

/-- Where a fresh name is chosen, a temporary file is new. -/
theorem of_createTemporaryAs {choose : List String → String}
    (hfresh : ∀ names, d.list (d.homePath.join p) = .ok names → IsFresh (choose names) names)
    (h : d.createTemporaryAs choose p = .ok (d', dest)) :
    d.writeFile dest .empty = .ok d' ∧ d.entryAt? (d.destination dest) = none ∧
      d.Reaches (d.homePath.join p) ∧ ∃ names, d.list (d.homePath.join p) = .ok names ∧
        dest = (d.homePath.join p).join ⟨choose names⟩ := by
  rw [createTemporaryAs] at h
  obtain ⟨_, -, h⟩ := bind_eq_ok.mp h
  obtain ⟨names, hlist, h⟩ := bind_eq_ok.mp h
  obtain ⟨d₁, hwrite, h⟩ := bind_eq_ok.mp h
  cases h
  obtain ⟨-, -, -, hreaches, -⟩ := of_list hlist
  obtain ⟨hname, habsent⟩ := hfresh names hlist
  rw [mem_list_iff hlist, not_not, ← destination_join hname] at habsent
  exact ⟨hwrite, habsent, hreaches, names, hlist, rfl⟩

/-- The name of a temporary file is no member's of the directory it is made in. -/
theorem of_createTemporary (h : d.createTemporary p = .ok (d', dest)) :
    d.writeFile dest .empty = .ok d' ∧ d.entryAt? (d.destination dest) = none ∧
      ∃ around n, dest = around.join ⟨temporaryName n⟩ ∧ d.Reaches around := by
  rw [← createTemporaryAs_freshName] at h
  obtain ⟨hwrite, habsent, hreaches, names, -, hdest⟩ :=
    of_createTemporaryAs (fun names _ => isFresh_freshName names) h
  obtain ⟨n, hfresh, -⟩ := exists_temporaryName_not_mem names
  exact ⟨hwrite, habsent, _, n, hfresh ▸ hdest, hreaches⟩

theorem Sound.root (hd : d.Sound) : d.entryAt? [] = some .directory := by
  by_cases hne : d.home = []
  · exact hne ▸ hd.home
  · refine Tree.entryAt?_of_append (l := []) hne ?_
    rw [List.nil_append, ← entryAt?, hd.home]
    rfl

theorem Sound.ne_nil {l : Location} (hd : d.Sound) (hl : d.entryAt? l = some (.file octets)) :
    l ≠ [] := by
  rintro rfl
  rw [hd.root] at hl
  cases hl

/-- Around what is on a disk there are directories. -/
theorem entryAt?_above {l l' : Location} (h : d.entryAt? l' = some .directory) (hl : l <+: l') :
    d.entryAt? l = some .directory := by
  obtain ⟨rest, rfl⟩ := hl
  cases rest with
  | nil => rwa [List.append_nil] at h
  | cons name rest =>
    refine Tree.entryAt?_of_append (List.cons_ne_nil name rest) ?_
    rw [← entryAt?, h]
    rfl

theorem entryAt?_append_of_absent {l : Location} (h : d.entryAt? l = none) (rest : Location) :
    d.entryAt? (l ++ rest) = none := by
  cases rest with
  | nil => rwa [List.append_nil]
  | cons name rest =>
    refine Tree.entryAt?_append_of_not_directory ?_ (List.cons_ne_nil name rest)
    rw [← entryAt?, h]
    simp

/-- Without steps up a path that leads to a directory goes down to it all the way. -/
theorem Sound.passes_of_no_points (hd : d.Sound) {l : Location} {steps : List String}
    (hup : ".." ∉ steps) (h : d.entryAt? (steps.foldl follow l) = some .directory) :
    d.Passes l steps := by
  induction steps generalizing l with
  | nil => exact h
  | cons step steps ih =>
    have habove := entryAt?_above h (prefix_foldl_follow hup)
    rw [List.mem_cons, not_or] at hup
    refine ⟨habove, fun hpoint hpoints => ?_, ih hup.2 h⟩
    have hbelow : follow l step <+: (step :: steps).foldl follow l := prefix_foldl_follow hup.2
    rw [follow_name hpoint hpoints] at hbelow
    have hmem := hbelow.subset (List.mem_append_right l (List.mem_singleton.mpr rfl))
    exact (hd.names _ (by rw [h]; simp) step hmem).size_le

theorem Sound.reaches_of_no_points (hd : d.Sound) (hup : ".." ∉ stepsOf p)
    (h : d.entryAt? (d.destination p) = some .directory) : d.Reaches p :=
  hd.passes_of_no_points hup h

theorem Sound.isMemberName_of_list {names : List String} (hd : d.Sound) (h : d.list p = .ok names) :
    ∀ name ∈ names, IsMemberName name := fun name hname =>
  hd.names _ ((mem_list_iff h).mp hname) name (by simp)

private theorem sets_drop (hd : d.Sound) {place : Location}
    (h : d.entryAt? place = some (.file octets)) :
    Sets d place none { d with root := d.root.drop place } where
  home := rfl
  entryAt?_eq l := Tree.entryAt?_drop (hd.ne_nil h) (by rw [← entryAt?, h]; simp) l

theorem of_remove (hd : d.Sound) (h : d.remove p = .ok d') :
    d.entryAt? (d.destination p) ≠ some .directory ∧ Sets d (d.destination p) none d' := by
  rw [remove] at h
  obtain ⟨found, hlocate, h⟩ := bind_eq_ok.mp h
  obtain ⟨-, hon, hloc, -⟩ := of_locate hlocate
  have hentry := hon.entryAt?
  cases htree : found.tree with
  | directory members =>
    simp [htree, Tree.isDirectory, throw, throwThe, MonadExceptOf.throw, bind, Except.bind] at h
  | file octets =>
    simp only [htree, Tree.isDirectory, Bool.false_eq_true, if_false] at h
    cases h
    rw [htree, Tree.entry, hloc] at hentry
    rw [hloc]
    exact ⟨by simp [hentry], sets_drop hd hentry⟩

theorem checked_of_rename (h : d.rename source dest = .ok d') : checkPath dest = .ok () := by
  rw [rename] at h
  by_cases hnul : (hasNul source || hasNul dest) = true
  · simp [hnul, throw, throwThe, MonadExceptOf.throw, bind, Except.bind] at h
  simp only [hnul] at h
  obtain ⟨found, -, h⟩ := bind_eq_ok.mp h
  obtain ⟨s, hs, -⟩ := bind_eq_ok.mp h
  exact checked_of_slot hs

/-- A file that is moved is no longer where it was. -/
theorem of_rename (hd : d.Sound) (hfile : d.entryAt? (d.destination source) = some (.file octets))
    (h : d.rename source dest = .ok d') :
    ∃ s name d₁, Fits d dest s name ∧ d.entryAt? (d.destination dest) ≠ some .directory ∧
      Sets d (d.destination source) none d₁ ∧
      Sets d₁ (d.destination dest) (some (.file octets)) d' := by
  rw [rename] at h
  by_cases hnul : (hasNul source || hasNul dest) = true
  · simp [hnul, throw, throwThe, MonadExceptOf.throw, bind, Except.bind] at h
  simp only [hnul] at h
  obtain ⟨found, hlocate, h⟩ := bind_eq_ok.mp h
  obtain ⟨-, hon, hloc, -⟩ := of_locate hlocate
  obtain ⟨s, hs, h⟩ := bind_eq_ok.mp h
  cases hname : s.name with
  | none => simp [hname, throw, throwThe, MonadExceptOf.throw] at h
  | some name =>
    have hfits := fits_of_slot hs hname
    simp only [hname] at h
    by_cases hslash : endsWithSlash dest = true
    · simp [hslash, throw, throwThe, MonadExceptOf.throw, bind, Except.bind] at h
    by_cases hocc : (s.occupant? name).any Tree.isDirectory = true
    · simp [hslash, hocc, throw, throwThe, MonadExceptOf.throw, bind, Except.bind] at h
    simp only [hslash, hocc] at h
    cases h
    have hold := hfits.not_directory (by simpa using hocc)
    have htree : found.tree = .file octets := by
      have hentry := hon.entryAt?
      rw [hloc, hfile, Option.some_inj] at hentry
      exact Tree.entry_eq_file.mp hentry.symm
    have hdrop := sets_drop hd hfile
    refine ⟨s, name, _, hfits, hold, hdrop, rfl, fun l => ?_⟩
    have haround := hfits.around
    rw [← hdrop.of_ne fun heq => by simp [heq, hfile] at haround] at haround
    have hnew := hdrop.not_directory hold
    rw [hfits.destination_eq] at hnew ⊢
    rw [hloc, htree, location_eq]
    exact Tree.entryAt?_put haround hnew (Tree.isLeaf_file octets) l

end Operations

section Spares

variable {before d d' : Disk} {exposed : Location → Prop} {place : Location} {e : Option Entry}
  {p source dest : Path} {octets : ByteArray}

theorem Spares.refl (hd : d.Sound) : d.Spares exposed d := ⟨rfl, hd, fun _ _ h _ => h⟩

theorem Spares.trans {other : Location → Prop} (h : before.Spares exposed d)
    (h' : d.Spares other d') (hsub : ∀ l, other l → exposed l) : before.Spares exposed d' where
  home := h'.home.trans h.home
  sound := h'.sound
  kept l e hl he := h'.kept l e (h.kept l e hl he) (he.imp_right fun hno ho => hno (hsub l ho))

theorem Spares.mono {other : Location → Prop} (h : before.Spares other d)
    (hsub : ∀ l, other l → exposed l) : before.Spares exposed d where
  home := h.home
  sound := h.sound
  kept l e hl he := h.kept l e hl (he.imp_right fun hno ho => hno (hsub l ho))

theorem Spares.destination_eq (h : before.Spares exposed d) (p : Path) :
    d.destination p = before.destination p :=
  destination_congr h.home

theorem Spares.reaches (h : before.Spares exposed d) (hp : before.Reaches p) : d.Reaches p := by
  have hmono := passes_mono (fun l hl => h.kept l _ hl (.inl rfl)) hp
  rwa [Reaches, origin, h.home]

/-- What a path leads to is at its place. -/
theorem Spares.reached (h : before.Spares exposed d) (hp : d.Reaches p) :
    d.entryAt? (before.destination p) = some .directory :=
  h.destination_eq p ▸ hp.entryAt?_destination

theorem Spares.free (h : before.Spares exposed d) (hnone : d.entryAt? place = none) :
    before.Free exposed place := by
  by_cases hex : exposed place
  · exact .inl hex
  · refine .inr (Option.eq_none_iff_forall_ne_some.mpr fun e he => ?_)
    have hkept := h.kept place e he (.inr hex)
    rw [hnone] at hkept
    cases hkept

/-- A change of a free place spares what the operations so far have spared. -/
theorem Spares.sets (h : before.Spares exposed d) (hs : Sets d place e d')
    (hnames : e ≠ none → ∀ n ∈ place, IsMemberName n)
    (hold : d.entryAt? place ≠ some .directory) (hfree : before.Free exposed place) :
    before.Spares exposed d' where
  home := hs.home.trans h.home
  sound := by
    constructor
    · intro l hl
      by_cases heq : l = place
      · subst heq
        rw [hs.self] at hl
        exact hnames hl
      · rw [hs.of_ne heq] at hl
        exact h.sound.names l hl
    · have hhome := h.sound.home
      rw [hs.home, hs.of_ne fun heq => hold (heq ▸ hhome), hhome]
  kept l e' hl he := by
    have hkept := h.kept l e' hl he
    by_cases heq : l = place
    · subst heq
      obtain rfl | hno := he
      · exact (hold hkept).elim
      · obtain hex | hnone := hfree
        · exact (hno hex).elim
        · rw [hnone] at hl
          cases hl
    · rw [hs.of_ne heq, hkept]

theorem reaches_of_kind (h : ((d.kind p).toOption == some .directory) = true) :
    d.Reaches p := by
  cases hk : d.kind p with
  | error e => simp [hk, Except.toOption] at h
  | ok k =>
    obtain rfl : k = .directory := by simpa [hk, Except.toOption] using h
    obtain ⟨t, hfind, hk⟩ := bind_eq_ok.mp hk
    obtain ⟨found, hlocate, hfind⟩ := bind_eq_ok.mp hfind
    cases hfind
    obtain ⟨-, -, -, hreaches⟩ := of_locate hlocate
    refine hreaches ?_
    by_contra hno
    simp [hno, pure, Except.pure] at hk

/-- Without a parent a path stays where it starts. -/
theorem reaches_of_no_parent (hd : d.Sound) (h : p.parent? = none) :
    d.Reaches p := by
  refine passes_of_points ?_ (of_parent?_eq_none h)
  rw [origin]
  split
  · exact hd.root
  · exact hd.home

theorem isSome_kind_of_locate {found : Position} (h : d.locate p = .ok found) :
    (d.kind p).toOption.isSome = true := by
  simp [kind, find, h, bind, Except.bind, pure, Except.pure, Except.toOption]

theorem isSome_kind_of_reaches (hcheck : checkPath p = .ok ()) (h : d.Reaches p) :
    (d.kind p).toOption.isSome = true := by
  obtain ⟨found, hfound⟩ := exists_locate_of_reaches hcheck h
  exact isSome_kind_of_locate hfound

theorem of_kind (h : (d.kind p).toOption.isSome = true) :
    checkPath p = .ok () ∧ d.entryAt? (d.destination p) ≠ none := by
  cases hk : d.kind p with
  | error e => simp [hk, Except.toOption] at h
  | ok k =>
    obtain ⟨t, hfind, -⟩ := bind_eq_ok.mp hk
    obtain ⟨found, hlocate, -⟩ := bind_eq_ok.mp hfind
    obtain ⟨hcheck, hon, hloc, -⟩ := of_locate hlocate
    refine ⟨hcheck, ?_⟩
    rw [← hloc, hon.entryAt?]
    simp

/-- Nothing is in a directory where a path below it finds nothing. -/
theorem Spares.entryAt?_of_not_exists {dir : Path} {name : String}
    (h : before.Spares exposed d) (hn : IsMemberName name) (hdir : before.Reaches dir)
    (hexposed : ¬exposed (before.destination dir ++ [name]))
    (hno : (d.kind (dir.join ⟨name⟩)).toOption.isSome = false)
    (hcheck : checkPath (dir.join ⟨name⟩) = .ok ()) :
    before.entryAt? (before.destination dir ++ [name]) = none := by
  refine (h.free (Option.eq_none_iff_forall_ne_some.mpr fun e he => ?_)).resolve_left hexposed
  rw [← h.destination_eq] at he
  obtain ⟨found, hfound⟩ := exists_locate_join hn hcheck (h.reaches hdir) he
  rw [isSome_kind_of_locate hfound] at hno
  cases hno

/-- A directory is made where nothing is, so that all there is stays. -/
theorem Spares.makeDirectory (h : before.Spares exposed d) (hop : d.makeDirectory p = .ok d') :
    before.Spares exposed d' ∧ d'.Reaches p := by
  obtain ⟨s, name, hfits, hnone, hs⟩ := of_makeDirectory hop
  have hspares := h.sets hs (fun _ => hfits.names h.sound) (by simp [hnone]) (h.free hnone)
  refine ⟨hspares, ?_⟩
  obtain ⟨steps, hsteps, hpasses⟩ := hfits.passes
  have hlater : d'.Passes (d.origin p) steps := by
    refine passes_mono (fun l hl => ?_) hpasses
    rw [hs.of_ne fun heq => by simp [heq, hnone] at hl, hl]
  rw [Reaches, origin, hs.home, ← origin, hsteps, passes_append]
  refine ⟨hlater, hlater.destination, fun _ _ => hfits.isMemberName.size_le, ?_⟩
  have hself := hs.self
  rwa [destination, hsteps, List.foldl_append] at hself

theorem Spares.writeFile (h : before.Spares exposed d) (hop : d.writeFile p octets = .ok d')
    (hfree : checkPath p = .ok () → before.Free exposed (before.destination p)) :
    before.Spares exposed d' ∧ d'.entryAt? (before.destination p) = some (.file octets) := by
  obtain ⟨s, name, hfits, hold, hs⟩ := of_writeFile hop
  rw [← h.destination_eq] at hfree ⊢
  exact ⟨h.sets hs (fun _ => hfits.names h.sound) hold (hfree hfits.checked), hs.self⟩

theorem Spares.copyFile (h : before.Spares exposed d) (hop : d.copyFile source dest = .ok d')
    (hfree : checkPath dest = .ok () → before.Free exposed (before.destination dest)) :
    before.Spares exposed d' := by
  obtain ⟨octets, hop⟩ := of_copyFile hop
  exact (h.writeFile hop hfree).1

theorem Spares.createTemporary (h : before.Spares exposed d)
    (hop : d.createTemporary p = .ok (d', dest)) :
    before.Spares exposed d' ∧ before.Free exposed (before.destination dest) := by
  obtain ⟨hop, hnone, -⟩ := of_createTemporary hop
  have hfree := h.free hnone
  rw [h.destination_eq] at hfree
  exact ⟨(h.writeFile hop fun _ => hfree).1, hfree⟩

theorem Spares.remove (h : before.Spares exposed d) (hop : d.remove p = .ok d')
    (hfree : before.Free exposed (before.destination p)) : before.Spares exposed d' := by
  obtain ⟨hold, hs⟩ := of_remove h.sound hop
  rw [← h.destination_eq] at hfree
  exact h.sets hs (fun hne => (hne rfl).elim) hold hfree

theorem Spares.rename (h : before.Spares exposed d) (hop : d.rename source dest = .ok d')
    (hfile : d.entryAt? (before.destination source) = some (.file octets))
    (hsource : before.Free exposed (before.destination source))
    (hdest : checkPath dest = .ok () → before.Free exposed (before.destination dest)) :
    before.Spares exposed d' ∧ d'.entryAt? (before.destination dest) = some (.file octets) := by
  rw [← h.destination_eq] at hfile hsource hdest ⊢
  obtain ⟨s, name, d₁, hfits, hold, hdrop, hput⟩ := of_rename h.sound hfile hop
  have hspares := h.sets hdrop (fun hne => (hne rfl).elim) (by simp [hfile]) hsource
  exact ⟨hspares.sets hput (fun _ => hfits.names h.sound) (hdrop.not_directory hold)
    (hdest hfits.checked), hput.self⟩

end Spares

end EnvCompose.Disk
