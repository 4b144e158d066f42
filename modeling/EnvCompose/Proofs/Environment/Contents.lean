import EnvCompose.Proofs.Environment.Files
import EnvCompose.Proofs.Environment.Overrides
import EnvCompose.Proofs.Manifest.Resaving
import EnvCompose.Proofs.Workspace.Copying

/-!
# What an environment's directory holds

An environment that has been written holds its manifest, a copy of the site's configuration and one
of the common configuration under the pins, as far as they belong to it. The manifest includes what
is there. Nothing else has changed but for the directories around.
-/
namespace EnvCompose
open Disk Workspace

namespace Disk

/-- What may have changed where something has been put at a place. -/
def Around (before : Disk) (place l : Location) (e : Option Entry) : Prop :=
  place <+: l ∨ before.MadeTo place l e

/-- What is at a place where a file is put, and below. -/
def leaf (octets : ByteArray) : Location → Option Entry :=
  fun rest => if rest = [] then some (.file octets) else none

private theorem below_file {d : Disk} {place : Location} {octets : ByteArray}
    (h : d.entryAt? place = some (.file octets)) : d.below place = leaf octets := by
  funext rest
  rw [below, leaf]
  split
  · rename_i hnil
    rw [hnil, List.append_nil, h]
  · rename_i hne
    exact Tree.entryAt?_append_of_not_directory (by rw [← entryAt?, h]; simp) hne

/-- Whether a directory has been made where nothing was, and what has been put into it, name by
name. -/
structure Furnished (before : Disk) (dir : Path) (contents : String → Location → Option Entry)
    (d : Disk) : Prop extends Alters before (Around before (before.destination dir)) d where
  absent : before.entryAt? (before.destination dir) = none
  reaches : d.Reaches dir
  holds : ∀ name, d.below (before.destination dir ++ [name]) = contents name

namespace Furnished

variable {before d d' : Disk} {dir : Path} {held : String → Location → Option Entry}
  {name : String} {l source : Location}

theorem entryAt?_eq (h : Furnished before dir held d) (hl : before.entryAt? l ≠ none) :
    d.entryAt? l = before.entryAt? l := by
  refine h.toAlters.entryAt?_eq ?_
  rintro (hbelow | ⟨-, hnone, -⟩)
  · exact not_prefix_of_absent h.absent hl hbelow
  · exact hl hnone

theorem directory (h : Furnished before dir held d) :
    d.entryAt? (before.destination dir) = some .directory :=
  h.reached h.reaches

/-- Apart from a furnished directory only those on the way to it may be new. -/
theorem outside (h : Furnished before dir held d) (hl : ¬before.destination dir <+: l) :
    d.entryAt? l = before.entryAt? l ∨ before.MadeTo (before.destination dir) l (d.entryAt? l) :=
  (em _).imp_right fun hne => (h.allows l hne).resolve_left hl

/-- A tree apart from a furnished directory is what it was. -/
theorem below_eq (h : Furnished before dir held d) (hsource : before.entryAt? source ≠ none)
    (hout : ¬source <+: before.destination dir) : d.below source = before.below source := by
  funext rest
  refine h.toAlters.entryAt?_eq ?_
  rintro (hbelow | ⟨habove, -, -⟩)
  · exact not_prefix_append h.absent hsource hout rest hbelow
  · exact hout ((List.prefix_append source rest).trans habove)

/-- A directory that has just been made is furnished with nothing. -/
theorem of_made (hd : before.Sound) (hup : ".." ∉ stepsOf dir)
    (hcheck : checkPath dir = .ok ()) (hno : (before.kind dir).toOption = none)
    (h : before.Alters (before.MadeTo (before.destination dir)) d) (hreaches : d.Reaches dir) :
    Furnished before dir (fun _ _ => none) d := by
  have hdirectory := h.reached hreaches
  have habsent : before.entryAt? (before.destination dir) = none := by
    by_cases hsame : d.entryAt? (before.destination dir) = before.entryAt? (before.destination dir)
    · -- it would have been found
      rw [hsame] at hdirectory
      have hfound := isSome_kind_of_reaches hcheck (hd.reaches_of_no_points hup hdirectory)
      rw [hno] at hfound
      cases hfound
    · exact (h.allows _ hsame).2.1
  refine ⟨h.mono fun _ _ => .inr, habsent, hreaches, fun name => ?_⟩
  funext rest
  have hbefore : before.entryAt? (before.destination dir ++ [name] ++ rest) = none := by
    rw [List.append_assoc]
    exact entryAt?_append_of_absent habsent _
  rw [below, h.entryAt?_eq, hbefore]
  rintro ⟨habove, -, -⟩
  have hle := habove.length_le
  simp only [List.length_append, List.length_singleton] at hle
  omega

/-- What is put under a name of a furnished directory leaves what is under the others. -/
theorem put (h : Furnished before dir held d)
    (h' : d.Alters (fun l _ => before.destination dir ++ [name] <+: l) d') :
    Furnished before dir
      (Function.update held name (d'.below (before.destination dir ++ [name]))) d' where
  toAlters := by
    refine h.toAlters.trans (h'.mono fun l _ hl => .inl ?_)
    exact (List.prefix_append _ _).trans hl
  absent := h.absent
  reaches := h'.reaches h.reaches
  holds other := by
    by_cases heq : other = name
    · rw [heq, Function.update_self]
    · rw [Function.update_of_ne heq, ← h.holds other]
      funext rest
      refine h'.entryAt?_eq fun hprefix => heq ?_
      rw [List.append_assoc, List.prefix_append_right_inj] at hprefix
      exact (List.cons_prefix_cons.mp hprefix).1.symm

theorem put_file {octets : ByteArray} (hn : IsFileName name) (h : Furnished before dir held d)
    (h' : d.Alters (fun l _ => l = d.destination (dir.join ⟨name⟩)) d')
    (hfile : d'.entryAt? (d.destination (dir.join ⟨name⟩)) = some (.file octets)) :
    Furnished before dir (Function.update held name (leaf octets)) d' := by
  rw [destination_join hn, h.destination_eq] at h' hfile
  rw [← below_file hfile]
  exact h.put (h'.mono fun l _ hl => hl ▸ List.prefix_refl _)

/-- A file is copied into a directory that is made for it unless it is there. -/
theorem copyFile {d₁ d₂ : Disk} {inner : String} {source : Path} (hn : IsFileName name)
    (hi : IsFileName inner) (h : Furnished before dir held d)
    (hmade : d.Alters (fun l _ => l = before.destination dir ++ [name]) d₁)
    (hdirectory : d₁.entryAt? (before.destination dir ++ [name]) = some .directory)
    (hsource : before.entryAt? (before.destination source) ≠ none)
    (hop : d₁.copyFile source ((dir.join ⟨name⟩).join ⟨inner⟩) = .ok d₂) :
    Furnished before dir (Function.update held name fun rest =>
      if rest = [] then some .directory
      else if rest = [inner] then before.entryAt? (before.destination source)
      else held name rest) d₂ := by
  have hhome (p : Path) : d₁.destination p = before.destination p := by
    rw [hmade.destination_eq, h.destination_eq]
  have hdest : d₁.destination ((dir.join ⟨name⟩).join ⟨inner⟩) =
      before.destination dir ++ [name] ++ [inner] := by
    rw [destination_join hi, destination_join hn, hhome]
  have hnone (rest : Location) : before.entryAt? (before.destination dir ++ rest) = none :=
    entryAt?_append_of_absent h.absent rest
  have hne : before.destination source ≠ before.destination dir ++ [name] :=
    fun heq => hsource (heq ▸ hnone [name])
  have hsame : d₁.entryAt? (before.destination source) =
      before.entryAt? (before.destination source) := by
    rw [hmade.entryAt?_eq hne, h.entryAt?_eq hsource]
  have hapart : d₁.destination source ≠ d₁.destination ((dir.join ⟨name⟩).join ⟨inner⟩) := by
    rw [hhome, hdest, List.append_assoc]
    exact fun heq => hsource (heq ▸ hnone _)
  obtain ⟨octets, hfile, hwrite⟩ := of_copyFile_apart hop hapart
  obtain ⟨s, _, -, -, hs⟩ := of_writeFile hwrite
  rw [hhome, hsame] at hfile
  rw [hdest, ← hfile] at hs
  have hbelow : d.Alters (fun l _ => before.destination dir ++ [name] <+: l) d₁ :=
    hmade.mono fun l _ hl => hl ▸ List.prefix_refl _
  have hput := h.put (hbelow.writeFile hwrite (by
    rw [← hmade.destination_eq, hdest]
    exact List.prefix_append _ _))
  have hholds : d₂.below (before.destination dir ++ [name]) = fun rest =>
      if rest = [] then some .directory
      else if rest = [inner] then before.entryAt? (before.destination source)
      else held name rest := by
    funext rest
    by_cases hnil : rest = []
    · rw [below, hnil, List.append_nil, hs.of_ne (by simp), if_pos rfl, hdirectory]
    by_cases hinner : rest = [inner]
    · rw [below, hinner, hs.self, if_neg (by simp), if_pos rfl]
    · rw [below, hs.of_ne fun heq => hinner (List.append_cancel_left heq),
        hmade.entryAt?_eq (by simpa using hnil), if_neg hnil, if_neg hinner, ← h.holds, below]
  rwa [hholds] at hput

end Furnished

end Disk

theorem Manifest.triple_write_altering {before : Disk} (hd : before.Sound) {manifest : Manifest}
    {file : Path} {header : Option String} :
    Triple (· = before) (manifest.write file header : Build (StateM Workspace) Unit)
      (fun _ d => ∃ text, manifest.render header = .ok text ∧
        before.Alters (fun l _ => l = before.destination file) d ∧
        d.entryAt? (before.destination file) = some (.file text.toUTF8) ∧ checkPath file = .ok ())
      (before.Alters fun _ _ => False) := by
  refine Manifest.triple_write_of (by rintro _ rfl; exact .refl hd) fun text htext => ?_
  exact (triple_writeAtomic_altering hd file text).weaken (fun _ h => h)
    (fun _ _ h => ⟨text, htext, h⟩) fun _ h => h

namespace Environment

variable {before : Disk} {held : String → Location → Option Entry} {e : Environment}

def siteContents (e : Environment) (before : Disk) : Location → Option Entry :=
  match e.site with
  | none => fun _ => none
  | some site => before.below (before.destination (e.layout.siteDir site))

def commonContents (e : Environment) (before : Disk) : Location → Option Entry :=
  if e.common then before.below (before.destination e.layout.common) else fun _ => none

/-- A directory with the pins in the place of its own, if there are any. -/
def pinned (e : Environment) (before : Disk) (copied : Location → Option Entry) :
    Location → Option Entry :=
  match e.basePackages with
  | none => copied
  | some pins => fun rest =>
    if rest = [] then some .directory
    else if rest = ["packages.yaml"] then before.entryAt? (before.destination pins)
    else copied rest

/-- All that the directory of the environment holds, with a text in the file of the manifest. -/
def contents (e : Environment) (before : Disk) (text : String) (name : String) :
    Location → Option Entry :=
  if name = "spack.yaml" then leaf text.toUTF8
  else if name = "site" then e.siteContents before
  else if name = "common" then e.pinned before (e.commonContents before)
  else fun _ => none

/-- A directory is made on the way to an environment, or part of the way. -/
theorem triple_makeDirectory_made (hd : before.Sound) {dir : Path} (hup : ".." ∉ stepsOf dir) :
    Triple (· = before) (makeDirectory dir : Build (StateM Workspace) Unit)
      (fun _ d => before.Alters (before.MadeTo (before.destination dir)) d ∧ d.Reaches dir)
      (before.Alters (before.MadeTo (before.destination dir))) :=
  triple_adapt (triple_makeDirectories_made hd (descends_of_no_points hup))

/-- A directory in that of the environment is made unless it is there. -/
theorem triple_makeDirectory_inside {dir : Path} {name : String} {d : Disk} (hn : IsFileName name)
    (hup : ".." ∉ stepsOf dir) (hd : Furnished before dir held d) :
    Triple (· = d) (makeDirectory (dir.join ⟨name⟩) : Build (StateM Workspace) Unit)
      (fun _ d₁ => d.Alters (fun l _ => l = before.destination dir ++ [name]) d₁ ∧
        d₁.entryAt? (before.destination dir ++ [name]) = some .directory) (fun _ => True) := by
  have hplace : d.destination (dir.join ⟨name⟩) = before.destination dir ++ [name] := by
    rw [destination_join hn, hd.destination_eq]
  have hdir := hd.directory
  refine (triple_adapt (triple_makeDirectories_altering (parent?_join_ne_none hn)
    (descends_of_no_points (points_not_mem_join hn hup)) fun l hl hno _ => ?_)).weaken
    (by rintro _ rfl; exact .refl hd.sound) (fun _ d₁ h => ⟨h.1, ?_⟩) fun _ _ => trivial
  · by_contra hne
    exact hno (directory_above hdir (hplace ▸ hl) hne)
  · have hentry := h.1.reached h.2.1
    rwa [hplace] at hentry

private theorem triple_copyTree_furnished {source dir : Path} {name : String}
    (hn : IsMemberName name) (hup : ".." ∉ stepsOf dir)
    (hsource : before.entryAt? (before.destination source) = some .directory)
    (hout : ¬before.destination source <+: before.destination dir) :
    Triple (Furnished before dir held)
      (copyTree source (dir.join ⟨name⟩) : ExceptT TemplateError (StateM Workspace) Unit)
      (fun _ => Furnished before dir
        (Function.update held name (before.below (before.destination source))))
      (fun _ => True) := by
  refine triple_of_each fun d hd => ?_
  have hpresent : before.entryAt? (before.destination source) ≠ none := by simp [hsource]
  have hthere : d.entryAt? (d.destination source) = some .directory := by
    rw [hd.destination_eq, hd.entryAt?_eq hpresent, hsource]
  have hapart : ¬d.destination source <+: d.destination dir := by
    rwa [hd.destination_eq, hd.destination_eq]
  refine (triple_copyTree_copied hd.sound hn hd.reaches hup hthere hapart).weaken (fun _ h => h)
    (fun _ d' h => ?_) fun _ h => h
  rw [hd.destination_eq, hd.destination_eq, hd.below_eq hpresent hout] at h
  have hput := hd.put h.1
  rwa [h.2] at hput

private theorem triple_copySite_furnished (hup : ".." ∉ stepsOf e.directory)
    (hw : e.Writable before) (hout : ∀ site ∈ e.site,
      ¬before.destination (e.layout.siteDir site) <+: before.destination e.directory)
    (hnone : held siteInclude = fun _ => none) :
    Triple (Furnished before e.directory held) (e.copySite : Build (StateM Workspace) Unit)
      (fun _ => Furnished before e.directory
        (Function.update held siteInclude (e.siteContents before)))
      (fun _ => True) := by
  refine triple_copySite_of (fun hsite d h => ?_) fun site hsite => ?_
  · simp only [siteContents, hsite]
    rwa [← hnone, Function.update_eq_self]
  · simp only [siteContents, hsite]
    refine triple_copyTree_furnished isMemberName_siteInclude hup ?_ (hout site hsite)
    exact (reaches_of_kind (beq_iff_eq.mpr (hw.site site hsite))).destination

private theorem triple_copyCommon_furnished (hup : ".." ∉ stepsOf e.directory)
    (hcommon : e.common = true → before.kind e.layout.common = .ok .directory ∧
      ¬before.destination e.layout.common <+: before.destination e.directory)
    (hnone : held commonInclude = fun _ => none) :
    Triple (Furnished before e.directory held) (e.copyCommon : Build (StateM Workspace) Unit)
      (fun _ => Furnished before e.directory
        (Function.update held commonInclude (e.commonContents before)))
      (fun _ => True) := by
  refine triple_copyCommon_of (fun hno d h => ?_) fun hyes => ?_
  · rw [commonContents, if_neg (by simp [hno])]
    rwa [← hnone, Function.update_eq_self]
  · obtain ⟨hkind, hout⟩ := hcommon hyes
    rw [commonContents, if_pos hyes]
    refine triple_copyTree_furnished isMemberName_commonInclude hup ?_ hout
    exact (reaches_of_kind (by rw [hkind]; rfl)).destination

/-- The pins are put over what the common configuration has. -/
theorem triple_copyPins_furnished (hup : ".." ∉ stepsOf e.directory)
    (hpins : ∀ pins ∈ e.basePackages, before.kind pins = .ok .file) :
    Triple (Furnished before e.directory held) (e.copyPins : Build (StateM Workspace) Unit)
      (fun _ => Furnished before e.directory
        (Function.update held commonInclude (e.pinned before (held commonInclude))))
      (fun _ => True) := by
  have hn := isMemberName_commonInclude.toIsFileName
  -- the directory is made unless the common configuration has been copied to it
  refine triple_of_each fun d hd => triple_copyPins_of (fun hbase _ heq => ?_)
    (fun _ => triple_makeDirectory_inside hn hup hd) fun pins hbase => ?_
  · have hsame : e.pinned before (held commonInclude) = held commonInclude := by
      simp [pinned, hbase]
    rwa [hsame, Function.update_eq_self, heq]
  · refine triple_change (fun d₁ d₂ hmade hop => ?_) fun _ _ => trivial
    have hkind : (before.kind pins).toOption.isSome = true := by
      rw [hpins pins hbase]
      rfl
    have hput := hd.copyFile hn isMemberName_packages.toIsFileName hmade.1 hmade.2 (of_kind hkind).2
      hop
    simp only [pinned, hbase]
    exact hput

private theorem triple_writeManifest_furnished {revisions : RevisionSource (StateM Workspace)}
    (hr : QuietSource revisions) :
    Triple (Furnished before e.directory held) (e.writeManifest revisions)
      (fun file d => file = e.directory.join manifestFile ∧ ∃ (p : Provenance) (text : String),
        Gives revisions e.layout p ∧ e.composed.render (some p.header) = .ok text ∧
        Furnished before e.directory
          (Function.update held manifestFile.text (leaf text.toUTF8)) d ∧ checkPath file = .ok ())
      (fun _ => True) := by
  refine triple_writeManifest_of (fun checkout => (keeps_of_run (hr checkout)).dismiss)
    fun p hp => triple_of_each fun d hd => ?_
  refine (Manifest.triple_write_altering hd.sound).weaken (fun _ h => h) (fun _ d' h => ?_)
    fun _ _ => trivial
  obtain ⟨text, htext, halters, hfile, hcheck⟩ := h
  have hput := hd.put_file isMemberName_manifestFile.toIsFileName halters hfile
  exact ⟨rfl, p, text, hp, htext, hput, hcheck⟩

theorem update_contents (e : Environment) (before : Disk) (text : String) :
    Function.update (Function.update (Function.update (Function.update (fun _ _ => none) siteInclude
      (e.siteContents before)) commonInclude (e.commonContents before)) commonInclude
      (e.pinned before (e.commonContents before))) manifestFile.text (leaf text.toUTF8) =
    e.contents before text := by
  funext name
  rw [contents, Function.update_apply, Function.update_apply, Function.update_apply,
    Function.update_apply, siteInclude, commonInclude, manifestFile]
  by_cases hcommon : name = "common"
  · simp [hcommon]
  · simp [hcommon]

theorem triple_write_furnished {revisions : RevisionSource (StateM Workspace)} (hd : before.Sound)
    (hr : QuietSource revisions) (hup : ".." ∉ stepsOf e.directory)
    (hcheck : checkPath e.directory = .ok ())
    (hsite : ∀ site ∈ e.site,
      ¬before.destination (e.layout.siteDir site) <+: before.destination e.directory)
    (hcommon : e.common = true → before.kind e.layout.common = .ok .directory ∧
      ¬before.destination e.layout.common <+: before.destination e.directory)
    (hpins : ∀ pins ∈ e.basePackages, before.kind pins = .ok .file) :
    Triple (· = before) (e.write revisions)
      (fun file d => file = e.directory.join manifestFile ∧ ∃ (p : Provenance) (text : String),
        Gives revisions e.layout p ∧ e.composed.render (some p.header) = .ok text ∧
        Furnished before e.directory (e.contents before text) d ∧ checkPath file = .ok ())
      (fun _ => True) := by
  rw [write]
  refine triple_bind (triple_check before e).dismiss fun _ => triple_of_and fun hw => ?_
  have hmake : Triple (· = before) (makeDirectory e.directory : Build (StateM Workspace) Unit)
      (fun _ => Furnished before e.directory fun _ _ => none) (fun _ => True) :=
    (triple_makeDirectory_made hd hup).dismiss.weaken (fun _ h => h)
      (fun _ _ h => .of_made hd hup hcheck hw.not_found h.1 h.2) fun _ h => h
  refine triple_bind hmake fun _ => ?_
  refine triple_bind (triple_copySite_furnished hup hw hsite rfl) fun _ => ?_
  refine triple_bind (triple_copyCommon_furnished hup hcommon ?_) fun _ => ?_
  · exact Function.update_of_ne (by decide) _ _
  refine triple_bind (triple_copyPins_furnished hup hpins) fun _ => ?_
  refine (triple_during (triple_writeManifest_furnished hr) fun _ _ => trivial).weaken
    (fun _ h => h) (fun _ d h => ?_) fun _ h => h
  simpa only [Function.update_self, update_contents] using h

theorem checked_of_write {revisions : RevisionSource (StateM Workspace)} {w w' : Workspace}
    {file : Path} (h : w.run (e.write revisions) = (.ok file, w')) :
    checkPath (e.directory.join manifestFile) = .ok () := by
  have hmanifest : Triple (fun _ => True) (e.writeManifest revisions)
      (fun _ _ => checkPath (e.directory.join manifestFile) = .ok ()) (fun _ => True) :=
    triple_writeManifest_of (fun _ => triple_trivial _) fun p _ =>
      Manifest.triple_write_of (fun _ h => h) fun text _ => triple_writeAtomic_checked _ text
  have hall : Triple (fun _ => True) (e.write revisions)
      (fun _ _ => checkPath (e.directory.join manifestFile) = .ok ()) (fun _ => True) := by
    rw [write]
    refine triple_bind (triple_trivial _) fun _ => triple_bind (triple_trivial _) fun _ => ?_
    refine triple_bind (triple_trivial _) fun _ => triple_bind (triple_trivial _) fun _ => ?_
    exact triple_bind (triple_trivial _) fun _ => triple_during hmanifest fun _ h => h
  exact hall.of_ok trivial h

private theorem run_load_of_read {w : Workspace} {file : Path} {text : String} {m : Manifest}
    (hread : w.disk.read file = .ok text.toUTF8) (hparse : Manifest.parse text = .ok m) :
    w.run (Manifest.load file) = (.ok m, w) := by
  have hdecoded : Text.decode? text.toUTF8 = some text := by
    rw [Text.decode?, String.fromUTF8?]
    exact dif_pos text.isValidUTF8
  have htext : w.run (Machine.readText file) = (.ok text, w) := by
    have hrun : w.run (Machine.read file) = (w.disk.read file, w) := rfl
    rw [Machine.readText, run_bind, hrun, hread]
    dsimp only
    rw [hdecoded]
    rfl
  rw [Manifest.load, readDocument, run_bind, run_adapt, htext]
  dsimp only [Except.mapError]
  rw [Manifest.load.liftExcept, hparse]
  rfl

theorem composed_wellFormed (h : e.manifest.WellFormed) : e.composed.WellFormed := by
  have htemplate := h.setIncludes e.includeNames
  refine Manifest.WellFormed.restoreSections ?_ htemplate.configSections
  rw [foldl_applyOverride_eq]
  exact htemplate.foldl_set fun a ha => (assigned_values e a ha).1

/-- What is read from the text of an environment's manifest has its body, and so its includes. -/
theorem parse_composed {p : Provenance} {text : String} (hm : e.manifest.WellFormed)
    (hback : e.composed.toValue.readsExactly = true)
    (hheader : isHeaderText p.header.toList = true)
    (htext : e.composed.render (some p.header) = .ok text) :
    Manifest.parse text = .ok e.composed.turned ∧ e.composed.turned.includes = e.includeNames :=
  ⟨(composed_wellFormed hm).parse_of_render hback (by simpa using hheader) htext,
    composed_includes e⟩

/-- An environment that is written to a path without steps up holds its manifest, the site's
configuration and the common one with the pins, each as it was before, and nothing else. Elsewhere
directories are made on the way to it, and that is all. The manifest includes the site, the common
configuration and what else is asked for, in this order. These are the includes that are read from
its file, if the template's manifest has been read from a text, the revisions can stand in a comment
and the reader takes back what the writer makes of the document. -/
theorem write_contents {revisions : RevisionSource (StateM Workspace)} {w w' : Workspace}
    {file : Path} (hd : w.disk.Sound) (hr : QuietSource revisions)
    (hne : e.directory.isEmpty = false) (hup : ".." ∉ stepsOf e.directory)
    (hsite : ∀ site ∈ e.site,
      ¬w.disk.destination (e.layout.siteDir site) <+: w.disk.destination e.directory)
    (hcommon : e.common = true → w.disk.kind e.layout.common = .ok .directory ∧
      ¬w.disk.destination e.layout.common <+: w.disk.destination e.directory)
    (hpins : ∀ pins ∈ e.basePackages, w.disk.kind pins = .ok .file)
    (h : w.run (e.write revisions) = (.ok file, w')) :
    ∃ (p : Provenance) (text : String), Gives revisions e.layout p ∧
      e.composed.render (some p.header) = .ok text ∧
      e.composed.includes = (if e.site.isSome then ["site"] else []) ++
        (if e.common || e.basePackages.isSome then ["common"] else []) ++ e.includes ∧
      ((∃ source, Manifest.parse source = .ok e.manifest) →
        e.composed.toValue.readsExactly = true → isHeaderText p.header.toList = true →
        ∃ m, w'.run (Manifest.load file) = (.ok m, w') ∧ m.body = e.composed.body ∧
          m.includes = (if e.site.isSome then ["site"] else []) ++
            (if e.common || e.basePackages.isSome then ["common"] else []) ++ e.includes) ∧
      w'.disk.entryAt? (w.disk.destination e.directory) = some .directory ∧
      (∀ name rest, w'.disk.entryAt? (w.disk.destination e.directory ++ name :: rest) =
        e.contents w.disk text name rest) ∧
      ∀ l, ¬w.disk.destination e.directory <+: l → w'.disk.entryAt? l = w.disk.entryAt? l ∨
        l <+: w.disk.destination e.directory ∧ w.disk.entryAt? l = none ∧
          w'.disk.entryAt? l = some .directory := by
  have hcheck := checkPath_of_join isMemberName_manifestFile.toIsFileName hne (checked_of_write h)
  have houtcome := (triple_write_furnished hd hr hup hcheck hsite hcommon hpins).outcome w rfl
  rw [h] at houtcome
  obtain ⟨rfl, p, text, hp, htext, hdone, hfile⟩ := houtcome
  have hdirectory := hdone.reaches.destination
  rw [← Disk.destination, hdone.destination_eq] at hdirectory
  have hcontents (name : String) (rest : Location) :
      w'.disk.entryAt? (w.disk.destination e.directory ++ name :: rest) =
        e.contents w.disk text name rest := by
    rw [List.append_cons]
    exact congrFun (hdone.holds name) rest
  refine ⟨p, text, hp, htext, composed_includes e, ?_, hdirectory, hcontents, fun l hl => ?_⟩
  · rintro ⟨source, hsource⟩ hback hheader
    obtain ⟨hparse, hincludes⟩ := parse_composed (.of_parse hsource) hback hheader htext
    have hentry : w'.disk.entryAt? (w'.disk.destination e.directory ++ [manifestFile.text]) =
        some (.file text.toUTF8) := by
      rw [hdone.destination_eq, hcontents, contents, manifestFile, if_pos rfl]
      rfl
    have hread := read_join isMemberName_manifestFile hfile hdone.reaches hentry
    exact ⟨e.composed.turned, run_load_of_read hread hparse, rfl, hincludes⟩
  · by_cases hsame : w'.disk.entryAt? l = w.disk.entryAt? l
    · exact .inl hsame
    · exact .inr ((hdone.allows l hsame).resolve_left hl)

section Witness

/-- A checkout with a site, a common configuration and a file of pins. -/
def fullCheckout : Workspace where
  disk := { root := .directory [("stack", .directory [
    ("configs", .directory [
      ("common", .directory [("modules.yaml", .file "modules: {}\n".toUTF8),
        ("packages.yaml", .file "packages: {}\n".toUTF8)]),
      ("sites", .directory [("hera", .directory [
        ("compilers", .directory [("gcc.yaml", .file "gcc: 13\n".toUTF8)])])])]),
    ("pins.yaml", .file "packages:\n  all: {}\n".toUTF8)])], home := ["stack"] }

def bareTemplate : Manifest := ⟨[(.str "view", .bool false)], []⟩

/-- An environment with a site, the common configuration and pins. -/
def fullEnvironment : Environment :=
  .ofTemplate (.ofRoot ⟨"/stack"⟩)
    { name := some "new", site := some "hera", basePackages := some ⟨"pins.yaml"⟩,
      includes := ["extra"] }
    ⟨"empty", .builtIn "spack:\n  view: false\n"⟩ bareTemplate

theorem sound_fullCheckout : fullCheckout.disk.Sound where
  names := by
    refine names_of_members (List.forall_mem_singleton.mpr ⟨by decide, names_of_members ?_⟩)
    refine List.forall_mem_cons.mpr ⟨⟨by decide, names_of_members ?_⟩,
      List.forall_mem_singleton.mpr ⟨by decide, names_of_file _⟩⟩
    refine List.forall_mem_cons.mpr ⟨⟨by decide, names_of_members ?_⟩,
      List.forall_mem_singleton.mpr ⟨by decide, names_of_members ?_⟩⟩
    · exact List.forall_mem_cons.mpr ⟨⟨by decide, names_of_file _⟩,
        List.forall_mem_singleton.mpr ⟨by decide, names_of_file _⟩⟩
    · refine List.forall_mem_singleton.mpr ⟨by decide, names_of_members ?_⟩
      refine List.forall_mem_singleton.mpr ⟨by decide, names_of_members ?_⟩
      exact List.forall_mem_singleton.mpr ⟨by decide, names_of_file _⟩
  home := by decide +kernel

/-- What is in the file of the manifest when `fullEnvironment` has been written. -/
def fullText : String :=
  "# spack-stack hash: abc1234\n# spack hash: abc1234\nspack:\n  view: false\n  include:\n" ++
    "  - site\n  - common\n  - extra\n"

private theorem render_fullEnvironment : (fullEnvironment.composed.render
    (some (Provenance.mk "abc1234" "abc1234").header)).toOption = some fullText := by
  decide +kernel

theorem write_contents_full :
    fullCheckout.disk.Sound ∧ QuietSource (fixedRevision "abc1234") ∧ ∃ file w',
      fullCheckout.run (fullEnvironment.write (fixedRevision "abc1234")) = (.ok file, w') ∧
      w'.disk.entryAt? ["stack", "envs", "new", "spack.yaml"] = some (.file fullText.toUTF8) ∧
      (∃ m, w'.run (Manifest.load file) = (.ok m, w') ∧
        m.includes = ["site", "common", "extra"]) ∧
      w'.disk.entryAt? ["stack", "envs", "new", "site", "compilers", "gcc.yaml"] =
        some (.file "gcc: 13\n".toUTF8) ∧
      w'.disk.entryAt? ["stack", "envs", "new", "common", "modules.yaml"] =
        some (.file "modules: {}\n".toUTF8) ∧
      w'.disk.entryAt? ["stack", "envs", "new", "common", "packages.yaml"] =
        some (.file "packages:\n  all: {}\n".toUTF8) ∧
      w'.disk.entryAt? ["stack", "envs", "new", temporaryName 0] = none := by
  have hquiet := quietSource_fixedRevision "abc1234"
  obtain ⟨file, w', h⟩ := exists_run_eq_ok (show (fullCheckout.run
    (fullEnvironment.write (fixedRevision "abc1234"))).1.isOk = true by decide +kernel)
  have hcommon : fullEnvironment.common = true →
      fullCheckout.disk.kind fullEnvironment.layout.common = .ok .directory ∧
        ¬fullCheckout.disk.destination fullEnvironment.layout.common <+:
          fullCheckout.disk.destination fullEnvironment.directory := by
    decide +kernel
  have hplace : fullCheckout.disk.destination fullEnvironment.directory =
      ["stack", "envs", "new"] := by
    decide +kernel
  obtain ⟨p, text, hp, htext, -, hread, -, hcontents, -⟩ := write_contents sound_fullCheckout hquiet
    (by decide +kernel) (by decide +kernel) (by decide +kernel) hcommon (by decide +kernel) h
  obtain rfl := gives_fixedRevision.mp hp
  obtain rfl : text = fullText := by
    simpa [htext, Except.toOption] using render_fullEnvironment
  have hsource : Manifest.parse "spack:\n  view: false\n" = .ok fullEnvironment.manifest :=
    Manifest.parse_of_identical (by decide +kernel)
  obtain ⟨m, hload, -, hincludes⟩ := hread ⟨_, hsource⟩ (by decide +kernel) (by decide)
  rw [hplace] at hcontents
  refine ⟨sound_fullCheckout, hquiet, file, w', h, hcontents "spack.yaml" [],
    ⟨m, hload, hincludes⟩, ?_, ?_, ?_, ?_⟩
  · refine (hcontents "site" ["compilers", "gcc.yaml"]).trans ?_
    rw [contents, if_neg (by decide), if_pos rfl]
    decide +kernel
  · refine (hcontents "common" ["modules.yaml"]).trans ?_
    rw [contents, if_neg (by decide), if_neg (by decide), if_pos rfl]
    decide +kernel
  · refine (hcontents "common" ["packages.yaml"]).trans ?_
    rw [contents, if_neg (by decide), if_neg (by decide), if_pos rfl]
    decide +kernel
  · refine (hcontents (temporaryName 0) []).trans ?_
    rw [contents, if_neg (by decide +kernel), if_neg (by decide +kernel),
      if_neg (by decide +kernel)]

end Witness

end Environment

end EnvCompose
