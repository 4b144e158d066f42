import EnvCompose.Proofs.Container.Naming

/-!
# Containers written one after the other

A container takes nothing away that another one in the same directory is composed of, and makes
nothing but its own directory there. So if both can be written, either can be written after the
other, unless they have the same directory.
-/
namespace EnvCompose.Container
open Disk Workspace

variable {before : Disk} {c other : Container} {w w' : Workspace} {text : String}

/-- What a container is composed of is read again where there is more on the disk. -/
theorem rereads_compose (c : Container) :
    Rereads (c.compose : Build (StateM Workspace) Manifest) := by
  have htemplate : Rereads (c.template.read :
      ExceptT TemplateError (StateM Workspace) String) := by
    rw [Template.read]
    split
    · exact rereads_answer (.ok _)
    · exact rereads_adapt (rereads_readText _)
    · exact rereads_adapt (rereads_readText _)
  have hload (file : Path) : Rereads (Manifest.load file : Build (StateM Workspace) Manifest) :=
    rereads_bind (rereads_adapt (rereads_readText file)) fun text => rereads_answer _
  have hunmarked (pins : Path) :
      Rereads (loadUnmarked pins : Build (StateM Workspace) Yaml.Value) := by
    rw [loadUnmarked]
    refine rereads_bind (rereads_adapt (rereads_readText pins)) fun text => ?_
    split
    · exact rereads_answer (.error _)
    · exact rereads_answer (.ok _)
  have hpackages (pins : Path) :
      Rereads (loadPackages pins : Build (StateM Workspace) Yaml.Value) := by
    rw [loadPackages]
    refine rereads_bind (hunmarked pins) fun doc => ?_
    split
    · exact rereads_bind (rereads_debug _) fun _ => rereads_answer (.ok _)
    · exact rereads_answer (.error _)
  have hpins : Rereads (c.basePackages.mapM loadPackages :
      Build (StateM Workspace) (Option Yaml.Value)) := by
    cases c.basePackages with
    | none => exact rereads_answer (.ok none)
    | some pins => exact rereads_bind (hpackages pins) fun _ => rereads_answer (.ok _)
  rw [compose]
  refine rereads_bind (rereads_adapt htemplate) fun text => ?_
  refine rereads_bind (rereads_answer _) fun template => ?_
  refine rereads_bind (hload _) fun definition => ?_
  exact rereads_bind hpins fun packages => rereads_answer (.ok _)

/-- What it takes to write a container, and what is there then. -/
structure Stored (w : Workspace) (c : Container) (text : String) (d : Disk) : Prop where
  composed : ∃ m w₁, w.run c.compose = (.ok m, w₁) ∧ m.render none = .ok text
  checked : checkPath (c.directory.join manifestFile) = .ok ()
  hasRoom : w.disk.HasRoom (c.directory.join manifestFile)
  furnished : Furnished w.disk c.directory (contents text) d

/-- A file that is written at the end of a build had room for its temporary file. -/
theorem triple_writeComposed_room (hd : before.Sound) (c : Container) (manifest : Manifest) :
    Triple (· = before) (c.writeComposed manifest)
      (fun _ _ => checkPath (c.directory.join manifestFile) = .ok () ∧
        before.HasRoom (c.directory.join manifestFile))
      (fun _ => True) := by
  have hmake : Triple (· = before)
      (Environment.makeDirectory c.directory : Build (StateM Workspace) Unit)
      (fun _ d => d.home = before.home) (fun _ => True) := by
    have hspares : Triple (before.Spares fun _ => True)
        (Environment.makeDirectory c.directory : Build (StateM Workspace) Unit)
        (fun _ d => before.Spares (fun _ => True) d ∧ d.Reaches c.directory)
        (before.Spares fun _ => True) := triple_makeDirectory c.directory
    exact hspares.weaken (by rintro _ rfl; exact Spares.refl hd) (fun _ _ h => h.1.home)
      fun _ _ => trivial
  have hwrite : Triple (·.home = before.home)
      (manifest.write (c.directory.join manifestFile) none : Build (StateM Workspace) Unit)
      (fun _ _ => checkPath (c.directory.join manifestFile) = .ok () ∧
        before.HasRoom (c.directory.join manifestFile)) (fun _ => True) := by
    refine Manifest.triple_write_of (fun _ _ => trivial) fun text _ => ?_
    exact (triple_and (triple_writeAtomic_checked _ text) (triple_writeAtomic_room _ text)).weaken
      (fun _ h => ⟨trivial, h⟩) (fun _ _ h => h) fun _ _ => trivial
  exact triple_writeComposed_of hmake hwrite fun _ h => h

theorem stored_of_write (hd : w.disk.Sound) (hn : IsFileName c.name) (hup : ".." ∉ stepsOf c.dir)
    {file : Path} (h : w.run c.write = (.ok file, w')) :
    ∃ text, c.Stored w text w'.disk := by
  have hrefused : ¬((w.disk.kind c.directory).toOption.isSome = true ∨
      (w.run c.compose).1.isOk = false) := fun hyes => by
    have hfails := (run_write_of_refused hyes).1
    rw [h] at hfails
    cases hfails
  obtain ⟨hno, hcompose⟩ := not_or.mp hrefused
  have hno : (w.disk.kind c.directory).toOption = none := by simpa using hno
  obtain ⟨m, w₁, hrun, hdisk, hwrite⟩ := run_write_of_composed hno (by simpa using hcompose)
  rw [hwrite] at h
  obtain ⟨-, text, htext, hfurnished⟩ := (triple_writeComposed_furnished hd (isEmpty_join hn)
    (points_not_mem_join hn hup) hno m).of_ok hdisk h
  obtain ⟨hchecked, hroom⟩ := (triple_writeComposed_room hd c m).of_ok hdisk h
  exact ⟨text, ⟨m, w₁, hrun, htext⟩, hchecked, hroom, hfurnished⟩

/-- What has been composed is written to a free place in a directory that is there. -/
theorem triple_writeComposed_succeeds (hd : before.Sound) (hn : IsMemberName c.name)
    (hdir : before.Reaches c.dir)
    (hfree : before.entryAt? (before.destination c.dir ++ [c.name]) = none)
    (hchecked : checkPath (c.directory.join manifestFile) = .ok ())
    (hroom : before.HasRoom (c.directory.join manifestFile)) {m : Manifest}
    (htext : m.render none = .ok text) :
    Triple (· = before) (c.writeComposed m) (fun _ _ => True) (fun _ => False) := by
  have hdirectory : checkPath c.directory = .ok () :=
    checkPath_of_join isMemberName_manifestFile.toIsFileName (isEmpty_join hn.toIsFileName) hchecked
  have hmake : Triple (· = before)
      (Environment.makeDirectory c.directory : Build (StateM Workspace) Unit)
      (fun _ d => before.Within d ∧ d.Vacant c.directory) (fun _ => False) :=
    triple_adapt (triple_makeDirectories_vacant hd hn hdir hdirectory hfree)
  have hwrite : Triple (fun d => before.Within d ∧ d.Vacant c.directory)
      (m.write (c.directory.join manifestFile) none : Build (StateM Workspace) Unit)
      (fun _ _ => True) (fun _ => False) := by
    refine triple_of_each fun d ⟨hwithin, hvacant⟩ => ?_
    have hatomic := triple_writeAtomic_vacant hwithin.sound isMemberName_manifestFile hvacant
      hchecked (hroom.of_home hwithin.home) text
    have hrender : Triple (· = d)
        (ExceptT.mk (pure (m.render none)) : Build (StateM Workspace) String)
        (fun text' d' => d' = d ∧ text' = text) (fun _ => False) := by
      rw [htext]
      exact triple_pure fun _ h => ⟨h, rfl⟩
    rw [Manifest.write]
    refine triple_bind hrender fun text' => triple_of_and fun heq => ?_
    subst heq
    exact hatomic
  exact triple_writeComposed_of hmake hwrite fun _ h => h

/-- A container that can be composed is written to a free place in a directory that is there. -/
theorem exists_write (hd : w.disk.Sound) (hn : IsMemberName c.name) (hdir : w.disk.Reaches c.dir)
    (hfree : w.disk.entryAt? (w.disk.destination c.dir ++ [c.name]) = none)
    (hchecked : checkPath (c.directory.join manifestFile) = .ok ())
    (hroom : w.disk.HasRoom (c.directory.join manifestFile)) {m : Manifest} {w₁ : Workspace}
    (hcompose : w.run c.compose = (.ok m, w₁)) (htext : m.render none = .ok text) :
    ∃ file w', w.run c.write = (.ok file, w') := by
  have hno : (w.disk.kind c.directory).toOption.isSome = false := by
    rw [Bool.eq_false_iff]
    intro hsome
    refine (of_kind hsome).2 ?_
    rw [directory, destination_join hn.toIsFileName, hfree]
  have hdisk : w₁.disk = w.disk := by
    have hkept := run_of_keeps (keeps_compose c : Keeps (· = w.disk) _) rfl
    rwa [hcompose] at hkept
  have hwrite := triple_writeComposed_succeeds hd hn hdir hfree hchecked hroom htext
  rw [run_write, hno, if_neg Bool.false_ne_true, run_bind, hcompose]
  dsimp only
  rcases hrun : w₁.run (c.writeComposed m) with ⟨e | file, w'⟩
  · exact (hwrite.of_error hdisk hrun).elim
  · exact ⟨file, w', rfl⟩

namespace Stored

variable {d : Disk}

theorem within (h : c.Stored w text d) : w.disk.Within d where
  home := h.furnished.home
  sound := h.furnished.sound
  kept l e he _ := by rw [h.furnished.entryAt?_eq (by simp [he]), he]

theorem isMemberName (h : c.Stored w text d) (hn : IsFileName c.name) : IsMemberName c.name := by
  refine h.furnished.sound.names _ (by rw [h.furnished.directory]; simp) c.name ?_
  rw [directory, destination_join hn]
  simp

theorem reaches_dir (h : c.Stored w text d) (hn : IsFileName c.name) : d.Reaches c.dir := by
  have hreaches := h.furnished.reaches
  rw [directory, Reaches, origin_join hn, stepsOf_join hn, passes_append] at hreaches
  exact hreaches.1

theorem manifest (h : c.Stored w text d) :
    d.entryAt? (w.disk.destination c.directory ++ [manifestFile.text]) =
      some (.file text.toUTF8) := by
  have hholds := congrFun (h.furnished.holds manifestFile.text) []
  rw [below, List.append_nil] at hholds
  rw [hholds, contents, if_pos rfl]
  rfl

theorem renders (h : c.Stored w text d) : c.Renders w text := by
  obtain ⟨m, w₁, hcompose, htext⟩ := h.composed
  exact ⟨m, by rw [hcompose], htext⟩

/-- The place of another container in the same directory stays free. -/
theorem free (h : c.Stored w text d) (hn : IsFileName c.name) (hn' : IsFileName other.name)
    (hdir : other.dir = c.dir) (hne : c.name ≠ other.name) {text' : String} {d' : Disk}
    (h' : other.Stored w text' d') :
    d.entryAt? (d.destination other.dir ++ [other.name]) = none := by
  have hplace : w.disk.destination c.directory = w.disk.destination c.dir ++ [c.name] :=
    destination_join hn
  have habsent := h'.furnished.absent
  rw [directory, destination_join hn', hdir] at habsent
  have hapart : ¬w.disk.destination c.directory <+: w.disk.destination c.dir ++ [other.name] := by
    rw [hplace]
    intro hbelow
    have heq := List.append_cancel_left (hbelow.eq_of_length (by simp))
    exact hne (List.singleton_inj.mp heq)
  rw [hdir, h.within.destination_eq]
  obtain hsame | ⟨hbelow, -, -⟩ := h.furnished.outside hapart
  · rw [hsame, habsent]
  · rw [hplace] at hbelow
    have heq := List.append_cancel_left (hbelow.eq_of_length (by simp))
    exact (hne (List.singleton_inj.mp heq).symm).elim

end Stored

/-- Another container in the same directory is written after the first as it would be alone, and
both are there then. -/
theorem exists_write_after (hn : IsFileName c.name) (hn' : IsFileName other.name)
    (hdir : other.dir = c.dir) (hup : ".." ∉ stepsOf c.dir)
    (hne : c.name ≠ other.name) {text' : String} {d' : Disk} (h : c.Stored w text w'.disk)
    (h' : other.Stored w text' d') :
    ∃ file w₂, w'.run other.write = (.ok file, w₂) ∧
      w₂.disk.entryAt? (w.disk.destination c.directory ++ [manifestFile.text]) =
        some (.file text.toUTF8) ∧
      w₂.disk.entryAt? (w.disk.destination other.directory ++ [manifestFile.text]) =
        some (.file text'.toUTF8) := by
  obtain ⟨m, w₁, hcompose, htext⟩ := h'.composed
  obtain ⟨w₁', hcompose', -, -⟩ := (rereads_compose other).again w w' h.within m w₁ hcompose
  have hroom : w'.disk.HasRoom (other.directory.join manifestFile) :=
    h'.hasRoom.of_home h.within.home
  obtain ⟨file, w₂, hrun⟩ := exists_write h.within.sound (h'.isMemberName hn')
    (hdir ▸ h.reaches_dir hn) (h.free hn hn' hdir hne h') h'.checked hroom hcompose' htext
  obtain ⟨text'', h''⟩ := stored_of_write h.within.sound hn' (by rwa [hdir]) hrun
  have hsame : text'' = text' := by
    obtain ⟨m'', w₁'', hcompose'', htext''⟩ := h''.composed
    rw [hcompose'] at hcompose''
    cases hcompose''
    rw [htext] at htext''
    exact (Except.ok.inj htext'').symm
  have hmanifest := h''.manifest
  rw [hsame, h.within.destination_eq] at hmanifest
  exact ⟨file, w₂, hrun, h''.within.entryAt?_eq h.manifest, hmanifest⟩

/-- A container whose directory has been made for another is not written. -/
theorem run_write_after_same (hn : IsFileName c.name) (hdir : other.directory = c.directory)
    (h : c.Stored w text w'.disk) :
    w'.run other.write = (.error (.alreadyExists other.directory), w') := by
  have hchecked : checkPath c.directory = .ok () :=
    checkPath_of_join isMemberName_manifestFile.toIsFileName (isEmpty_join hn) h.checked
  have hfound : (w'.disk.kind other.directory).toOption.isSome = true := by
    rw [hdir]
    exact isSome_kind_of_reaches hchecked h.furnished.reaches
  rw [run_write, hfound, if_pos rfl]

private theorem isFileName_name {t : Template} {name : String} (ht : Leads t.name)
    (hpoint : t.name ≠ ".")
    (hslash : '/' ∉ name.toList) : IsFileName (t.name ++ "." ++ stem name) := by
  obtain ⟨hne, hno⟩ := ht
  cases hname : t.name.toList with
  | nil => exact (hne (String.toList_eq_nil_iff.mp hname)).elim
  | cons first rest =>
    refine ⟨by simp, by simp [hno, no_slash_stem hslash], fun h => ?_, fun h => ?_⟩
    · have htexts := congrArg String.toList h
      simp [hname] at htexts
    · have htexts := congrArg String.toList h
      cases rest with
      | nil =>
        have hfirst : first = '.' := by simp [hname] at htexts; exact htexts.1
        exact hpoint (String.toList_inj.mp (by rw [hname, hfirst]; rfl))
      | cons second rest => simp [hname] at htexts

/-- A container without a name of its own is named after its template and its definition, and in
full if the definition has no point after its first character. Two of them share a directory if they
are named alike. Then one cannot be written after the other. Otherwise it can if it could alone. -/
theorem default_directories_differ_iff (hd : w.disk.Sound) {definitions dir : Path}
    {templates : TemplateCollection} {template c₁ c₂ : String} {t : Template}
    {pins₁ pins₂ : Option Path} (ht : (w.run (templates.resolve (some template))).1 = .ok t)
    (h₁ : Defines w.disk definitions c₁) (h₂ : Defines w.disk definitions c₂) :
    ∃ k₁ k₂ : Container,
      w.run (new definitions templates c₁ template none dir pins₁) = (.ok k₁, w) ∧
      w.run (new definitions templates c₂ template none dir pins₂) = (.ok k₂, w) ∧
      (k₁.name = t.name ++ "." ++ stem c₁ ∧ k₂.name = t.name ++ "." ++ stem c₂) ∧
      (k₁.name = t.name ++ "." ++ c₁ ↔ '.' ∉ c₁.toList.tail ∨ c₁ = "..") ∧
      (k₂.name = t.name ++ "." ++ c₂ ↔ '.' ∉ c₂.toList.tail ∨ c₂ = "..") ∧
      (k₁.directory ≠ k₂.directory ↔ stem c₁ ≠ stem c₂) ∧
      (".." ∉ stepsOf dir → t.name ≠ "." → ∀ f₁ w₁ f₂ w₂,
        w.run k₁.write = (.ok f₁, w₁) → w.run k₂.write = (.ok f₂, w₂) →
        (stem c₁ = stem c₂ → w₁.run k₂.write = (.error (.alreadyExists k₂.directory), w₁)) ∧
        (stem c₁ ≠ stem c₂ → ∃ text₁ text₂ f w', k₁.Renders w text₁ ∧ k₂.Renders w text₂ ∧
          w₁.run k₂.write = (.ok f, w') ∧
          w'.disk.entryAt? (w.disk.destination k₁.directory ++ [manifestFile.text]) =
            some (.file text₁.toUTF8) ∧
          w'.disk.entryAt? (w.disk.destination k₂.directory ++ [manifestFile.text]) =
            some (.file text₂.toUTF8))) := by
  have hfull {c : String} (h : Defines w.disk definitions c) :
      t.name ++ "." ++ stem c = t.name ++ "." ++ c ↔ '.' ∉ c.toList.tail ∨ c = ".." := by
    rw [← stem_eq_self_iff h.no_slash]
    simp [← String.toList_inj]
  refine ⟨_, _, run_new h₁ ht, run_new h₂ ht, ⟨rfl, rfl⟩, hfull h₁, hfull h₂,
    not_congr directory_eq_iff, ?_⟩
  intro hup hpoint f₁ w₁ f₂ w₂ hwrite₁ hwrite₂
  have hlead := (of_resolve (some template)).2 t ht
  have hn₁ : IsFileName (ofDefinition definitions t dir pins₁ c₁).name :=
    isFileName_name hlead hpoint h₁.no_slash
  have hn₂ : IsFileName (ofDefinition definitions t dir pins₂ c₂).name :=
    isFileName_name hlead hpoint h₂.no_slash
  have hdir : (ofDefinition definitions t dir pins₂ c₂).dir =
      (ofDefinition definitions t dir pins₁ c₁).dir := rfl
  obtain ⟨text₁, hstored₁⟩ := stored_of_write hd hn₁ hup hwrite₁
  obtain ⟨text₂, hstored₂⟩ := stored_of_write hd hn₂ hup hwrite₂
  refine ⟨fun heq => ?_, fun hne => ?_⟩
  · exact run_write_after_same hn₁ (directory_eq_iff.mpr heq.symm) hstored₁
  · have hnames : (ofDefinition definitions t dir pins₁ c₁).name ≠
        (ofDefinition definitions t dir pins₂ c₂).name := by
      simpa [ofDefinition, ← String.toList_inj] using hne
    obtain ⟨f, w', hrun, hfile₁, hfile₂⟩ := exists_write_after hn₁ hn₂ hdir hup hnames hstored₁
      hstored₂
    exact ⟨text₁, text₂, f, w', hstored₁.renders, hstored₂.renders, hrun, hfile₁, hfile₂⟩

section Witness

/-- A directory with three definitions, two of which differ after the last point only. -/
def dottedDefinitions : Workspace where
  disk := { root := .directory [("stack", .directory [
    ("a.x.yaml", .file "spack:\n  view: true\n".toUTF8),
    ("a.y.yaml", .file "spack:\n  view: false\n".toUTF8),
    ("b.yaml", .file "spack:\n  view: true\n".toUTF8)])], home := ["stack"] }

private theorem sound_dottedDefinitions : dottedDefinitions.disk.Sound where
  names := by
    refine names_of_members (List.forall_mem_singleton.mpr ⟨by decide, names_of_members ?_⟩)
    refine List.forall_mem_cons.mpr ⟨⟨by decide, names_of_file _⟩, ?_⟩
    refine List.forall_mem_cons.mpr ⟨⟨by decide, names_of_file _⟩, ?_⟩
    exact List.forall_mem_singleton.mpr ⟨by decide, names_of_file _⟩
  home := by decide +kernel

private theorem defines_dottedDefinitions : Defines dottedDefinitions.disk ⟨"/stack"⟩ "a.x" ∧
    Defines dottedDefinitions.disk ⟨"/stack"⟩ "a.y" ∧
    Defines dottedDefinitions.disk ⟨"/stack"⟩ "b" := by
  refine ⟨⟨by decide, by decide, ?_⟩, ⟨by decide, by decide, ?_⟩, ⟨by decide, by decide, ?_⟩⟩ <;>
    decide +kernel

private theorem resolve_dottedDefinitions :
    (dottedDefinitions.run (TemplateCollection.resolve ⟨none⟩ (some "empty"))).1 =
      .ok ⟨"empty", .builtIn "spack:\n  view: false\n"⟩ := by
  rfl

def dottedContainer (name : String) : Container :=
  ofDefinition ⟨"/stack"⟩ ⟨"empty", .builtIn "spack:\n  view: false\n"⟩ ⟨"envs"⟩ none name

theorem default_directories_differ_iff_dottedDefinitions : dottedDefinitions.disk.Sound ∧
    (dottedContainer "a.x").directory ≠ (dottedContainer "b").directory ∧
    ∃ f₁ w₁ f₂ w₂, dottedDefinitions.run (dottedContainer "a.x").write = (.ok f₁, w₁) ∧
      w₁.run (dottedContainer "b").write = (.ok f₂, w₂) := by
  obtain ⟨hax, -, hb⟩ := defines_dottedDefinitions
  obtain ⟨k₁, k₂, hnew₁, hnew₂, -, -, -, hdiffer, hwrites⟩ :=
    default_directories_differ_iff sound_dottedDefinitions resolve_dottedDefinitions hax hb
  obtain rfl : dottedContainer "a.x" = k₁ :=
    Except.ok.inj (congrArg Prod.fst ((run_new hax resolve_dottedDefinitions).symm.trans hnew₁))
  obtain rfl : dottedContainer "b" = k₂ :=
    Except.ok.inj (congrArg Prod.fst ((run_new hb resolve_dottedDefinitions).symm.trans hnew₂))
  have hne : stem "a.x" ≠ stem "b" := by decide +kernel
  obtain ⟨f₁, w₁, hwrite₁⟩ := exists_run_eq_ok
    (by decide +kernel : (dottedDefinitions.run (dottedContainer "a.x").write).1.isOk = true)
  obtain ⟨f₂, w₂, hwrite₂⟩ := exists_run_eq_ok
    (by decide +kernel : (dottedDefinitions.run (dottedContainer "b").write).1.isOk = true)
  obtain ⟨-, -, f, w', -, -, hafter, -⟩ := (hwrites (by decide +kernel) (by decide +kernel)
    f₁ w₁ f₂ w₂ hwrite₁ hwrite₂).2 hne
  exact ⟨sound_dottedDefinitions, hdiffer.mpr hne, f₁, w₁, f, w', hwrite₁, hafter⟩

/-- Two definitions whose names differ after the last point only get one container name. -/
theorem default_names_collide : dottedDefinitions.disk.Sound ∧
    Defines dottedDefinitions.disk ⟨"/stack"⟩ "a.x" ∧
    Defines dottedDefinitions.disk ⟨"/stack"⟩ "a.y" ∧
    dottedDefinitions.run (new ⟨"/stack"⟩ ⟨none⟩ "a.x" "empty" none ⟨"envs"⟩ none) =
      (.ok (dottedContainer "a.x"), dottedDefinitions) ∧
    dottedDefinitions.run (new ⟨"/stack"⟩ ⟨none⟩ "a.y" "empty" none ⟨"envs"⟩ none) =
      (.ok (dottedContainer "a.y"), dottedDefinitions) ∧
    (dottedContainer "a.x").name = "empty.a" ∧ (dottedContainer "a.y").name = "empty.a" ∧
    (dottedContainer "a.x").directory = (dottedContainer "a.y").directory ∧
    ∃ file w', dottedDefinitions.run (dottedContainer "a.x").write = (.ok file, w') ∧
      w'.run (dottedContainer "a.y").write =
        (.error (.alreadyExists (dottedContainer "a.y").directory), w') := by
  obtain ⟨hax, hay, -⟩ := defines_dottedDefinitions
  obtain ⟨file, w', hwrite⟩ := exists_run_eq_ok
    (by decide +kernel : (dottedDefinitions.run (dottedContainer "a.x").write).1.isOk = true)
  have hn : IsFileName (dottedContainer "a.x").name :=
    isFileName_name ⟨by decide, by decide⟩ (by decide) (by decide)
  obtain ⟨text, hstored⟩ := stored_of_write sound_dottedDefinitions hn (by decide +kernel) hwrite
  have hdirectory : (dottedContainer "a.y").directory = (dottedContainer "a.x").directory := by
    decide +kernel
  exact ⟨sound_dottedDefinitions, hax, hay, run_new hax resolve_dottedDefinitions,
    run_new hay resolve_dottedDefinitions,
    by decide +kernel, by decide +kernel, hdirectory.symm, file, w', hwrite,
    run_write_after_same hn hdirectory hstored⟩

end Witness

end EnvCompose.Container
