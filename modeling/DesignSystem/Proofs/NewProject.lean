import Mathlib.Data.List.Infix
import DesignSystem.Proofs.Formatting
import DesignSystem.Proofs.MissingFolders

/-! Starting a project. The two files are both new, or none is written, unless the path climbs from
a folder that is only made on the way. -/

namespace DesignSystem

namespace World

open Machine

variable {w u v : World} {folder : Path} {name : String}

section Places

theorem IsFolderAt.of_inner {q front : Place} (h : w.IsFolderAt q) (hp : front <+: q) :
    w.IsFolderAt front := by
  obtain ⟨rest, rfl⟩ := hp
  induction rest using List.reverseRecOn with
  | nil => rwa [List.append_nil] at h
  | append_singleton rest name ih =>
    rw [← List.append_assoc] at h
    have houter := h.outer
    rw [List.dropLast_concat] at houter
    exact ih houter

theorem seen_concat_of_not_folder {q : Place} (h : ¬ w.IsFolderAt q) (name : String) :
    w.seen (q ++ [name]) = none := by
  have hbind : w.root.at? (q ++ [name]) = (w.root.at? q).bind (Item.at? [name]) :=
    Item.at?_append q [name] w.root
  rw [seen, hbind]
  cases hi : w.root.at? q with
  | none => rfl
  | some item =>
    cases item with
    | file content => rfl
    | folder items => exact absurd (isFolderAt_iff.mpr ⟨items, hi⟩) h

theorem seen_of_find?_join {place : Place} (h : IsFileName name)
    (hplace : w.folderAt folder = .ok place) (hnone : w.find? (folder.join ⟨name⟩) = none) :
    w.seen (place ++ [name]) = none := by
  rw [find?, find, locate_join w folder h, hplace] at hnone
  simp only [Except.map, bind, Except.bind] at hnone
  rw [seen]
  cases hi : w.root.at? (place ++ [name]) with
  | none => rfl
  | some item => cases item <;> simp [hi, Except.toOption] at hnone

theorem folderAt_mono {place : Place} (hw : v.workingPlace = w.workingPlace)
    (hf : ∀ q, w.IsFolderAt q → v.IsFolderAt q) (h : w.folderAt folder = .ok place) :
    v.folderAt folder = .ok place := by
  have hstart : v.startOf folder = w.startOf folder := startOf_congr hw folder
  obtain ⟨rfl, hfolders⟩ := folderAt_eq_ok_target_iff.mp h
  refine folderAt_eq_ok_target_iff.mpr ⟨by rw [target, target, hstart], fun front hp => ?_⟩
  rw [hstart]
  exact hf _ (hfolders front hp)

/-- A name that leads nowhere is not in the folder that is there in the end. -/
theorem seen_new {place : Place} (hname : IsFileName name)
    (hnone : w.find? (folder.join ⟨name⟩) = none) (hmade : MakesFolders (w.target folder) w u)
    (hplace : u.folderAt folder = .ok place) :
    place = w.target folder ∧ w.seen (place ++ [name]) = none ∧
      u.seen (place ++ [name]) = none := by
  obtain ⟨ht, hfolders⟩ := folderAt_eq_ok_target_iff.mp hplace
  rw [hmade.target_eq] at ht
  have hw : w.seen (place ++ [name]) = none := by
    by_cases hfolder : w.IsFolderAt place
    · -- No folder on the way is new, since the last one is not.
      refine seen_of_find?_join hname (folderAt_eq_ok_target_iff.mpr ⟨ht, fun front hp => ?_⟩) hnone
      have hthere := hfolders front hp
      rw [startOf_congr hmade.workingPlace] at hthere
      rcases hmade.seen (front.foldl Place.step (w.startOf folder)) with he | ⟨-, -, hq⟩
      · rwa [IsFolderAt, ← he]
      · exact hfolder.of_inner (ht ▸ hq)
    · exact seen_concat_of_not_folder hfolder name
  refine ⟨ht, hw, ?_⟩
  rcases hmade.seen (place ++ [name]) with he | ⟨-, -, hq⟩
  · rw [he, hw]
  · have hlength := hq.length_le
    rw [ht, List.length_append, List.length_singleton] at hlength
    omega

end Places

section Writing

/-- A file is written where nothing is, and nothing else happens. -/
theorem exists_write_join {place : Place} (hname : IsFileName name)
    (hplace : w.folderAt folder = .ok place) (hnone : w.seen (place ++ [name]) = none)
    (text : String) : ∃ v, w.write (folder.join ⟨name⟩) text = .ok v ∧
      v.workingPlace = w.workingPlace ∧
      ∀ q, v.seen q = if q = place ++ [name] then some (some (.text text)) else w.seen q := by
  have hi : w.root.at? (place ++ [name]) = none := by simpa [seen] using hnone
  have hlocate : w.locate (folder.join ⟨name⟩) =
      .ok (⟨folder.steps, name, false⟩, place ++ [name]) := by
    rw [locate_join w folder hname, hplace]
    rfl
  obtain ⟨v, hv⟩ : ∃ v, w.write (folder.join ⟨name⟩) text = .ok v := by
    rw [write, hlocate]
    simp [bind, Except.bind, hi]
  obtain ⟨route, inner, -, hl, -, -, hw, hseen⟩ := exists_of_write hv
  have hinner : place ++ [name] = inner ++ [route.last] :=
    congrArg Prod.snd (Except.ok.inj (hlocate.symm.trans hl))
  exact ⟨v, hv, hw, fun q => by rw [hseen, hinner]⟩

theorem read_join_eq_ok_iff {place : Place} {text : String} (hname : IsFileName name)
    (hplace : w.folderAt folder = .ok place) :
    w.read (folder.join ⟨name⟩) = .ok text ↔
      w.seen (place ++ [name]) = some (some (.text text)) := by
  rw [read_eq_ok_iff, locate_join w folder hname, hplace, seen_eq_file_iff]
  simp [Except.map]

end Writing

section Running

def initialized (w : World) (folder : Path) : Except Failure Unit × World :=
  (initProject folder false : ExceptT Failure (StateM World) Unit).run.run w

def createBoth (folder : Path) : ExceptT Failure (StateM World) Unit := do
  createFile (folder.join Manifest.fileName) starterManifest
  createFile (folder.join starterName) starterDocument

/-- What is left to do when neither file is there. -/
def startProject (folder : Path) : ExceptT Failure (StateM World) Unit := do
  if !(← ExceptT.lift (Host.isThere folder)) then
    attempt .makeFolder folder (Host.makeFolders folder)
  createBoth folder

theorem run_refuseExisting (w : World) (file : Path) :
    ∃ text, (refuseExisting file : ExceptT Failure (StateM World) Unit).run.run w =
      (if (w.find? file).isSome then .error (.occupied text) else .ok (), w) := by
  obtain ⟨text, ht⟩ := exists_run_display w file
  refine ⟨text, ?_⟩
  rw [refuseExisting, run_bind_ok (run_isThere w file)]
  cases (w.find? file).isSome with
  | false => rfl
  | true =>
    have hdisplay : (ExceptT.lift (Host.display file) :
        ExceptT Failure (StateM World) String).run.run w = (.ok text, w) := by
      rw [run_lift, ht]
    simp only [if_true]
    exact run_bind_ok hdisplay

theorem initialized_eq (w : World) (folder : Path) : w.initialized folder =
    ([folder.join Manifest.fileName, folder.join starterName].forM refuseExisting >>= fun _ =>
      startProject folder : ExceptT Failure (StateM World) Unit).run.run w := rfl

theorem run_refusals (w : World) (first second : Path) :
    ∃ result, ([first, second].forM refuseExisting :
        ExceptT Failure (StateM World) Unit).run.run w = (result, w) ∧
      (result = .ok () ↔ w.find? first = none ∧ w.find? second = none) := by
  obtain ⟨_, h₁⟩ := run_refuseExisting w first
  obtain ⟨_, h₂⟩ := run_refuseExisting w second
  cases hf : w.find? first with
  | some item =>
    rw [hf] at h₁
    exact ⟨_, run_bind_error h₁, by simp⟩
  | none =>
    rw [hf] at h₁
    cases hs : w.find? second with
    | some item =>
      rw [hs] at h₂
      exact ⟨_, (run_bind_ok h₁).trans (run_bind_error h₂), by simp⟩
    | none =>
      rw [hs] at h₂
      exact ⟨.ok (), (run_bind_ok h₁).trans (run_bind_ok h₂), by simp⟩

theorem run_createFile (w : World) (file : Path) (text : String) :
    (createFile file text : ExceptT Failure (StateM World) Unit).run.run w =
      match w.write file text with
      | .ok v => (.ok (), v.reported "Created" file)
      | .error e => (.error (.access file .writeFile e), w) := by
  have hwrite : (attempt .writeFile file (Host.write file text) :
      ExceptT Failure (StateM World) Unit).run.run w =
        ((advance (w.write file text) w).1.mapError (.access file .writeFile),
          (advance (w.write file text) w).2) := by
    rw [run_attempt, run_write]
  rw [createFile]
  cases h : w.write file text with
  | ok v =>
    rw [h] at hwrite
    exact run_bind_ok hwrite
  | error e =>
    rw [h] at hwrite
    exact run_bind_error hwrite

theorem seen_reported (w : World) (verb : String) (p : Path) :
    (w.reported verb p).seen = w.seen ∧ (w.reported verb p).workingPlace = w.workingPlace := by
  obtain ⟨line, hl⟩ := exists_reported_eq w verb p
  rw [hl]
  exact ⟨rfl, rfl⟩

theorem isFileName_manifest : IsFileName "siam.yaml" := by decide

theorem isFileName_starter : IsFileName "system.ssf" := by decide

theorem run_createFile_new {place : Place} (hname : IsFileName name)
    (hplace : w.folderAt folder = .ok place) (hnone : w.seen (place ++ [name]) = none)
    (text : String) : ∃ v, (createFile (folder.join ⟨name⟩) text :
        ExceptT Failure (StateM World) Unit).run.run w = (.ok (), v) ∧
      v.folderAt folder = .ok place ∧
      ∀ q, v.seen q = if q = place ++ [name] then some (some (.text text)) else w.seen q := by
  obtain ⟨u, hu, hworking, hseen⟩ := exists_write_join hname hplace hnone text
  obtain ⟨hsame, hsameWorking⟩ := seen_reported u "Created" (folder.join ⟨name⟩)
  have hrun := run_createFile w (folder.join ⟨name⟩) text
  rw [hu] at hrun
  refine ⟨_, hrun, ?_, fun q => by rw [hsame, hseen]⟩
  refine folderAt_mono (hsameWorking.trans hworking) (fun q hq => ?_) hplace
  have hne : q ≠ place ++ [name] := by
    rintro rfl
    rw [IsFolderAt, hnone] at hq
    cases hq
  rwa [IsFolderAt, hsame, hseen, if_neg hne]

/-- Where neither file is, both are written. -/
theorem run_createBoth {place : Place} (hplace : w.folderAt folder = .ok place)
    (hm : w.seen (place ++ ["siam.yaml"]) = none) (hd : w.seen (place ++ ["system.ssf"]) = none) :
    ∃ v, (createBoth folder).run.run w = (.ok (), v) ∧
      v.read (folder.join Manifest.fileName) = .ok starterManifest ∧
      v.read (folder.join starterName) = .ok starterDocument ∧ ∀ q, v.seen q =
        if q = place ++ ["siam.yaml"] then some (some (.text starterManifest))
        else if q = place ++ ["system.ssf"] then some (some (.text starterDocument))
        else w.seen q := by
  obtain ⟨u, hu, hplaceU, hseenU⟩ :=
    run_createFile_new isFileName_manifest hplace hm starterManifest
  have hdU : u.seen (place ++ ["system.ssf"]) = none := by
    rw [hseenU, if_neg (by simp), hd]
  obtain ⟨v, hv, hplaceV, hseenV⟩ :=
    run_createFile_new isFileName_starter hplaceU hdU starterDocument
  have hseen : ∀ q, v.seen q =
      if q = place ++ ["siam.yaml"] then some (some (.text starterManifest))
      else if q = place ++ ["system.ssf"] then some (some (.text starterDocument))
      else w.seen q := by
    intro q
    rw [hseenV, hseenU]
    by_cases hq : q = place ++ ["system.ssf"]
    · rw [if_pos hq, if_neg (by simp [hq]), if_pos hq]
    · rw [if_neg hq, if_neg hq]
  refine ⟨v, (run_bind_ok hu).trans hv, ?_, ?_, hseen⟩
  · exact (read_join_eq_ok_iff isFileName_manifest hplaceV).mpr ((hseen _).trans (if_pos rfl))
  · exact (read_join_eq_ok_iff isFileName_starter hplaceV).mpr (by simp [hseen])

theorem run_createBoth_of_error {e : FileError} (h : w.folderAt folder = .error e) :
    ∃ f, (createBoth folder).run.run w = (.error f, w) := by
  have hlocate : w.locate (folder.join Manifest.fileName) = .error e := by
    rw [Manifest.fileName, locate_join w folder isFileName_manifest, h]
    rfl
  have hwrite : w.write (folder.join Manifest.fileName) starterManifest = .error e := by
    rw [write, hlocate]
    rfl
  have hrun := run_createFile w (folder.join Manifest.fileName) starterManifest
  rw [hwrite] at hrun
  exact ⟨_, run_bind_error hrun⟩

/-- A folder is there, or can be made. -/
def IsOpenTo (w : World) (folder : Path) : Prop :=
  (∃ items, w.find? folder = some (.folder items)) ∨ w.CanMake folder

theorem exists_run_startProject (hw : w.ClimbsFromFolders folder) :
    ∃ (result : Except Failure Unit) (u : World), MakesFolders (w.target folder) w u ∧
      (w.IsOpenTo folder → result = .ok () ∧ ∃ place, u.folderAt folder = .ok place) ∧
      (startProject folder).run.run w =
        match result with
        | .ok () => (createBoth folder).run.run u
        | .error f => (.error f, u) := by
  have hthere := run_isThere w folder
  rw [startProject, run_bind_ok hthere]
  cases hf : w.find? folder with
  | some item =>
    refine ⟨.ok (), w, .refl _ w, ?_, rfl⟩
    rintro (⟨items, hi⟩ | hmake)
    · obtain ⟨place, hplace, -⟩ := (find?_eq_folder_iff (text_ne_empty_of_find? hi)).mp hi
      exact ⟨rfl, place, hplace⟩
    · exact ⟨rfl, exists_folderAt_of_find? hmake hf⟩
  | none =>
    have hmade := makesFolders_makeFolders hw
    have hrun := run_attempt .makeFolder folder
      (Host.makeFolders folder : StateM World (Except FileError Unit)) w
    obtain ⟨⟨made, u⟩, hu⟩ : ∃ ran,
      (Host.makeFolders folder : StateM World (Except FileError Unit)).run w = ran := ⟨_, rfl⟩
    have hopen : w.IsOpenTo folder → made = .ok () ∧ ∃ place, u.folderAt folder = .ok place := by
      rintro (⟨items, hi⟩ | hmake)
      · rw [hf] at hi
        cases hi
      · obtain ⟨v, hv, hplace⟩ := exists_makeFolders hmake
        obtain ⟨rfl, rfl⟩ := Prod.mk.inj (hu.symm.trans hv)
        exact ⟨rfl, hplace⟩
    rw [hu] at hmade hrun
    cases made with
    | ok _ => exact ⟨.ok (), u, hmade, fun h => ⟨rfl, (hopen h).2⟩, run_bind_ok hrun⟩
    | error e =>
      exact ⟨.error (.access folder .makeFolder e), u, hmade, fun h => (nomatch (hopen h).1),
        run_bind_error hrun⟩

/-- The two files are new in the folder that a path leads to, which is there with all the folders
around it, and nothing else has changed. -/
structure Started (folder : Path) (w v : World) : Prop where
  manifest_new : w.seen (w.target folder ++ ["siam.yaml"]) = none
  document_new : w.seen (w.target folder ++ ["system.ssf"]) = none
  way : ∀ q, q <+: w.target folder → w.seen q = none ∨ w.seen q = some none
  manifest : v.read (folder.join Manifest.fileName) = .ok starterManifest
  document : v.read (folder.join starterName) = .ok starterDocument
  seen : ∀ q, v.seen q =
    if q = w.target folder ++ ["siam.yaml"] then some (some (.text starterManifest))
    else if q = w.target folder ++ ["system.ssf"] then some (some (.text starterDocument))
    else if q <+: w.target folder then some none
    else w.seen q

theorem run_createBoth_of_made (hmade : MakesFolders (w.target folder) w u)
    (hm : w.find? (folder.join Manifest.fileName) = none)
    (hd : w.find? (folder.join starterName) = none) :
    (∃ e f, u.folderAt folder = .error e ∧ (createBoth folder).run.run u = (.error f, u)) ∨
      ∃ v, (createBoth folder).run.run u = (.ok (), v) ∧ Started folder w v := by
  cases hplace : u.folderAt folder with
  | error e =>
    obtain ⟨f, hf⟩ := run_createBoth_of_error hplace
    exact .inl ⟨e, f, rfl, hf⟩
  | ok place =>
    right
    obtain ⟨rfl, hm, hmU⟩ := seen_new isFileName_manifest hm hmade hplace
    obtain ⟨-, hd, hdU⟩ := seen_new isFileName_starter hd hmade hplace
    obtain ⟨v, hv, hmanifest, hdocument, hseen⟩ := run_createBoth hplace hmU hdU
    have hfolder : ∀ q, q <+: w.target folder → u.seen q = some none := fun q hq =>
      (isFolderAt_of_folderAt hplace).of_inner hq
    refine ⟨v, hv, hm, hd, fun q hq => ?_, hmanifest, hdocument, fun q => ?_⟩
    · rcases hmade.seen q with he | ⟨hnone, -, -⟩
      · exact .inr (he ▸ hfolder q hq)
      · exact .inl hnone
    · rw [hseen]
      split_ifs with _ _ hq
      · rfl
      · rfl
      · exact hfolder q hq
      · rcases hmade.seen q with he | ⟨-, -, hq'⟩
        · exact he
        · exact absurd hq' hq

theorem initialized_cases (hw : w.ClimbsFromFolders folder) :
    (∃ f v, w.initialized folder = (.error f, v) ∧ MakesFolders (w.target folder) w v) ∨
      ∃ v, w.initialized folder = (.ok (), v) ∧ Started folder w v := by
  obtain ⟨refused, hrefusals, hfree⟩ :=
    run_refusals w (folder.join Manifest.fileName) (folder.join starterName)
  rw [initialized_eq]
  cases refused with
  | error f => exact .inl ⟨f, w, run_bind_error hrefusals, .refl _ w⟩
  | ok _ =>
    obtain ⟨hm, hd⟩ := hfree.mp rfl
    rw [run_bind_ok hrefusals]
    obtain ⟨made, u, hmade, -, hrun⟩ := exists_run_startProject hw
    rw [hrun]
    cases made with
    | error f => exact .inl ⟨f, u, rfl, hmade⟩
    | ok _ =>
      rcases run_createBoth_of_made hmade hm hd with ⟨-, f, -, hf⟩ | hstarted
      · exact .inl ⟨f, u, hf, hmade⟩
      · exact .inr hstarted

theorem initialized_of_there
    (h : (w.find? (folder.join Manifest.fileName)).isSome ∨
      (w.find? (folder.join starterName)).isSome) :
    ∃ f, w.initialized folder = (.error f, w) := by
  obtain ⟨refused, hrefusals, hfree⟩ :=
    run_refusals w (folder.join Manifest.fileName) (folder.join starterName)
  rw [initialized_eq]
  cases refused with
  | error f => exact ⟨f, run_bind_error hrefusals⟩
  | ok _ =>
    obtain ⟨hm, hd⟩ := hfree.mp rfl
    simp [hm, hd] at h

theorem initialized_of_open (hw : w.ClimbsFromFolders folder) (hopen : w.IsOpenTo folder)
    (hm : w.find? (folder.join Manifest.fileName) = none)
    (hd : w.find? (folder.join starterName) = none) :
    ∃ v, w.initialized folder = (.ok (), v) := by
  obtain ⟨refused, hrefusals, hfree⟩ :=
    run_refusals w (folder.join Manifest.fileName) (folder.join starterName)
  obtain rfl := hfree.mpr ⟨hm, hd⟩
  rw [initialized_eq, run_bind_ok hrefusals]
  obtain ⟨made, u, hmade, hthere, hrun⟩ := exists_run_startProject hw
  obtain ⟨rfl, place, hplace⟩ := hthere hopen
  rw [hrun]
  rcases run_createBoth_of_made hmade hm hd with ⟨e, -, he, -⟩ | ⟨v, hv, -⟩
  · rw [hplace] at he
    cases he
  · exact ⟨v, hv⟩

end Running

end World

/-- Provided that each `..` in the path comes after parts that lead to a folder, a project is
started whole or no file is written: with an error, every file and every folder is as it was, but
for new folders on the way; without one, two files are new, folders are made for them, and nothing
else has changed. A project is refused where one of the two files is there, or a file is on the way.
It is started in every folder that is there or can be made, and has neither file. -/
theorem init_creates_both_files_or_none (w : World) (folder : Path)
    (hw : w.ClimbsFromFolders folder) :
    ((∃ f v, w.initialized folder = (.error f, v) ∧ World.MakesFolders (w.target folder) w v) ∨
      ∃ v, w.initialized folder = (.ok (), v) ∧ World.Started folder w v) ∧
    ((w.find? (folder.join Manifest.fileName)).isSome ∨
        (w.find? (folder.join starterName)).isSome →
      ∃ f, w.initialized folder = (.error f, w)) ∧
    (∀ q, q <+: w.target folder → (w.file? q).isSome →
      ∃ f v, w.initialized folder = (.error f, v)) ∧
    (w.IsOpenTo folder → w.find? (folder.join Manifest.fileName) = none →
      w.find? (folder.join starterName) = none → ∃ v, w.initialized folder = (.ok (), v)) := by
  refine ⟨World.initialized_cases hw, World.initialized_of_there, fun q hq hfile => ?_,
    World.initialized_of_open hw⟩
  rcases World.initialized_cases hw with ⟨f, v, hf, -⟩ | ⟨v, -, hstarted⟩
  · exact ⟨f, v, hf⟩
  · rcases hstarted.way q hq with hnone | hnone <;> simp [World.file?, hnone] at hfile

/-- Two folders can be made for the two files, below one that is there. -/
theorem init_creates_both_files_or_none_below :
    let w : World := ⟨.folder [("a", .folder [])], [], "", ""⟩
    w.ClimbsFromFolders ⟨"a/b/c"⟩ ∧ w.CanMake ⟨"a/b/c"⟩ ∧
      ∃ v, w.initialized ⟨"a/b/c"⟩ = (.ok (), v) ∧ w.Started ⟨"a/b/c"⟩ v := by
  intro w
  have hclimbs : w.ClimbsFromFolders ⟨"a/b/c"⟩ := World.climbsFromFolders_of_not_mem (by decide)
  have hfree : ∀ front ∈ (w.target ⟨"a/b/c"⟩).inits, w.file? front = none := by decide
  have hmake : w.CanMake ⟨"a/b/c"⟩ :=
    ⟨hclimbs, rfl, Or.inl (by decide), fun front hf => hfree front ((List.mem_inits _ _).mpr hf)⟩
  refine ⟨hclimbs, hmake, ?_⟩
  obtain ⟨hall, -, -, hopen⟩ := init_creates_both_files_or_none w ⟨"a/b/c"⟩ hclimbs
  obtain ⟨v, hv⟩ := hopen (Or.inr hmake) rfl rfl
  rcases hall with ⟨f, u, hf, -⟩ | hstarted
  · rw [hv] at hf
    cases hf
  · exact hstarted

/-- The files are looked for behind `new`, which is not there yet. Once it is made, the path leads
back out of it to a file, which is replaced. If the folder that is made takes the place of the
second file, only the first one is written. -/
theorem init_replaces_file_behind_new_folder :
    let w : World := ⟨.folder [("siam.yaml", .file (.text "output: build\n"))], [], "", ""⟩
    let empty : World := ⟨.folder [], [], "", ""⟩
    let (result, v) := w.initialized ⟨"new/.."⟩
    let (failed, u) := empty.initialized ⟨"system.ssf/.."⟩
    result = .ok () ∧ w.file? ["siam.yaml"] = some (.text "output: build\n") ∧
      v.file? ["siam.yaml"] = some (.text starterManifest) ∧
      (∃ f, failed = .error f) ∧ u.file? ["siam.yaml"] = some (.text starterManifest) := by
  exact ⟨rfl, rfl, rfl, ⟨_, rfl⟩, rfl⟩

end DesignSystem
