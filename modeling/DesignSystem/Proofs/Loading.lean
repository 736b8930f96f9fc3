import DesignSystem.Build
import DesignSystem.Proofs.Runs

/-! Finding and loading documents, on any disk and with any reader of manifests. Neither changes the
machine. What is loaded depends on the files alone, and the first document that cannot be read ends
the loading. -/

namespace DesignSystem

/-- The file from which a build reads its manifest. -/
def BuildOptions.manifestPath (options : BuildOptions) : Path :=
  if options.paths.isEmpty then Path.join ⟨"."⟩ Manifest.fileName else Manifest.fileName

namespace Machine

variable {ρ : Type} [Disk ρ]

/-- The manifest of a build, none if there is no such file, or why it cannot be loaded. -/
def manifestOf [ManifestReader] (w : Machine ρ) (options : BuildOptions) :
    Except Failure (Option Manifest) :=
  ((Manifest.load? options.manifestPath : ExceptT Failure (StateM (Machine ρ)) _).run.run w).1

def discovered [ManifestReader] (w : Machine ρ) (options : BuildOptions) : Except Failure Project :=
  ((options.project : ExceptT Failure (StateM (Machine ρ)) Project).run.run w).1

/-- The documents of a project as they are loaded, or why one of them is not. -/
def loaded (w : Machine ρ) (project : Project) : Except Failure (List LoadedDesign) :=
  ((project.load : ExceptT Failure (StateM (Machine ρ)) _).run.run w).1

theorem keeps_manifest [ManifestReader] (p : Path) :
    Keeps .still
      (Manifest.load? p : ExceptT Failure (StateM (Machine ρ)) (Option Manifest)).run := by
  refine (Keeps.lift (keeps_isThere p)).andThen fun there => ?_
  cases there with
  | false => exact .pure _
  | true =>
    refine Keeps.andThen ?_ fun _ => .pure _
    refine ((keeps_read p).tried .readManifest p).andThen fun text => ?_
    cases Manifest.parse? text with
    | none => exact .pure _
    | some manifest => exact .pure _

theorem keeps_scan (manifest : Manifest) (p : Path) :
    Keeps .still (scan manifest p : StateM (Machine ρ) (List Path)) := by
  refine (keeps_outline? p).bind fun item? => ?_
  cases item? with
  | none => exact .pure _
  | some item => exact .pure _

theorem keeps_scanSources (manifest : Manifest) (base : Path) (sources : List String) :
    Keeps .still (scanSources manifest base sources : StateM (Machine ρ) (List Path)) :=
  .foldlM (fun _ _ => (keeps_scan _ _).bind fun _ => .pure _) _ _

theorem keeps_documentsAt (manifest : Manifest) (p : Path) :
    Keeps .still (Project.documentsAt manifest p : StateM (Machine ρ) (List Path)) := by
  refine (keeps_isFolder? p).bind fun isFolder? => ?_
  match isFolder? with
  | some true => exact keeps_scan manifest p
  | some false => exact .pure _
  | none => exact .pure _

theorem keeps_ofPaths (manifest : Manifest) (paths : List Path) :
    Keeps .still (Project.ofPaths manifest paths : StateM (Machine ρ) Project) :=
  (Keeps.foldlM (fun _ _ => (keeps_documentsAt _ _).bind fun _ => .pure _) _ _).bind
    fun _ => .pure _

theorem keeps_project [ManifestReader] (options : BuildOptions) :
    Keeps .still (options.project : ExceptT Failure (StateM (Machine ρ)) Project).run := by
  rw [BuildOptions.project]
  split
  · exact (keeps_manifest _).andThen fun _ =>
      (Keeps.lift (keeps_scanSources _ _ _)).andThen fun _ => .pure _
  · exact (keeps_manifest _).andThen fun _ => .lift (keeps_ofPaths _ _)

theorem run_project [ManifestReader] (w : Machine ρ) (options : BuildOptions) :
    (options.project : ExceptT Failure (StateM (Machine ρ)) Project).run.run w =
      (w.discovered options, w) :=
  Prod.ext rfl (keeps_project options w)

theorem discovered_of_manifest_error [ManifestReader] {w : Machine ρ} {options : BuildOptions}
    {f : Failure} (h : w.manifestOf options = .error f) : w.discovered options = .error f := by
  have hrun : (Manifest.load? options.manifestPath :
      ExceptT Failure (StateM (Machine ρ)) (Option Manifest)).run.run w = (.error f, w) :=
    Prod.ext h (keeps_manifest _ w)
  rw [discovered, BuildOptions.project]
  rw [BuildOptions.manifestPath] at hrun
  split at hrun
  · rename_i hp
    rw [if_pos hp, Project.discover, run_bind_error hrun]
  · rename_i hp
    rw [if_neg hp, run_bind_error hrun]

def designAt (w : Machine ρ) (start : Widths) (p : Path) : Except Failure LoadedDesign :=
  (w.read p).mapError (.access p .readFile) |>.map fun source =>
    ⟨p, Design.ofTree start (parse source)⟩

theorem run_loadDesign (w : Machine ρ) (start : Widths) (p : Path) :
    (loadDesign start p : ExceptT Failure (StateM (Machine ρ)) LoadedDesign).run.run w =
      (w.designAt start p, w) := by
  have hread : (readDocument p : ExceptT Failure (StateM (Machine ρ)) String).run.run w =
      ((w.read p).mapError (.access p .readFile), w) := rfl
  rw [loadDesign, designAt]
  cases hr : w.read p with
  | ok source =>
    rw [hr] at hread
    rw [run_bind_ok hread]
    rfl
  | error e =>
    rw [hr] at hread
    rw [run_bind_error hread]
    rfl

theorem run_mapM_loadDesign (w : Machine ρ) (start : Widths) (documents : List Path) :
    (documents.mapM (loadDesign start) : ExceptT Failure (StateM (Machine ρ)) _).run.run w =
      (documents.mapM (w.designAt start), w) := by
  induction documents with
  | nil => rfl
  | cons p documents ih =>
    have hp := run_loadDesign w start p
    rw [List.mapM_cons, List.mapM_cons]
    cases hd : w.designAt start p with
    | error e =>
      rw [run_bind_error (hp.trans (by rw [hd]))]
      rfl
    | ok d =>
      rw [run_bind_ok (hp.trans (by rw [hd]))]
      cases hr : documents.mapM (w.designAt start) with
      | error e =>
        rw [run_bind_error (ih.trans (by rw [hr]))]
        rfl
      | ok designs =>
        rw [run_bind_ok (ih.trans (by rw [hr]))]
        rfl

theorem loaded_eq (w : Machine ρ) (project : Project) :
    w.loaded project = project.documents.mapM (w.designAt project.manifest.widths) :=
  congrArg Prod.fst (run_mapM_loadDesign w project.manifest.widths project.documents)

theorem run_load (w : Machine ρ) (project : Project) :
    (project.load : ExceptT Failure (StateM (Machine ρ)) _).run.run w = (w.loaded project, w) := by
  rw [loaded_eq]
  exact run_mapM_loadDesign w project.manifest.widths project.documents

theorem keeps_load (project : Project) :
    Keeps .still (project.load : ExceptT Failure (StateM (Machine ρ)) (List LoadedDesign)).run :=
  fun w => congrArg Prod.snd (run_load w project)

theorem loaded_congr {w v : Machine ρ} (h : Frame.reporting.allows w v) (project : Project) :
    v.loaded project = w.loaded project := by
  have hw := Frame.workingPlace_of_reporting h
  have hr := Frame.root_of_reporting h
  have hd : v.designAt = w.designAt := by
    funext start p
    rw [designAt, designAt, read, read, hw, hr]
  rw [loaded_eq, loaded_eq, hd]

theorem loaded_of_unreadable {w : Machine ρ} {project : Project} {before after : List Path}
    {p : Path} {e : FileError} (hp : project.documents = before ++ p :: after)
    (hb : ∀ q ∈ before, ∃ source, w.read q = .ok source) (he : w.read p = .error e) :
    w.loaded project = .error (.access p .readFile e) := by
  have hfail : w.designAt project.manifest.widths p = .error (.access p .readFile e) := by
    rw [designAt, he]
    rfl
  rw [loaded_eq, hp]
  clear hp
  induction before with
  | nil =>
    rw [List.nil_append, List.mapM_cons, hfail]
    rfl
  | cons q before ih =>
    obtain ⟨source, hs⟩ := hb q (by simp)
    have hd : w.designAt project.manifest.widths q =
        .ok ⟨q, Design.ofTree project.manifest.widths (parse source)⟩ := by
      rw [designAt, hs]
      rfl
    rw [List.cons_append, List.mapM_cons, hd]
    have hrest := ih fun r hr => hb r (by simp [hr])
    change (List.mapM (w.designAt project.manifest.widths) (before ++ p :: after) >>= _) = _
    rw [hrest]
    rfl

/-- A document can be read, and a loaded design is the one that it holds. -/
def Loads (w : Machine ρ) (project : Project) (p : Path) (d : LoadedDesign) : Prop :=
  ∃ source, w.read p = .ok source ∧
    d = ⟨p, Design.ofTree project.manifest.widths (parse source)⟩

theorem forall₂_of_loaded {w : Machine ρ} {project : Project} {designs : List LoadedDesign}
    (h : w.loaded project = .ok designs) :
    List.Forall₂ (w.Loads project) project.documents designs := by
  rw [loaded_eq] at h
  generalize project.documents = documents at h
  induction documents generalizing designs with
  | nil =>
    cases h
    exact .nil
  | cons p documents ih =>
    rw [List.mapM_cons] at h
    cases hs : w.read p with
    | error e =>
      rw [designAt, hs] at h
      cases h
    | ok source =>
      rw [designAt, hs] at h
      cases hr : documents.mapM (w.designAt project.manifest.widths) with
      | error e =>
        rw [hr] at h
        cases h
      | ok rest =>
        rw [hr] at h
        cases h
        exact .cons ⟨source, hs, rfl⟩ (ih hr)

end Machine

end DesignSystem
