import DesignSystem.Proofs.Loading
import DesignSystem.World
import DesignSystem.Yaml.Manifest

/-! How a build ends. It loads everything before it writes or prints anything, so a build that
cannot load leaves no trace, and one that prints leaves the files alone. -/

namespace DesignSystem

namespace BuildOptions

def folder (options : BuildOptions) (project : Project) : Path :=
  options.output?.getD (project.root.join project.manifest.output)

def isPretty (options : BuildOptions) (project : Project) : Bool :=
  options.pretty || project.manifest.pretty

/-- What a build does with the designs that it loaded. -/
def deliver {ρ : Type} [Disk ρ] (options : BuildOptions) (project : Project)
    (designs : List LoadedDesign) : ExceptT Failure (StateM (Machine ρ)) Unit := do
  designs.forM
    (buildOne options.toStdout (options.isPretty project) (options.folder project))
  ExceptT.lift (Host.status "Finished" (plural designs.length "system" "systems"))

end BuildOptions

namespace Machine

variable {ρ : Type} [Disk ρ]

theorem keeps_reportIgnored (manifest : Manifest) :
    Keeps .reporting (reportIgnored manifest : StateM (Machine ρ) Unit) :=
  .forM fun _ _ => keeps_status _ _

section Outcome

variable [ManifestReader]

def built (w : Machine ρ) (options : BuildOptions) : Except Failure Unit × Machine ρ :=
  (build options : ExceptT Failure (StateM (Machine ρ)) Unit).run.run w

/-- A build fails, and before that it has neither changed a file nor printed anything. -/
def RefusesBuild (w : Machine ρ) (options : BuildOptions) (f : Failure) : Prop :=
  ∃ v, w.built options = (.error f, v) ∧ v.root = w.root ∧ v.stdout = w.stdout

theorem built_of_discovery_error {w : Machine ρ} {options : BuildOptions} {f : Failure}
    (h : w.discovered options = .error f) : w.built options = (.error f, w) := by
  have hp := run_project w options
  rw [h] at hp
  exact run_bind_error hp

theorem built_of_no_documents {w : Machine ρ} {options : BuildOptions} {project : Project}
    (h : w.discovered options = .ok project) (hd : project.documents = []) :
    w.built options = (.error .noDocuments, w) := by
  have hp := run_project w options
  rw [h] at hp
  refine (run_bind_ok hp).trans ?_
  simp only [hd, List.isEmpty_nil, if_true]
  rfl

/-- Up to the loading a build only reports. -/
theorem built_of_documents {w : Machine ρ} {options : BuildOptions} {project : Project}
    (h : w.discovered options = .ok project) (hd : project.documents ≠ []) :
    ∃ u, Frame.reporting.allows w u ∧ w.built options =
      match w.loaded project with
      | .error f => (.error f, u)
      | .ok designs => (options.deliver project designs).run.run u := by
  have hp := run_project w options
  rw [h] at hp
  let u := ((reportIgnored project.manifest : StateM (Machine ρ) Unit).run w).2
  have hu : Frame.reporting.allows w u := keeps_reportIgnored project.manifest w
  refine ⟨u, hu, (run_bind_ok hp).trans ?_⟩
  have hne : project.documents.isEmpty = false := by simpa using hd
  simp only [hne, Bool.false_eq_true, if_false]
  have hreport := run_lift (reportIgnored project.manifest : StateM (Machine ρ) Unit) w
  have hload := run_load u project
  rw [loaded_congr hu] at hload
  refine (run_bind_ok hreport).trans ?_
  cases hl : w.loaded project with
  | error f =>
    rw [hl] at hload
    exact run_bind_error hload
  | ok designs =>
    rw [hl] at hload
    exact run_bind_ok hload

theorem refusesBuild_of_unloaded {w : Machine ρ} {options : BuildOptions} {project : Project}
    {f : Failure} (h : w.discovered options = .ok project) (hd : project.documents ≠ [])
    (hl : w.loaded project = .error f) : w.RefusesBuild options f := by
  obtain ⟨u, hu, hb⟩ := built_of_documents h hd
  rw [hl] at hb
  exact ⟨u, hb, Frame.root_of_reporting hu, Frame.stdout_of_reporting hu⟩

theorem built_eq_ok {w v : Machine ρ} {options : BuildOptions} (h : w.built options = (.ok (), v)) :
    ∃ project designs u, w.discovered options = .ok project ∧ w.loaded project = .ok designs ∧
      Frame.reporting.allows w u ∧
      (options.deliver project designs).run.run u = (.ok (), v) := by
  cases hp : w.discovered options with
  | error f =>
    rw [built_of_discovery_error hp] at h
    cases h
  | ok project =>
    by_cases hd : project.documents = []
    · rw [built_of_no_documents hp hd] at h
      cases h
    · obtain ⟨u, hu, hb⟩ := built_of_documents hp hd
      rw [hb] at h
      cases hl : w.loaded project with
      | error f =>
        rw [hl] at h
        cases h
      | ok designs =>
        rw [hl] at h
        exact ⟨project, designs, u, rfl, hl, hu, h⟩

theorem keeps_build {F : Frame ρ} (options : BuildOptions)
    (hreport : ∀ {w v}, Frame.reporting.allows w v → F.allows w v)
    (hone : ∀ pretty folder d, Keeps F (buildOne options.toStdout pretty folder d).run) :
    Keeps F (build options : ExceptT Failure (StateM (Machine ρ)) Unit).run := by
  refine (keeps_project options).of_still.andThen fun project => ?_
  have hrest : Keeps F (do
      ExceptT.lift (reportIgnored project.manifest)
      let designs ← project.load
      options.deliver project designs : ExceptT Failure (StateM (Machine ρ)) Unit).run := by
    refine (Keeps.lift ((keeps_reportIgnored project.manifest).mono hreport)).andThen fun _ => ?_
    refine (keeps_load project).of_still.andThen fun designs => ?_
    refine (Keeps.forMExcept fun d _ => hone _ _ d).andThen fun _ => ?_
    exact .lift ((keeps_status _ _).mono hreport)
  cases project.documents.isEmpty with
  | true => exact .pure _
  | false => exact hrest

end Outcome

section Printing

/-- What is printed of designs. -/
def printed (pretty : Bool) (designs : List LoadedDesign) : String :=
  String.join (designs.map fun d => d.design.resolve.output.json.render pretty ++ "\n")

theorem run_buildOne_printing (pretty : Bool) (folder : Path) (d : LoadedDesign) (w : Machine ρ) :
    ∃ v, (buildOne true pretty folder d : ExceptT Failure (StateM (Machine ρ)) Unit).run.run w =
        (.ok (), v) ∧
      v.stdout = w.stdout ++ (d.design.resolve.output.json.render pretty ++ "\n") := by
  let u := ((do Host.status "Resolving" (← Host.display d.path) : StateM (Machine ρ) Unit).run w).2
  have hu : u.stdout = w.stdout := Frame.stdout_of_reporting (keeps_statusOf "Resolving" d.path w)
  let line := d.design.resolve.output.json.render pretty ++ "\n"
  exact ⟨{ u with stdout := u.stdout ++ line }, rfl, by rw [← hu]⟩

theorem run_forM_printing (pretty : Bool) (folder : Path) (designs : List LoadedDesign)
    (w : Machine ρ) : ∃ v,
      (designs.forM (buildOne true pretty folder) :
        ExceptT Failure (StateM (Machine ρ)) Unit).run.run w = (.ok (), v) ∧
      v.stdout = w.stdout ++ printed pretty designs := by
  induction designs generalizing w with
  | nil => exact ⟨w, rfl, by simp [printed]⟩
  | cons d designs ih =>
    obtain ⟨u, hu, hout⟩ := run_buildOne_printing pretty folder d w
    obtain ⟨v, hv, hrest⟩ := ih u
    refine ⟨v, (run_bind_ok hu).trans hv, ?_⟩
    rw [hrest, hout, printed, printed, List.map_cons, String.join_cons, String.append_assoc]

theorem run_deliver_printing {options : BuildOptions} (ho : options.toStdout = true)
    (project : Project) (designs : List LoadedDesign) (w : Machine ρ) :
    ∃ v, (options.deliver project designs).run.run w = (.ok (), v) ∧
      v.stdout = w.stdout ++ printed (options.isPretty project) designs := by
  obtain ⟨u, hu, hout⟩ :=
    run_forM_printing (options.isPretty project) (options.folder project) designs w
  rw [BuildOptions.deliver, ho]
  refine ⟨_, run_bind_ok hu, ?_⟩
  exact hout

theorem keeps_build_printing [ManifestReader] {options : BuildOptions}
    (ho : options.toStdout = true) :
    Keeps .printing (build options : ExceptT Failure (StateM (Machine ρ)) Unit).run := by
  refine keeps_build options Frame.printing_of_reporting fun pretty folder d => ?_
  have hstatus := (@keeps_statusOf ρ _ "Resolving" d.path).mono Frame.printing_of_reporting
  rw [ho]
  exact (Keeps.lift hstatus).andThen fun _ => .lift (keeps_print _)

theorem stdout_of_built [ManifestReader] {w v : Machine ρ} {options : BuildOptions}
    (ho : options.toStdout = true) (h : w.built options = (.ok (), v)) : ∃ project designs,
      w.discovered options = .ok project ∧
      List.Forall₂ (w.Loads project) project.documents designs ∧
      v.stdout = w.stdout ++ printed (options.isPretty project) designs := by
  obtain ⟨project, designs, u, hp, hl, hu, hrun⟩ := built_eq_ok h
  obtain ⟨v', hv', hout⟩ := run_deliver_printing ho project designs u
  obtain rfl : v' = v := congrArg Prod.snd (hv'.symm.trans hrun)
  have hstart := Frame.stdout_of_reporting hu
  exact ⟨project, designs, hp, forall₂_of_loaded hl, by rw [hout, hstart]⟩

end Printing

end Machine

/-- If the manifest cannot be loaded, no document is found, or a document cannot be read, a
build fails with that failure, that of the first unreadable document if there are several, and
has neither changed a file nor printed anything. A build that prints changes no file however it
ends, and if it succeeds it has printed the loaded designs in their order, one line break after
each. -/
theorem build_is_all_or_nothing {ρ : Type} [Disk ρ] [ManifestReader] (w : Machine ρ)
    (options : BuildOptions) :
    (∀ f, w.manifestOf options = .error f → w.RefusesBuild options f) ∧
    (∀ project, w.discovered options = .ok project →
      (project.documents = [] → w.RefusesBuild options .noDocuments) ∧
      ∀ before p after e, project.documents = before ++ p :: after →
        (∀ q ∈ before, ∃ source, w.read q = .ok source) → w.read p = .error e →
        w.RefusesBuild options (.access p .readFile e)) ∧
    (options.toStdout = true → (w.built options).2.root = w.root ∧
      ∀ v, w.built options = (.ok (), v) → ∃ project designs,
        w.discovered options = .ok project ∧
        List.Forall₂ (w.Loads project) project.documents designs ∧ v.stdout = w.stdout ++
          String.join (designs.map fun d =>
            d.design.resolve.output.json.render (options.isPretty project) ++ "\n")) := by
  refine ⟨fun f h => ?_, fun project hp => ⟨fun hd => ?_, ?_⟩, fun ho => ⟨?_, fun v hv => ?_⟩⟩
  · exact ⟨w, Machine.built_of_discovery_error (Machine.discovered_of_manifest_error h), rfl, rfl⟩
  · exact ⟨w, Machine.built_of_no_documents hp hd, rfl, rfl⟩
  · intro before p after e hd hb he
    have hne : project.documents ≠ [] := by simp [hd]
    exact Machine.refusesBuild_of_unloaded hp hne (Machine.loaded_of_unreadable hd hb he)
  · exact (congrArg Machine.root (Machine.keeps_build_printing ho w) :)
  · exact Machine.stdout_of_built ho hv

/-- The document `b.ssf` is no text, so nothing is printed of `a.ssf` either. -/
theorem build_is_all_or_nothing_unreadable :
    let w : World :=
      ⟨.folder [("a.ssf", .file (.text "")), ("b.ssf", .file (.bytes [255]))], [], "", ""⟩
    let options : BuildOptions := ⟨[], none, true, false⟩
    w.discovered options =
        .ok ⟨⟨"."⟩, .standard, false, [⟨"././a.ssf"⟩, ⟨"././b.ssf"⟩]⟩ ∧
      w.RefusesBuild options (.access ⟨"././b.ssf"⟩ .readFile .notText) := by
  intro w options
  have hp : w.discovered options =
      .ok ⟨⟨"."⟩, .standard, false, [⟨"././a.ssf"⟩, ⟨"././b.ssf"⟩]⟩ := by rfl
  have hfirst : w.read ⟨"././a.ssf"⟩ = .ok "" := by rfl
  have hsecond : w.read ⟨"././b.ssf"⟩ = .error .notText := by rfl
  obtain ⟨-, hload, -⟩ := build_is_all_or_nothing w options
  exact ⟨hp, (hload _ hp).2 [⟨"././a.ssf"⟩] _ [] _ rfl (by simpa using ⟨_, hfirst⟩) hsecond⟩

end DesignSystem
