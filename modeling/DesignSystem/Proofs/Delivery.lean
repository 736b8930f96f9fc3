import DesignSystem.Proofs.BuildOutcome
import DesignSystem.Proofs.TreeStorage

/-! What a build delivers. Each result is written under the name of its document, into one folder
for all. It stays unless a later one is written to the same file. Files that no result is written
to are not touched. -/

namespace DesignSystem

section Names

theorem Path.not_mem_of_mem_parts {p : Path} {part : List Char} (h : part ∈ p.split.2) :
    '/' ∉ part := by
  have hpart : part ∈ p.text.toList.splitOn '/' := by
    rw [split] at h
    split at h
    · rename_i heq
      rw [heq]
      exact List.mem_cons_of_mem _ h
    · rename_i heq
      rw [heq]
      exact List.mem_cons_of_mem _ h
    · exact h
  exact not_mem_of_mem_splitOn hpart

theorem Path.not_mem_of_fileName {p : Path} {name : String} (h : p.fileName? = some name) :
    '/' ∉ name.toList := by
  rw [fileName?] at h
  split at h
  · rename_i s hl
    obtain rfl := Option.some.inj h
    have hmem := List.mem_of_getLast? hl
    rw [components, List.mem_append] at hmem
    obtain hstart | hparts := hmem
    · rw [split] at hstart
      split at hstart <;> simp at hstart
    · obtain ⟨part, hpart, hc⟩ := List.mem_filterMap.mp hparts
      rw [component?] at hc
      split at hc
      · cases hc
      · split at hc
        · cases hc
        · cases hc
          rw [String.toList_ofList]
          exact not_mem_of_mem_parts hpart
  · cases h

theorem Path.not_mem_outputName (p : Path) : '/' ∉ p.outputName.toList := by
  rw [outputName, stem?]
  cases hf : p.fileName? with
  | none => decide
  | some name =>
    have hname := not_mem_of_fileName hf
    simp only [Option.map_some, Option.getD_some, String.toList_ofList, splitName]
    split
    · exact hname
    · exact fun hm => hname (List.mem_of_mem_take hm)

/-- The file that the result of a design is written to. -/
def LoadedDesign.resultPath (d : LoadedDesign) (folder : Path) : Path :=
  folder.join ⟨d.path.stem?.getD "system" ++ ".json"⟩

theorem LoadedDesign.fileName?_resultPath (d : LoadedDesign) (folder : Path) :
    (d.resultPath folder).fileName? = some (d.path.stem?.getD "system" ++ ".json") := by
  let name := d.path.stem?.getD "system" ++ ".json"
  have hlength : 5 ≤ name.length := by
    rw [String.length_append]
    exact Nat.le_add_left 5 _
  have hne : ∀ short : String, short.length < 5 → name ≠ short := by
    rintro _ hshort rfl
    omega
  have hslash : '/' ∉ name.toList := by
    rw [String.toList_append, List.mem_append, not_or]
    exact ⟨d.path.not_mem_outputName, by decide⟩
  have hname : IsFileName name := ⟨hne "" (by decide), hslash, hne "." (by decide),
    hne ".." (by decide)⟩
  rw [resultPath, Path.fileName?, Path.components_join folder hname, List.getLast?_concat]

theorem ne_json_of_ssf {name : String} (h : ".ssf".toList <:+ name.toList) (stem : String) :
    name ≠ stem ++ ".json" := by
  rintro rfl
  obtain ⟨front, hfront⟩ := h
  rw [String.toList_append] at hfront
  have hend := congrArg List.getLast? hfront
  simp at hend

end Names

namespace Machine

section Writing

variable {ρ ι : Type} [Disk ρ] [Files ρ ι] [LawfulFiles ρ ι]

theorem holds_of_writeOutput {folder file : Path} {text : String} {w v : Machine ρ}
    (h : (writeOutput folder file text : ExceptT Failure (StateM (Machine ρ)) Unit).run.run w =
      (.ok (), v)) : w.Holds v file text := by
  obtain ⟨there, w₁, hthere, h⟩ := exists_of_run_bind h
  obtain rfl : w₁ = w := (congrArg Prod.snd hthere).symm
  cases there with
  | true => exact holds_of_write h
  | false =>
    obtain ⟨_, w₂, hmake, h⟩ := exists_of_run_bind h
    refine (holds_of_write h).of_kept fun touched => ?_
    exact ((keeps_ensureChain folder.chain).tried .makeOutputFolder folder).allows hmake

theorem holds_of_buildOne {pretty : Bool} {folder : Path} {d : LoadedDesign} {w v : Machine ρ}
    (h : (buildOne false pretty folder d : ExceptT Failure (StateM (Machine ρ)) Unit).run.run w =
      (.ok (), v)) :
    w.Holds v (d.resultPath folder) (d.design.resolve.output.json.render pretty) := by
  obtain ⟨_, w₁, hstart, h⟩ := exists_of_run_bind h
  obtain ⟨_, w₂, hout, h⟩ := exists_of_run_bind h
  have hholds : w₁.Holds w₂ (d.resultPath folder) (d.design.resolve.output.json.render pretty) :=
    holds_of_writeOutput hout
  have hreport := (Keeps.lift (keeps_statusOf "Resolving" d.path)).allows hstart
  exact (hholds.of_kept fun _ => Frame.keeping_of_reporting hreport).reported
    ((Keeps.lift (keeps_statusOf "Wrote" (d.outputPath folder))).allows h)

/-- The results of designs are in their files, later ones of the same file excepted, and other
files are as they were. -/
def Delivered (pretty : Bool) (folder : Path) (designs : List LoadedDesign) (w v : Machine ρ) :
    Prop :=
  (Frame.keeping fun i => ∃ d ∈ designs, v.fileAt? (d.resultPath folder) = some i).allows w v ∧
    ∀ before d after, designs = before ++ d :: after →
      ∃ i, v.fileAt? (d.resultPath folder) = some i ∧
        ((∀ e ∈ after, v.fileAt? (e.resultPath folder) ≠ some i) →
          v.content? i = some (.text (d.design.resolve.output.json.render pretty)))

theorem delivered_of_forM {pretty : Bool} {folder : Path} {designs : List LoadedDesign}
    {w v : Machine ρ} (h : (designs.forM (buildOne false pretty folder) :
      ExceptT Failure (StateM (Machine ρ)) Unit).run.run w = (.ok (), v)) :
    Delivered pretty folder designs w v := by
  -- The first result is in its file after its own write. The rest of the run takes no path away
  -- from a file, and touches that file only for a later result.
  induction designs generalizing w with
  | nil =>
    obtain rfl : w = v := congrArg Prod.snd h
    exact ⟨(Frame.keeping _).refl _, by simp⟩
  | cons d designs ih =>
    obtain ⟨_, u, hd, h⟩ := exists_of_run_bind h
    obtain ⟨i, hi, hc, hfirst⟩ := holds_of_buildOne hd
    obtain ⟨hrest, hresults⟩ := ih h
    have hfile := Frame.fileAt?_of_keeping hrest hi
    refine ⟨(Frame.keeping _).trans (Frame.keeping_mono hfirst ?_)
      (Frame.keeping_mono hrest ?_), ?_⟩
    · rintro _ rfl
      exact ⟨d, by simp, hfile⟩
    · rintro j ⟨e, he, hj⟩
      exact ⟨e, by simp [he], hj⟩
    · intro before d' after hsplit
      cases before with
      | nil =>
        obtain ⟨rfl, rfl⟩ := List.cons.inj hsplit
        refine ⟨i, hfile, fun hlater => Frame.content?_of_keeping hrest ?_ hc⟩
        rintro ⟨e, he, hj⟩
        exact hlater e he hj
      | cons b before => exact hresults before d' after (List.cons.inj hsplit).2

end Writing

end Machine

section Results

open Machine

/-- After a build that writes and succeeds, the result of each loaded design has a file, and it
holds the JSON of that design unless a later result has the same file. Files that no result has
hold what they held. Where all paths to a file end in one name, the results that stay are those
whose name no later one has, and no document changes. -/
theorem build_delivers_last_of_each_file {ρ ι : Type} [Disk ρ] [Files ρ ι] [LawfulFiles ρ ι]
    [ManifestReader] {w v : Machine ρ} {options : BuildOptions} (ho : options.toStdout = false)
    (h : w.built options = (.ok (), v)) :
    ∃ project designs, w.discovered options = .ok project ∧
      List.Forall₂ (w.Loads project) project.documents designs ∧
      let folder := options.folder project
      let json (d : LoadedDesign) := d.design.resolve.output.json.render (options.isPretty project)
      (∀ before d after, designs = before ++ d :: after →
        ∃ i, v.fileAt? (d.resultPath folder) = some i ∧
          ((∀ e ∈ after, v.fileAt? (e.resultPath folder) ≠ some i) →
            v.content? i = some (.text (json d)))) ∧
      (∀ p i content, w.fileAt? p = some i → w.content? i = some content →
        (∀ d ∈ designs, v.fileAt? (d.resultPath folder) ≠ some i) →
        v.fileAt? p = some i ∧ v.content? i = some content) ∧
      (v.NamesTellFiles →
        (∀ before d after, designs = before ++ d :: after →
          (∀ e ∈ after, e.path.stem?.getD "system" ≠ d.path.stem?.getD "system") →
          ∃ i, v.fileAt? (d.resultPath folder) = some i ∧
            v.content? i = some (.text (json d))) ∧
        ∀ p name i content, p.fileName? = some name → ".ssf".toList <:+ name.toList →
          w.fileAt? p = some i → w.content? i = some content →
          v.fileAt? p = some i ∧ v.content? i = some content) := by
  obtain ⟨project, designs, u, hp, hl, hu, hrun⟩ := built_eq_ok h
  refine ⟨project, designs, hp, forall₂_of_loaded hl, ?_⟩
  intro folder json
  rw [BuildOptions.deliver, ho] at hrun
  obtain ⟨_, u', hforM, hend⟩ := exists_of_run_bind hrun
  obtain ⟨hkept, hresults⟩ := delivered_of_forM hforM
  have hreport := (Keeps.lift (keeps_status "Finished" _)).allows hend
  rw [← Frame.fileAt?_of_reporting hu, ← Frame.content?_of_reporting hu,
    NamesTellFiles, Frame.fileAt?_of_reporting hreport,
    Frame.content?_of_reporting hreport]
  have hothers : ∀ p i content, u.fileAt? p = some i → u.content? i = some content →
      (∀ d ∈ designs, u'.fileAt? (d.resultPath folder) ≠ some i) →
      u'.fileAt? p = some i ∧ u'.content? i = some content := by
    intro p i content hi hc hnone
    refine ⟨Frame.fileAt?_of_keeping hkept hi, Frame.content?_of_keeping hkept ?_ hc⟩
    rintro ⟨d, hd, hsame⟩
    exact hnone d hd hsame
  refine ⟨hresults, hothers, fun hnames => ⟨fun before d after hsplit hlater => ?_, ?_⟩⟩
  · obtain ⟨i, hi, hc⟩ := hresults before d after hsplit
    refine ⟨i, hi, hc fun e he hsame => hlater e he ?_⟩
    have hname := hnames _ _ i hsame hi
    rw [e.fileName?_resultPath, d.fileName?_resultPath] at hname
    simpa using hname
  · intro p name i content hname hssf hi hc
    refine hothers p i content hi hc fun d _ hsame => ?_
    have hsamename := hnames _ _ i (Frame.fileAt?_of_keeping hkept hi) hsame
    rw [hname, d.fileName?_resultPath] at hsamename
    exact ne_json_of_ssf hssf _ (Option.some.inj hsamename)

/-- Two documents of one name. -/
def World.sharedName : World :=
  ⟨.folder [("a", .folder [("x.ssf", .file (.text ""))]),
    ("b", .folder [("x.ssf", .file (.text "tokens\n\tgap\n\t\tsm b"))])], [], "", ""⟩

/-- Two documents, and a link to the result of the first where that of the second is written. -/
def Machine.linkedResults : Machine LinkedTree :=
  ⟨⟨.folder [("a.ssf", .file (.text "")), ("b.ssf", .file (.text "tokens\n\tgap\n\t\tsm b")),
      ("dist", .folder [("a.json", .file (.text ""))])],
    [(["dist", "b.json"], ⟨"/dist/a.json"⟩)]⟩, [], "", ""⟩

/-- The result of the second document stands where that of the first was. -/
theorem build_delivers_last_of_each_file_shared :
    let options : BuildOptions := ⟨[], none, false, false⟩
    let second := Design.ofTree Manifest.standard.widths (parse "tokens\n\tgap\n\t\tsm b")
    let shared : World := (World.sharedName.built options).2
    let linked : Machine LinkedTree := (Machine.linkedResults.built options).2
    (World.sharedName.built options = (.ok (), shared) ∧ shared.NamesTellFiles ∧
      shared.read ⟨"./dist/x.json"⟩ = .ok (second.resolve.output.json.render false)) ∧
    Machine.linkedResults.built options = (.ok (), linked) ∧
      linked.fileAt? ⟨"./dist/a.json"⟩ = linked.fileAt? ⟨"./dist/b.json"⟩ ∧
      linked.read ⟨"./dist/b.json"⟩ = .ok (second.resolve.output.json.render false) ∧
      linked.read ⟨"b.ssf"⟩ = .ok "tokens\n\tgap\n\t\tsm b" := by
  intro options second shared linked
  have hto : options.toStdout = false := rfl
  constructor
  · have hok : (World.sharedName.built options).1 = .ok () := by decide +kernel
    have hbuilt : World.sharedName.built options = (.ok (), shared) := Prod.ext hok rfl
    have hp : World.sharedName.discovered options =
        .ok ⟨⟨"."⟩, .standard, false, [⟨"././a/x.ssf"⟩, ⟨"././b/x.ssf"⟩]⟩ := by rfl
    have hb : World.sharedName.read ⟨"././b/x.ssf"⟩ = .ok "tokens\n\tgap\n\t\tsm b" := by rfl
    have hnames : shared.NamesTellFiles := shared.namesTellFiles
    obtain ⟨project, designs, hp', hl, -, -, hresults⟩ :=
      build_delivers_last_of_each_file hto hbuilt
    obtain rfl := Except.ok.inj (hp'.symm.trans hp)
    obtain _ | ⟨hfirst, _ | ⟨⟨source, hs, hsecond⟩, _ | _⟩⟩ := hl
    obtain rfl := Except.ok.inj (hs.symm.trans hb)
    obtain rfl := hsecond
    obtain ⟨place, hi, hc⟩ := (hresults hnames).1 [_] _ [] rfl (by simp)
    have hfile : (⟨⟨"././b/x.ssf"⟩, second⟩ : LoadedDesign).resultPath (options.folder
        ⟨⟨"."⟩, .standard, false, [⟨"././a/x.ssf"⟩, ⟨"././b/x.ssf"⟩]⟩) = ⟨"./dist/x.json"⟩ := by
      decide +kernel
    rw [hfile] at hi
    exact ⟨hbuilt, hnames, World.read_of_filePlace? hi hc⟩
  · -- Both results have one file, and it is not that of the second document.
    obtain ⟨hok, hlink, hother⟩ : (Machine.linkedResults.built options).1 = .ok () ∧
        linked.fileAt? ⟨"./dist/a.json"⟩ = linked.fileAt? ⟨"./dist/b.json"⟩ ∧
        linked.fileAt? ⟨"./dist/b.json"⟩ ≠ some ["b.ssf"] := by
      decide +kernel
    have hbuilt : Machine.linkedResults.built options = (.ok (), linked) := Prod.ext hok rfl
    have hp : Machine.linkedResults.discovered options =
        .ok ⟨⟨"."⟩, .standard, false, [⟨"././a.ssf"⟩, ⟨"././b.ssf"⟩]⟩ := by rfl
    have ha : Machine.linkedResults.read ⟨"././a.ssf"⟩ = .ok "" := by rfl
    have hb : Machine.linkedResults.read ⟨"././b.ssf"⟩ = .ok "tokens\n\tgap\n\t\tsm b" := by rfl
    obtain ⟨project, designs, hp', hl, hlast, hkept, -⟩ :=
      build_delivers_last_of_each_file hto hbuilt
    obtain rfl := Except.ok.inj (hp'.symm.trans hp)
    obtain _ | ⟨⟨source, hs, hfirst⟩, _ | ⟨⟨source', hs', hsecond⟩, _ | _⟩⟩ := hl
    obtain rfl := Except.ok.inj (hs.symm.trans ha)
    obtain rfl := Except.ok.inj (hs'.symm.trans hb)
    obtain rfl := hfirst
    obtain rfl := hsecond
    obtain ⟨place, hi, hc⟩ := hlast [_] _ [] rfl
    let project : Project := ⟨⟨"."⟩, .standard, false, [⟨"././a.ssf"⟩, ⟨"././b.ssf"⟩]⟩
    let first : LoadedDesign := ⟨⟨"././a.ssf"⟩, Design.ofTree project.manifest.widths (parse "")⟩
    have hfile : first.resultPath (options.folder project) = ⟨"./dist/a.json"⟩ := by decide +kernel
    have hfile' : (⟨⟨"././b.ssf"⟩, second⟩ : LoadedDesign).resultPath (options.folder project) =
        ⟨"./dist/b.json"⟩ := by
      decide +kernel
    have hdocument := hkept ⟨"b.ssf"⟩ ["b.ssf"] (.text "tokens\n\tgap\n\t\tsm b") rfl rfl (by
      rw [List.forall_mem_cons, List.forall_mem_singleton, hfile, hfile', hlink]
      exact ⟨hother, hother⟩)
    rw [hfile'] at hi
    exact ⟨hbuilt, hlink, LinkedTree.read_of_fileAt? hi (hc (by simp)),
      LinkedTree.read_of_fileAt? hdocument.1 hdocument.2⟩

/-- A document, and a link to it where its result is written. -/
def Machine.linkedDocument : Machine LinkedTree :=
  ⟨⟨.folder [("a.ssf", .file (.text "")), ("dist", .folder [])],
    [(["dist", "a.json"], ⟨"/a.ssf"⟩)]⟩, [], "", ""⟩

/-- Two documents of one name are loaded, and the build succeeds, but the result of the first one is
not in the file of its name. Where that file is a link to a document, the document is lost. -/
theorem build_loses_shared_name_and_linked_document :
    let options : BuildOptions := ⟨[], none, false, false⟩
    let project : Project :=
      ⟨⟨"."⟩, .standard, false, [⟨"././a/x.ssf"⟩, ⟨"././b/x.ssf"⟩]⟩
    let first : LoadedDesign := ⟨⟨"././a/x.ssf"⟩, Design.ofTree Manifest.standard.widths (parse "")⟩
    let shared : World := (World.sharedName.built options).2
    let linked : Machine LinkedTree := (Machine.linkedDocument.built options).2
    options.toStdout = false ∧
      World.sharedName.built options = (.ok (), shared) ∧
      World.sharedName.discovered options = .ok project ∧
      World.sharedName.Loads project ⟨"././a/x.ssf"⟩ first ∧
      shared.read (first.resultPath (options.folder project)) ≠
        .ok (first.design.resolve.output.json.render (options.isPretty project)) ∧
      Machine.linkedDocument.built options = (.ok (), linked) ∧
      Machine.linkedDocument.read ⟨"a.ssf"⟩ = .ok "" ∧ linked.read ⟨"a.ssf"⟩ ≠ .ok "" := by
  intro options project first shared linked
  obtain ⟨hshared, hlost⟩ : (World.sharedName.built options).1 = .ok () ∧
      shared.read (first.resultPath (options.folder project)) ≠
        .ok (first.design.resolve.output.json.render (options.isPretty project)) := by
    decide +kernel
  have hp : World.sharedName.discovered options = .ok project := by rfl
  have hfirst : World.sharedName.Loads project ⟨"././a/x.ssf"⟩ first := ⟨"", by rfl, rfl⟩
  obtain ⟨hlinked, hdocument, hreplaced⟩ : (Machine.linkedDocument.built options).1 = .ok () ∧
      Machine.linkedDocument.read ⟨"a.ssf"⟩ = .ok "" ∧ linked.read ⟨"a.ssf"⟩ ≠ .ok "" := by
    decide +kernel
  exact ⟨rfl, Prod.ext hshared rfl, hp, hfirst, hlost, Prod.ext hlinked rfl, hdocument, hreplaced⟩

end Results

end DesignSystem
