import DesignSystem.Command
import DesignSystem.Proofs.FolderUpdate
import DesignSystem.Proofs.TidyText

/-! Formatting a file in place keeps what the file means, and a second time changes
nothing. -/

namespace DesignSystem

namespace World

open Machine

/-- The machine with some other way of writing files. -/
@[reducible] def hostWriting (write : Path → String → StateM World (Except FileError Unit)) :
    Host (StateM World) :=
  { (inferInstance : Host (StateM World)) with write := write }

/-- The machine after a report on a file. -/
def reported (w : World) (verb : String) (p : Path) : World :=
  ((do Host.status verb (← Host.display p) : StateM World Unit).run w).2

/-- What a command results in and what it prints. -/
def outcome (w : World) (act : ExceptT Failure (StateM World) Unit) :
    Except Failure Unit × String :=
  let (result, v) := act.run.run { w with stdout := "" }
  (result, v.stdout)

theorem run_readDocument (write : Path → String → StateM World (Except FileError Unit))
    {w : World} {p : Path} {source : String} (h : w.read p = .ok source) :
    (@readDocument (StateM World) _ (hostWriting write) p).run.run w = (.ok source, w) := by
  have hr : (@readDocument (StateM World) _ (hostWriting write) p).run.run w =
      ((w.read p).mapError (.access p .readFile), w) := rfl
  rw [hr, h]
  rfl

theorem run_write_of_ok {w v : World} {p : Path} {text : String} (h : w.write p text = .ok v) :
    (attempt .writeFile p (Host.write p text) : ExceptT Failure (StateM World) Unit).run.run w =
      (.ok (), v) := by
  rw [run_attempt, run_write, h]
  rfl

theorem exists_run_display (w : World) (p : Path) :
    ∃ text, (Host.display p : StateM World String).run w = (text, w) := by
  have hf : (Host.workingFolder : StateM World Path).run w =
      (pure (w.workingPlace.path, w) : Id (Path × World)) := rfl
  rw [Host.display, StateT.run_bind, hf, pure_bind]
  dsimp only
  cases p.relativeTo? w.workingPlace.path with
  | none => exact ⟨_, rfl⟩
  | some rest => exact ⟨_, rfl⟩

theorem exists_reported_eq (w : World) (verb : String) (p : Path) :
    ∃ line, w.reported verb p = { w with stderr := w.stderr ++ line } := by
  obtain ⟨text, ht⟩ := exists_run_display w p
  refine ⟨String.ofList (verb.toList.leftpad 12 ' ') ++ " " ++ text ++ "\n", ?_⟩
  rw [reported, StateT.run_bind, ht]
  rfl

theorem read_reported (w : World) (verb : String) (p q : Path) :
    (w.reported verb p).read q = w.read q := by
  obtain ⟨line, hl⟩ := exists_reported_eq w verb p
  rw [hl]
  exact read_congr rfl rfl q

theorem run_formatFile_of_tidy
    (write : Path → String → StateM World (Except FileError Unit)) {w : World} {file : Path}
    {source : String} (h : w.read file = .ok source) (ht : format source = source) :
    (@formatFile (StateM World) _ (hostWriting write) file true).run.run w =
      (.ok (), w.reported "Unchanged" file) := by
  unfold formatFile
  rw [run_bind_ok (run_readDocument write h)]
  simp only [ht, if_true]
  rfl

theorem run_formatFile_of_untidy {w v : World} {file : Path} {source : String}
    (h : w.read file = .ok source) (ht : format source ≠ source)
    (hv : w.write file (format source) = .ok v) :
    (formatFile file true : ExceptT Failure (StateM World) Unit).run.run w =
      (.ok (), v.reported "Formatted" file) := by
  unfold formatFile
  rw [run_bind_ok (run_readDocument _ h)]
  simp only [ht, if_false, Bool.not_true, Bool.false_eq_true]
  rw [run_bind_ok (run_write_of_ok hv)]
  rfl

theorem outcome_printTree {w : World} {file : Path} {source : String}
    (h : w.read file = .ok source) (pretty : Bool) :
    w.outcome (printTree file pretty) =
      (.ok (), (Tree.json (parse source)).render pretty ++ "\n") := by
  have hr : World.read { w with stdout := "" } file = .ok source := by
    rw [← h]
    exact read_congr rfl rfl file
  have hp : (printTree file pretty : ExceptT Failure (StateM World) Unit).run.run
      { w with stdout := "" } =
      (.ok (), { w with stdout := "" ++ ((Tree.json (parse source)).render pretty ++ "\n") }) := by
    unfold printTree
    rw [run_bind_ok (run_readDocument _ hr)]
    rfl
  rw [outcome, hp, String.empty_append]

end World

/-- Formatting keeps the lines of a document, and with them its tree, and a formatted text
stays as it is. A file is formatted in place without fail. Its tree is printed as before, and
formatting it again only reports that nothing was to do, whatever writing would have done. -/
theorem format_keeps_meaning :
    (∀ source, documentLines (format source) = documentLines source) ∧
    (∀ convert source, parseWith convert (format source) = parseWith convert source) ∧
    (∀ source, format (format source) = format source) ∧
    ∀ (w : World) (file : Path) (source : String), w.read file = .ok source →
      ∃ v : World, (formatFile file true : ExceptT Failure (StateM World) Unit).run.run w =
          (.ok (), v) ∧
        v.read file = .ok (format source) ∧
        (∀ pretty, v.outcome (printTree file pretty) = w.outcome (printTree file pretty)) ∧
        (∀ write, (@formatFile (StateM World) _ (World.hostWriting write) file true).run.run v =
          (.ok (), v.reported "Unchanged" file)) ∧
        (v.reported "Unchanged" file).root = v.root := by
  refine ⟨documentLines_format, parseWith_format, format_format, ?_⟩
  intro w file source h
  have hparse : parse (format source) = parse source := parseWith_format _ source
  have hfirst : ∃ v : World,
      (formatFile file true : ExceptT Failure (StateM World) Unit).run.run w = (.ok (), v) ∧
        v.read file = .ok (format source) := by
    by_cases ht : format source = source
    · refine ⟨w.reported "Unchanged" file, World.run_formatFile_of_tidy _ h ht, ?_⟩
      rw [World.read_reported, h, ht]
    · obtain ⟨v, hv, hread⟩ := World.exists_write_of_read h (format source)
      refine ⟨v.reported "Formatted" file, World.run_formatFile_of_untidy h ht hv, ?_⟩
      rw [World.read_reported, hread]
  obtain ⟨v, hv, hread⟩ := hfirst
  refine ⟨v, hv, hread, ?_, ?_, ?_⟩
  · intro pretty
    rw [World.outcome_printTree hread, World.outcome_printTree h, hparse]
  · intro write
    exact World.run_formatFile_of_tidy write hread (format_format source)
  · obtain ⟨line, hl⟩ := World.exists_reported_eq v "Unchanged" file
    rw [hl]

/-- The file `a.ssf` with one line that is spaced too widely. -/
theorem format_keeps_meaning_spaced :
    let w : World := ⟨.folder [("a.ssf", .file (.text "a   1\n\n"))], [], "", ""⟩
    w.read ⟨"a.ssf"⟩ = .ok "a   1\n\n" ∧
      ∃ v : World, (formatFile ⟨"a.ssf"⟩ true : ExceptT Failure (StateM World) Unit).run.run w =
          (.ok (), v) ∧ v.read ⟨"a.ssf"⟩ = .ok "a 1\n" := by
  intro w
  have hr : w.read ⟨"a.ssf"⟩ = .ok "a   1\n\n" := by rfl
  obtain ⟨v, hv, hf, -⟩ := format_keeps_meaning.2.2.2 w ⟨"a.ssf"⟩ _ hr
  exact ⟨hr, v, hv, hf.trans (congrArg Except.ok (by decide))⟩

end DesignSystem
