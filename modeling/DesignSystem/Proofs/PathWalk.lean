import DesignSystem.Proofs.FolderUpdate
import DesignSystem.Proofs.PathParts

/-! Where a path leads that names are joined to: to what these names lead to from the item at the
path. -/

namespace DesignSystem

namespace Path

variable {p : Path} {name : String}

/-- The parts of a path that count on the way along it. -/
def steps (p : Path) : List String :=
  (p.parts.filter (!·.isEmpty)).map String.ofList

theorem route?_of_steps {folders : List String} {last : String} (h : p.steps = folders ++ [last]) :
    p.route? = some ⟨folders, last, p.text.toList.getLast? == some '/'⟩ := by
  have htext : p.text.toList ≠ [] := by
    intro he
    rw [steps, parts, he] at h
    simp at h
  rw [steps, parts] at h
  simp [route?, htext, h]

theorem route?_of_no_steps (htext : p.text ≠ "") (h : p.steps = []) :
    p.route? = some ⟨[], ".", true⟩ := by
  rw [steps, parts] at h
  simp only [route?, h]
  simp [htext]

theorem steps_join_relative (p : Path) {q : Path} (hq : q.isAbsolute = false) :
    (p.join q).steps = p.steps ++ q.steps := by
  obtain ⟨front, hparts, hfront⟩ := exists_parts_join_relative p hq
  have hfilter : front.filter (!·.isEmpty) = p.parts.filter (!·.isEmpty) := by
    rcases hfront with ⟨-, rfl⟩ | hp
    · rfl
    · simp [hp]
  simp [steps, hparts, ← hfilter]

theorem steps_join (p : Path) (h : IsFileName name) :
    (p.join ⟨name⟩).steps = p.steps ++ [name] := by
  rw [steps_join_relative p (isAbsolute_of_isFileName h)]
  simp [steps, parts_of_isFileName h, h.ne_empty]

theorem getLast?_parts_of_slash (h : p.text.toList.getLast? = some '/') :
    p.parts.getLast? = some [] := by
  obtain ⟨before, hbefore⟩ := List.getLast?_eq_some_iff.mp h
  rw [parts, hbefore, List.splitOn_append_cons_self, List.splitOn_nil, List.getLast?_concat]

theorem getLast?_eq_slash_of_parts {front : List (List Char)} (hfront : front ≠ [])
    (h : p.parts = front ++ [[]]) : p.text.toList.getLast? = some '/' := by
  have htext : ['/'].intercalate p.parts = p.text.toList := List.intercalate_splitOn '/'
  rw [h, intercalate_append '/' hfront (by simp)] at htext
  rw [← htext]
  simp

theorem route?_join (p : Path) (h : IsFileName name) :
    (p.join ⟨name⟩).route? = some ⟨p.steps, name, false⟩ := by
  obtain ⟨front, hparts, -⟩ := exists_parts_join p h
  have hlast : (p.join ⟨name⟩).text.toList.getLast? ≠ some '/' := by
    intro hslash
    have hempty := getLast?_parts_of_slash hslash
    rw [hparts, List.getLast?_concat] at hempty
    exact h.ne_empty (String.toList_eq_nil_iff.mp (Option.some.inj hempty))
  rw [route?_of_steps (steps_join p h), beq_eq_false_iff_ne.mpr hlast]

theorem isAbsolute_join (p : Path) (h : IsFileName name) :
    (p.join ⟨name⟩).isAbsolute = p.isAbsolute := by
  rw [Bool.eq_iff_iff, isAbsolute_iff, isAbsolute_iff, components_join p h]
  cases hc : p.components with
  | nil => simp
  | cons c rest => simp

end Path

namespace World

variable {w : World} {p : Path} {name : String}

/-- The folder that all parts of a path lead to. -/
def folderAt (w : World) (p : Path) : Except FileError Place := do
  let start ← w.walk (if p.isAbsolute then [] else w.workingPlace) "."
  p.steps.foldlM w.walk start

theorem isFolderAt_of_folderAt {place : Place} (h : w.folderAt p = .ok place) :
    w.IsFolderAt place := by
  rw [folderAt] at h
  cases hs : w.walk (if p.isAbsolute then [] else w.workingPlace) "." with
  | error e =>
    rw [hs] at h
    cases h
  | ok start =>
    rw [hs] at h
    exact isFolderAt_of_walks (walk_eq_ok_iff.mp hs).2 h

/-- All parts of a path lead to a folder exactly if the path leads to it. -/
theorem folderAt_eq_ok_iff (hp : p.text ≠ "") {place : Place} :
    w.folderAt p = .ok place ↔
      (∃ route, w.locate p = .ok (route, place)) ∧ w.IsFolderAt place := by
  rw [folderAt, locate]
  cases hs : w.walk (if p.isAbsolute then [] else w.workingPlace) "." with
  | error e => cases p.route? <;> simp [bind, Except.bind]
  | ok start =>
    rcases List.eq_nil_or_concat' p.steps with hsteps | ⟨folders, last, hsteps⟩
    · have hstart := (walk_eq_ok_iff.mp hs).2
      rw [Path.route?_of_no_steps hp hsteps, hsteps]
      simp only [bind, Except.bind, List.foldlM_nil, pure, Except.pure, Except.ok.injEq,
        Prod.mk.injEq, Place.step, if_true, exists_and_right, exists_eq', true_and]
      exact ⟨fun h => ⟨h, h ▸ hstart⟩, fun h => h.1⟩
    · rw [Path.route?_of_steps hsteps, hsteps]
      simp only [bind, Except.bind, List.foldlM_append]
      cases hf : folders.foldlM w.walk start with
      | error e => simp
      | ok folder =>
        have hlast : [last].foldlM w.walk folder = w.walk folder last := by simp
        simp only [hlast, walk_eq_ok_iff, pure, Except.pure, Except.ok.injEq, Prod.mk.injEq,
          exists_and_right, exists_eq', true_and]
        exact and_congr_left' eq_comm

theorem find?_eq_folder_iff (hp : p.text ≠ "") {items : List (String × Item Content)} :
    w.find? p = some (.folder items) ↔
      ∃ place, w.folderAt p = .ok place ∧ w.root.at? place = some (.folder items) := by
  rw [find?_eq_some_iff, find_eq_ok_folder_iff]
  constructor
  · rintro ⟨route, place, hl, ha⟩
    exact ⟨place, (folderAt_eq_ok_iff hp).mpr ⟨⟨route, hl⟩, isFolderAt_iff.mpr ⟨items, ha⟩⟩, ha⟩
  · rintro ⟨place, hf, ha⟩
    obtain ⟨⟨route, hl⟩, -⟩ := (folderAt_eq_ok_iff hp).mp hf
    exact ⟨route, place, hl, ha⟩

theorem locate_join (w : World) (p : Path) (h : IsFileName name) :
    w.locate (p.join ⟨name⟩) =
      (w.folderAt p).map fun folder => (⟨p.steps, name, false⟩, folder ++ [name]) := by
  have hstep : ∀ folder : Place, folder.step name = folder ++ [name] := fun folder => by
    rw [Place.step, if_neg h.ne_here, if_neg h.ne_up]
  rw [locate, Path.route?_join p h, Path.isAbsolute_join p h, folderAt]
  cases w.walk (if p.isAbsolute then [] else w.workingPlace) "." with
  | error e => rfl
  | ok start =>
    cases hf : p.steps.foldlM w.walk start <;>
      simp [bind, Except.bind, hf, hstep, Except.map, pure, Except.pure]

/-- A name joined to a path leads to the item of that name in the folder at the path. -/
theorem find?_join (hp : p.text ≠ "") (h : IsFileName name) :
    w.find? (p.join ⟨name⟩) = (w.find? p).bind (Item.child? name) := by
  cases hf : w.folderAt p with
  | error e =>
    -- Then `p` leads to a file or to nothing, and both have no items.
    have hnone : w.find? (p.join ⟨name⟩) = none := by
      rw [find?, find, locate_join w p h, hf]
      rfl
    have hfolder : ∀ items, w.find? p ≠ some (.folder items) := by
      intro items hi
      obtain ⟨place, hplace, -⟩ := (find?_eq_folder_iff hp).mp hi
      rw [hf] at hplace
      cases hplace
    rw [hnone]
    cases hi : w.find? p with
    | none => rfl
    | some item =>
      cases item with
      | file content => rfl
      | folder items => exact absurd hi (hfolder items)
  | ok folder =>
    obtain ⟨items, hi⟩ := isFolderAt_iff.mp (isFolderAt_of_folderAt hf)
    rw [(find?_eq_folder_iff hp).mpr ⟨folder, hf, hi⟩, find?, find, locate_join w p h, hf]
    simp only [Except.map, bind, Except.bind, Item.at?_concat_of_folder hi, Option.bind_some,
      Item.child?]
    cases hl : items.lookup name with
    | none => simp [Except.toOption]
    | some item => cases item <;> simp [Except.toOption]

theorem find?_below (hp : p.text ≠ "") {place : Place} (h : ∀ name ∈ place, IsFileName name) :
    w.find? (p.below place) = (w.find? p).bind (Item.at? place) := by
  induction place generalizing p with
  | nil =>
    cases hi : w.find? p with
    | none => exact hi
    | some item => exact hi
  | cons name place ih =>
    have hname : IsFileName name := h name (by simp)
    have hrest : ∀ n ∈ place, IsFileName n := fun n hn => h n (by simp [hn])
    calc w.find? (p.below (name :: place))
        = (w.find? (p.join ⟨name⟩)).bind (Item.at? place) :=
          ih (Path.text_join_ne_empty p hname) hrest
      _ = (w.find? p).bind (Item.at? (name :: place)) := by
          rw [find?_join hp hname, Option.bind_assoc]
          rfl

theorem text_ne_empty_of_find? {item : Item Content} (h : w.find? p = some item) :
    p.text ≠ "" := by
  intro he
  obtain rfl : p = ⟨""⟩ := congrArg Path.mk he
  cases h

theorem exists_place_of_find? {item : Item Content} (h : w.find? p = some item) :
    ∃ place, w.root.at? place = some item := by
  rw [find?_eq_some_iff] at h
  cases item with
  | file content =>
    obtain ⟨route, place, -, -, ha⟩ := find_eq_ok_file_iff.mp h
    exact ⟨place, ha⟩
  | folder items =>
    obtain ⟨route, place, -, ha⟩ := find_eq_ok_folder_iff.mp h
    exact ⟨place, ha⟩

/-- The last part of a path to a file is a name or two dots. -/
theorem exists_last_part_of_file {content : Content} (h : w.find? p = some (.file content)) :
    ∃ part, p.parts.getLast? = some part ∧ Path.isIdle part = false := by
  have hp : p.text ≠ "" := text_ne_empty_of_find? h
  obtain ⟨route, place, hl, hwants, ha⟩ :=
    find_eq_ok_file_iff.mp (find?_eq_some_iff.mp h)
  obtain ⟨hroute, folder, hfolder, rfl⟩ := exists_of_locate hl
  obtain ⟨front, part, hparts⟩ : ∃ front part, p.parts = front ++ [part] :=
    (List.eq_nil_or_concat' p.parts).resolve_left p.parts_ne_nil
  refine ⟨part, by simp [hparts], Bool.eq_false_iff.mpr fun hidle => ?_⟩
  have hpart : part = [] ∨ part = ['.'] := by simpa [Path.isIdle] using hidle
  rcases hpart with rfl | rfl
  · have hfront : front ≠ [] := by
      rintro rfl
      exact hp (Path.parts_eq_empty_iff.mp hparts)
    have hslash := Path.getLast?_eq_slash_of_parts hfront hparts
    rcases List.eq_nil_or_concat' p.steps with hsteps | ⟨folders, last, hsteps⟩
    · rw [Path.route?_of_no_steps hp hsteps] at hroute
      obtain rfl := Option.some.inj hroute
      cases hwants
    · rw [Path.route?_of_steps hsteps, hslash] at hroute
      obtain rfl := Option.some.inj hroute
      cases hwants
  · have hsteps : p.steps = (front.filter (!·.isEmpty)).map String.ofList ++ ["."] := by
      simp [Path.steps, hparts]
    rw [Path.route?_of_steps hsteps] at hroute
    obtain rfl := Option.some.inj hroute
    obtain ⟨items, hi⟩ := isFolderAt_iff.mp hfolder
    rw [Place.step, if_pos rfl, hi] at ha
    cases ha

end World

end DesignSystem
