import DesignSystem.Proofs.FolderChain

/-! Making missing folders. The folder that a path leads to is there in the end, with all folders on
the way, provided that no file is in the way and that no dot stands behind a missing folder. -/

namespace DesignSystem

namespace Path

variable {p q : Path}

/-- The steps of a path that are no dots. -/
def moves (p : Path) : List String :=
  p.steps.filter (· != ".")

theorem ofList_ne_dot {part : List Char} (h : isIdle part = false) : String.ofList part ≠ "." := by
  intro he
  have hpart : part = ['.'] := by simpa using congrArg String.toList he
  rw [hpart] at h
  cases h

theorem length_filter_stepsOf (parts : List (List Char)) :
    ((stepsOf parts).filter (· != ".")).length = (parts.filterMap component?).length := by
  induction parts with
  | nil => rfl
  | cons part parts ih =>
    rw [← List.singleton_append, stepsOf_append, List.filter_append, List.filterMap_append,
      List.length_append, List.length_append, ih]
    congr 1
    by_cases hidle : isIdle part = true
    · have hpart : part = [] ∨ part = ['.'] := by simpa [isIdle] using hidle
      rcases hpart with rfl | rfl <;> rfl
    · rw [Bool.not_eq_true] at hidle
      have hne : part.isEmpty = false := by
        simp only [isIdle, Bool.or_eq_false_iff] at hidle
        exact hidle.1
      obtain ⟨c, hc⟩ : ∃ c, component? part = some c := by
        rw [component?, hidle, if_neg Bool.false_ne_true]
        split <;> exact ⟨_, rfl⟩
      simp [stepsOf, hne, ofList_ne_dot hidle, hc]

theorem length_moves_le (p : Path) : p.moves.length ≤ p.components.length := by
  have hsteps : p.steps = stepsOf (startParts p.split.1 ++ p.split.2) :=
    congrArg stepsOf p.parts_eq_split
  have hstart : (startParts p.split.1).filterMap component? = [] := by
    rcases p.start_cases with hs | hs | hs <;> rw [hs] <;> rfl
  rw [moves, hsteps, length_filter_stepsOf, List.filterMap_append, hstart, List.nil_append,
    components, List.length_append]
  exact Nat.le_add_left _ _

/-- A dot at the end of the path does not come after other steps. -/
def EndsInMove (p : Path) : Prop :=
  p.steps.getLast? ≠ some "." ∨ ∀ s ∈ p.steps, s = "."

theorem eq_dot_of_mem_startParts (p : Path) :
    ∀ s ∈ stepsOf (startParts p.split.1), s = "." := by
  rcases p.start_cases with hs | hs | hs <;> rw [hs] <;> simp [startParts, stepsOf]

theorem eq_dot_of_parent?_eq_none (h : p.parent? = none) : ∀ s ∈ p.steps, s = "." := by
  have hnil : trimEnd p.split.2 = [] := by
    rcases List.eq_nil_or_concat' (trimEnd p.split.2) with hnil | ⟨init, last, hlast⟩
    · exact hnil
    · rw [parent?_of_trimEnd hlast] at h
      cases h
  obtain ⟨idle, hparts, hidle⟩ := exists_trimEnd p.split.2
  rw [hnil, List.nil_append] at hparts
  have hsteps : p.steps = stepsOf (startParts p.split.1) ++ stepsOf idle := by
    rw [← stepsOf_append, ← hparts]
    exact congrArg stepsOf p.parts_eq_split
  rw [hsteps, List.forall_mem_append]
  exact ⟨p.eq_dot_of_mem_startParts, eq_dot_of_mem_stepsOf hidle⟩

theorem endsInMove_of_parent? (h : p.parent? = some q) : q.EndsInMove := by
  rcases parent?_cases h with ⟨-, -, rfl⟩ | ⟨init, last, hlast, rfl⟩
  · exact Or.inr (by simp [steps, parts])
  · obtain ⟨more, idle, -, -, -, hslash⟩ := exists_split_of_trimEnd hlast
    rw [EndsInMove, steps_unsplit p.start_cases hslash, stepsOf_append]
    rcases List.eq_nil_or_concat' (trimEnd init) with hnil | ⟨front, end', hend⟩
    · right
      rw [hnil, List.forall_mem_append]
      exact ⟨p.eq_dot_of_mem_startParts, by simp [stepsOf]⟩
    · left
      have hidle := not_idle_of_trimEnd hend
      have hne : end'.isEmpty = false := by
        simp only [isIdle, Bool.or_eq_false_iff] at hidle
        exact hidle.1
      simp [hend, stepsOf, hne, ofList_ne_dot hidle]

end Path

namespace World

variable {w v : World} {p q : Path}

section Walking

theorem prefix_foldl_step {parts : List String} (h : ".." ∉ parts) (place : Place) :
    place <+: parts.foldl Place.step place := by
  induction parts generalizing place with
  | nil => exact List.prefix_refl place
  | cons part parts ih =>
    have hpart : part ≠ ".." := fun he => h (by simp [he])
    refine List.IsPrefix.trans ?_ (ih (fun hm => h (by simp [hm])) (place.step part))
    rw [Place.step, if_neg hpart]
    split
    · exact List.prefix_refl place
    · exact List.prefix_append place [part]

theorem file?_of_isFolderAt {place : Place} (h : w.IsFolderAt place) : w.file? place = none := by
  rw [file?, h]
  rfl

/-- Where no file is on the way to a place, none is on the way along a path to it. -/
theorem file?_foldl_of_target (hw : w.ClimbsFromFolders p)
    (hfree : ∀ front, front <+: w.target p → w.file? front = none) {front : List String}
    (hfront : front <+: p.steps) : w.file? (front.foldl Place.step (w.startOf p)) = none := by
  obtain ⟨rest, hrest⟩ := hfront
  by_cases hup : ".." ∈ rest
  · obtain ⟨before, after, rfl⟩ := List.append_of_mem hup
    obtain ⟨place, hplace⟩ := hw (front ++ before) after (by rw [← hrest, List.append_assoc])
    obtain ⟨-, hfolders⟩ := walkAlong_eq_ok_iff.mp hplace
    exact file?_of_isFolderAt (hfolders front (List.prefix_append _ _))
  · refine hfree _ ?_
    rw [target, ← hrest, List.foldl_append]
    exact prefix_foldl_step hup _

/-- A walk on which no file is comes to an end where something is missing. -/
theorem walks_eq_missing {parts : List String} {start : Place} {e : FileError}
    (hfree : ∀ front, front <+: parts → w.file? (front.foldl Place.step start) = none)
    (h : parts.foldlM w.walk start = .error e) : e = .missing := by
  induction parts generalizing start with
  | nil => cases h
  | cons part parts ih =>
    rw [List.foldlM_cons] at h
    cases hw : w.walk start part with
    | ok next =>
      obtain ⟨rfl, -⟩ := walk_eq_ok_iff.mp hw
      rw [hw] at h
      exact ih (fun front hf => hfree (part :: front) (by simpa using hf)) h
    | error e' =>
      rw [hw] at h
      obtain rfl : e' = e := Except.error.inj h
      have hnone := hfree [part] (by simp)
      simp only [List.foldl_cons, List.foldl_nil, file?, seen] at hnone
      rw [walk] at hw
      cases hi : w.root.at? (start.step part) with
      | none =>
        rw [hi] at hw
        exact (Except.error.inj hw).symm
      | some item =>
        rw [hi] at hw hnone
        cases item with
        | file content => cases hnone
        | folder items => cases hw

theorem walks_dots {dots : List String} (h : ∀ s ∈ dots, s = ".") {place : Place}
    (hplace : w.IsFolderAt place) : dots.foldlM w.walk place = .ok place := by
  refine (walks_eq_ok_iff hplace).mpr ⟨(foldl_step_dots h place).symm, fun front hf => ?_⟩
  rwa [foldl_step_dots fun s hs => h s (hf.subset hs)]

theorem folderAt_of_dots (h : ∀ s ∈ p.steps, s = ".") (hstart : w.IsFolderAt (w.startOf p)) :
    w.folderAt p = .ok (w.startOf p) := by
  refine folderAt_eq_ok_target_iff.mpr ⟨(foldl_step_dots h _).symm, fun front hf => ?_⟩
  rwa [foldl_step_dots fun s hs => h s (hf.subset hs)]

end Walking

section Last

variable {dots : List String} {part : String}

/-- A path to no folder adds a name to the path around it. -/
theorem exists_last_step (hw : w.ClimbsFromFolders p) (hend : p.EndsInMove)
    (hstart : w.IsFolderAt (w.startOf p)) (h : p.parent? = some q)
    (hmissing : ∀ place, w.folderAt p ≠ .ok place) :
    ∃ dots part, p.steps = q.steps ++ dots ++ [part] ∧ (∀ s ∈ dots, s = ".") ∧
      part ≠ "." ∧ part ≠ ".." := by
  obtain ⟨-, dots, part, back, hsteps, hdots, hback⟩ := Path.exists_steps_of_parent? h
  have hlast : p.steps.getLast? ≠ some "." :=
    hend.resolve_right fun hall => hmissing _ (folderAt_of_dots hall hstart)
  obtain rfl : back = [] := by
    rcases List.eq_nil_or_concat' back with hnil | ⟨front, s, rfl⟩
    · exact hnil
    · refine absurd ?_ hlast
      rw [hsteps, hback s (by simp), ← List.cons_append, ← List.append_assoc, List.getLast?_concat]
  refine ⟨dots, part, hsteps, hdots, ?_, ?_⟩
  · rintro rfl
    exact hlast (by simp [hsteps])
  · rintro rfl
    obtain ⟨place, hplace⟩ := exists_folderAt_of_up hw hsteps hback
    exact hmissing place hplace

variable (hsteps : p.steps = q.steps ++ dots ++ [part]) (hdots : ∀ s ∈ dots, s = ".")
include hsteps hdots

theorem length_moves_of_last_step (hdot : part ≠ ".") :
    p.moves.length = q.moves.length + 1 := by
  have hnone : dots.filter (· != ".") = [] := by simpa using hdots
  simp [Path.moves, hsteps, hnone, hdot]

variable (hstart : w.startOf q = w.startOf p)
include hstart

theorem target_of_last_step (hdot : part ≠ ".") (hup : part ≠ "..") :
    w.target p = w.target q ++ [part] := by
  have hstep : (w.target q).step part = w.target q ++ [part] := by
    rw [Place.step, if_neg hdot, if_neg hup]
  rw [← hstep, target, target, hsteps, hstart]
  simp [foldl_step_dots hdots]

theorem locate_of_last_step : ∃ route, w.locate p =
    (w.folderAt q).map fun folder => (route, folder.step part) := by
  obtain ⟨route, hroute, hfolders, hlast⟩ : ∃ route, p.route? = some route ∧
      route.folders = q.steps ++ dots ∧ route.last = part :=
    ⟨_, Path.route?_of_steps hsteps, rfl, rfl⟩
  have hwalk : w.walkAlong p q.steps = w.folderAt q := by
    rw [folderAt_eq_walkAlong, walkAlong, walkAlong, hstart]
  refine ⟨route, ?_⟩
  rw [locate_of_route? hroute, hfolders, hlast, walkAlong_append, hwalk]
  cases hq : w.folderAt q with
  | error e => rfl
  | ok place =>
    change (dots.foldlM w.walk place).map _ = _
    rw [walks_dots hdots (isFolderAt_of_folderAt hq)]

/-- In a folder that is there a folder is made. -/
theorem ensured_of_outer_folder (hdot : part ≠ ".") (hup : part ≠ "..") {place : Place}
    (hq : w.folderAt q = .ok place) (hfree : w.file? (place ++ [part]) = none) :
    ∃ v, w.ensured p = (.ok (), v) ∧ ∃ inner, v.folderAt p = .ok inner := by
  have hp : p.text ≠ "" := by
    intro he
    obtain rfl : p = ⟨""⟩ := congrArg Path.mk he
    simp [Path.steps, Path.parts] at hsteps
  obtain ⟨route, hl⟩ := locate_of_last_step hsteps hdots hstart (w := w)
  have hstep : place.step part = place ++ [part] := by
    rw [Place.step, if_neg hdot, if_neg hup]
  rw [hq, Except.map, hstep] at hl
  cases hi : w.root.at? (place ++ [part]) with
  | none =>
    obtain ⟨v, hmake⟩ : ∃ v, w.makeFolder p = .ok v := by
      rw [makeFolder, hl]
      simp [bind, Except.bind, hi]
    have hgrows := grows_of_makeFolder hmake
    obtain ⟨route', inner, hl', -, -, hseen⟩ := exists_of_makeFolder hmake
    refine ⟨v, by rw [ensured_eq, hmake], inner, (folderAt_eq_ok_iff hp).mpr ⟨⟨route', ?_⟩, ?_⟩⟩
    · exact locate_mono hgrows.workingPlace hgrows.folders hl'
    · rw [IsFolderAt, hseen, if_pos rfl]
  | some item =>
    cases item with
    | file content => simp [file?, seen, hi, Item.content?] at hfree
    | folder items =>
      have hfolder : w.folderAt p = .ok (place ++ [part]) :=
        (folderAt_eq_ok_iff hp).mpr ⟨⟨route, hl⟩, isFolderAt_iff.mpr ⟨items, hi⟩⟩
      exact ⟨w, ensured_of_folderAt hp hfolder, _, hfolder⟩

end Last

/-- What it takes to make the folder that a path leads to. -/
structure CanMake (w : World) (p : Path) : Prop where
  climbs : w.ClimbsFromFolders p
  start : w.IsFolderAt (w.startOf p)
  ends : p.EndsInMove
  free : ∀ front, front <+: w.target p → w.file? front = none

theorem CanMake.folderAt_eq_missing (hw : w.CanMake p) (h : ∀ place, w.folderAt p ≠ .ok place) :
    w.folderAt p = .error .missing := by
  have hwalk : w.folderAt p = p.steps.foldlM w.walk (w.startOf p) := by
    have hhere : w.walk (w.startOf p) "." = .ok (w.startOf p) := walk_eq_ok_iff.mpr ⟨rfl, hw.start⟩
    rw [folderAt_eq_walkAlong, walkAlong, hhere]
    rfl
  cases he : w.folderAt p with
  | ok place => exact absurd he (h place)
  | error e =>
    have hfree : ∀ front, front <+: p.steps →
        w.file? (front.foldl Place.step (w.startOf p)) = none := fun _ hf =>
      file?_foldl_of_target hw.climbs hw.free hf
    rw [walks_eq_missing hfree (hwalk.symm.trans he)]

section Outer

variable (hw : w.CanMake p) (h : p.parent? = some q)
  (hmissing : ∀ place, w.folderAt p ≠ .ok place)
include hw h hmissing

theorem length_moves_outer : p.moves.length = q.moves.length + 1 := by
  obtain ⟨dots, part, hsteps, hdots, hdot, -⟩ :=
    exists_last_step hw.climbs hw.ends hw.start h hmissing
  exact length_moves_of_last_step hsteps hdots hdot

theorem CanMake.outer : w.CanMake q := by
  obtain ⟨dots, part, hsteps, hdots, hdot, hup⟩ :=
    exists_last_step hw.climbs hw.ends hw.start h hmissing
  have hstart : w.startOf q = w.startOf p := startOf_outer h
  have htarget := target_of_last_step hsteps hdots hstart hdot hup
  refine ⟨hw.climbs.of_parent? h, hstart ▸ hw.start, Path.endsInMove_of_parent? h,
    fun front hf => hw.free front ?_⟩
  exact htarget ▸ hf.trans (List.prefix_append _ _)

theorem ensured_of_outer_missing (hq : ∀ place, w.folderAt q ≠ .ok place) :
    w.ensured p = (.error .missing, w) := by
  obtain ⟨dots, part, hsteps, hdots, -, -⟩ :=
    exists_last_step hw.climbs hw.ends hw.start h hmissing
  have houter : w.CanMake q := hw.outer h hmissing
  have hfolder : w.folderAt q = .error .missing := houter.folderAt_eq_missing hq
  obtain ⟨route, hl⟩ := locate_of_last_step hsteps hdots (startOf_outer h) (w := w)
  have hmake : w.makeFolder p = .error .missing := by
    rw [makeFolder, hl, hfolder]
    rfl
  rw [ensured_eq, hmake]

/-- Once the folder around is there, the folder is made. Others may have been made before. -/
theorem exists_ensured_of_outer {u : World} {place around : Place} (hmade : MakesFolders place w u)
    (hq : u.folderAt q = .ok around) :
    ∃ v, u.ensured p = (.ok (), v) ∧ ∃ inner, v.folderAt p = .ok inner := by
  obtain ⟨dots, part, hsteps, hdots, hdot, hup⟩ :=
    exists_last_step hw.climbs hw.ends hw.start h hmissing
  obtain ⟨rfl, -⟩ := folderAt_eq_ok_target_iff.mp hq
  have hstart : w.startOf q = w.startOf p := startOf_outer h
  have htarget := target_of_last_step hsteps hdots hstart hdot hup
  have hfree : w.file? (w.target q ++ [part]) = none := hw.free _ (htarget ▸ List.prefix_refl _)
  refine ensured_of_outer_folder hsteps hdots (startOf_outer h) hdot hup hq ?_
  rw [hmade.target_eq q, hmade.grows.files _ not_false, hfree]

end Outer

/-- Where nothing but folders is on the way, missing ones are made. -/
theorem exists_ensuredChain_climb (n : Nat) (hw : w.CanMake p) (hn : p.moves.length ≤ n) :
    ∃ v, w.ensuredChain (p.climb n) = (.ok (), v) ∧ ∃ place, v.folderAt p = .ok place := by
  induction n generalizing p w with
  | zero =>
    have hdots : ∀ s ∈ p.steps, s = "." := by
      simpa [Path.moves] using hn
    exact ⟨w, rfl, _, folderAt_of_dots hdots hw.start⟩
  | succ n ih =>
    rw [Path.climb]
    cases hq : p.parent? with
    | none => exact ⟨w, rfl, _, folderAt_of_dots (Path.eq_dot_of_parent?_eq_none hq) hw.start⟩
    | some q =>
      dsimp only
      by_cases hfolder : ∃ place, w.folderAt p = .ok place
      · obtain ⟨place, hplace⟩ := hfolder
        have hp : p.text ≠ "" := by
          rintro he
          obtain rfl : p = ⟨""⟩ := congrArg Path.mk he
          cases hq
        have hfirst := ensured_of_folderAt hp hplace
        exact ⟨w, ensuredChain_of_ne_missing hfirst (by simp) _, place, hplace⟩
      · have hmissing := not_exists.mp hfolder
        by_cases hplace : ∃ place, w.folderAt q = .ok place
        · obtain ⟨place, hplace⟩ := hplace
          obtain ⟨v, hv, hinner⟩ := exists_ensured_of_outer hw hq hmissing (.refl [] w) hplace
          exact ⟨v, ensuredChain_of_ne_missing hv (by simp) _, hinner⟩
        · -- The folders around are made first, and `p` is tried again.
          have hfirst := ensured_of_outer_missing hw hq hmissing (not_exists.mp hplace)
          have houter : w.CanMake q := hw.outer hq hmissing
          have hmoves := length_moves_outer hw hq hmissing
          obtain ⟨u, hu, around, haround⟩ := ih houter (by omega)
          have hmade := makesFolders_climb n houter.climbs
          rw [hu] at hmade
          obtain ⟨v, hv, hinner⟩ := exists_ensured_of_outer hw hq hmissing hmade haround
          refine ⟨v, (ensuredChain_of_missing hfirst _).trans ?_, hinner⟩
          rw [hu]
          exact hv

theorem exists_makeFolders (hw : w.CanMake p) :
    ∃ v, (Host.makeFolders p : StateM World (Except FileError Unit)).run w = (.ok (), v) ∧
      ∃ place, v.folderAt p = .ok place :=
  exists_ensuredChain_climb p.components.length hw p.length_moves_le

/-- What is at a path where a folder can be made is a folder. -/
theorem exists_folderAt_of_find? (hw : w.CanMake p) {item : Item Content}
    (h : w.find? p = some item) : ∃ place, w.folderAt p = .ok place := by
  cases item with
  | folder items =>
    obtain ⟨place, hplace, -⟩ := (find?_eq_folder_iff (text_ne_empty_of_find? h)).mp h
    exact ⟨place, hplace⟩
  | file content =>
    obtain ⟨route, place, hl, -, hi⟩ := find_eq_ok_file_iff.mp (find?_eq_some_iff.mp h)
    have hnone := hw.free place (target_of_locate hl ▸ List.prefix_refl _)
    simp [file?, seen, hi, Item.content?] at hnone

end World

end DesignSystem
