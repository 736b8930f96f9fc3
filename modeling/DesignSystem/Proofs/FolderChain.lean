import DesignSystem.Proofs.OuterPaths

/-! Making the folders of a path. What is made are folders on the way to the place that the path
leads to, provided that each `..` in the path comes after parts that lead to a folder. -/

namespace DesignSystem

namespace World

variable {w v : World} {p q : Path}

section Leading

/-- Where the walk along a path starts. -/
def startOf (w : World) (p : Path) : Place :=
  if p.isAbsolute then [] else w.workingPlace

theorem startOf_congr (h : v.workingPlace = w.workingPlace) (p : Path) :
    v.startOf p = w.startOf p := by
  rw [startOf, startOf, h]

/-- The place that a path leads to, whatever is there. -/
def target (w : World) (p : Path) : Place :=
  p.steps.foldl Place.step (w.startOf p)

/-- Walks from the start of a path along some parts. -/
def walkAlong (w : World) (p : Path) (parts : List String) : Except FileError Place := do
  let start ← w.walk (w.startOf p) "."
  parts.foldlM w.walk start

theorem folderAt_eq_walkAlong : w.folderAt p = w.walkAlong p p.steps := rfl

/-- Each `..` in a path comes after parts that lead to a folder. -/
def ClimbsFromFolders (w : World) (p : Path) : Prop :=
  ∀ before after, p.steps = before ++ ".." :: after → ∃ place, w.walkAlong p before = .ok place

theorem walks_eq_ok_iff {parts : List String} {start place : Place} (hs : w.IsFolderAt start) :
    parts.foldlM w.walk start = .ok place ↔ place = parts.foldl Place.step start ∧
      ∀ front, front <+: parts → w.IsFolderAt (front.foldl Place.step start) := by
  induction parts generalizing start with
  | nil => simpa [pure, Except.pure, eq_comm] using fun _ => hs
  | cons part parts ih =>
    rw [List.foldlM_cons, List.foldl_cons]
    cases hw : w.walk start part with
    | error e =>
      -- Then the first part does not lead to a folder.
      refine iff_of_false nofun fun ⟨_, h⟩ => ?_
      have hpart := walk_eq_ok_iff.mpr ⟨rfl, h [part] (by simp)⟩
      rw [hw] at hpart
      cases hpart
    | ok next =>
      obtain ⟨rfl, hnext⟩ := walk_eq_ok_iff.mp hw
      refine (ih hnext).trans
        (and_congr_right fun _ => ⟨fun h front hf => ?_, fun h front hf => ?_⟩)
      · rcases List.prefix_cons_iff.mp hf with rfl | ⟨rest, rfl, hrest⟩
        · exact hs
        · exact h rest hrest
      · exact h (part :: front) (by simpa using hf)

theorem walkAlong_eq_ok_iff {parts : List String} {place : Place} :
    w.walkAlong p parts = .ok place ↔ place = parts.foldl Place.step (w.startOf p) ∧
      ∀ front, front <+: parts → w.IsFolderAt (front.foldl Place.step (w.startOf p)) := by
  rw [walkAlong]
  cases hs : w.walk (w.startOf p) "." with
  | error e =>
    refine iff_of_false nofun fun ⟨_, h⟩ => ?_
    have hstart : w.walk (w.startOf p) "." = .ok (w.startOf p) :=
      walk_eq_ok_iff.mpr ⟨rfl, h [] List.nil_prefix⟩
    rw [hs] at hstart
    cases hstart
  | ok start =>
    obtain ⟨rfl, hstart⟩ := walk_eq_ok_iff.mp hs
    exact walks_eq_ok_iff hstart

theorem walkAlong_append (w : World) (p : Path) (parts more : List String) :
    w.walkAlong p (parts ++ more) = (w.walkAlong p parts).bind (more.foldlM w.walk) := by
  rw [walkAlong, walkAlong]
  cases w.walk (w.startOf p) "." with
  | error e => rfl
  | ok start => exact List.foldlM_append

theorem folderAt_eq_ok_target_iff {place : Place} :
    w.folderAt p = .ok place ↔ place = w.target p ∧
      ∀ front, front <+: p.steps → w.IsFolderAt (front.foldl Place.step (w.startOf p)) :=
  walkAlong_eq_ok_iff

theorem locate_of_route? {route : Route} (h : p.route? = some route) :
    w.locate p = (w.walkAlong p route.folders).map fun folder =>
      (route, folder.step route.last) := by
  rw [locate, h, walkAlong, startOf]
  dsimp only
  cases w.walk (if p.isAbsolute then [] else w.workingPlace) "." with
  | error e => rfl
  | ok start =>
    simp only [bind, Except.bind]
    cases route.folders.foldlM w.walk start <;> rfl

theorem foldl_steps_of_route? {route : Route} (h : p.route? = some route) (start : Place) :
    p.steps.foldl Place.step start = (route.folders.foldl Place.step start).step route.last := by
  rcases List.eq_nil_or_concat' p.steps with hsteps | ⟨folders, last, hsteps⟩
  · have hp : p.text ≠ "" := by
      rintro he
      obtain rfl : p = ⟨""⟩ := congrArg Path.mk he
      cases h
    rw [Path.route?_of_no_steps hp hsteps] at h
    obtain rfl := Option.some.inj h
    rw [hsteps]
    rfl
  · rw [Path.route?_of_steps hsteps] at h
    obtain rfl := Option.some.inj h
    rw [hsteps, List.foldl_concat]

theorem target_of_locate {route : Route} {place : Place} (h : w.locate p = .ok (route, place)) :
    place = w.target p := by
  obtain ⟨hr, -⟩ := exists_of_locate h
  rw [locate_of_route? hr] at h
  cases hf : w.walkAlong p route.folders with
  | error e =>
    rw [hf] at h
    cases h
  | ok folder =>
    rw [hf] at h
    cases h
    obtain ⟨rfl, -⟩ := walkAlong_eq_ok_iff.mp hf
    exact (foldl_steps_of_route? hr _).symm

theorem climbsFromFolders_of_not_mem (h : ".." ∉ p.steps) : w.ClimbsFromFolders p := by
  intro before after hsteps
  exact absurd (by simp [hsteps]) h

theorem foldl_step_dots {dots : List String} (h : ∀ s ∈ dots, s = ".") (place : Place) :
    dots.foldl Place.step place = place := by
  induction dots with
  | nil => rfl
  | cons s dots ih =>
    obtain rfl := h s (by simp)
    exact ih fun t ht => h t (by simp [ht])

theorem IsFolderAt.step_up {place : Place} (h : w.IsFolderAt place) :
    w.IsFolderAt (place.step "..") :=
  h.outer

section Outer

theorem startOf_outer (h : p.parent? = some q) : w.startOf q = w.startOf p := by
  rw [startOf, startOf, (Path.exists_steps_of_parent? h).1]

theorem ClimbsFromFolders.of_parent? (hw : w.ClimbsFromFolders p) (h : p.parent? = some q) :
    w.ClimbsFromFolders q := by
  obtain ⟨habsolute, dots, part, back, hsteps, -⟩ := Path.exists_steps_of_parent? h
  intro before after hq
  obtain ⟨place, hplace⟩ := hw before (after ++ dots ++ part :: back) (by simp [hsteps, hq])
  exact ⟨place, by rwa [walkAlong, startOf_outer h]⟩

/-- A path that climbs from a folder in the end leads to a folder. -/
theorem exists_folderAt_of_up {before back : List String} (hw : w.ClimbsFromFolders p)
    (hsteps : p.steps = before ++ ".." :: back) (hback : ∀ s ∈ back, s = ".") :
    ∃ place, w.folderAt p = .ok place := by
  obtain ⟨place, hplace⟩ := hw _ _ hsteps
  obtain ⟨rfl, hfolders⟩ := walkAlong_eq_ok_iff.mp hplace
  have hinner := hfolders _ (List.prefix_refl _)
  refine ⟨_, folderAt_eq_ok_target_iff.mpr ⟨rfl, fun front ⟨rest, hrest⟩ => ?_⟩⟩
  rw [hsteps] at hrest
  rcases List.append_eq_append_iff.mp hrest with ⟨more, hmore, -⟩ | ⟨more, rfl, hmore⟩
  · exact hfolders front (hmore ▸ List.prefix_append _ _)
  · cases more with
    | nil => rwa [List.append_nil]
    | cons s more =>
      obtain ⟨rfl, rfl⟩ := List.cons_eq_cons.mp hmore
      have hdot : ∀ s ∈ more, s = "." := fun s hs => hback s (by simp [hs])
      rw [List.foldl_append, List.foldl_cons, foldl_step_dots hdot]
      exact hinner.step_up

/-- A path leads to a folder, or one part farther than the path around it. -/
theorem folderAt_or_target_prefix (hw : w.ClimbsFromFolders p) (h : p.parent? = some q) :
    (∃ place, w.folderAt p = .ok place) ∨ w.target q <+: w.target p := by
  obtain ⟨habsolute, dots, part, back, hsteps, hdots, hback⟩ := Path.exists_steps_of_parent? h
  have htarget : w.target p = (w.target q).step part := by
    rw [target, target, hsteps, startOf_outer h]
    simp [foldl_step_dots hdots, foldl_step_dots hback]
  by_cases hup : part = ".."
  · subst hup
    exact Or.inl (exists_folderAt_of_up hw hsteps hback)
  · right
    rw [htarget, Place.step, if_neg hup]
    split
    · exact List.prefix_refl _
    · exact List.prefix_append _ _

end Outer

end Leading

/-- Folders may be made on the way to a place, where nothing was, and nothing else happens to
files and folders. -/
structure MakesFolders (place : Place) (w v : World) : Prop where
  workingPlace : v.workingPlace = w.workingPlace
  seen : ∀ q, v.seen q = w.seen q ∨ w.seen q = none ∧ v.seen q = some none ∧ q <+: place

namespace MakesFolders

variable {place : Place} {u : World}

theorem refl (place : Place) (w : World) : MakesFolders place w w :=
  ⟨rfl, fun _ => Or.inl rfl⟩

theorem trans (h : MakesFolders place w v) (h' : MakesFolders place v u) :
    MakesFolders place w u := by
  refine ⟨h'.workingPlace.trans h.workingPlace, fun q => ?_⟩
  rcases h'.seen q with he | ⟨hnone, hnew, hq⟩
  · rw [he]
    exact h.seen q
  · rcases h.seen q with he' | ⟨-, hthere, -⟩
    · exact Or.inr ⟨he' ▸ hnone, hnew, hq⟩
    · rw [hnone] at hthere
      cases hthere

theorem mono {farther : Place} (h : MakesFolders place w v) (hp : place <+: farther) :
    MakesFolders farther w v :=
  ⟨h.workingPlace, fun q =>
    (h.seen q).imp_right fun ⟨hnone, hnew, hq⟩ => ⟨hnone, hnew, hq.trans hp⟩⟩

theorem grows (h : MakesFolders place w v) : Grows (fun _ => False) w v := by
  refine ⟨h.workingPlace, fun q hq => ?_, fun q _ => ?_⟩
  · rcases h.seen q with he | ⟨hnone, -, -⟩
    · rwa [IsFolderAt, he]
    · rw [IsFolderAt, hnone] at hq
      cases hq
  · rcases h.seen q with he | ⟨hnone, hnew, -⟩
    · rw [file?, file?, he]
    · rw [file?, file?, hnone, hnew]
      rfl

end MakesFolders

section Making

theorem makesFolders_of_makeFolder (h : w.makeFolder p = .ok v) :
    MakesFolders (w.target p) w v := by
  obtain ⟨route, place, hl, hnone, hw, hseen⟩ := exists_of_makeFolder h
  obtain rfl := target_of_locate hl
  refine ⟨hw, fun q => ?_⟩
  rw [hseen q]
  split
  · rename_i hq
    exact Or.inr ⟨hq ▸ hnone, rfl, hq ▸ List.prefix_refl _⟩
  · exact Or.inl rfl

/-- Makes sure that a folder is there. -/
def ensured (w : World) (p : Path) : Except FileError Unit × World :=
  (Host.ensureFolder p : StateM World (Except FileError Unit)).run w

def ensuredChain (w : World) (outer : List Path) : Except FileError Unit × World :=
  (Host.ensureChain outer : StateM World (Except FileError Unit)).run w

theorem ensured_eq (w : World) (p : Path) :
    w.ensured p =
      match w.makeFolder p with
      | .ok v => (.ok (), v)
      | .error .alreadyThere =>
        (if (w.find? p).map Item.isFolder = some true then .ok () else .error .alreadyThere, w)
      | .error e => (.error e, w) := by
  have hisFolder : (Host.isFolder? p : StateM World (Option Bool)).run w =
      ((w.find? p).map Item.isFolder, w) := rfl
  rw [ensured, Host.ensureFolder, StateT.run_bind, run_makeFolder]
  cases w.makeFolder p with
  | ok v => rfl
  | error e =>
    cases e with
    | alreadyThere =>
      change ((Host.isFolder? p : StateM World (Option Bool)) >>= _).run w = _
      rw [StateT.run_bind, hisFolder]
      match (w.find? p).map Item.isFolder with
      | none => rfl
      | some false => rfl
      | some true => rfl
    | missing => rfl
    | notFolder => rfl
    | isFolder => rfl
    | notText => rfl
    | other reason => rfl

theorem makesFolders_ensured (w : World) (p : Path) :
    MakesFolders (w.target p) w (w.ensured p).2 := by
  rw [ensured_eq]
  split
  · rename_i h
    exact makesFolders_of_makeFolder h
  · exact .refl _ w
  · exact .refl _ w

theorem ensured_of_folderAt {place : Place} (hp : p.text ≠ "") (h : w.folderAt p = .ok place) :
    w.ensured p = (.ok (), w) := by
  obtain ⟨⟨route, hl⟩, hfolder⟩ := (folderAt_eq_ok_iff hp).mp h
  obtain ⟨items, hi⟩ := isFolderAt_iff.mp hfolder
  have hmake : w.makeFolder p = .error .alreadyThere := by
    simp [makeFolder, hl, bind, Except.bind, hi]
  have hfind : w.find? p = some (.folder items) := (find?_eq_folder_iff hp).mpr ⟨place, h, hi⟩
  rw [ensured_eq, hmake, hfind]
  rfl

theorem ensuredChain_of_ne_missing {u : World} {result : Except FileError Unit}
    (h : w.ensured p = (result, u)) (hne : result ≠ .error .missing) (outer : List Path) :
    w.ensuredChain (p :: outer) = (result, u) := by
  rw [ensured] at h
  rw [ensuredChain, Host.ensureChain, StateT.run_bind, h]
  match result with
  | .ok () => rfl
  | .error .missing => exact absurd rfl hne
  | .error .notFolder | .error .isFolder | .error .alreadyThere | .error .notText => rfl
  | .error (.other _) => rfl

theorem ensuredChain_of_missing {u : World} (h : w.ensured p = (.error .missing, u))
    (outer : List Path) :
    w.ensuredChain (p :: outer) =
      match u.ensuredChain outer with
      | (.ok (), v) => v.ensured p
      | (.error e, v) => (.error e, v) := by
  rw [ensured] at h
  rw [ensuredChain, Host.ensureChain, StateT.run_bind, h]
  change ((Host.ensureChain outer : StateM World (Except FileError Unit)) >>= _).run u = _
  rw [StateT.run_bind, ensuredChain]
  match (Host.ensureChain outer : StateM World (Except FileError Unit)).run u with
  | (.ok (), v) => rfl
  | (.error e, v) => rfl

theorem MakesFolders.target_eq {place : Place} (h : MakesFolders place w v) (p : Path) :
    v.target p = w.target p := by
  rw [target, target, startOf_congr h.workingPlace]

theorem ClimbsFromFolders.mono {place : Place} (hw : w.ClimbsFromFolders p)
    (h : MakesFolders place w v) : v.ClimbsFromFolders p := by
  intro before after hsteps
  obtain ⟨place, hplace⟩ := hw before after hsteps
  obtain ⟨-, hfolders⟩ := walkAlong_eq_ok_iff.mp hplace
  refine ⟨_, walkAlong_eq_ok_iff.mpr ⟨rfl, fun front hf => ?_⟩⟩
  rw [startOf_congr h.workingPlace]
  exact h.grows.folders _ (hfolders front hf)

/-- The folders that are made for a path lie on the way to the place that it leads to. -/
theorem makesFolders_climb (n : Nat) (hw : w.ClimbsFromFolders p) :
    MakesFolders (w.target p) w (w.ensuredChain (p.climb n)).2 := by
  induction n generalizing p w with
  | zero => exact .refl _ w
  | succ n ih =>
    rw [Path.climb]
    cases hq : p.parent? with
    | none => exact .refl _ w
    | some q =>
      dsimp only
      have hp : p.text ≠ "" := by
        intro he
        obtain rfl : p = ⟨""⟩ := congrArg Path.mk he
        cases hq
      have hfirst := makesFolders_ensured w p
      obtain ⟨⟨result, u⟩, hr⟩ : ∃ ran, w.ensured p = ran := ⟨_, rfl⟩
      rw [hr] at hfirst
      by_cases hmissing : result = .error .missing
      · -- Then `p` leads to no folder, so its last part is a name and goes on from `q`.
        subst hmissing
        have hprefix : w.target q <+: w.target p := by
          rcases folderAt_or_target_prefix hw hq with ⟨place, hplace⟩ | h
          · rw [ensured_of_folderAt hp hplace] at hr
            cases hr
          · exact h
        have houter := ih ((hw.of_parent? hq).mono hfirst)
        rw [hfirst.target_eq q] at houter
        have hmade := hfirst.trans (houter.mono hprefix)
        rw [ensuredChain_of_missing hr]
        cases hc : u.ensuredChain (q.climb n) with
        | mk made v =>
          rw [hc] at hmade
          cases made with
          | error e => exact hmade
          | ok _ => exact hmade.trans (hmade.target_eq p ▸ makesFolders_ensured v p)
      · rw [ensuredChain_of_ne_missing hr hmissing]
        exact hfirst

theorem makesFolders_makeFolders (hw : w.ClimbsFromFolders p) : MakesFolders (w.target p) w
    ((Host.makeFolders p : StateM World (Except FileError Unit)).run w).2 :=
  makesFolders_climb p.components.length hw

end Making

end World

end DesignSystem
