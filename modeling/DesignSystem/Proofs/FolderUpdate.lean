import DesignSystem.Proofs.FileReading
import DesignSystem.Proofs.Runs
import Mathlib.Data.List.Induction

/-! Writing files and making folders anywhere. A new file or folder changes its own place and no
other: folders stay folders, so paths lead where they led before, and other files stay as they
are. -/

namespace DesignSystem

namespace Item

variable {α : Type}

def content? : Item α → Option α
  | .file content => some content
  | .folder _ => none

theorem at?_append (place rest : Place) (root : Item α) :
    root.at? (place ++ rest) = (root.at? place).bind (at? rest) := by
  induction place generalizing root with
  | nil => rfl
  | cons name place ih =>
    rw [List.cons_append, at?, at?]
    cases root.child? name with
    | none => rfl
    | some item => exact ih item

theorem at?_concat_of_folder {place : Place} {root : Item α} {items : List (String × Item α)}
    (h : root.at? place = some (.folder items)) (name : String) :
    root.at? (place ++ [name]) = items.lookup name := by
  rw [at?_append, h, Option.bind_some, at?_cons_folder]
  cases items.lookup name <;> rfl

theorem at?_file_of_ne_nil {q : Place} (hq : q ≠ []) (content : α) :
    (Item.file content).at? q = none := by
  cases q with
  | nil => exact absurd rfl hq
  | cons name q => rfl

theorem at?_empty_of_ne_nil {q : Place} (hq : q ≠ []) :
    (Item.folder ([] : List (String × Item α))).at? q = none := by
  cases q with
  | nil => exact absurd rfl hq
  | cons name q => rfl

/-- An item with nothing below it, put into a folder where no folder is, changes its own place
alone. -/
theorem map_content?_at?_put {place : Place} {root new : Item α} {items : List (String × Item α)}
    {name : String} (h : root.at? place = some (.folder items))
    (hold : ∀ below, items.lookup name ≠ some (.folder below))
    (hnew : ∀ q, q ≠ [] → new.at? q = none) (q : Place) :
    ((put (place ++ [name]) root new).at? q).map content? =
      if q = place ++ [name] then some new.content? else (root.at? q).map content? := by
  induction place generalizing root q with
  | nil =>
    obtain rfl := Option.some.inj h
    have hput : put [name] (.folder items) new = .folder (enter name new items) := rfl
    rw [List.nil_append, hput]
    cases q with
    | nil => rfl
    | cons m q =>
      rw [at?_cons_folder, at?_cons_folder, lookup_enter]
      by_cases hm : m = name
      · subst m
        by_cases hq : q = []
        · simp [hq]
        · have hnone : (items.lookup name).bind (at? q) = none := by
            cases hl : items.lookup name with
            | none => rfl
            | some item =>
              cases item with
              | folder below => exact absurd hl (hold below)
              | file content => exact at?_file_of_ne_nil hq content
          simp [hq, hnone, hnew q hq]
      · simp [hm]
  | cons k place ih =>
    cases root with
    | file content => cases h
    | folder entries =>
      rw [at?_cons_folder] at h
      obtain ⟨item, hl, hi⟩ := Option.bind_eq_some_iff.mp h
      rw [List.cons_append, put_cons_of_lookup hl]
      cases q with
      | nil => rfl
      | cons m q =>
        rw [at?_cons_folder, at?_cons_folder, lookup_enter]
        by_cases hm : m = k
        · subst m
          simpa [hl] using ih hi q
        · simp [hm]

end Item

namespace World

/-- What stands at a place: nothing, a folder, or a file with its content. -/
def seen (w : World) (q : Place) : Option (Option Content) :=
  (w.root.at? q).map Item.content?

def file? (w : World) (q : Place) : Option Content :=
  (w.seen q).join

def IsFolderAt (w : World) (q : Place) : Prop :=
  w.seen q = some none

theorem isFolderAt_iff {w : World} {q : Place} :
    w.IsFolderAt q ↔ ∃ items, w.root.at? q = some (.folder items) := by
  rw [IsFolderAt, seen]
  cases w.root.at? q with
  | none => simp
  | some item => cases item <;> simp [Item.content?]

theorem seen_eq_file_iff {w : World} {q : Place} {content : Content} :
    w.seen q = some (some content) ↔ w.root.at? q = some (.file content) := by
  rw [seen]
  cases w.root.at? q with
  | none => simp
  | some item => cases item <;> simp [Item.content?]

theorem IsFolderAt.outer {w : World} {q : Place} (h : w.IsFolderAt q) :
    w.IsFolderAt q.dropLast := by
  cases q using List.reverseRecOn with
  | nil => exact h
  | append_singleton q name =>
    obtain ⟨items, hi⟩ := isFolderAt_iff.mp h
    rw [Item.at?_append] at hi
    obtain ⟨item, hq, hname⟩ := Option.bind_eq_some_iff.mp hi
    rw [List.dropLast_concat]
    cases item with
    | file content => cases hname
    | folder below => exact isFolderAt_iff.mpr ⟨below, hq⟩

section Locating

theorem walk_eq_ok_iff {w : World} {place next : Place} {part : String} :
    w.walk place part = .ok next ↔ next = place.step part ∧ w.IsFolderAt next := by
  rw [walk, IsFolderAt, seen]
  constructor
  · intro h
    split at h
    · rename_i items hi
      obtain rfl := Except.ok.inj h
      exact ⟨rfl, by rw [hi]; rfl⟩
    · cases h
    · cases h
  · rintro ⟨rfl, h⟩
    cases hi : w.root.at? (place.step part) with
    | none => simp [hi] at h
    | some item =>
      cases item with
      | file content => simp [hi, Item.content?] at h
      | folder items => rfl

theorem isFolderAt_of_walks {w : World} {parts : List String} {start folder : Place}
    (hs : w.IsFolderAt start) (h : parts.foldlM w.walk start = .ok folder) :
    w.IsFolderAt folder := by
  induction parts generalizing start with
  | nil => exact Except.ok.inj h ▸ hs
  | cons part parts ih =>
    rw [List.foldlM_cons] at h
    cases hw : w.walk start part with
    | error e =>
      rw [hw] at h
      cases h
    | ok next =>
      rw [hw] at h
      exact ih (walk_eq_ok_iff.mp hw).2 h

/-- A path leads to a place in a folder that is there. -/
theorem exists_of_locate {w : World} {p : Path} {route : Route} {place : Place}
    (h : w.locate p = .ok (route, place)) :
    p.route? = some route ∧ ∃ folder, w.IsFolderAt folder ∧ place = folder.step route.last := by
  rw [locate] at h
  cases hr : p.route? with
  | none =>
    rw [hr] at h
    cases h
  | some r =>
    rw [hr] at h
    dsimp only at h
    cases hs : w.walk (if p.isAbsolute then [] else w.workingPlace) "." with
    | error e =>
      rw [hs] at h
      cases h
    | ok start =>
      rw [hs] at h
      cases hf : r.folders.foldlM w.walk start with
      | error e =>
        simp only [bind, Except.bind, hf] at h
        cases h
      | ok folder =>
        simp only [bind, Except.bind, hf] at h
        cases h
        exact ⟨rfl, folder, isFolderAt_of_walks (walk_eq_ok_iff.mp hs).2 hf, rfl⟩

theorem walk_mono {w v : World} (h : ∀ q, w.IsFolderAt q → v.IsFolderAt q) {place next : Place}
    {part : String} (hw : w.walk place part = .ok next) : v.walk place part = .ok next := by
  obtain ⟨rfl, hf⟩ := walk_eq_ok_iff.mp hw
  exact walk_eq_ok_iff.mpr ⟨rfl, h _ hf⟩

theorem walks_mono {w v : World} (h : ∀ q, w.IsFolderAt q → v.IsFolderAt q)
    {parts : List String} {start folder : Place} (hw : parts.foldlM w.walk start = .ok folder) :
    parts.foldlM v.walk start = .ok folder := by
  induction parts generalizing start with
  | nil => exact hw
  | cons part parts ih =>
    rw [List.foldlM_cons] at hw ⊢
    cases hs : w.walk start part with
    | error e =>
      rw [hs] at hw
      cases hw
    | ok next =>
      rw [hs] at hw
      rw [walk_mono h hs]
      exact ih hw

/-- Where folders stay, paths lead where they led. -/
theorem locate_mono {w v : World} (hw : v.workingPlace = w.workingPlace)
    (h : ∀ q, w.IsFolderAt q → v.IsFolderAt q) {p : Path} {target : Route × Place}
    (hl : w.locate p = .ok target) : v.locate p = .ok target := by
  rw [locate] at hl ⊢
  rw [hw]
  cases hr : p.route? with
  | none =>
    rw [hr] at hl
    cases hl
  | some r =>
    rw [hr] at hl
    dsimp only at hl ⊢
    cases hs : w.walk (if p.isAbsolute then [] else w.workingPlace) "." with
    | error e =>
      rw [hs] at hl
      cases hl
    | ok start =>
      rw [hs] at hl
      rw [walk_mono h hs]
      cases hf : r.folders.foldlM w.walk start with
      | error e =>
        simp only [bind, Except.bind, hf] at hl
        cases hl
      | ok folder =>
        simp only [bind, Except.bind, hf] at hl ⊢
        rw [walks_mono h hf]
        exact hl

end Locating

section Putting

theorem seen_put {w : World} {folder : Place} {name : String} {new : Item Content}
    (hf : w.IsFolderAt folder) (hold : ¬ w.IsFolderAt (folder ++ [name]))
    (hnew : ∀ q, q ≠ [] → new.at? q = none) (q : Place) :
    (w.put (folder ++ [name]) new).seen q =
      if q = folder ++ [name] then some new.content? else w.seen q := by
  obtain ⟨items, hi⟩ := isFolderAt_iff.mp hf
  refine Item.map_content?_at?_put hi (fun below hb => hold ?_) hnew q
  rw [← Item.at?_concat_of_folder hi] at hb
  exact isFolderAt_iff.mpr ⟨below, hb⟩

/-- A place that a path leads to and where no folder is has the last part of the path as its
name. -/
theorem eq_concat_of_not_folder {w : World} {folder : Place} {last : String}
    (hf : w.IsFolderAt folder) (h : ¬ w.IsFolderAt (folder.step last)) :
    folder.step last = folder ++ [last] := by
  rw [Place.step] at h ⊢
  split
  · rename_i hlast
    rw [if_pos hlast] at h
    exact absurd hf h
  · rename_i hlast
    rw [if_neg hlast] at h
    split
    · rename_i hup
      rw [if_pos hup] at h
      exact absurd hf.outer h
    · rfl

theorem exists_of_write {w v : World} {p : Path} {text : String} (h : w.write p text = .ok v) :
    ∃ route folder, p.route? = some route ∧
      w.locate p = .ok (route, folder ++ [route.last]) ∧ route.wantsFolder = false ∧
      ¬ w.IsFolderAt (folder ++ [route.last]) ∧ v.workingPlace = w.workingPlace ∧
      ∀ q, v.seen q =
        if q = folder ++ [route.last] then some (some (.text text)) else w.seen q := by
  rw [write] at h
  cases hl : w.locate p with
  | error e =>
    rw [hl] at h
    cases h
  | ok target =>
    obtain ⟨route, place⟩ := target
    rw [hl] at h
    simp only [bind, Except.bind] at h
    obtain ⟨hr, folder, hf, rfl⟩ := exists_of_locate hl
    cases hwants : route.wantsFolder with
    | true =>
      rw [hwants] at h
      cases h
    | false =>
      have hfree : ¬ w.IsFolderAt (folder.step route.last) := by
        intro hfolder
        obtain ⟨items, hi⟩ := isFolderAt_iff.mp hfolder
        simp [hwants, hi] at h
      have hput : w.put (folder.step route.last) (.file (.text text)) = v := by
        rw [hwants] at h
        simp only [Bool.false_eq_true, if_false] at h
        split at h
        · cases h
        · exact Except.ok.inj h
      have hplace := eq_concat_of_not_folder hf hfree
      rw [hplace] at hfree hput
      refine ⟨route, folder, hr, by rw [hplace], hwants, hfree, by rw [← hput]; rfl, fun q => ?_⟩
      rw [← hput]
      exact seen_put hf hfree (fun _ hq => Item.at?_file_of_ne_nil hq _) q

theorem exists_of_makeFolder {w v : World} {p : Path} (h : w.makeFolder p = .ok v) :
    ∃ route place, w.locate p = .ok (route, place) ∧ w.seen place = none ∧
      v.workingPlace = w.workingPlace ∧
      ∀ q, v.seen q = if q = place then some none else w.seen q := by
  rw [makeFolder] at h
  cases hl : w.locate p with
  | error e =>
    rw [hl] at h
    cases h
  | ok target =>
    obtain ⟨route, place⟩ := target
    rw [hl] at h
    simp only [bind, Except.bind] at h
    obtain ⟨hr, folder, hf, rfl⟩ := exists_of_locate hl
    cases hi : w.root.at? (folder.step route.last) with
    | some item =>
      rw [hi] at h
      cases h
    | none =>
      rw [hi] at h
      have hnone : w.seen (folder.step route.last) = none := by rw [seen, hi]; rfl
      have hfree : ¬ w.IsFolderAt (folder.step route.last) := by simp [IsFolderAt, hnone]
      have hput : w.put (folder.step route.last) (.folder []) = v := Except.ok.inj h
      have hplace := eq_concat_of_not_folder hf hfree
      rw [hplace] at hnone hfree hput
      refine ⟨route, folder ++ [route.last], by rw [hplace], hnone, by rw [← hput]; rfl,
        fun q => ?_⟩
      rw [← hput]
      exact seen_put hf hfree (fun _ hq => Item.at?_empty_of_ne_nil hq) q

end Putting

section Running

/-- Goes on to the next state, or stays where an error is. -/
def advance (next : Except FileError World) (w : World) : Except FileError Unit × World :=
  match next with
  | .ok v => (.ok (), v)
  | .error e => (.error e, w)

theorem locate_fresh (w : World) (p : Path) :
    (fresh w.root w.workingPlace).locate p = w.locate p := rfl

theorem run_write (p : Path) (text : String) (w : World) :
    (Host.write p text : StateM World (Except FileError Unit)).run w =
      advance (w.write p text) w := by
  have hrun : (Host.write p text : StateM World (Except FileError Unit)).run w =
      ((settle w.root ((fresh w.root w.workingPlace).write p text)).1,
        { w with root := (settle w.root ((fresh w.root w.workingPlace).write p text)).2 }) := rfl
  rw [hrun, write, write, locate_fresh]
  cases w.locate p with
  | error e => rfl
  | ok target =>
    obtain ⟨route, place⟩ := target
    simp only [bind, Except.bind]
    cases route.wantsFolder with
    | true => rfl
    | false =>
      have hroot : (fresh w.root w.workingPlace).root = w.root := rfl
      rw [hroot]
      cases w.root.at? place with
      | none => rfl
      | some item => cases item <;> rfl

theorem run_isThere (w : World) (p : Path) :
    (ExceptT.lift (Host.isThere p) : ExceptT Failure (StateM World) Bool).run.run w =
      (.ok (w.find? p).isSome, w) := by
  have hthere : w.isFolder? p = (w.find? p).map Item.isFolder := rfl
  rw [Machine.run_isThere, hthere, Option.isSome_map]

theorem run_makeFolder (p : Path) (w : World) :
    (Host.makeFolder p : StateM World (Except FileError Unit)).run w =
      advance (w.makeFolder p) w := by
  have hrun : (Host.makeFolder p : StateM World (Except FileError Unit)).run w =
      ((settle w.root ((fresh w.root w.workingPlace).makeFolder p)).1,
        { w with root := (settle w.root ((fresh w.root w.workingPlace).makeFolder p)).2 }) := rfl
  rw [hrun, makeFolder, makeFolder, locate_fresh]
  cases w.locate p with
  | error e => rfl
  | ok target =>
    obtain ⟨route, place⟩ := target
    have hroot : (fresh w.root w.workingPlace).root = w.root := rfl
    simp only [bind, Except.bind, hroot]
    cases w.root.at? place with
    | none => rfl
    | some item => rfl

end Running

/-- Folders stay folders, and files away from touched places stay as they are. -/
structure Grows (touched : Place → Prop) (w v : World) : Prop where
  workingPlace : v.workingPlace = w.workingPlace
  folders : ∀ q, w.IsFolderAt q → v.IsFolderAt q
  files : ∀ q, ¬ touched q → v.file? q = w.file? q

/-- A file is written at the place that the path leads to. -/
theorem grows_of_write {w v : World} {p : Path} {text : String} (h : w.write p text = .ok v) :
    ∃ route place, w.locate p = .ok (route, place) ∧ route.wantsFolder = false ∧
      v.seen place = some (some (.text text)) ∧ Grows (· = place) w v := by
  obtain ⟨route, folder, -, hl, hwants, hfree, hw, hseen⟩ := exists_of_write h
  refine ⟨route, _, hl, hwants, (hseen _).trans (if_pos rfl), hw, fun q hq => ?_, fun q hq => ?_⟩
  · have hne : q ≠ folder ++ [route.last] := fun he => hfree (he ▸ hq)
    rwa [IsFolderAt, hseen q, if_neg hne]
  · rw [file?, file?, hseen q, if_neg hq]

theorem grows_of_makeFolder {w v : World} {p : Path} (h : w.makeFolder p = .ok v) :
    Grows (fun _ => False) w v := by
  obtain ⟨route, place, -, hnone, hw, hseen⟩ := exists_of_makeFolder h
  refine ⟨hw, fun q hq => ?_, fun q _ => ?_⟩
  · by_cases he : q = place
    · rw [IsFolderAt, hseen q, if_pos he]
    · rwa [IsFolderAt, hseen q, if_neg he]
  · by_cases he : q = place
    · rw [file?, file?, hseen q, if_pos he, he, hnone]
      rfl
    · rw [file?, file?, hseen q, if_neg he]

theorem read_of_write {w v : World} {p : Path} {text : String} (h : w.write p text = .ok v) :
    v.read p = .ok text := by
  obtain ⟨route, place, hl, hwants, hseen, hgrows⟩ := grows_of_write h
  have hlocate := locate_mono hgrows.workingPlace hgrows.folders hl
  exact read_eq_ok_iff.mpr ⟨route, place, hlocate, hwants, seen_eq_file_iff.mp hseen⟩

theorem exists_write_of_read {w : World} {p : Path} {s : String} (h : w.read p = .ok s)
    (text : String) : ∃ v, w.write p text = .ok v ∧ v.read p = .ok text := by
  obtain ⟨route, place, hl, hwants, hfile⟩ := read_eq_ok_iff.mp h
  have hwrite := write_eq_put hl hwants hfile text
  exact ⟨_, hwrite, read_of_write hwrite⟩

end World

end DesignSystem
