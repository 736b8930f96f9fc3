import DesignSystem.Proofs.ExcludedPaths
import DesignSystem.Proofs.Storage

/-! Trees of files as disks, with links in them and without. In a tree without links a file has one
place, and all paths to it end in one name. -/

namespace DesignSystem

namespace World

/-- The place of the file that a path leads to. -/
def filePlace? (w : World) (p : Path) : Option Place :=
  match w.locate p with
  | .ok (route, place) => if route.wantsFolder then none else (w.file? place).map fun _ => place
  | .error _ => none

theorem filePlace?_eq_some_iff {w : World} {p : Path} {place : Place} :
    w.filePlace? p = some place ↔ ∃ route content, w.locate p = .ok (route, place) ∧
      route.wantsFolder = false ∧ w.file? place = some content := by
  rw [filePlace?]
  cases w.locate p with
  | error e => simp
  | ok target =>
    obtain ⟨route, there⟩ := target
    cases hwants : route.wantsFolder with
    | true => simp [hwants]
    | false =>
      dsimp only
      rw [hwants, if_neg Bool.false_ne_true]
      simp only [Option.map_eq_some_iff, Except.ok.injEq, Prod.mk.injEq]
      constructor
      · rintro ⟨content, hc, rfl⟩
        exact ⟨route, content, ⟨rfl, rfl⟩, hwants, hc⟩
      · rintro ⟨_, content, ⟨-, rfl⟩, -, hc⟩
        exact ⟨content, hc, rfl⟩

theorem read_of_filePlace? {w : World} {p : Path} {place : Place} {text : String}
    (hp : w.filePlace? p = some place) (hc : w.file? place = some (.text text)) :
    w.read p = .ok text := by
  obtain ⟨route, content, hl, hwants, -⟩ := filePlace?_eq_some_iff.mp hp
  exact read_eq_ok_iff.mpr
    ⟨route, place, hl, hwants, seen_eq_file_iff.mp (Option.join_eq_some_iff.mp hc)⟩

theorem filePlace?_of_grows {touched : Place → Prop} {w v : World} (h : Grows touched w v)
    (ht : ∀ q, touched q → ∃ content, v.file? q = some content) {p : Path} {place : Place}
    (hp : w.filePlace? p = some place) : v.filePlace? p = some place := by
  obtain ⟨route, content, hl, hwants, hc⟩ := filePlace?_eq_some_iff.mp hp
  obtain ⟨content', hc'⟩ : ∃ content', v.file? place = some content' := by
    by_cases hq : touched place
    · exact ht place hq
    · exact ⟨content, (h.files place hq).trans hc⟩
  exact filePlace?_eq_some_iff.mpr
    ⟨route, content', locate_mono h.workingPlace h.folders hl, hwants, hc'⟩

/-- A path to a file ends in the name that the file has at its place. -/
theorem fileName?_of_filePlace? {w : World} {p : Path} {place : Place}
    (h : w.filePlace? p = some place) : p.fileName? = place.getLast? := by
  obtain ⟨route, content, hl, hwants, hc⟩ := filePlace?_eq_some_iff.mp h
  have hfile : w.root.at? place = some (.file content) :=
    seen_eq_file_iff.mp (Option.join_eq_some_iff.mp hc)
  have hfind : w.find? p = some (.file content) :=
    find?_eq_some_iff.mpr (find_eq_ok_file_iff.mpr ⟨route, place, hl, hwants, hfile⟩)
  obtain ⟨part, hlast, hidle⟩ := exists_last_part_of_file hfind
  obtain ⟨front, hparts⟩ := List.getLast?_eq_some_iff.mp hlast
  obtain ⟨before, hcomponents⟩ := Path.exists_components hparts hidle
  have hempty : part ≠ [] := by
    rintro rfl
    cases hidle
  have hsteps :
      p.steps = (front.filter (!·.isEmpty)).map String.ofList ++ [String.ofList part] := by
    simp [Path.steps, hparts, hempty]
  obtain ⟨hroute, folder, hfolder, rfl⟩ := exists_of_locate hl
  rw [Path.route?_of_steps hsteps] at hroute
  obtain rfl := Option.some.inj hroute
  have hfree : ¬ w.IsFolderAt (folder.step (String.ofList part)) := by
    intro hthere
    obtain ⟨items, hi⟩ := isFolderAt_iff.mp hthere
    exact absurd (hi.symm.trans hfile) (by simp)
  have hup : part ≠ ['.', '.'] := by
    rintro rfl
    exact hfree hfolder.outer
  rw [Path.fileName?, hcomponents, eq_concat_of_not_folder hfolder hfree]
  simp [Path.componentOf, hup]

end World

section Trees

namespace World

theorem exists_of_settle {r s : Item Content} {next : Except FileError World}
    (h : settle r next = (.ok (), s)) : ∃ v, next = .ok v ∧ v.root = s := by
  cases next with
  | error e => cases h
  | ok v => exact ⟨v, rfl, congrArg Prod.snd h⟩

theorem grows_fresh {touched : Place → Prop} {r : Item Content} {place : Place} {v : World}
    (h : Grows touched (fresh r place) v) : Grows touched (fresh r place) (fresh v.root place) :=
  ⟨rfl, h.folders, h.files⟩

theorem grows_of_settled_write {r s : Item Content} {place : Place} {p : Path} {text : String}
    (h : settle r ((fresh r place).write p text) = (.ok (), s)) :
    ∃ q, (fresh s place).filePlace? p = some q ∧ (fresh s place).file? q = some (.text text) ∧
      Grows (· = q) (fresh r place) (fresh s place) := by
  obtain ⟨v, hv, rfl⟩ := exists_of_settle h
  obtain ⟨route, q, hl, hwants, hseen, hgrows⟩ := grows_of_write hv
  have hfile : (fresh v.root place).file? q = some (.text text) := congrArg Option.join hseen
  have hlocate := locate_mono (grows_fresh hgrows).workingPlace hgrows.folders hl
  exact ⟨q, filePlace?_eq_some_iff.mpr ⟨route, _, hlocate, hwants, hfile⟩, hfile,
    grows_fresh hgrows⟩

theorem grows_of_settled_makeFolder (r : Item Content) (place : Place) (p : Path) :
    Grows (fun _ => False) (fresh r place)
      (fresh (settle r ((fresh r place).makeFolder p)).2 place) := by
  cases h : (fresh r place).makeFolder p with
  | ok v => exact grows_fresh (grows_of_makeFolder h)
  | error e => exact ⟨rfl, fun _ hq => hq, fun _ _ => rfl⟩

end World

open World

instance : Files (Item Content) Place where
  fileAt? root place p := (fresh root place).filePlace? p
  content? root q := (fresh root []).file? q

instance : LawfulFiles (Item Content) Place where
  written h := by
    obtain ⟨q, hq, hfile, hgrows⟩ := grows_of_settled_write h
    refine ⟨q, hq, hfile, fun _ _ => filePlace?_of_grows hgrows ?_, fun i c hi hc => ?_⟩
    · rintro _ rfl
      exact ⟨_, hfile⟩
    · exact (hgrows.files i hi).trans hc
  made r place p :=
    have hgrows := grows_of_settled_makeFolder r place p
    ⟨fun _ _ => filePlace?_of_grows hgrows fun _ => False.elim,
      fun i _ hi hc => (hgrows.files i hi).trans hc⟩

theorem World.namesTellFiles (w : World) : w.NamesTellFiles := fun _ _ _ hp hq =>
  (fileName?_of_filePlace? (w := w) hp).trans (fileName?_of_filePlace? (w := w) hq).symm

end Trees

/-- A tree with links to files. The path of a link stands for all paths that lead to its place. -/
structure LinkedTree where
  root : Item Content
  links : List (Place × Path)

namespace LinkedTree

open World

/-- The path that is taken for a path. -/
def follow (d : LinkedTree) (place : Place) (p : Path) : Path :=
  match (fresh d.root place).locate p with
  | .ok (_, q) => (d.links.lookup q).getD p
  | .error _ => p

/-- The tree with copies of files in the places of links to them. -/
def outlined (d : LinkedTree) : Item Content :=
  d.links.foldl
    (fun root link =>
      match (fresh d.root []).find? link.2 with
      | some (.file content) => root.put link.1 (.file content)
      | _ => root)
    d.root

/-- The tree after a change, with the same links. -/
def changed (d : LinkedTree) (next : Except FileError Unit × Item Content) :
    Except FileError Unit × LinkedTree :=
  (next.1, { d with root := next.2 })

instance : Disk LinkedTree where
  isFolder? d place p := ((fresh d.root place).find? (d.follow place p)).map Item.isFolder
  outline? d place p := ((fresh d.outlined place).find? p).map (Item.map fun _ => ())
  read d place p := (fresh d.root place).read (d.follow place p)
  write d place p text :=
    d.changed (settle d.root ((fresh d.root place).write (d.follow place p) text))
  makeFolder d place p :=
    if d.follow place p = p then d.changed (settle d.root ((fresh d.root place).makeFolder p))
    else (.error .alreadyThere, d)

instance : Files LinkedTree Place where
  fileAt? d place p := (fresh d.root place).filePlace? (d.follow place p)
  content? d q := (fresh d.root []).file? q

theorem follow_of_grows {touched : Place → Prop} {d : LinkedTree} {root : Item Content}
    {place : Place} (h : Grows touched (fresh d.root place) (fresh root place)) {p : Path}
    {target : Route × Place} (hl : (fresh d.root place).locate p = .ok target) :
    ({ d with root } : LinkedTree).follow place p = d.follow place p := by
  rw [follow, follow, hl, locate_mono h.workingPlace h.folders hl]

/-- A path that leads to a file, or to where one can be written, leads to a place. -/
theorem exists_locate_of_follow {d : LinkedTree} {place : Place} {p : Path}
    (h : ∃ target, (fresh d.root place).locate (d.follow place p) = .ok target) :
    ∃ target, (fresh d.root place).locate p = .ok target := by
  cases hl : (fresh d.root place).locate p with
  | ok target => exact ⟨target, rfl⟩
  | error e =>
    obtain ⟨target, ht⟩ := h
    rw [follow, hl, hl] at ht
    cases ht

theorem kept_of_grows {touched : Place → Prop} {d : LinkedTree} {root : Item Content}
    {place : Place} (h : Grows touched (fresh d.root place) (fresh root place))
    (ht : ∀ q, touched q → ∃ content, (fresh root place).file? q = some content) :
    Kept touched place d { d with root } := by
  refine ⟨fun p i hp => ?_, fun i c hi hc => (h.files i hi).trans hc⟩
  obtain ⟨route, content, hl, -⟩ := filePlace?_eq_some_iff.mp hp
  obtain ⟨target, htarget⟩ := exists_locate_of_follow ⟨_, hl⟩
  change (fresh root place).filePlace? (({ d with root } : LinkedTree).follow place p) = some i
  rw [follow_of_grows h htarget]
  exact filePlace?_of_grows h ht hp

instance : LawfulFiles LinkedTree Place where
  written {r s place p text} h := by
    obtain ⟨root, rfl⟩ : ∃ root, s = { r with root } := ⟨_, (congrArg Prod.snd h).symm⟩
    let next := settle r.root ((fresh r.root place).write (r.follow place p) text)
    have hok : next.1 = .ok () := congrArg Prod.fst h
    have hroot : next.2 = root := congrArg (LinkedTree.root ·.2) h
    have hsettle : next = (.ok (), root) := Prod.ext hok hroot
    obtain ⟨q, hq, hfile, hgrows⟩ := grows_of_settled_write hsettle
    obtain ⟨v, hv, -⟩ := exists_of_settle hsettle
    obtain ⟨route, _, hl, -⟩ := grows_of_write hv
    obtain ⟨target, htarget⟩ := exists_locate_of_follow ⟨_, hl⟩
    refine ⟨q, ?_, hfile, kept_of_grows hgrows ?_⟩
    · change (fresh root place).filePlace? (({ r with root } : LinkedTree).follow place p) = some q
      rw [follow_of_grows hgrows htarget, hq]
    · rintro _ rfl
      exact ⟨_, hfile⟩
  made r place p := by
    let next := settle r.root ((fresh r.root place).makeFolder p)
    change Kept _ place r
      (if r.follow place p = p then r.changed next else (.error .alreadyThere, r)).2
    split
    · exact kept_of_grows (grows_of_settled_makeFolder r.root place p) fun _ => False.elim
    · exact .refl _ place r

theorem read_of_fileAt? {w : Machine LinkedTree} {p : Path} {place : Place}
    {text : String} (hp : w.fileAt? p = some place) (hc : w.content? place = some (.text text)) :
    w.read p = .ok text :=
  read_of_filePlace? (w := fresh w.root.root w.workingPlace) hp hc

end LinkedTree

end DesignSystem
