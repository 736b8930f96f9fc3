import DesignSystem.Scan
import DesignSystem.Proofs.ByteOrder
import DesignSystem.Proofs.Loading
import DesignSystem.Proofs.PathWalk

/-! The documents that a scan finds. It lists the files of a folder that are documents and not
excluded, each once, in the order of their paths. -/

namespace DesignSystem

namespace Item

variable {α : Type}

mutual

/-- The names in every folder are proper names and ascend. -/
def Ordered : Item α → Prop
  | .file _ => True
  | .folder items => OrderedItems items

def OrderedItems : List (String × Item α) → Prop
  | [] => True
  | (name, item) :: rest =>
    IsFileName name ∧ (∀ e ∈ rest, name < e.1) ∧ item.Ordered ∧ OrderedItems rest

end

theorem OrderedItems.of_mem {items : List (String × Item α)} (h : OrderedItems items)
    {e : String × Item α} (he : e ∈ items) : IsFileName e.1 ∧ e.2.Ordered := by
  induction items with
  | nil => cases he
  | cons f rest ih =>
    obtain ⟨hname, -, hitem, hrest⟩ := h
    rcases List.mem_cons.mp he with rfl | he
    · exact ⟨hname, hitem⟩
    · exact ih hrest he

theorem mem_of_lookup {items : List (String × Item α)} {name : String} {item : Item α}
    (h : items.lookup name = some item) : (name, item) ∈ items := by
  obtain ⟨before, after, rfl, -⟩ := List.lookup_eq_some_iff.mp h
  simp

theorem Ordered.isFileName {root item : Item α} (h : root.Ordered) {place : Place}
    (ha : root.at? place = some item) : ∀ name ∈ place, IsFileName name := by
  induction place generalizing root with
  | nil => simp
  | cons name place ih =>
    cases root with
    | file content => cases ha
    | folder items =>
      rw [at?_cons_folder] at ha
      obtain ⟨next, hl, hnext⟩ := Option.bind_eq_some_iff.mp ha
      obtain ⟨hname, hitem⟩ := OrderedItems.of_mem h (mem_of_lookup hl)
      intro n hn
      rcases List.mem_cons.mp hn with rfl | hn
      · exact hname
      · exact ih hitem hnext n hn

theorem Ordered.at? {root item : Item α} (h : root.Ordered) {place : Place}
    (ha : root.at? place = some item) : item.Ordered := by
  induction place generalizing root with
  | nil =>
    obtain rfl := Option.some.inj ha
    exact h
  | cons name place ih =>
    cases root with
    | file content => cases ha
    | folder items =>
      rw [at?_cons_folder] at ha
      obtain ⟨next, hl, hnext⟩ := Option.bind_eq_some_iff.mp ha
      exact ih (OrderedItems.of_mem h (mem_of_lookup hl)).2 hnext

section Files

mutual

/-- The files of an item are what names lead to from it. -/
theorem mem_files {q : Path} : {item : Item α} → item.Ordered → {p : Path} →
    (q ∈ item.files p ↔
      ∃ place content, item.at? place = some (.file content) ∧ q = p.below place)
  | .file content, _, p => by
    rw [files, List.mem_singleton]
    constructor
    · rintro rfl
      exact ⟨[], content, rfl, rfl⟩
    · rintro ⟨place, c, ha, rfl⟩
      cases place with
      | nil => rfl
      | cons name place => cases ha
  | .folder items, h, p => by
    rw [files, mem_filesBelow h]
    constructor
    · rintro ⟨name, place, content, ha, rfl⟩
      exact ⟨name :: place, content, ha, rfl⟩
    · rintro ⟨place, content, ha, rfl⟩
      cases place with
      | nil => cases ha
      | cons name place => exact ⟨name, place, content, ha, rfl⟩

theorem mem_filesBelow {q : Path} : {items : List (String × Item α)} → OrderedItems items →
    {p : Path} → (q ∈ filesBelow p items ↔ ∃ name place content,
      (Item.folder items).at? (name :: place) = some (.file content) ∧
        q = (p.join ⟨name⟩).below place)
  | [], _, p => by simp [filesBelow, at?_cons_folder]
  | (n, item) :: rest, ⟨hn, hless, hitem, hrest⟩, p => by
    rw [filesBelow, List.mem_append, mem_files hitem, mem_filesBelow hrest]
    have hself : ∀ place, (Item.folder ((n, item) :: rest)).at? (n :: place) = item.at? place := by
      intro place
      simp [at?_cons_folder]
    have hother : ∀ name place, name ≠ n →
        (Item.folder ((n, item) :: rest)).at? (name :: place) =
          (Item.folder rest).at? (name :: place) := by
      intro name place hne
      simp [at?_cons_folder, List.lookup_cons, beq_eq_false_iff_ne.mpr hne]
    constructor
    · rintro (⟨place, content, ha, rfl⟩ | ⟨name, place, content, ha, rfl⟩)
      · exact ⟨n, place, content, (hself place).trans ha, rfl⟩
      -- No name comes twice, so the item found among the rest is the one that `name` leads to.
      · have hne : name ≠ n := by
          rintro rfl
          rw [at?_cons_folder] at ha
          obtain ⟨next, hl, -⟩ := Option.bind_eq_some_iff.mp ha
          exact absurd (hless _ (mem_of_lookup hl)) (String.lt_irrefl _)
        exact ⟨name, place, content, (hother name place hne).trans ha, rfl⟩
    · rintro ⟨name, place, content, ha, rfl⟩
      by_cases hname : name = n
      · subst hname
        exact Or.inl ⟨place, content, (hself place).symm.trans ha, rfl⟩
      · exact Or.inr ⟨name, place, content, (hother name place hname).symm.trans ha, rfl⟩

end

theorem components_of_mem_files {item : Item α} (h : item.Ordered) {p q : Path}
    (hq : q ∈ item.files p) :
    ∃ place : Place, q.components = p.components ++ place.map .name := by
  obtain ⟨place, content, ha, rfl⟩ := (mem_files h).mp hq
  exact ⟨place, Path.components_below (h.isFileName ha) p⟩

/-- Files of a folder come after those of a folder or file with a lesser name. -/
theorem before_of_mem_filesBelow {name : String} {item : Item α} {rest : List (String × Item α)}
    (h : OrderedItems ((name, item) :: rest)) {p q r : Path}
    (hq : q ∈ item.files (p.join ⟨name⟩)) (hr : r ∈ filesBelow p rest) : q.Before r := by
  obtain ⟨hname, hless, hitem, hrest⟩ := h
  obtain ⟨place, hqc⟩ := components_of_mem_files hitem hq
  obtain ⟨other, below, content, ha, rfl⟩ := (mem_filesBelow hrest).mp hr
  have hproper : ∀ n ∈ other :: below, IsFileName n :=
    Ordered.isFileName (show Ordered (.folder rest) from hrest) ha
  rw [at?_cons_folder] at ha
  obtain ⟨next, hl, -⟩ := Option.bind_eq_some_iff.mp ha
  have hlt : Component.Before (.name name) (.name other) :=
    nameBytes_lt (hless _ (mem_of_lookup hl))
  rw [Path.Before, hqc, Path.components_below (fun n hn => hproper n (by simp [hn])),
    Path.components_join p hname, Path.components_join p (hproper other (by simp)),
    List.append_assoc, List.append_assoc]
  exact List.Lex.append_left _ (.rel hlt) _

mutual

theorem pairwise_files : {item : Item α} → item.Ordered → (p : Path) →
    (item.files p).Pairwise Path.Before
  | .file _, _, p => List.pairwise_singleton _ p
  | .folder _, h, p => pairwise_filesBelow h p

theorem pairwise_filesBelow : {items : List (String × Item α)} → OrderedItems items →
    (p : Path) → (filesBelow p items).Pairwise Path.Before
  | [], _, _ => List.Pairwise.nil
  | (name, item) :: rest, h, p => by
    obtain ⟨-, -, hitem, hrest⟩ := id h
    exact List.pairwise_append.mpr ⟨pairwise_files hitem _, pairwise_filesBelow hrest p,
      fun q hq r hr => before_of_mem_filesBelow h hq hr⟩

end

mutual

theorem files_map {β : Type} (f : α → β) (p : Path) : (item : Item α) →
    (item.map f).files p = item.files p
  | .file _ => rfl
  | .folder items => filesBelow_map f p items

theorem filesBelow_map {β : Type} (f : α → β) (p : Path) : (items : List (String × Item α)) →
    filesBelow p (mapItems f items) = filesBelow p items
  | [] => rfl
  | (name, item) :: rest => by
    rw [mapItems, filesBelow, filesBelow, files_map f _ item, filesBelow_map f p rest]

end

end Files

end Item

namespace World

open Machine

variable {w : World} {root q : Path}

def scanned (w : World) (manifest : Manifest) (root : Path) : List Path :=
  ((scan manifest root : StateM World (List Path)).run w).1

/-- Names, or none at all, lead from the item at a path to a file. -/
def IsFileBelow (w : World) (root q : Path) : Prop :=
  (w.find? root).isSome ∧
    ∃ place content, (∀ name ∈ place, IsFileName name) ∧ q = root.below place ∧
      w.find? q = some (.file content)

theorem scanned_eq (w : World) (manifest : Manifest) (root : Path) :
    w.scanned manifest root =
      (w.find? root).elim [] fun item => item.documents manifest root := by
  have houtline : (Host.outline? root : StateM World (Option (Item Unit))).run w =
      ((w.find? root).map (Item.map fun _ => ()), w) := rfl
  rw [scanned, scan, StateT.run_bind, houtline]
  cases w.find? root with
  | none => rfl
  | some item =>
    rw [Option.elim_some, Item.documents, ← Item.files_map fun _ => ()]
    rfl

theorem ordered_of_find? (hw : w.root.Ordered) {item : Item Content}
    (h : w.find? root = some item) : item.Ordered := by
  obtain ⟨place, ha⟩ := exists_place_of_find? h
  exact hw.at? ha

theorem isFileBelow_iff (hw : w.root.Ordered) {item : Item Content}
    (h : w.find? root = some item) : w.IsFileBelow root q ↔ q ∈ item.files root := by
  have hbelow : ∀ place : Place, (∀ name ∈ place, IsFileName name) →
      w.find? (root.below place) = item.at? place := by
    intro place hplace
    rw [find?_below (text_ne_empty_of_find? h) hplace, h, Option.bind_some]
  rw [IsFileBelow, Item.mem_files (ordered_of_find? hw h), h]
  constructor
  · rintro ⟨-, place, content, hplace, rfl, hq⟩
    exact ⟨place, content, (hbelow place hplace).symm.trans hq, rfl⟩
  · rintro ⟨place, content, ha, rfl⟩
    have hplace := (ordered_of_find? hw h).isFileName ha
    exact ⟨rfl, place, content, hplace, rfl, (hbelow place hplace).trans ha⟩

theorem mem_scanned_iff (hw : w.root.Ordered) (manifest : Manifest) :
    q ∈ w.scanned manifest root ↔
      w.IsFileBelow root q ∧ q.isDocument = true ∧ manifest.excluded q = false := by
  cases h : w.find? root with
  | none => simp [scanned_eq, IsFileBelow, h]
  | some item =>
    rw [scanned_eq, h, Option.elim_some, isFileBelow_iff hw h, Item.documents, List.mem_filter,
      Bool.and_eq_true, Bool.not_eq_true', and_comm (a := manifest.excluded q = false)]

theorem pairwise_scanned (hw : w.root.Ordered) (manifest : Manifest) (root : Path) :
    (w.scanned manifest root).Pairwise Path.Before := by
  rw [scanned_eq]
  cases h : w.find? root with
  | none => exact List.Pairwise.nil
  | some item => exact (Item.pairwise_files (ordered_of_find? hw h) root).filter _

theorem scanned_eq_filter (w : World) (manifest : Manifest) (root : Path) :
    w.scanned manifest root =
      (w.scanned { manifest with excludes := [] } root).filter (!manifest.excluded ·) := by
  rw [scanned_eq, scanned_eq]
  cases w.find? root with
  | none => rfl
  | some item =>
    rw [Option.elim_some, Option.elim_some, Item.documents, Item.documents, List.filter_filter]
    simp [Manifest.excluded]

end World

/-- A scan lists the files at or below a path that have the extension of documents and are not
excluded, each once, in the order of their components. What is excluded decides nothing else. -/
theorem scan_lists_documents {w : World} (hw : w.root.Ordered) (manifest : Manifest)
    (root : Path) :
    (scan manifest root : StateM World (List Path)).run w = (w.scanned manifest root, w) ∧
      (∀ q, q ∈ w.scanned manifest root ↔
        w.IsFileBelow root q ∧ q.extension? = some "ssf" ∧ manifest.excluded q = false) ∧
      (w.scanned manifest root).Pairwise Path.Before ∧
      ((w.scanned manifest root).map Path.components).Nodup ∧
      w.scanned manifest root =
        (w.scanned { manifest with excludes := [] } root).filter (!manifest.excluded ·) := by
  have hordered := World.pairwise_scanned hw manifest root
  refine ⟨Prod.ext rfl (Machine.keeps_scan manifest root w), fun q => ?_, hordered, ?_,
    World.scanned_eq_filter w manifest root⟩
  · rw [World.mem_scanned_iff hw, Path.isDocument, beq_iff_eq]
    rfl
  · exact List.pairwise_map.mpr (hordered.imp Path.Before.components_ne)

/-- The file in the folder `a` comes before `a-b.ssf` and `a.ssf`: the name `a` is less than these
names, though `/` is greater than `-` and `.`. -/
theorem scan_lists_documents_interleaved :
    let w : World := ⟨.folder [("p", .folder [("a", .folder [("x.ssf", .file (.text ""))]),
      ("a-b.ssf", .file (.text "")), ("a.ssf", .file (.text "")), ("b", .folder
        [("x.ssf", .file (.text "")), ("y.css", .file (.text ""))])])], ["p"], "", ""⟩
    let manifest : Manifest := { Manifest.standard with excludes := [⟨"**/b/*"⟩] }
    w.root.Ordered ∧
      w.scanned manifest ⟨"."⟩ = [⟨"./a/x.ssf"⟩, ⟨"./a-b.ssf"⟩, ⟨"./a.ssf"⟩] ∧
      w.IsFileBelow ⟨"."⟩ ⟨"./a/x.ssf"⟩ ∧ (w.scanned manifest ⟨"."⟩).Pairwise Path.Before ∧
      w.scanned manifest ⟨"."⟩ = (w.scanned { manifest with excludes := [] } ⟨"."⟩).filter
        (!manifest.excluded ·) := by
  intro w manifest
  have hw : w.root.Ordered := by
    simp only [w, Item.Ordered, Item.OrderedItems]
    decide
  have hlist : w.scanned manifest ⟨"."⟩ = [⟨"./a/x.ssf"⟩, ⟨"./a-b.ssf"⟩, ⟨"./a.ssf"⟩] := by
    decide +kernel
  obtain ⟨-, hmem, hpairwise, -, hfilter⟩ := scan_lists_documents hw manifest ⟨"."⟩
  have hfile := ((hmem ⟨"./a/x.ssf"⟩).mp (by rw [hlist]; simp)).1
  exact ⟨hw, hlist, hfile, hpairwise, hfilter⟩

end DesignSystem
