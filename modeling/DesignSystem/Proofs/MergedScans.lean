import DesignSystem.Proofs.DocumentScan

/-! Documents that are found in several places. Lists are merged one after the other, and what comes
out is all of them in a row without the paths that are the same as an earlier one. So the order in
which lists are merged with each other does not matter, and a place at the end only adds paths. -/

namespace DesignSystem

namespace Path

/-- Paths without those that have the components of an earlier one, where the components of paths
that came before are given. -/
def distinctAfter (earlier : List (List Component)) : List Path → List Path
  | [] => []
  | p :: rest =>
    if p.components ∈ earlier then distinctAfter earlier rest
    else p :: distinctAfter (p.components :: earlier) rest

/-- Paths in order, and of those that are one path the first spelling alone. -/
def distinct (paths : List Path) : List Path :=
  distinctAfter [] paths

section Distinct

variable {p : Path} {earlier later : List (List Component)}

theorem addNew_of_mem {found : List Path} (h : p.components ∈ found.map components) :
    addNew found p = found := by
  obtain ⟨q, hq, hc⟩ := List.mem_map.mp h
  rw [addNew, if_pos]
  exact List.any_eq_true.mpr ⟨q, hq, beq_iff_eq.mpr hc⟩

theorem addNew_of_not_mem {found : List Path} (h : p.components ∉ found.map components) :
    addNew found p = found ++ [p] := by
  rw [addNew, if_neg]
  intro hany
  obtain ⟨q, hq, hc⟩ := List.any_eq_true.mp hany
  exact h (List.mem_map.mpr ⟨q, hq, beq_iff_eq.mp hc⟩)

theorem distinctAfter_congr (h : ∀ c, c ∈ earlier ↔ c ∈ later) (paths : List Path) :
    distinctAfter earlier paths = distinctAfter later paths := by
  induction paths generalizing earlier later with
  | nil => rfl
  | cons p paths ih =>
    have hcons : ∀ c, c ∈ p.components :: earlier ↔ c ∈ p.components :: later := by simp [h]
    rw [distinctAfter, distinctAfter, ih h, ih hcons]
    simp [h]

/-- Merging puts what is new behind what was found. -/
theorem merge_eq (found more : List Path) :
    merge found more = found ++ distinctAfter (found.map components) more := by
  induction more generalizing found with
  | nil => simp [merge, distinctAfter]
  | cons p more ih =>
    rw [distinctAfter]
    change merge (addNew found p) more = _
    by_cases hp : p.components ∈ found.map components
    · rw [addNew_of_mem hp, ih, if_pos hp]
    · rw [addNew_of_not_mem hp, ih, if_neg hp, List.append_assoc, List.singleton_append]
      congr 2
      exact distinctAfter_congr (by simp [or_comm]) more

theorem mem_components_merge {found more : List Path} {c : List Component} :
    c ∈ (merge found more).map components ↔
      c ∈ found.map components ∨ c ∈ more.map components := by
  induction more generalizing found with
  | nil => simp [merge]
  | cons p more ih =>
    change c ∈ (merge (addNew found p) more).map components ↔ _
    rw [ih]
    by_cases hp : p.components ∈ found.map components
    · rw [addNew_of_mem hp, List.map_cons, List.mem_cons, or_left_comm]
      exact (or_iff_right_of_imp fun hc => Or.inl (hc ▸ hp)).symm
    · simp [addNew_of_not_mem hp, or_assoc]

theorem distinctAfter_append (xs ys : List Path) : distinctAfter earlier (xs ++ ys) =
    distinctAfter earlier xs ++ distinctAfter (xs.map components ++ earlier) ys := by
  induction xs generalizing earlier with
  | nil => rfl
  | cons p xs ih =>
    rw [List.cons_append, distinctAfter, distinctAfter, ih, ih]
    by_cases hp : p.components ∈ earlier
    · rw [if_pos hp, if_pos hp]
      congr 1
      refine distinctAfter_congr (fun c => ?_) ys
      rw [List.map_cons, List.cons_append, List.mem_cons, List.mem_append]
      exact (or_iff_right_of_imp fun hc => Or.inr (hc ▸ hp)).symm
    · rw [if_neg hp, if_neg hp, List.cons_append]
      congr 2
      exact distinctAfter_congr (by simp [or_left_comm]) ys

theorem distinctAfter_eq_nil {paths : List Path} (h : ∀ p ∈ paths, p.components ∈ earlier) :
    distinctAfter earlier paths = [] := by
  induction paths with
  | nil => rfl
  | cons p paths ih =>
    rw [distinctAfter, if_pos (h p (by simp)), ih fun q hq => h q (by simp [hq])]

/-- What was dropped before is dropped again. -/
theorem distinctAfter_distinctAfter (h : earlier ⊆ later) (paths : List Path) :
    distinctAfter later (distinctAfter earlier paths) = distinctAfter later paths := by
  induction paths generalizing earlier later with
  | nil => rfl
  | cons p paths ih =>
    rw [distinctAfter]
    by_cases hp : p.components ∈ earlier
    · rw [if_pos hp, distinctAfter, if_pos (h hp), ih h]
    · rw [if_neg hp, distinctAfter, distinctAfter]
      by_cases hl : p.components ∈ later
      · rw [if_pos hl, if_pos hl]
        exact ih (List.cons_subset.mpr ⟨hl, h⟩)
      · rw [if_neg hl, if_neg hl, ih (List.cons_subset_cons _ h)]

theorem nodup_distinctAfter (paths : List Path) :
    ((distinctAfter earlier paths).map components).Nodup ∧
      ∀ p ∈ distinctAfter earlier paths, p.components ∉ earlier := by
  induction paths generalizing earlier with
  | nil => simp [distinctAfter]
  | cons p paths ih =>
    rw [distinctAfter]
    by_cases hp : p.components ∈ earlier
    · rw [if_pos hp]
      exact ih
    · obtain ⟨hnodup, hnew⟩ := @ih (p.components :: earlier)
      rw [if_neg hp, List.map_cons, List.nodup_cons]
      refine ⟨⟨fun hm => ?_, hnodup⟩, List.forall_mem_cons.mpr ⟨hp, fun q hq hmem => ?_⟩⟩
      · obtain ⟨q, hq, hc⟩ := List.mem_map.mp hm
        exact hnew q hq (by simp [hc])
      · exact hnew q hq (List.mem_cons_of_mem _ hmem)

theorem merge_assoc (a b c : List Path) : merge (merge a b) c = merge a (merge b c) := by
  rw [merge_eq (merge a b), merge_eq a b, merge_eq a, merge_eq b, distinctAfter_append,
    distinctAfter_distinctAfter (List.subset_append_left _ _), List.append_assoc]
  congr 2
  refine distinctAfter_congr (fun d => ?_) c
  rw [← merge_eq a b, mem_components_merge, List.mem_append, or_comm]

/-- A run of merges lists everything in a row, without what is the same as something earlier. -/
theorem foldl_merge {α : Type} (part : α → List Path) (found : List Path) (xs : List α) :
    xs.foldl (fun found x => merge found (part x)) found =
      found ++ distinctAfter (found.map components) (xs.flatMap part) := by
  induction xs generalizing found with
  | nil => simp [distinctAfter]
  | cons x xs ih =>
    rw [List.foldl_cons, ih, List.flatMap_cons, distinctAfter_append, ← List.append_assoc,
      ← merge_eq found (part x)]
    congr 1
    refine distinctAfter_congr (fun c => ?_) _
    rw [mem_components_merge, List.mem_append, or_comm]

end Distinct

/-- Where a source of documents lies: an absolute one where it says, any other below a folder. -/
def ofSource (base : Path) (source : String) : Path :=
  if isAbsolute ⟨source⟩ then ⟨source⟩ else base.join ⟨source⟩

theorem join_eq_ofSource (base : Path) (source : String) :
    base.join ⟨source⟩ = base.ofSource source := by
  rw [ofSource]
  split
  · rename_i h
    rw [join, if_pos h]
  · rfl

end Path

/-- A list of documents is made from those of several places by order-preserving removal of
duplicates. -/
structure ListsDistinct {α : Type} (listed : List α → List Path) (part : α → List Path) :
    Prop where
  eq_distinct : ∀ xs, listed xs = Path.distinct (xs.flatMap part)
  nodup : ∀ xs, ((listed xs).map Path.components).Nodup
  appends : ∀ xs more, listed xs <+: listed (xs ++ more)
  covered : ∀ xs x, (∀ p ∈ part x, ∃ q ∈ listed xs, q.components = p.components) →
    listed (xs ++ [x]) = listed xs
  repeated : ∀ xs, ∀ x ∈ xs, listed (xs ++ [x]) = listed xs

theorem Path.listsDistinct {α : Type} (part : α → List Path) :
    ListsDistinct (fun xs => Path.distinct (xs.flatMap part)) part := by
  have happend : ∀ xs more : List α, distinct ((xs ++ more).flatMap part) =
      distinct (xs.flatMap part) ++
        distinctAfter ((xs.flatMap part).map components) (more.flatMap part) := by
    intro xs more
    rw [List.flatMap_append, distinct, distinctAfter_append, List.append_nil]
    rfl
  have hmem : ∀ (xs : List α) (c : List Component),
      c ∈ (distinct (xs.flatMap part)).map components ↔ c ∈ (xs.flatMap part).map components := by
    intro xs c
    have hmerge : merge [] (xs.flatMap part) = distinct (xs.flatMap part) := merge_eq [] _
    rw [← hmerge, mem_components_merge]
    simp
  have hcovered : ∀ xs x, (∀ p ∈ part x, p.components ∈ (xs.flatMap part).map components) →
      distinct ((xs ++ [x]).flatMap part) = distinct (xs.flatMap part) := by
    intro xs x h
    rw [happend, List.flatMap_singleton, distinctAfter_eq_nil h, List.append_nil]
  refine ⟨fun _ => rfl, fun xs => (nodup_distinctAfter _).1, fun xs more => ?_, fun xs x h => ?_,
    fun xs x hx => ?_⟩
  · exact (happend xs more).symm ▸ List.prefix_append _ _
  · exact hcovered xs x fun p hp => (hmem xs _).mp (List.mem_map.mpr (h p hp))
  · exact hcovered xs x fun p hp => List.mem_map_of_mem (List.mem_flatMap.mpr ⟨x, hx, hp⟩)

namespace World

open Machine

variable {w : World}

def scannedAll (w : World) (manifest : Manifest) (base : Path) (sources : List String) :
    List Path :=
  ((scanSources manifest base sources : StateM World (List Path)).run w).1

def documentsOf (w : World) (manifest : Manifest) (paths : List Path) : List Path :=
  ((Project.ofPaths manifest paths : StateM World Project).run w).1.documents

/-- What one of several given paths contributes: a folder its documents, an existing document
itself, and anything else nothing. -/
def contributed (w : World) (manifest : Manifest) (p : Path) : List Path :=
  match w.find? p with
  | some (.folder _) => w.scanned manifest p
  | some (.file _) => if p.extension? = some "ssf" then [p] else []
  | none => []

/-- A fold of merges over parts that leave the machine as it is. -/
theorem run_foldlM_merge {α : Type} {act : α → StateM World (List Path)} {part : α → List Path}
    (h : ∀ x, (act x).run w = (part x, w)) (found : List Path) (xs : List α) :
    (xs.foldlM (fun found x => do return Path.merge found (← act x)) found :
        StateM World (List Path)).run w =
      (xs.foldl (fun found x => Path.merge found (part x)) found, w) := by
  induction xs generalizing found with
  | nil => rfl
  | cons x xs ih =>
    rw [List.foldlM_cons, List.foldl_cons, ← ih, StateT.run_bind, StateT.run_bind, h]
    rfl

theorem run_scan (w : World) (manifest : Manifest) (p : Path) :
    (scan manifest p : StateM World (List Path)).run w = (w.scanned manifest p, w) :=
  Prod.ext rfl (keeps_scan manifest p w)

theorem run_documentsAt (w : World) (manifest : Manifest) (p : Path) :
    (Project.documentsAt manifest p : StateM World (List Path)).run w =
      (w.contributed manifest p, w) := by
  have hisFolder : (Host.isFolder? p : StateM World (Option Bool)).run w =
      ((w.find? p).map Item.isFolder, w) := rfl
  rw [Project.documentsAt, StateT.run_bind, hisFolder, contributed]
  cases w.find? p with
  | none => rfl
  | some item =>
    cases item with
    | folder items => exact run_scan w manifest p
    | file content =>
      by_cases hp : p.extension? = some "ssf"
      · have hdocument : p.isDocument = true := beq_iff_eq.mpr hp
        simp [hp, hdocument, Item.isFolder]
        rfl
      · have hdocument : p.isDocument = false := beq_eq_false_iff_ne.mpr hp
        simp [hp, hdocument, Item.isFolder]
        rfl

theorem run_scanSources (w : World) (manifest : Manifest) (base : Path) (sources : List String) :
    (scanSources manifest base sources : StateM World (List Path)).run w =
      (Path.distinct (sources.flatMap fun s => w.scanned manifest (base.ofSource s)), w) := by
  have hscan := fun source : String => run_scan w manifest (base.join ⟨source⟩)
  rw [scanSources, run_foldlM_merge hscan, Path.foldl_merge]
  simp only [Path.join_eq_ofSource]
  rfl

theorem run_ofPaths (w : World) (manifest : Manifest) (paths : List Path) :
    ∃ project, (Project.ofPaths manifest paths : StateM World Project).run w = (project, w) ∧
      project.documents = Path.distinct (paths.flatMap (w.contributed manifest)) := by
  rw [Project.ofPaths, StateT.run_bind, run_foldlM_merge (run_documentsAt w manifest),
    Path.foldl_merge]
  exact ⟨_, rfl, rfl⟩

end World

/-- The documents of sources are those that scans of the sources find, in a row, without what is the
same as something earlier. So are those of given paths, with what each path contributes. Merging is
associative. -/
theorem scans_merge_into_distinct (w : World) (manifest : Manifest) (base : Path) :
    ListsDistinct (w.scannedAll manifest base)
        (fun source => w.scanned manifest (base.ofSource source)) ∧
      ListsDistinct (w.documentsOf manifest) (w.contributed manifest) ∧
      ∀ a b c : List Path, Path.merge (Path.merge a b) c = Path.merge a (Path.merge b c) := by
  refine ⟨?_, ?_, Path.merge_assoc⟩
  · have hlisted : w.scannedAll manifest base = fun sources =>
        Path.distinct (sources.flatMap fun s => w.scanned manifest (base.ofSource s)) :=
      funext fun sources => congrArg Prod.fst (World.run_scanSources w manifest base sources)
    rw [hlisted]
    exact Path.listsDistinct _
  · have hlisted : w.documentsOf manifest = fun paths =>
        Path.distinct (paths.flatMap (w.contributed manifest)) := by
      funext paths
      obtain ⟨project, hrun, hdocuments⟩ := World.run_ofPaths w manifest paths
      rw [World.documentsOf, hrun, hdocuments]
    rw [hlisted]
    exact Path.listsDistinct _

/-- The path with a dot at its start is another one. -/
example : Path.distinct [⟨"a//b.ssf"⟩, ⟨"./a/b.ssf"⟩, ⟨"a/./b.ssf"⟩] =
    [⟨"a//b.ssf"⟩, ⟨"./a/b.ssf"⟩] := by
  decide

end DesignSystem
