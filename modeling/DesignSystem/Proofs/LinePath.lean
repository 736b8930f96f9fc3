import DesignSystem.Document
import DesignSystem.Proofs.TreeUpdate

/-! The path of every line of a document, told from the lines before it alone. The rail of
the reader holds exactly these paths, so the tree of a document is its lines placed one
after the other at the ends of their paths. -/

namespace DesignSystem

/-- The path of the line to which a line of the given depth belongs. The lines before it are
given, the latest one first. It belongs to the latest line that is one tab shallower, and to
the root if there is none. -/
def parentAfter : List Line → Nat → List String
  | [], _ => []
  | previous :: earlier, depth =>
    if depth = previous.depth + 1 then parentAfter earlier previous.depth ++ [previous.name]
    else parentAfter earlier depth

/-- A line together with the path of the line to which it belongs. -/
structure Placement where
  parent : List String
  line : Line

namespace Placement

def path (p : Placement) : List String :=
  p.parent ++ [p.line.name]

/-- The node of a line before other lines are placed below it. -/
def node (convert : String → Option Value) (p : Placement) : Node :=
  Node.ofValue? (convert p.line.value)

def put (convert : String → Option Value) (t : Tree) (p : Placement) : Tree :=
  t.insertAt p.parent p.line.name (p.node convert)

theorem path_ne_nil (p : Placement) : p.path ≠ [] := by
  simp [path]

end Placement

/-- The placements of lines that follow earlier ones, of which the latest comes first. -/
def placementsAfter : List Line → List Line → List Placement
  | _, [] => []
  | earlier, line :: rest =>
    ⟨parentAfter earlier line.depth, line⟩ :: placementsAfter (line :: earlier) rest

/-- The lines of a document that are not blank, each with its place. -/
def placements (source : String) : List Placement :=
  placementsAfter [] (documentLines source)

theorem parentAfter_of_orphan {earlier : List Line} {depth : Nat}
    (h : ∀ l ∈ earlier, depth ≠ l.depth + 1) : parentAfter earlier depth = [] := by
  induction earlier with
  | nil => rfl
  | cons l earlier ih =>
    rw [parentAfter, if_neg (h l (by simp))]
    exact ih fun m hm => h m (by simp [hm])

theorem parentAfter_zero (earlier : List Line) : parentAfter earlier 0 = [] :=
  parentAfter_of_orphan fun _ _ => by omega

theorem exists_line_of_mem_parentAfter {earlier : List Line} {depth : Nat} {key : String}
    (h : key ∈ parentAfter earlier depth) : ∃ l ∈ earlier, l.name = key := by
  induction earlier generalizing depth with
  | nil => cases h
  | cons l earlier ih =>
    rw [parentAfter] at h
    split at h
    · rcases List.mem_append.mp h with h | h
      · obtain ⟨m, hm, he⟩ := ih h
        exact ⟨m, by simp [hm], he⟩
      · exact ⟨l, by simp, (List.mem_singleton.mp h).symm⟩
    · obtain ⟨m, hm, he⟩ := ih h
      exact ⟨m, by simp [hm], he⟩

theorem exists_line_above {earlier : List Line} {depth : Nat} {q : List String}
    (hq : q ≠ []) (h : q <+: parentAfter earlier depth) :
    ∃ skipped l before, earlier = skipped ++ l :: before ∧
      q = parentAfter before l.depth ++ [l.name] := by
  induction earlier generalizing depth with
  | nil => exact absurd (List.prefix_nil.mp h) hq
  | cons l earlier ih =>
    rw [parentAfter] at h
    split at h
    · rcases List.prefix_concat_iff.mp h with he | hp
      · exact ⟨[], l, earlier, rfl, he⟩
      · obtain ⟨skipped, m, before, he, hm⟩ := ih hp
        exact ⟨l :: skipped, m, before, by simp [he], hm⟩
    · obtain ⟨skipped, m, before, he, hm⟩ := ih h
      exact ⟨l :: skipped, m, before, by simp [he], hm⟩

theorem parentAfter_append {lines earlier : List Line} {depth : Nat}
    (h : ∀ l ∈ lines, depth ≤ l.depth) :
    parentAfter (lines ++ earlier) depth = parentAfter earlier depth := by
  induction lines with
  | nil => rfl
  | cons l lines ih =>
    have hl := h l (by simp)
    rw [List.cons_append, parentAfter, if_neg (by omega)]
    exact ih fun m hm => h m (by simp [hm])

theorem placementsAfter_append (earlier lines more : List Line) :
    placementsAfter earlier (lines ++ more) =
      placementsAfter earlier lines ++ placementsAfter (lines.reverse ++ earlier) more := by
  induction lines generalizing earlier with
  | nil => rfl
  | cons l lines ih => simp [placementsAfter, ih]

theorem mem_placementsAfter {earlier lines : List Line} {p : Placement} :
    p ∈ placementsAfter earlier lines ↔
      ∃ before after, lines = before ++ p.line :: after ∧
        p.parent = parentAfter (before.reverse ++ earlier) p.line.depth := by
  induction lines generalizing earlier with
  | nil => simp [placementsAfter]
  | cons l lines ih =>
    rw [placementsAfter, List.mem_cons, ih]
    constructor
    · rintro (rfl | ⟨before, after, he, hp⟩)
      · exact ⟨[], lines, rfl, rfl⟩
      · exact ⟨l :: before, after, by simp [he], by simpa using hp⟩
    · rintro ⟨before, after, he, hp⟩
      cases before with
      | nil =>
        obtain ⟨rfl, -⟩ := List.cons.inj he
        exact Or.inl (by cases p; simp_all)
      | cons m before =>
        obtain ⟨rfl, he'⟩ := List.cons.inj he
        exact Or.inr ⟨before, after, he', by simpa using hp⟩

theorem exists_placement_above {source : String} {p : Placement} {q : List String}
    (hp : p ∈ placements source) (hq : q ≠ []) (h : q <+: p.path) :
    ∃ r ∈ placements source, r.path = q := by
  rcases List.prefix_concat_iff.mp h with he | hpre
  · exact ⟨p, hp, he.symm⟩
  · obtain ⟨before, after, hl, hpar⟩ := mem_placementsAfter.mp hp
    rw [hpar, List.append_nil] at hpre
    obtain ⟨skipped, m, older, hs, hm⟩ := exists_line_above hq hpre
    have hb : before = older.reverse ++ m :: skipped.reverse := by
      simpa using congrArg List.reverse hs
    refine ⟨⟨parentAfter older m.depth, m⟩, mem_placementsAfter.mpr ?_, hm.symm⟩
    exact ⟨older.reverse, skipped.reverse ++ p.line :: after, by simp [hl, hb], by simp⟩

namespace Rail

theorem getElem?_record (path : List String) (depth k : Nat) (rail : Rail) :
    ((rail.record path depth)[k]?).getD none =
      if k = depth then some path else rail[k]?.getD none := by
  induction depth generalizing rail k with
  | zero => cases rail <;> cases k <;> simp [record]
  | succ depth ih =>
    cases k with
    | zero => cases rail <;> simp [record]
    | succ k =>
      cases rail with
      | nil => simpa [record] using ih k []
      | cons entry rest => simpa [record] using ih k rest

theorem parent_record (path : List String) (depth k : Nat) (rail : Rail) :
    (rail.record path depth).parent k = if k = depth + 1 then path else rail.parent k := by
  cases k with
  | zero => simp [parent]
  | succ k =>
    rw [parent, getElem?_record]
    by_cases h : k = depth <;> simp [h, parent]

end Rail

/-- The invariant of the reader: its rail knows the path that a line of each depth would
belong to. -/
def RailMatches (rail : Rail) (earlier : List Line) : Prop :=
  ∀ depth, rail.parent depth = parentAfter earlier depth

theorem railMatches_nil : RailMatches [] [] := by
  intro depth
  cases depth <;> rfl

theorem RailMatches.record {rail : Rail} {earlier : List Line} (h : RailMatches rail earlier)
    (line : Line) :
    RailMatches (rail.record (rail.parent line.depth ++ [line.name]) line.depth)
      (line :: earlier) := by
  intro depth
  rw [Rail.parent_record, parentAfter, h line.depth, h depth]

theorem foldl_placeLine (convert : String → Option Value) (lines earlier : List Line)
    (t : Tree) (rail : Rail) (h : RailMatches rail earlier) :
    (lines.foldl (placeLine convert) (t, rail)).1 =
      (placementsAfter earlier lines).foldl (Placement.put convert) t := by
  induction lines generalizing earlier t rail with
  | nil => rfl
  | cons line lines ih =>
    have hh := ih (line :: earlier) (placeLine convert (t, rail) line).1 _ (h.record line)
    rw [List.foldl_cons, placementsAfter, List.foldl_cons]
    simpa only [placeLine, Placement.put, Placement.node, h line.depth] using hh

theorem parseWith_eq_foldl (convert : String → Option Value) (source : String) :
    parseWith convert source = (placements source).foldl (Placement.put convert) [] :=
  foldl_placeLine convert (documentLines source) [] [] [] railMatches_nil

end DesignSystem
