import DesignSystem.Proofs.LinePath
import Mathlib.Data.List.Chain
import Mathlib.Data.List.Nodup

/-! Well nested documents, whose lines stand as the entries of a tree do when it is written
out. While such a document is read, every line comes to the end of the tree of the lines before
it. So the tree is written out as the lines of the document. -/

namespace DesignSystem

open DesignSystem.Tree

/-- Reads a value as the text that it is. -/
def Value.verbatim? (raw : String) : Option Value :=
  if raw.isEmpty then none else some (.text raw)

/-- How many lines stand before the line to which a line of the given depth belongs. The lines
before it are given, the latest one first. A line that belongs to no other has none. -/
def parentNumber? : List Line → Nat → Option Nat
  | [], _ => none
  | previous :: earlier, depth =>
    if depth = previous.depth + 1 then some earlier.length else parentNumber? earlier depth

/-- The names of lines that follow earlier ones, each with the number of the line to which its
line belongs. -/
def namesBelow : List Line → List Line → List (Option Nat × String)
  | _, [] => []
  | earlier, line :: rest =>
    (parentNumber? earlier line.depth, line.name) :: namesBelow (line :: earlier) rest

/-- The first line is not indented, and no line is more than one tab deeper than the line before
it. A line with deeper lines below it has no value. No two lines that belong to the same line,
or that both belong to none, have the same name. -/
structure WellNested (lines : List Line) : Prop where
  starts : ∀ l ∈ lines.head?, l.depth = 0
  steps : lines.IsChain fun l next => next.depth ≤ l.depth + 1
  heads : lines.IsChain fun l next => l.depth < next.depth → l.value = ""
  distinct : (namesBelow [] lines).Nodup

/-- The last entry of a branch, whose own branch is still growing, and the entries before it. -/
structure OpenEntry where
  before : Tree
  key : String

/-- The tree in which each open entry is the last one of the branch of the open entry before it.
The entries of the last open branch are given. -/
def close : List OpenEntry → Tree → Tree
  | [], es => es
  | o :: os, es => o.before ++ [(o.key, .branch (close os es))]

section Closing

variable (os : List OpenEntry) (es : Tree)

theorem close_append (more : List OpenEntry) :
    close (os ++ more) es = close os (close more es) := by
  induction os with
  | nil => rfl
  | cons o os ih => simp only [List.cons_append, close, ih]

theorem close_take_drop (depth : Nat) :
    close (os.take depth) (close (os.drop depth) es) = close os es := by
  rw [← close_append, List.take_append_drop]

theorem alterAt_close (f : Tree → Tree) {os : List OpenEntry}
    (h : ∀ o ∈ os, o.key ∉ keys o.before) :
    alterAt f (os.map (·.key)) (close os es) = close os (f es) := by
  induction os with
  | nil => rfl
  | cons o os ih =>
    rw [List.map_cons, alterAt, close, alter_append_self _ _ (h o (by simp)), close]
    exact congrArg (fun t => o.before ++ [(o.key, Node.branch t)])
      (ih fun p hp => h p (by simp [hp]))

theorem mem_keys_close_append {added : Tree} {key : String}
    (h : key ∈ keys (close os (es ++ added))) :
    key ∈ keys (close os es) ∨ os = [] ∧ key ∈ keys added := by
  cases os with
  | nil => simpa [close, keys_append] using h
  | cons o os => exact Or.inl (by simpa [close, keys_append, keys] using h)

theorem print_append (depth : Nat) (s t : Tree) :
    Tree.print depth (s ++ t) = Tree.print depth s ++ Tree.print depth t := by
  induction s with
  | nil => rfl
  | cons e s ih =>
    obtain ⟨key, n⟩ := e
    simp [Tree.print, ih]

theorem print_close_append (depth : Nat) (added : Tree) :
    Tree.print depth (close os (es ++ added)) =
      Tree.print depth (close os es) ++ Tree.print (depth + os.length) added := by
  induction os generalizing depth with
  | nil => exact print_append depth es added
  | cons o os ih =>
    have hlen : depth + 1 + os.length = depth + (o :: os).length := by
      rw [List.length_cons]
      omega
    simp [close, print_append, Tree.print, Node.print, ih, hlen]

end Closing

/-- The tree of the lines so far, the latest one first. A line up to the depth of the open
entries belongs to the branch at its depth, and the names in this branch were all seen below the
line to which it would belong. -/
structure Grown (seen : List (Option Nat × String)) (earlier : List Line) (os : List OpenEntry)
    (es : Tree) : Prop where
  fresh : ∀ o ∈ os, o.key ∉ keys o.before
  parent : ∀ depth ≤ os.length, parentAfter earlier depth = (os.take depth).map (·.key)
  named : ∀ depth ≤ os.length, ∀ key ∈ keys (close (os.drop depth) es),
    (parentNumber? earlier depth, key) ∈ seen

namespace Grown

variable {seen : List (Option Nat × String)} {earlier : List Line} {os : List OpenEntry}
  {es : Tree}

theorem nil : Grown [] [] [] [] where
  fresh := by simp
  parent := by simp [parentAfter]
  named := by simp [close, keys]

theorem take (h : Grown seen earlier os es) {depth : Nat} (hd : depth ≤ os.length) :
    Grown seen earlier (os.take depth) (close (os.drop depth) es) := by
  have hlen : (os.take depth).length = depth := List.length_take_of_le hd
  refine ⟨fun o ho => h.fresh o (List.mem_of_mem_take ho), fun k hk => ?_, fun k hk key hkey => ?_⟩
  · rw [List.take_take, Nat.min_eq_left (hlen ▸ hk)]
    exact h.parent k (by omega)
  · have hclose : close ((os.take depth).drop k) (close (os.drop depth) es) =
        close (os.drop k) es := by
      rw [← close_append, ← List.drop_append_of_le_length hk, List.take_append_drop]
    exact h.named k (by omega) key (hclose ▸ hkey)

theorem add (h : Grown seen earlier os es) {line : Line} (hd : line.depth = os.length)
    (n : Node) :
    Grown ((parentNumber? earlier line.depth, line.name) :: seen) (line :: earlier) os
      (es ++ [(line.name, n)]) := by
  refine ⟨h.fresh, fun k hk => ?_, fun k hk key hkey => ?_⟩
  · rw [parentAfter, if_neg (by omega)]
    exact h.parent k hk
  · rw [parentNumber?, if_neg (by omega)]
    rcases mem_keys_close_append _ es hkey with hkey | ⟨hnil, hkey⟩
    · exact List.mem_cons_of_mem _ (h.named k hk key hkey)
    · obtain rfl : key = line.name := List.mem_singleton.mp hkey
      have hk' : k = line.depth := by
        rw [List.drop_eq_nil_iff] at hnil
        omega
      rw [hk']
      exact List.mem_cons_self

/-- A line without a value opens a branch. -/
theorem opened {line : Line} (hfresh : line.name ∉ keys es) (hd : line.depth = os.length)
    (h : Grown seen (line :: earlier) os (es ++ [(line.name, .branch [])]))
    (hp : parentAfter earlier line.depth = os.map (·.key)) :
    Grown seen (line :: earlier) (os ++ [⟨es, line.name⟩]) [] := by
  refine ⟨fun o ho => ?_, fun k hk => ?_, fun k hk key hkey => ?_⟩
  · rcases List.mem_append.mp ho with ho | ho
    · exact h.fresh o ho
    · rw [List.mem_singleton.mp ho]
      exact hfresh
  · by_cases hlast : k = os.length + 1
    · rw [parentAfter, if_pos (by omega), hp, hlast, List.take_of_length_le (by simp)]
      simp
    · have hk' : k ≤ os.length := by
        rw [List.length_append, List.length_singleton] at hk
        omega
      rw [List.take_append_of_le_length hk']
      exact h.parent k hk'
  · by_cases hlast : k = os.length + 1
    · rw [List.drop_of_length_le (by simp [hlast])] at hkey
      cases hkey
    · have hk' : k ≤ os.length := by
        rw [List.length_append, List.length_singleton] at hk
        omega
      rw [List.drop_append_of_le_length hk', close_append] at hkey
      exact h.named k hk' key hkey

theorem put_eq (h : Grown seen earlier os es) {line : Line} (hd : line.depth = os.length)
    (hfresh : line.name ∉ keys es) (convert : String → Option Value) :
    Placement.put convert (close os es) ⟨parentAfter earlier line.depth, line⟩ =
      close os (es ++ [(line.name, Node.ofValue? (convert line.value))]) := by
  have hp : parentAfter earlier line.depth = os.map (·.key) := by
    rw [h.parent _ (by omega), List.take_of_length_le (by omega)]
  rw [Placement.put, Placement.node, insertAt, hp, alterAt_close _ _ h.fresh, Tree.insert,
    alter_of_not_mem _ hfresh]

end Grown

theorem print_ofValue?_verbatim? (line : Line) :
    Tree.print line.depth [(line.name, Node.ofValue? (Value.verbatim? line.value))] =
      line.print := by
  by_cases hv : line.value = ""
  · simp [Tree.print, Node.print, Node.ofValue?, Value.verbatim?, Line.print, hv]
  · simp [Tree.print, Node.print, Node.ofValue?, Value.verbatim?, Value.plain, Line.print, hv]

/-- One line: it comes to the end of the tree. Its own branch is open behind it if it has no
value. -/
theorem Grown.step {seen : List (Option Nat × String)} {earlier : List Line}
    {os : List OpenEntry} {es : Tree} (h : Grown seen earlier os es) {line : Line}
    (hd : line.depth ≤ os.length)
    (hnew : (parentNumber? earlier line.depth, line.name) ∉ seen) :
    ∃ os' es', Grown ((parentNumber? earlier line.depth, line.name) :: seen) (line :: earlier)
        os' es' ∧
      Placement.put Value.verbatim? (close os es) ⟨parentAfter earlier line.depth, line⟩ =
        close os' es' ∧
      Tree.print 0 (close os' es') = Tree.print 0 (close os es) ++ line.print ∧
      os'.length = if line.value = "" then line.depth + 1 else line.depth := by
  -- The branches below the depth of the line are complete.
  have hlen : line.depth = (os.take line.depth).length := (List.length_take_of_le hd).symm
  rw [← close_take_drop os es line.depth]
  have hg := h.take hd
  generalize os.take line.depth = os, close (os.drop line.depth) es = es at hlen hg ⊢
  have hfresh : line.name ∉ keys es := by
    intro hm
    refine hnew (hg.named line.depth (by omega) line.name ?_)
    rwa [List.drop_of_length_le (by omega)]
  have hadd := hg.add hlen (Node.ofValue? (Value.verbatim? line.value))
  have hprint : Tree.print 0 (close os (es ++
      [(line.name, Node.ofValue? (Value.verbatim? line.value))])) =
      Tree.print 0 (close os es) ++ line.print := by
    rw [print_close_append, Nat.zero_add, ← hlen, print_ofValue?_verbatim?]
  rw [hg.put_eq hlen hfresh]
  by_cases hv : line.value = ""
  · have hempty : Node.ofValue? (Value.verbatim? line.value) = .branch [] := by
      rw [hv]
      rfl
    rw [hempty] at hadd hprint ⊢
    have hp : parentAfter earlier line.depth = os.map (·.key) := by
      rw [hg.parent _ (by omega), List.take_of_length_le (by omega)]
    have hclose : close (os ++ [⟨es, line.name⟩]) [] =
        close os (es ++ [(line.name, .branch [])]) := close_append _ _ _
    refine ⟨os ++ [⟨es, line.name⟩], [], hadd.opened hfresh hlen hp, hclose.symm, ?_, ?_⟩
    · rw [hclose, hprint]
    · rw [if_pos hv, List.length_append, List.length_singleton, hlen]
  · exact ⟨os, _, hadd, rfl, hprint, by rw [if_neg hv, hlen]⟩

theorem print_foldl_put {seen : List (Option Nat × String)} {earlier lines : List Line}
    {os : List OpenEntry} {es : Tree} (h : Grown seen earlier os es)
    (hstart : ∀ l ∈ lines.head?, l.depth ≤ os.length)
    (hsteps : lines.IsChain fun l next => next.depth ≤ l.depth + 1)
    (hheads : lines.IsChain fun l next => l.depth < next.depth → l.value = "")
    (hdistinct : (seen ++ namesBelow earlier lines).Nodup) :
    Tree.print 0 ((placementsAfter earlier lines).foldl (Placement.put Value.verbatim?)
        (close os es)) =
      Tree.print 0 (close os es) ++ lines.flatMap Line.print := by
  -- `Grown` holds of the lines so far, and `Grown.step` carries it over each further line.
  induction lines generalizing seen earlier os es with
  | nil => simp [placementsAfter]
  | cons line lines ih =>
    have hnodup := List.nodup_middle.mp hdistinct
    have hnew : (parentNumber? earlier line.depth, line.name) ∉ seen :=
      fun hm => (List.nodup_cons.mp hnodup).1 (List.mem_append_left _ hm)
    obtain ⟨os', es', hg, hput, hprint, hlen⟩ := h.step (hstart line (by simp)) hnew
    have hnext : ∀ l ∈ lines.head?, l.depth ≤ os'.length := by
      intro l hl
      obtain ⟨rest, rfl⟩ := List.head?_eq_some_iff.mp hl
      have hstep := (List.isChain_cons_cons.mp hsteps).1
      have hhead := (List.isChain_cons_cons.mp hheads).1
      rw [hlen]
      split
      · exact hstep
      · rename_i hv
        exact Nat.le_of_not_lt fun hdeep => hv (hhead hdeep)
    rw [placementsAfter, List.foldl_cons, hput, ih hg hnext hsteps.tail hheads.tail hnodup,
      hprint, List.append_assoc, List.flatMap_cons]

/-- Reading a well nested document and writing the tree out keeps its lines. None is lost,
repeated, moved, nested elsewhere or altered. -/
theorem emit_of_wellNested {source : String} (h : WellNested (documentLines source)) :
    emit (parseWith Value.verbatim? source) = format source := by
  have hstart : ∀ l ∈ (documentLines source).head?, l.depth ≤ ([] : List OpenEntry).length :=
    fun l hl => Nat.le_of_eq (h.starts l hl)
  have hh := print_foldl_put Grown.nil hstart h.steps h.heads h.distinct
  rw [emit, format, parseWith_eq_foldl]
  exact congrArg String.ofList hh

/-- Names recur below different lines, and a line follows that closes two levels. -/
theorem emit_of_wellNested_recurring :
    let source := "a\n\tb\n\t\tc 1,000\n\n\td 007\nb\n\tb   x  y"
    WellNested (documentLines source) ∧
      emit (parseWith Value.verbatim? source) = "a\n\tb\n\t\tc 1,000\n\td 007\nb\n\tb x y\n" := by
  intro source
  have hs : documentLines source = [⟨0, "a", ""⟩, ⟨1, "b", ""⟩, ⟨2, "c", "1,000"⟩,
      ⟨1, "d", "007"⟩, ⟨0, "b", ""⟩, ⟨1, "b", "x y"⟩] := by decide +kernel
  have h : WellNested (documentLines source) := by
    rw [hs]
    exact ⟨by decide, by decide, by decide, by decide⟩
  refine ⟨h, (emit_of_wellNested h).trans ?_⟩
  rw [format, hs]
  decide

end DesignSystem
