import DesignSystem.Proofs.Blocks
import Mathlib.Data.List.Chain

/-! Blocks inside a block. What stands below the first line of a block, moved one tab to the
left, is a document of its own, and its tree is what the block holds. -/

namespace DesignSystem

def Line.indent (l : Line) : Line :=
  { l with depth := l.depth + 1 }

/-- The place of a line that is moved below the first line of a block. -/
def Placement.below (name : String) (p : Placement) : Placement :=
  ⟨name :: p.parent, p.line.indent⟩

section Indenting

/-- Up to which depth a next line belongs to one of the lines, or is not indented. The latest
line comes first. -/
def reach : List Line → Nat
  | [] => 0
  | l :: _ => l.depth + 1

/-- No line is more than one tab deeper than the line before it, and the first one is not
indented. The latest line comes first. -/
def Unbroken : List Line → Prop
  | [] => True
  | l :: earlier => l.depth ≤ reach earlier ∧ Unbroken earlier

variable {head : Line}

theorem parentAfter_indent (hh : head.depth = 0) {earlier : List Line} (he : Unbroken earlier)
    {depth : Nat} (hd : depth ≤ reach earlier) :
    parentAfter (earlier.map Line.indent ++ [head]) (depth + 1) =
      head.name :: parentAfter earlier depth := by
  induction earlier generalizing depth with
  | nil =>
    obtain rfl : depth = 0 := by simpa [reach] using hd
    simp [parentAfter, hh]
  | cons l earlier ih =>
    obtain ⟨hl, he⟩ := he
    rw [reach] at hd
    rw [List.map_cons, List.cons_append, parentAfter, parentAfter]
    by_cases hlast : depth = l.depth + 1
    · rw [if_pos (by simp [Line.indent, hlast]), if_pos hlast]
      exact congrArg (· ++ [l.name]) (ih he hl)
    · rw [if_neg (by simpa [Line.indent] using hlast), if_neg hlast]
      exact ih he (by omega)

theorem placementsAfter_indent (hh : head.depth = 0) {earlier lines : List Line}
    (he : Unbroken earlier) (hstart : ∀ l ∈ lines.head?, l.depth ≤ reach earlier)
    (hsteps : lines.IsChain fun l next => next.depth ≤ l.depth + 1) :
    placementsAfter (earlier.map Line.indent ++ [head]) (lines.map Line.indent) =
      (placementsAfter earlier lines).map (Placement.below head.name) := by
  induction lines generalizing earlier with
  | nil => rfl
  | cons l lines ih =>
    have hl := hstart l (by simp)
    have hnext : ∀ m ∈ lines.head?, m.depth ≤ reach (l :: earlier) := by
      intro m hm
      obtain ⟨rest, rfl⟩ := List.head?_eq_some_iff.mp hm
      exact (List.isChain_cons_cons.mp hsteps).1
    have hunbroken : Unbroken (l :: earlier) := ⟨hl, he⟩
    have hrest := ih hunbroken hnext hsteps.tail
    rw [List.map_cons, placementsAfter, placementsAfter, List.map_cons, ← hrest]
    exact congrArg (· :: _) (congrArg (Placement.mk · l.indent) (parentAfter_indent hh he hl))

end Indenting

theorem depth_of_head?_lines {bs : List Block} :
    ∀ l ∈ (bs.flatMap Block.lines).head?, l.depth = 0 := by
  cases bs with
  | nil => simp
  | cons b bs => simpa [Block.lines] using b.head_depth

theorem isChain_lines (bs : List Block) :
    (bs.flatMap Block.lines).IsChain fun l next => next.depth ≤ l.depth + 1 := by
  induction bs with
  | nil => exact .nil
  | cons b bs ih =>
    refine List.IsChain.append b.steps ih fun l _ next hnext => ?_
    rw [depth_of_head?_lines next hnext]
    exact Nat.zero_le _

/-- A block without a value whose lines below the first one are blocks. -/
def Block.nest (name : String) (bs : List Block) : Block where
  head := ⟨0, name, ""⟩
  body := (bs.flatMap Block.lines).map Line.indent
  head_depth := rfl
  body_depth := by
    intro l hl
    obtain ⟨m, -, rfl⟩ := List.mem_map.mp hl
    exact Nat.le_add_left 1 m.depth
  steps := by
    refine List.isChain_cons.mpr ⟨fun l hl => ?_, ?_⟩
    · obtain ⟨m, hm, rfl⟩ := Option.map_eq_some_iff.mp (List.head?_map ▸ hl)
      simp [Line.indent, depth_of_head?_lines m hm]
    · exact (List.isChain_map _).mpr ((isChain_lines bs).imp fun _ _ => Nat.succ_le_succ)

section Holding

variable (convert : String → Option Value)

theorem put_below (name : String) (t : Tree) (p : Placement) :
    (p.below name).put convert [(name, .branch t)] = [(name, .branch (p.put convert t))] := by
  simp [Placement.put, Placement.node, Placement.below, Line.indent, Tree.insertAt, Tree.alterAt,
    Tree.alter]

theorem foldl_put_below (name : String) (ps : List Placement) (t : Tree) :
    (ps.map (Placement.below name)).foldl (Placement.put convert) [(name, .branch t)] =
      [(name, .branch (ps.foldl (Placement.put convert) t))] := by
  induction ps generalizing t with
  | nil => rfl
  | cons p ps ih => rw [List.map_cons, List.foldl_cons, put_below, ih, List.foldl_cons]

/-- The tree of blocks that stand one after the other. -/
def treeOfBlocks (bs : List Block) : Tree :=
  (bs.flatMap Block.placed).foldl (Placement.put convert) []

theorem Block.placed_nest (name : String) (bs : List Block) :
    (nest name bs).placed =
      ⟨[], ⟨0, name, ""⟩⟩ :: (bs.flatMap placed).map (Placement.below name) := by
  have hin := @placementsAfter_indent ⟨0, name, ""⟩ rfl [] (bs.flatMap lines) trivial
    (fun l hl => Nat.le_of_eq (depth_of_head?_lines l hl)) (isChain_lines bs)
  rw [placementsAfter_blocks] at hin
  exact congrArg (_ :: ·) hin

/-- A nested block holds the tree of the blocks in it. -/
theorem Block.node?_nest (h : convert "" = none) (name : String) (bs : List Block) :
    (nest name bs).node? convert = some (.branch (treeOfBlocks convert bs)) := by
  have hhead : Placement.put convert [] ⟨[], ⟨0, name, ""⟩⟩ = [(name, .branch [])] := by
    rw [Placement.put, Placement.node, h]
    rfl
  rw [node?, placed_nest, List.foldl_cons, hhead, foldl_put_below]
  exact (Tree.get?_cons ..).trans (if_pos rfl)

theorem exists_alter_of_placed {ps : List Placement} {name : String} (hne : ps ≠ [])
    (h : ∀ p ∈ ps, [name] <+: p.path) :
    ∃ f, ∀ t, ps.foldl (Placement.put convert) t = Tree.alter f name t := by
  induction ps with
  | nil => exact absurd rfl hne
  | cons p ps ih =>
    obtain ⟨f, hf⟩ := exists_alter_of_prefix convert (h p (by simp))
    by_cases hps : ps = []
    · exact ⟨f, fun t => by rw [hps, List.foldl_cons, List.foldl_nil, hf]⟩
    · obtain ⟨g, hg⟩ := ih hps fun q hq => h q (by simp [hq])
      exact ⟨_, fun t => by rw [List.foldl_cons, hg, hf, Tree.alter_alter]⟩

theorem Block.foldl_put_placed (b : Block) {t : Tree} (ht : b.name ∉ Tree.keys t) :
    ∃ n, b.node? convert = some n ∧
      b.placed.foldl (Placement.put convert) t = t ++ [(b.name, n)] := by
  have hne : b.placed ≠ [] := by
    rw [placed, lines, placementsAfter]
    exact List.cons_ne_nil _ _
  obtain ⟨f, hf⟩ := exists_alter_of_placed convert hne fun p hp => b.name_prefix_of_mem_placed hp
  refine ⟨f none, ?_, ?_⟩
  · rw [node?, hf, Tree.get?_alter, if_pos rfl, Tree.get?_nil]
  · rw [hf, Tree.alter_of_not_mem _ ht]

def Block.named? (b : Block) : Option (String × Node) :=
  (b.node? convert).map (b.name, ·)

theorem foldl_put_blocks {bs : List Block} (hn : (bs.map Block.name).Nodup) {t : Tree}
    (ht : ∀ b ∈ bs, b.name ∉ Tree.keys t) :
    (bs.flatMap Block.placed).foldl (Placement.put convert) t =
      t ++ bs.filterMap (Block.named? convert) := by
  induction bs generalizing t with
  | nil => simp
  | cons b bs ih =>
    obtain ⟨hb, hrest⟩ := List.nodup_cons.mp hn
    obtain ⟨n, hnode, hput⟩ := b.foldl_put_placed convert (ht b (by simp))
    have hnamed : b.named? convert = some (b.name, n) := by rw [Block.named?, hnode]; rfl
    have hfresh : ∀ c ∈ bs, c.name ∉ Tree.keys (t ++ [(b.name, n)]) := by
      intro c hc hm
      rw [Tree.keys_append, List.mem_append] at hm
      rcases hm with hm | hm
      · exact ht c (by simp [hc]) hm
      · have he : c.name = b.name := List.mem_singleton.mp hm
        exact hb (he ▸ List.mem_map_of_mem hc)
    rw [List.flatMap_cons, List.foldl_append, hput, ih hrest hfresh, List.filterMap_cons, hnamed,
      List.append_assoc, List.singleton_append]

/-- Blocks of distinct names are the entries of their tree. -/
theorem treeOfBlocks_eq {bs : List Block} (hn : (bs.map Block.name).Nodup) :
    treeOfBlocks convert bs = bs.filterMap (Block.named? convert) :=
  foldl_put_blocks convert hn (by simp [Tree.keys])

theorem get?_treeOfBlocks_of_last {before after : List Block} {b : Block}
    (h : ∀ c ∈ after, c.name ≠ b.name) :
    Tree.get? (treeOfBlocks convert (before ++ b :: after)) b.name = b.node? convert := by
  rw [treeOfBlocks, List.append_cons, List.flatMap_append, List.flatMap_append,
    List.flatMap_singleton]
  exact get?_foldl_put_last convert h []

/-- Whatever stands before a block, and under other names behind it, its name has what the block
holds on its own. -/
theorem get?_parseWith_of_last {source : String} {before : List Line} {b : Block}
    {after : List Block}
    (hs : documentLines source = before ++ b.lines ++ after.flatMap Block.lines)
    (h : ∀ c ∈ after, c.name ≠ b.name) :
    Tree.get? (parseWith convert source) b.name = b.node? convert := by
  rw [parseWith_eq_foldl, placements, hs, placementsAfter_append, placementsAfter_append,
    b.placementsAfter_lines, placementsAfter_blocks]
  exact get?_foldl_put_last convert h []

end Holding

end DesignSystem
