import DesignSystem.Design
import DesignSystem.Stylesheet
import DesignSystem.Proofs.DocumentMeaning

/-! Documents made of blocks. A line at depth zero starts a block, and no line below it is more
than one tab deeper than the line before. Whatever came before a block, its lines stay below its
first line. So a document of such blocks means the same in any order of them. -/

namespace DesignSystem

structure Block where
  head : Line
  body : List Line
  head_depth : head.depth = 0
  body_depth : ∀ l ∈ body, 1 ≤ l.depth
  steps : (head :: body).IsChain fun l next => next.depth ≤ l.depth + 1

namespace Block

def name (b : Block) : String :=
  b.head.name

def lines (b : Block) : List Line :=
  b.head :: b.body

/-- The lines of a block, placed as if nothing came before them. -/
def placed (b : Block) : List Placement :=
  placementsAfter [] b.lines

end Block

section Anchoring

/-- Lines of a block that was started under a name, the latest one first. A further line up to
the given depth belongs to one of them. -/
structure Anchored (name : String) (lines : List Line) (reach : Nat) : Prop where
  alone : ∀ earlier depth, depth ≤ reach →
    parentAfter (lines ++ earlier) depth = parentAfter lines depth
  below : ∀ depth, 1 ≤ depth → depth ≤ reach → [name] <+: parentAfter lines depth

variable {name : String} {lines : List Line} {reach : Nat}

theorem anchored_head {head : Line} (h : head.depth = 0) : Anchored head.name [head] 1 := by
  refine ⟨fun earlier depth hd => ?_, fun depth hlow hhigh => ?_⟩
  · by_cases h1 : depth = 1
    · simp [parentAfter, h1, h, parentAfter_zero]
    · obtain rfl : depth = 0 := by omega
      rw [parentAfter_zero, parentAfter_zero]
  · obtain rfl : depth = 1 := by omega
    simp [parentAfter, h]

/-- The next line of a block can be one tab deeper than the last one, or end deeper levels. -/
theorem Anchored.cons (h : Anchored name lines reach) {l : Line} (hlow : 1 ≤ l.depth)
    (hhigh : l.depth ≤ reach) : Anchored name (l :: lines) (l.depth + 1) := by
  refine ⟨fun earlier depth hd => ?_, fun depth hlow' hd => ?_⟩
  · have hl := h.alone earlier l.depth hhigh
    rw [List.cons_append, parentAfter, parentAfter]
    by_cases he : depth = l.depth + 1
    · rw [if_pos he, if_pos he, hl]
    · rw [if_neg he, if_neg he]
      exact h.alone earlier depth (by omega)
  · rw [parentAfter]
    by_cases he : depth = l.depth + 1
    · rw [if_pos he]
      exact (h.below l.depth hlow hhigh).trans (List.prefix_append _ _)
    · rw [if_neg he]
      exact h.below depth hlow' (by omega)

theorem placementsAfter_of_anchored {last : Line} {body : List Line}
    (h : Anchored name lines (last.depth + 1)) (hbody : ∀ l ∈ body, 1 ≤ l.depth)
    (hsteps : (last :: body).IsChain fun l next => next.depth ≤ l.depth + 1)
    (earlier : List Line) :
    placementsAfter (lines ++ earlier) body = placementsAfter lines body ∧
      ∀ p ∈ placementsAfter lines body, [name] <+: p.path := by
  induction body generalizing last lines with
  | nil => exact ⟨rfl, by simp [placementsAfter]⟩
  | cons l body ih =>
    obtain ⟨hstep, hrest⟩ := List.isChain_cons_cons.mp hsteps
    have hl := hbody l (by simp)
    have hnext := h.cons hl hstep
    obtain ⟨halone, hbelow⟩ := ih hnext (fun m hm => hbody m (by simp [hm])) hrest
    constructor
    · rw [placementsAfter, placementsAfter, h.alone earlier l.depth hstep, ← List.cons_append,
        halone]
    · intro p hp
      rw [placementsAfter, List.mem_cons] at hp
      obtain rfl | hp := hp
      · exact (h.below l.depth hl hstep).trans (List.prefix_append _ _)
      · exact hbelow p hp

theorem Block.placementsAfter_lines (b : Block) (earlier : List Line) :
    placementsAfter earlier b.lines = b.placed := by
  have hhead := anchored_head b.head_depth
  rw [← Nat.zero_add 1, ← b.head_depth] at hhead
  have hbody := placementsAfter_of_anchored hhead b.body_depth b.steps
  have halone : placementsAfter (b.head :: earlier) b.body = placementsAfter [b.head] b.body :=
    (hbody earlier).1
  rw [placed, lines, placementsAfter, placementsAfter, b.head_depth, parentAfter_zero,
    parentAfter_zero, halone]

theorem Block.name_prefix_of_mem_placed {b : Block} {p : Placement} (h : p ∈ b.placed) :
    [b.name] <+: p.path := by
  have hhead := anchored_head b.head_depth
  rw [← Nat.zero_add 1, ← b.head_depth] at hhead
  have hbody := (placementsAfter_of_anchored hhead b.body_depth b.steps []).2
  rw [placed, lines, placementsAfter, List.mem_cons] at h
  obtain rfl | h := h
  · rw [b.head_depth, parentAfter_zero]
    exact List.prefix_refl _
  · exact hbody p h

/-- Nothing before a block matters to where its lines are placed. -/
theorem placementsAfter_blocks (bs : List Block) (earlier : List Line) :
    placementsAfter earlier (bs.flatMap Block.lines) = bs.flatMap Block.placed := by
  induction bs generalizing earlier with
  | nil => rfl
  | cons b bs ih =>
    rw [List.flatMap_cons, List.flatMap_cons, placementsAfter_append, b.placementsAfter_lines, ih]

end Anchoring

section Sections

variable (convert : String → Option Value)

theorem exists_alter_of_prefix {p : Placement} {name : String} (h : [name] <+: p.path) :
    ∃ f, ∀ t, p.put convert t = Tree.alter f name t := by
  obtain ⟨rest, hrest⟩ := h
  exact put_of_passes convert (q := []) hrest.symm

theorem get?_put_of_prefix {p : Placement} {name : String} (h : [name] <+: p.path) {s t : Tree}
    (hst : Tree.get? s name = Tree.get? t name) :
    Tree.get? (p.put convert s) name = Tree.get? (p.put convert t) name := by
  obtain ⟨f, hf⟩ := exists_alter_of_prefix convert h
  rw [hf, hf, Tree.get?_alter, Tree.get?_alter, hst]

theorem get?_put_of_ne {p : Placement} {name key : String} (h : [name] <+: p.path)
    (hne : key ≠ name) (t : Tree) : Tree.get? (p.put convert t) key = Tree.get? t key := by
  obtain ⟨f, hf⟩ := exists_alter_of_prefix convert h
  rw [hf, Tree.get?_alter, if_neg hne]

def Block.node? (b : Block) : Option Node :=
  Tree.get? (b.placed.foldl (Placement.put convert) []) b.name

theorem get?_foldl_put_of_prefix {ps : List Placement} {name : String}
    (h : ∀ p ∈ ps, [name] <+: p.path) {s t : Tree} (hst : Tree.get? s name = Tree.get? t name) :
    Tree.get? (ps.foldl (Placement.put convert) s) name =
      Tree.get? (ps.foldl (Placement.put convert) t) name := by
  induction ps generalizing s t with
  | nil => exact hst
  | cons p ps ih =>
    have hp := get?_put_of_prefix convert (h p (by simp)) hst
    exact ih (fun r hr => h r (by simp [hr])) hp

theorem get?_foldl_put_of_ne {ps : List Placement} {name key : String}
    (h : ∀ p ∈ ps, [name] <+: p.path) (hne : key ≠ name) (t : Tree) :
    Tree.get? (ps.foldl (Placement.put convert) t) key = Tree.get? t key := by
  induction ps generalizing t with
  | nil => rfl
  | cons p ps ih =>
    have hp := get?_put_of_ne convert (h p (by simp)) hne t
    exact (ih (fun r hr => h r (by simp [hr])) _).trans hp

/-- The first line of a block drops what the tree had under its name. -/
theorem get?_foldl_put_placed (b : Block) (t : Tree) :
    Tree.get? (b.placed.foldl (Placement.put convert) t) b.name = b.node? convert := by
  have hcons : b.placed = ⟨[], b.head⟩ :: placementsAfter [b.head] b.body := by
    rw [Block.placed, Block.lines, placementsAfter, b.head_depth, parentAfter_zero]
  have hbody : ∀ p ∈ placementsAfter [b.head] b.body, [b.name] <+: p.path :=
    fun p hp => b.name_prefix_of_mem_placed (by rw [hcons]; exact List.mem_cons_of_mem _ hp)
  have hhead : ∀ s : Tree, Tree.get? (Placement.put convert s ⟨[], b.head⟩) b.name =
      some (Placement.node convert ⟨[], b.head⟩) := by
    intro s
    rw [Placement.put, Tree.insertAt, Tree.alterAt, Tree.insert, Tree.get?_alter]
    exact if_pos rfl
  rw [Block.node?, hcons, List.foldl_cons, List.foldl_cons]
  exact get?_foldl_put_of_prefix convert hbody ((hhead t).trans (hhead []).symm)

theorem get?_foldl_put_blocks_of_ne {bs : List Block} {key : String}
    (h : ∀ b ∈ bs, b.name ≠ key) (t : Tree) :
    Tree.get? ((bs.flatMap Block.placed).foldl (Placement.put convert) t) key =
      Tree.get? t key := by
  induction bs generalizing t with
  | nil => rfl
  | cons b bs ih =>
    have hb := get?_foldl_put_of_ne convert (fun p hp => b.name_prefix_of_mem_placed hp)
      (h b (by simp)).symm t
    rw [List.flatMap_cons, List.foldl_append, ih (fun c hc => h c (by simp [hc])), hb]

/-- The last block of a name counts. -/
theorem get?_foldl_put_last {ps : List Placement} {b : Block} {after : List Block}
    (h : ∀ c ∈ after, c.name ≠ b.name) (t : Tree) :
    Tree.get? ((ps ++ b.placed ++ after.flatMap Block.placed).foldl (Placement.put convert) t)
      b.name = b.node? convert := by
  rw [List.foldl_append, List.foldl_append, get?_foldl_put_blocks_of_ne convert h,
    get?_foldl_put_placed]

theorem get?_foldl_put_blocks {bs : List Block} (hn : (bs.map Block.name).Nodup) {b : Block}
    (hb : b ∈ bs) (t : Tree) :
    Tree.get? ((bs.flatMap Block.placed).foldl (Placement.put convert) t) b.name =
      b.node? convert := by
  obtain ⟨before, after, rfl⟩ := List.append_of_mem hb
  rw [List.map_append, List.map_cons, List.nodup_append] at hn
  have hb' : b.name ∉ after.map Block.name := (List.nodup_cons.mp hn.2.1).1
  have hafter : ∀ c ∈ after, c.name ≠ b.name := fun c hc he => hb' (he ▸ List.mem_map_of_mem hc)
  rw [List.flatMap_append, List.flatMap_cons, ← List.append_assoc]
  exact get?_foldl_put_last convert hafter t

/-- A document of blocks with distinct names holds under each name what the block of that name
holds on its own. -/
theorem get?_parseWith_of_blocks {source : String} {bs : List Block}
    (hs : documentLines source = bs.flatMap Block.lines) (hn : (bs.map Block.name).Nodup) :
    (∀ b ∈ bs, Tree.get? (parseWith convert source) b.name = b.node? convert) ∧
      ∀ key, (∀ b ∈ bs, b.name ≠ key) → Tree.get? (parseWith convert source) key = none := by
  have hparse : parseWith convert source =
      (bs.flatMap Block.placed).foldl (Placement.put convert) [] := by
    rw [parseWith_eq_foldl, placements, hs, placementsAfter_blocks]
  rw [hparse]
  exact ⟨fun b hb => get?_foldl_put_blocks convert hn hb [],
    fun key hkey => get?_foldl_put_blocks_of_ne convert hkey []⟩

theorem get?_parseWith_congr {source other : String} {bs cs : List Block}
    (hs : documentLines source = bs.flatMap Block.lines) (hbs : (bs.map Block.name).Nodup)
    (ht : documentLines other = cs.flatMap Block.lines) (hcs : (cs.map Block.name).Nodup)
    {name : String} (h : ∀ b : Block, b.name = name → (b ∈ bs ↔ b ∈ cs)) :
    Tree.get? (parseWith convert source) name = Tree.get? (parseWith convert other) name := by
  obtain ⟨hin, hout⟩ := get?_parseWith_of_blocks convert hs hbs
  obtain ⟨hin', hout'⟩ := get?_parseWith_of_blocks convert ht hcs
  by_cases hb : ∃ b ∈ bs, b.name = name
  · obtain ⟨b, hb, rfl⟩ := hb
    rw [hin b hb, hin' b ((h b rfl).mp hb)]
  · have hnone : ∀ b ∈ bs, b.name ≠ name := fun b hm he => hb ⟨b, hm, he⟩
    have hnone' : ∀ c ∈ cs, c.name ≠ name := fun c hm he => hb ⟨c, (h c he).mpr hm, he⟩
    rw [hout name hnone, hout' name hnone']

end Sections

def sectionNames : List String :=
  ["breakpoints", "aliases", "tokens", "elements"]

theorem Design.ofTree_congr (start : Widths) {s t : Tree}
    (h : ∀ name ∈ sectionNames, Tree.get? s name = Tree.get? t name) :
    Design.ofTree start s = Design.ofTree start t := by
  have hsection : ∀ name ∈ sectionNames, sectionOf s name = sectionOf t name := by
    intro name hname
    rw [sectionOf, sectionOf, Tree.branch?, Tree.branch?, h name hname]
  rw [ofTree, ofTree, hsection "breakpoints" (by decide), hsection "aliases" (by decide),
    hsection "tokens" (by decide), hsection "elements" (by decide)]

/-- The order of blocks, and blocks that are no sections, do not matter to the result. -/
theorem resolve_of_same_sections {source other : String} {bs cs : List Block}
    (hs : documentLines source = bs.flatMap Block.lines) (hbs : (bs.map Block.name).Nodup)
    (ht : documentLines other = cs.flatMap Block.lines) (hcs : (cs.map Block.name).Nodup)
    (h : ∀ b : Block, b.name ∈ sectionNames → (b ∈ bs ↔ b ∈ cs)) (start : Widths) :
    (Design.ofTree start (parse source)).resolve =
      (Design.ofTree start (parse other)).resolve := by
  have hsections : ∀ name ∈ sectionNames,
      Tree.get? (parse source) name = Tree.get? (parse other) name :=
    fun name hname => get?_parseWith_congr Value.coerce? hs hbs ht hcs
      fun b hb => h b (hb ▸ hname)
  rw [Design.ofTree_congr start hsections]

/-- Two sections the other way round, and notes between them. -/
theorem resolve_of_same_sections_notes :
    let source := "tokens\n\tgap\n\t\tsm b\nelements\n\tcard\n\t\tgap sm"
    let other := "elements\n\tcard\n\t\tgap sm\nnotes\n\ttokens 1\ntokens\n\tgap\n\t\tsm b"
    (Design.ofTree .standard (parse source)).resolve =
      (Design.ofTree .standard (parse other)).resolve := by
  intro source other
  let tokens : Block :=
    ⟨⟨0, "tokens", ""⟩, [⟨1, "gap", ""⟩, ⟨2, "sm", "b"⟩], rfl, by decide, by simp⟩
  let elements : Block :=
    ⟨⟨0, "elements", ""⟩, [⟨1, "card", ""⟩, ⟨2, "gap", "sm"⟩], rfl, by decide, by simp⟩
  let notes : Block := ⟨⟨0, "notes", ""⟩, [⟨1, "tokens", "1"⟩], rfl, by decide, by simp⟩
  have hs : documentLines source = [tokens, elements].flatMap Block.lines := by decide +kernel
  have ht : documentLines other = [elements, notes, tokens].flatMap Block.lines := by
    decide +kernel
  refine resolve_of_same_sections hs (by decide) ht (by decide) (fun b hb => ?_) .standard
  have hnotes : b ≠ notes := by
    rintro rfl
    exact absurd hb (by decide)
  simp [hnotes, or_comm]

end DesignSystem
