import DesignSystem.Proofs.CanonicalTree

/-! Writing a tree out and reading it again. The lines of a canonical tree, placed below a
branch that has none of its keys, add its entries to that branch. So reading its text gives
the tree itself. -/

namespace DesignSystem

open DesignSystem.Tree

mutual

def Node.lines (depth : Nat) (key : String) : Node → List Line
  | .leaf v => [⟨depth, key, v.display⟩]
  | .branch t => ⟨depth, key, ""⟩ :: Tree.lines (depth + 1) t

/-- The lines of a tree below a given depth. -/
def Tree.lines (depth : Nat) : Tree → List Line
  | [] => []
  | (key, n) :: rest => n.lines depth key ++ Tree.lines depth rest

end

mutual

theorem Node.print_eq (depth : Nat) (key : String) : (n : Node) → n.Canonical →
    List.replicate depth '\t' ++ key.toList ++ n.print depth =
      (n.lines depth key).flatMap Line.print
  | .leaf v, h => by
    simp [Node.print, Node.lines, Line.print, Value.display, h.shown]
  | .branch t, h => by
    rw [Node.print, Tree.print_eq (depth + 1) t h, Node.lines, List.flatMap_cons]
    simp [Line.print]

theorem Tree.print_eq (depth : Nat) : (t : Tree) → t.Canonical →
    Tree.print depth t = (t.lines depth).flatMap Line.print
  | [], _ => rfl
  | (key, n) :: rest, h => by
    rw [Tree.print, Tree.lines, List.flatMap_append, ← Node.print_eq depth key n h.2.2.1,
      ← Tree.print_eq depth rest h.2.2.2]

end

mutual

theorem Node.tidy_lines (depth : Nat) {key : String} (hk : IsWord key.toList) :
    (n : Node) → n.Canonical → ∀ l ∈ n.lines depth key, l.Tidy ∧ depth ≤ l.depth
  | .leaf v, h => by
    intro l hl
    obtain rfl := List.mem_singleton.mp hl
    exact ⟨⟨hk, by simpa [Value.display] using h.spaced⟩, Nat.le_refl _⟩
  | .branch t, h => by
    intro l hl
    rcases List.mem_cons.mp hl with rfl | hl
    · exact ⟨⟨hk, rfl⟩, Nat.le_refl _⟩
    · obtain ⟨ht, hd⟩ := Tree.tidy_lines (depth + 1) t h l hl
      exact ⟨ht, by omega⟩

theorem Tree.tidy_lines (depth : Nat) : (t : Tree) → t.Canonical →
    ∀ l ∈ t.lines depth, l.Tidy ∧ depth ≤ l.depth
  | [], _ => by simp [Tree.lines]
  | (key, n) :: rest, h => by
    intro l hl
    rcases List.mem_append.mp hl with hl | hl
    · exact Node.tidy_lines depth h.1 n h.2.2.1 l hl
    · exact Tree.tidy_lines depth rest h.2.2.2 l hl

end

theorem documentLines_emit {t : Tree} (h : t.Canonical) : documentLines (emit t) = t.lines 0 := by
  rw [emit, Tree.print_eq 0 t h]
  exact documentLines_print fun l hl => (Tree.tidy_lines 0 t h l hl).1

/-- Placed after earlier lines, lines add entries to the branch at a path, provided that it
has none of their keys. -/
def Adds (earlier lines : List Line) (path : List String) (added : Tree) : Prop :=
  ∀ t es : Tree, at? t path = some (.branch es) → (∀ key ∈ keys added, key ∉ keys es) →
    (placementsAfter earlier lines).foldl (Placement.put Value.coerce?) t =
      alterAt (· ++ added) path t

namespace Adds

variable {earlier lines : List Line} {path : List String} {key : String}

theorem nil : Adds earlier [] path [] := by
  intro t es ht _
  exact (alterAt_of_fixed ht (List.append_nil es)).symm

theorem append {more : List Line} {added further : Tree} (ha : Adds earlier lines path added)
    (hf : Adds (lines.reverse ++ earlier) more path further)
    (hd : ∀ key ∈ keys further, key ∉ keys added) :
    Adds earlier (lines ++ more) path (added ++ further) := by
  intro t es ht hnew
  rw [keys_append] at hnew
  have hadded : ∀ key ∈ keys added, key ∉ keys es :=
    fun key hk => hnew key (List.mem_append_left _ hk)
  have hat : at? (alterAt (· ++ added) path t) path = some (.branch (es ++ added)) := by
    rw [at?_alterAt_self, entriesAt_of_branch ht]
  have hfurther : ∀ key ∈ keys further, key ∉ keys (es ++ added) := by
    intro key hk hm
    rw [keys_append, List.mem_append] at hm
    exact hm.elim (hnew key (List.mem_append_right _ hk)) (hd key hk)
  rw [placementsAfter_append, List.foldl_append, ha t es ht hadded, hf _ _ hat hfurther,
    alterAt_alterAt]
  simp only [List.append_assoc]

theorem leaf {v : Value} (hp : parentAfter earlier path.length = path) (hv : v.Canonical) :
    Adds earlier [⟨path.length, key, v.display⟩] path [(key, .leaf v)] := by
  intro t es ht hnew
  have hk : key ∉ keys (entriesAt t path) := entriesAt_of_branch ht ▸ hnew key (by simp [keys])
  rw [placementsAfter, placementsAfter, List.foldl_cons, List.foldl_nil, Placement.put,
    Placement.node, hv.readsBack, hp]
  exact alterAt_congr (alter_of_not_mem _ hk)

theorem branch {below : Tree} (hp : parentAfter earlier path.length = path)
    (hb : Adds (⟨path.length, key, ""⟩ :: earlier) lines (path ++ [key]) below) :
    Adds earlier (⟨path.length, key, ""⟩ :: lines) path [(key, .branch below)] := by
  intro t es ht hnew
  have hk : key ∉ keys (entriesAt t path) := entriesAt_of_branch ht ▸ hnew key (by simp [keys])
  have hnone : Value.coerce? "" = none := rfl
  have hat : at? (insertAt path key (.branch []) t) (path ++ [key]) = some (.branch []) := by
    rw [insertAt, at?_alterAt_below, at?_cons, Tree.insert, get?_alter, if_pos rfl]
    rfl
  rw [placementsAfter, List.foldl_cons, Placement.put, Placement.node, hnone, hp]
  rw [Node.ofValue?, hb _ _ hat (by simp [keys]), insertAt, alterAt_append, alterAt_alterAt]
  refine alterAt_congr ?_
  rw [Tree.insert, alter_of_not_mem _ hk, alterAt, alter_append_self _ _ hk]
  rfl

end Adds

mutual

theorem Node.adds_lines {earlier : List Line} {path : List String} (key : String)
    (hp : parentAfter earlier path.length = path) : (n : Node) → n.Canonical →
    Adds earlier (n.lines path.length key) path [(key, n)]
  | .leaf v, h => Adds.leaf hp h
  | .branch t, h => by
    have hp' : parentAfter (⟨path.length, key, ""⟩ :: earlier) (path ++ [key]).length =
        path ++ [key] := by
      rw [parentAfter, List.length_append, List.length_singleton, if_pos rfl, hp]
    have hh := Tree.adds_lines hp' t h
    rw [List.length_append, List.length_singleton] at hh
    exact Adds.branch hp hh

theorem Tree.adds_lines {earlier : List Line} {path : List String}
    (hp : parentAfter earlier path.length = path) : (t : Tree) → t.Canonical →
    Adds earlier (t.lines path.length) path t
  | [], _ => Adds.nil
  | (key, n) :: rest, h => by
    -- The lines below this entry are deeper, so the next entry belongs to the same branch.
    have hp' : parentAfter ((n.lines path.length key).reverse ++ earlier) path.length = path := by
      rw [parentAfter_append, hp]
      intro l hl
      exact (Node.tidy_lines path.length h.1 n h.2.2.1 l (List.mem_reverse.mp hl)).2
    refine (Node.adds_lines key hp n h.2.2.1).append (Tree.adds_lines hp' rest h.2.2.2) ?_
    intro k hk he
    obtain rfl : k = key := List.mem_singleton.mp he
    exact h.2.1 hk

end

theorem parse_emit {t : Tree} (h : t.Canonical) : parse (emit t) = t := by
  rw [parse, parseWith_eq_foldl, placements, documentLines_emit h]
  have hp : parentAfter [] ([] : List String).length = [] := rfl
  exact Tree.adds_lines hp t h [] [] rfl (by simp [keys])

/-- Writing and reading are inverse on canonical trees and on no others, and the trees of
documents are canonical. So a document that was written from a parsed tree is written the
same again. -/
theorem emit_parse_round_trip :
    (∀ source, (parse source).Canonical) ∧
      (∀ t : Tree, parse (emit t) = t ↔ t.Canonical) ∧
      ∀ source, parse (emit (parse source)) = parse source ∧
        emit (parse (emit (parse source))) = emit (parse source) := by
  refine ⟨canonical_parse, fun t => ⟨fun h => ?_, parse_emit⟩, fun source => ?_⟩
  · rw [← h]
    exact canonical_parse (emit t)
  · have hh := parse_emit (canonical_parse source)
    exact ⟨hh, congrArg emit hh⟩

end DesignSystem
