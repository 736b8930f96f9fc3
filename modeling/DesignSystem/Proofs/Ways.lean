import DesignSystem.Tree
import Mathlib.Data.List.Basic

/-! The nodes of a tree in pre-order, each with the entries on the way down to it. -/

namespace DesignSystem

/-- The entries from a declaration down to a node, the entry of the node last. -/
abbrev Way := List (String × Node)

mutual

def waysBelow : Node → List Way
  | .leaf _ => []
  | .branch entries => ways entries

/-- The ways to all nodes of a declaration, in pre-order. -/
def ways : List (String × Node) → List Way
  | [] => []
  | (key, n) :: rest => ([(key, n)] :: (waysBelow n).map ((key, n) :: ·)) ++ ways rest

end

theorem ne_nil_of_mem_ways {t : Tree} {w : Way} (h : w ∈ ways t) : w ≠ [] := by
  induction t with
  | nil => cases h
  | cons e t ih =>
    obtain ⟨key, n⟩ := e
    rw [ways, List.mem_append, List.mem_cons, List.mem_map] at h
    rcases h with (rfl | ⟨v, -, rfl⟩) | h
    · simp
    · simp
    · exact ih h

theorem ne_nil_of_mem_waysBelow {n : Node} {w : Way} (h : w ∈ waysBelow n) : w ≠ [] := by
  cases n with
  | leaf v => cases h
  | branch t => exact ne_nil_of_mem_ways h

/-- Each entry is met before the entries below it, and these before the next entry. -/
theorem filterMap_ways {α : Type} (f : Way → Option α) (t : Tree) :
    (ways t).filterMap f =
      t.flatMap fun e => (f [e]).toList ++ (waysBelow e.2).filterMap fun w => f (e :: w) := by
  induction t with
  | nil => rfl
  | cons e t ih =>
    obtain ⟨key, n⟩ := e
    rw [ways, List.filterMap_append, ih, List.flatMap_cons, List.filterMap_cons,
      List.filterMap_map]
    cases f [(key, n)] <;> rfl

end DesignSystem
