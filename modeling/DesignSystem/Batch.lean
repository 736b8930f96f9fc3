/-! Batches: entries collected per width. A batch comes behind the others when its width first
occurs. In the end the batches are sorted by width. -/

namespace DesignSystem

structure Batch (α : Type) where
  width : Nat
  entries : List α

namespace Batch

variable {α : Type}

/-- Changes the entries of a width. A width that is not there yet starts empty and comes last. -/
def touch (f : List α → List α) (width : Nat) : List (Batch α) → List (Batch α)
  | [] => [⟨width, f []⟩]
  | b :: rest =>
    if b.width = width then ⟨b.width, f b.entries⟩ :: rest else b :: touch f width rest

/-- Puts a batch before the first one that is not narrower. -/
def insert (b : Batch α) : List (Batch α) → List (Batch α)
  | [] => [b]
  | c :: rest => if b.width ≤ c.width then b :: c :: rest else c :: insert b rest

/-- Sorts batches by width. Batches of one width keep their order. -/
def sort : List (Batch α) → List (Batch α)
  | [] => []
  | b :: rest => insert b (sort rest)

/-- Nothing but a base batch without entries. -/
def start : List (Batch α) :=
  [⟨0, []⟩]

def find? (batches : List (Batch α)) (width : Nat) : Option (Batch α) :=
  batches.find? (·.width == width)

end Batch

end DesignSystem
