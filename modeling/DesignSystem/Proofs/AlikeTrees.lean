import DesignSystem.Design
import DesignSystem.Proofs.TreeUpdate
import Mathlib.Data.List.Forall2

/-! Trees that differ in nothing but values. Lines of the same depths and names grow such trees,
whatever becomes of each line, so two documents in which a value is written differently can be
compared section by section. -/

namespace DesignSystem

section Related

variable {α β : Type} {P : α → α → Prop} {Q : β → β → Prop} {o p : Option α}

theorem rel_bind (h : Option.Rel P o p) {f g : α → Option β}
    (hfg : ∀ {a b}, P a b → Option.Rel Q (f a) (g b)) : Option.Rel Q (o.bind f) (p.bind g) := by
  cases h with
  | some h => exact hfg h
  | none => exact .none

theorem rel_getD (h : Option.Rel P o p) {a b : α} (hab : P a b) : P (o.getD a) (p.getD b) := by
  cases h with
  | some h => exact h
  | none => exact hab

end Related

mutual

/-- Nodes of one shape and with the same keys. Any two values at one place are related. -/
inductive Node.Alike (R : Value → Value → Prop) : Node → Node → Prop
  | leaf {v w : Value} : R v w → Node.Alike R (.leaf v) (.leaf w)
  | branch {s t : List (String × Node)} : List.Forall₂ (Node.AlikeEntry R) s t →
    Node.Alike R (.branch s) (.branch t)

inductive Node.AlikeEntry (R : Value → Value → Prop) : String × Node → String × Node → Prop
  | intro (key : String) {m n : Node} : Node.Alike R m n → Node.AlikeEntry R (key, m) (key, n)

end

def Tree.Alike (R : Value → Value → Prop) (s t : Tree) : Prop :=
  List.Forall₂ (Node.AlikeEntry R) s t

/-- Lines of the same depth and name with related values. -/
structure Line.Alike (convert : String → Option Value) (R : Value → Value → Prop)
    (l m : Line) : Prop where
  depth_eq : l.depth = m.depth
  name_eq : l.name = m.name
  values : Option.Rel R (convert l.value) (convert m.value)

variable {R : Value → Value → Prop}

theorem Line.Alike.refl {convert : String → Option Value} (hR : ∀ v, R v v) (l : Line) :
    Line.Alike convert R l l := by
  refine ⟨rfl, rfl, ?_⟩
  cases convert l.value with
  | some v => exact .some (hR v)
  | none => exact .none

theorem Node.Alike.entries {m n : Node} (h : Node.Alike R m n) :
    Tree.Alike R m.entries n.entries := by
  cases h with
  | leaf _ => exact .nil
  | branch h => exact h

theorem Node.Alike.branch? {m n : Node} (h : Node.Alike R m n) :
    Option.Rel (Tree.Alike R) m.branch? n.branch? := by
  cases h with
  | leaf _ => exact .none
  | branch h => exact .some h

theorem Node.Alike.ofValue? {o p : Option Value} (h : Option.Rel R o p) :
    Node.Alike R (.ofValue? o) (.ofValue? p) := by
  cases h with
  | some h => exact .leaf h
  | none => exact .branch .nil

namespace Tree

theorem Alike.get? {s t : Tree} (h : Alike R s t) (key : String) :
    Option.Rel (Node.Alike R) (Tree.get? s key) (Tree.get? t key) := by
  induction h with
  | nil => exact .none
  | cons hab _ ih =>
    obtain ⟨k, hmn⟩ := hab
    rw [get?_cons, get?_cons]
    by_cases hk : key = k
    · rw [if_pos hk, if_pos hk]
      exact .some hmn
    · rw [if_neg hk, if_neg hk]
      exact ih

theorem Alike.branch? {s t : Tree} (h : Alike R s t) (key : String) :
    Option.Rel (Alike R) (Tree.branch? s key) (Tree.branch? t key) :=
  rel_bind (h.get? key) Node.Alike.branch?

theorem Alike.sectionOf {s t : Tree} (h : Alike R s t) (name : String) :
    Alike R (Design.sectionOf s name) (Design.sectionOf t name) :=
  rel_getD (h.branch? name) .nil

theorem Alike.keys_eq {s t : Tree} (h : Alike R s t) : keys s = keys t := by
  induction h with
  | nil => rfl
  | cons hab _ ih =>
    obtain ⟨k, -⟩ := hab
    exact congrArg (k :: ·) ih

theorem Alike.alter {f g : Option Node → Node}
    (hfg : ∀ {m n : Option Node}, Option.Rel (Node.Alike R) m n → Node.Alike R (f m) (g n))
    {s t : Tree} (h : Alike R s t) (key : String) :
    Alike R (Tree.alter f key s) (Tree.alter g key t) := by
  induction h with
  | nil => exact .cons (.intro key (hfg .none)) .nil
  | cons hab hst ih =>
    obtain ⟨k, hmn⟩ := hab
    rw [Tree.alter, Tree.alter]
    by_cases hk : k = key
    · rw [if_pos hk, if_pos hk]
      exact .cons (.intro k (hfg (.some hmn))) hst
    · rw [if_neg hk, if_neg hk]
      exact .cons (.intro k hmn) ih

theorem Alike.alterAt {f g : Tree → Tree} (hfg : ∀ {s t}, Alike R s t → Alike R (f s) (g t))
    (path : List String) {s t : Tree} (h : Alike R s t) :
    Alike R (Tree.alterAt f path s) (Tree.alterAt g path t) := by
  induction path generalizing s t with
  | nil => exact hfg h
  | cons key path ih =>
    refine h.alter (fun hmn => ?_) key
    cases hmn with
    | some hmn => exact .branch (ih hmn.entries)
    | none => exact .branch (ih .nil)

theorem Alike.insertAt {m n : Node} (hmn : Node.Alike R m n) (path : List String) (key : String)
    {s t : Tree} (h : Alike R s t) :
    Alike R (Tree.insertAt path key m s) (Tree.insertAt path key n t) :=
  h.alterAt (fun h => h.alter (fun _ => hmn) key) path

end Tree

/-- Lines that are alike keep trees alike and the rail the same. -/
theorem alike_foldl_placeLine {convert : String → Option Value} {lines others : List Line}
    (h : List.Forall₂ (Line.Alike convert R) lines others) {s t : Tree} (hst : Tree.Alike R s t)
    (rail : Rail) :
    Tree.Alike R (lines.foldl (placeLine convert) (s, rail)).1
      (others.foldl (placeLine convert) (t, rail)).1 := by
  induction h generalizing s t rail with
  | nil => exact hst
  | cons hlm _ ih =>
    rw [List.foldl_cons, List.foldl_cons, placeLine, placeLine, hlm.depth_eq, hlm.name_eq]
    exact ih (hst.insertAt (.ofValue? hlm.values) _ _) _

theorem alike_treeOfLines {convert : String → Option Value} {lines others : List Line}
    (h : List.Forall₂ (Line.Alike convert R) lines others) :
    Tree.Alike R (treeOfLines convert lines) (treeOfLines convert others) :=
  alike_foldl_placeLine h .nil []

end DesignSystem
