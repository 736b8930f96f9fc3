import DesignSystem.Tree

/-! The six breakpoint tiers and their widths. Authors move the widths of tiers, but they
neither add a tier nor remove one, and the base tier stays at width 0. -/

namespace DesignSystem

inductive Tier where
  | base
  | small
  | medium
  | large
  | extraLarge
  | extraExtraLarge
  deriving DecidableEq

namespace Tier

/-- All tiers, the narrowest first. -/
def all : List Tier :=
  [base, small, medium, large, extraLarge, extraExtraLarge]

/-- The name of a tier in documents. -/
def name : Tier → String
  | base => "base"
  | small => "small"
  | medium => "medium"
  | large => "large"
  | extraLarge => "extra-large"
  | extraExtraLarge => "extra-extra-large"

def ofName? (name : String) : Option Tier :=
  all.find? (·.name == name)

/-- The tiers above a tier. -/
def wider (t : Tier) : List Tier :=
  (all.dropWhile (· != t)).drop 1

def defaultWidth : Tier → Nat
  | base => 0
  | small => 576
  | medium => 768
  | large => 992
  | extraLarge => 1200
  | extraExtraLarge => 1400

end Tier

/-- The widths in pixels of the tiers above the base. Width 0 means no media query. -/
structure Widths where
  small : Nat
  medium : Nat
  large : Nat
  extraLarge : Nat
  extraExtraLarge : Nat
  deriving DecidableEq

/-- The number without its fraction, at most `limit`. There is none below zero. -/
def Binary64.clamp? (limit : Nat) : Binary64 → Option Nat
  | .nan => none
  | .infinite negative => if negative then none else some limit
  | .finite negative m =>
    if negative && m.steps != 0 then none else some (min m.floor limit)

namespace Widths

def ofTiers (width : Tier → Nat) : Widths :=
  ⟨width .small, width .medium, width .large, width .extraLarge, width .extraExtraLarge⟩

def standard : Widths :=
  ofTiers Tier.defaultWidth

/-- The greatest width. -/
def limit : Nat :=
  4294967295

def width (w : Widths) : Tier → Nat
  | .base => 0
  | .small => w.small
  | .medium => w.medium
  | .large => w.large
  | .extraLarge => w.extraLarge
  | .extraExtraLarge => w.extraExtraLarge

/-- Moves a tier. The base does not move. -/
def set (w : Widths) (t : Tier) (width : Nat) : Widths :=
  ofTiers fun u => if u = t then width else w.width u

@[simp] theorem width_ofTiers (f : Tier → Nat) {t : Tier} (h : t ≠ .base) :
    (ofTiers f).width t = f t := by
  cases t with
  | base => exact absurd rfl h
  | _ => rfl

theorem width_set (w : Widths) (t u : Tier) (n : Nat) :
    (w.set t n).width u = if u = t ∧ u ≠ .base then n else w.width u := by
  cases u <;> simp [set, ofTiers, width]

/-- The width of the tier of that name. -/
def ofName? (w : Widths) (name : String) : Option Nat :=
  (Tier.ofName? name).map w.width

/-- The width that an entry of a `breakpoints` section gives to a tier. -/
def entry? (entry : String × Node) : Option (Tier × Nat) := do
  let t ← Tier.ofName? entry.1
  let v ← entry.2.leaf?
  let n ← v.number?
  return (t, ← n.clamp? limit)

/-- Moves tiers as a `breakpoints` section says. Entries that name no tier or hold no
number from zero up are passed over. -/
def override (w : Widths) (entries : Tree) : Widths :=
  (entries.filterMap entry?).foldl (fun w e => w.set e.1 e.2) w

end Widths

/-- Whether entries are one value per tier: there are some, all keys name tiers, and all
nodes are leaves. -/
def isTierSet (entries : Tree) : Bool :=
  !entries.isEmpty && entries.all fun e => (Tier.ofName? e.1).isSome && !e.2.isBranch

end DesignSystem
