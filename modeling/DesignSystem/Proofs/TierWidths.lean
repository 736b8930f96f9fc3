import DesignSystem.Design
import DesignSystem.Manifest
import DesignSystem.Proofs.ElementGroups
import Mathlib.Data.Rat.Floor

/-! Where the width of a tier comes from: the document, else the manifest, else the standard
widths. Each of the two moves tiers one entry after the other. Since it names a tier once at
most, what counts is its entry for the tier. -/

namespace DesignSystem

open DesignSystem.Tree

abbrev DistinctNames {α : Type} (entries : List (String × α)) : Prop :=
  (entries.map (·.1)).Nodup

/-- The entries that name a tier. -/
def tierEntries {α : Type} (entries : List (String × α)) : List (String × α) :=
  entries.filter fun e => (Tier.ofName? e.1).isSome

def Magnitude.value (m : Magnitude) : ℚ :=
  m.steps / stepsPerOne

/-- The width that a number from zero up stands for: its whole part, or the greatest width if
that is less. -/
def Binary64.asWidth? : Binary64 → Option Nat
  | .nan => none
  | .infinite negative => if negative then none else some 4294967295
  | .finite negative m =>
    let value := if negative then -m.value else m.value
    if 0 ≤ value then some (min ⌊value⌋₊ 4294967295) else none

/-- The width that a document gives to a tier: its entry for the tier, if that is a number from
zero up. -/
def documentWidth? (t : Tree) (tier : Tier) : Option Nat := do
  let entries ← t.branch? "breakpoints"
  let n ← entries.get? tier.name
  let v ← n.leaf?
  (← v.number?).asWidth?

theorem Magnitude.floor_value (m : Magnitude) : ⌊m.value⌋₊ = m.floor :=
  Rat.natFloor_natCast_div_natCast m.steps stepsPerOne

theorem Magnitude.value_nonneg (m : Magnitude) : 0 ≤ m.value :=
  div_nonneg (Nat.cast_nonneg _) (Nat.cast_nonneg _)

theorem Magnitude.value_eq_zero {m : Magnitude} : m.value = 0 ↔ m.steps = 0 := by
  have hone : stepsPerOne ≠ 0 := by
    unfold stepsPerOne
    positivity
  rw [value, div_eq_zero_iff, Nat.cast_eq_zero, Nat.cast_eq_zero, or_iff_left hone]

theorem Binary64.clamp?_eq_asWidth? (n : Binary64) : n.clamp? Widths.limit = n.asWidth? := by
  cases n with
  | nan => rfl
  | infinite negative => rfl
  | finite negative m =>
    cases negative with
    | false => simp [clamp?, asWidth?, m.value_nonneg, m.floor_value, Widths.limit]
    | true =>
      by_cases hz : m.steps = 0
      · have hv := Magnitude.value_eq_zero.mpr hz
        simp [clamp?, asWidth?, hz, hv, Magnitude.floor, Widths.limit]
      · have hneg : ¬ 0 ≤ -m.value := by
          have hv := mt Magnitude.value_eq_zero.mp hz
          have hpos := m.value_nonneg.lt_of_ne' hv
          rw [Left.nonneg_neg_iff, not_le]
          exact hpos
        simp [clamp?, asWidth?, hz, hneg]

section Lookup

variable {α : Type} {entries : List (String × α)}

theorem lookup_eq_some_iff_mem (h : DistinctNames entries) {name : String} {x : α} :
    entries.lookup name = some x ↔ (name, x) ∈ entries := by
  induction entries with
  | nil => simp
  | cons e entries ih =>
    obtain ⟨k, y⟩ := e
    obtain ⟨hk, hn⟩ := List.nodup_cons.mp h
    by_cases hname : name = k
    · subst k
      have hout : (name, x) ∉ entries := fun hm => hk (List.mem_map.mpr ⟨_, hm, rfl⟩)
      simp [hout, eq_comm]
    · rw [List.lookup_cons, beq_false_of_ne hname, ih hn]
      simp [hname]

theorem mem_tierEntries {tier : Tier} {x : α} :
    (tier.name, x) ∈ tierEntries entries ↔ (tier.name, x) ∈ entries := by
  simp [tierEntries, Tier.ofName?_name]

/-- Entries are looked up for a tier among those that name tiers, in any order. -/
theorem lookup_congr_of_perm {others : List (String × α)} (h : DistinctNames entries)
    (ho : DistinctNames others) (hp : (tierEntries others).Perm (tierEntries entries))
    (tier : Tier) : others.lookup tier.name = entries.lookup tier.name := by
  refine Option.ext fun x => ?_
  rw [lookup_eq_some_iff_mem ho, lookup_eq_some_iff_mem h, ← mem_tierEntries, hp.mem_iff,
    mem_tierEntries]

end Lookup

namespace Widths

theorem ext_width {v w : Widths} (h : ∀ tier ≠ .base, v.width tier = w.width tier) : v = w := by
  cases v
  cases w
  exact (Widths.mk.injEq ..).mpr ⟨h .small nofun, h .medium nofun, h .large nofun,
    h .extraLarge nofun, h .extraExtraLarge nofun⟩

/-- Moves the tiers that entries name, one after the other. -/
def move {α : Type} (read : α → Option Nat) (w : Widths) (entries : List (String × α)) : Widths :=
  (entries.filterMap fun e => (Tier.ofName? e.1).bind fun tier => (read e.2).map (tier, ·)).foldl
    (fun w e => w.set e.1 e.2) w

theorem width_move {α : Type} (read : α → Option Nat) (w : Widths)
    {entries : List (String × α)} (h : DistinctNames entries) {tier : Tier} (ht : tier ≠ .base) :
    (w.move read entries).width tier =
      ((entries.lookup tier.name).bind read).getD (w.width tier) := by
  induction entries generalizing w with
  | nil => rfl
  | cons e entries ih =>
    obtain ⟨name, x⟩ := e
    obtain ⟨hname, hn⟩ := List.nodup_cons.mp h
    have hmove : w.move read ((name, x) :: entries) =
        (((Tier.ofName? name).bind fun u => (read x).map (u, ·)).elim w fun e =>
          w.set e.1 e.2).move read entries := by
      rw [move, List.filterMap_cons]
      cases (Tier.ofName? name).bind fun u => (read x).map (u, ·) <;> rfl
    rw [hmove, ih _ hn]
    by_cases he : tier.name = name
    · have hnone : entries.lookup tier.name = none := by
        refine Option.eq_none_iff_forall_ne_some.mpr fun y hy => hname ?_
        exact List.mem_map.mpr ⟨_, (lookup_eq_some_iff_mem hn).mp hy, he⟩
      rw [hnone, ← he, List.lookup_cons_self, Tier.ofName?_name]
      cases hx : read x <;> simp [hx, width_set, ht]
    · rw [List.lookup_cons, beq_false_of_ne he]
      cases hu : Tier.ofName? name with
      | none => rfl
      | some u =>
        have hne : tier ≠ u := fun htu => he (htu ▸ (Tier.ofName?_eq_some_iff.mp hu).symm)
        cases read x <;> simp [width_set, hne]

theorem override_eq_move (w : Widths) (entries : Tree) :
    w.override entries =
      w.move (fun n => n.leaf?.bind fun v => v.number?.bind Binary64.asWidth?) entries := by
  rw [override, move]
  congr 1
  refine List.filterMap_congr fun e _ => ?_
  obtain ⟨name, n⟩ := e
  cases n with
  | branch t => cases h : Tier.ofName? name <;> simp [ entry?, h, Node.leaf?]
  | leaf v =>
    cases v with
    | number x =>
      cases h : Tier.ofName? name <;> cases hx : x.asWidth? <;>
        simp [ entry?, h, hx, Node.leaf?, Value.number?, Binary64.clamp?_eq_asWidth?]
    | _ => cases h : Tier.ofName? name <;> simp [ entry?, h, Node.leaf?, Value.number?]

end Widths

namespace Manifest

theorem widths_eq_move (m : Manifest) : m.widths = Widths.standard.move some m.breakpoints := by
  rw [widths, Widths.move, List.foldl_filterMap]
  congr 1
  funext w e
  cases Tier.ofName? e.1 <;> rfl

theorem width_widths {m : Manifest} (h : DistinctNames m.breakpoints) {tier : Tier}
    (ht : tier ≠ .base) :
    m.widths.width tier = (m.breakpoints.lookup tier.name).getD tier.defaultWidth := by
  rw [widths_eq_move, Widths.width_move _ _ h ht, Option.bind_fun_some, Widths.standard,
    Widths.width_ofTiers _ ht]

theorem isIgnored_iff {e : String × Nat} :
    isIgnored e ↔ (∀ tier : Tier, e.1 ≠ tier.name) ∨ e.1 = Tier.base.name ∧ e.2 ≠ 0 := by
  obtain ⟨name, width⟩ := e
  rw [isIgnored]
  cases h : Tier.ofName? name with
  | none =>
    have hno : ∀ tier : Tier, name ≠ tier.name := by
      rintro tier rfl
      rw [Tier.ofName?_name] at h
      cases h
    simp [hno]
  | some tier =>
    obtain rfl := Tier.ofName?_eq_some_iff.mp h
    have hno : ¬ ∀ u : Tier, tier.name ≠ u.name := fun hall => hall tier rfl
    simp only [hno, Tier.name_inj, false_or]
    cases tier <;> simp

theorem mem_ignoredBreakpoints {m : Manifest} {name : String} :
    name ∈ m.ignoredBreakpoints ↔ ∃ width, (name, width) ∈ m.breakpoints ∧
      ((∀ tier : Tier, name ≠ tier.name) ∨ name = Tier.base.name ∧ width ≠ 0) := by
  simp only [ignoredBreakpoints, List.mem_map, List.mem_filter, isIgnored_iff]
  constructor
  · rintro ⟨⟨k, width⟩, h, rfl⟩
    exact ⟨width, h⟩
  · rintro ⟨width, h⟩
    exact ⟨(name, width), h, rfl⟩

/-- The manifest without the entries that are reported as having no effect. -/
def withoutIgnored (m : Manifest) : Manifest :=
  { m with breakpoints := m.breakpoints.filter (·.1 ∉ m.ignoredBreakpoints) }

theorem widths_withoutIgnored {m : Manifest} (h : DistinctNames m.breakpoints) :
    m.withoutIgnored.widths = m.widths := by
  have hw : DistinctNames m.withoutIgnored.breakpoints :=
    h.sublist (List.filter_sublist.map _)
  refine Widths.ext_width fun tier ht => ?_
  rw [width_widths hw ht, width_widths h ht]
  congr 1
  refine Option.ext fun width => ?_
  have hout : tier.name ∉ m.ignoredBreakpoints := by
    intro hm
    obtain ⟨-, -, hno | ⟨hb, -⟩⟩ := mem_ignoredBreakpoints.mp hm
    · exact hno tier rfl
    · exact ht (Tier.name_inj.mp hb)
  rw [lookup_eq_some_iff_mem hw, lookup_eq_some_iff_mem h]
  simp [withoutIgnored, hout]

theorem width_of_not_ignored {m : Manifest} (h : DistinctNames m.breakpoints)
    {e : String × Nat} (he : e ∈ m.breakpoints) (hi : e.1 ∉ m.ignoredBreakpoints) :
    ∃ tier : Tier, e.1 = tier.name ∧ m.widths.width tier = e.2 := by
  obtain ⟨name, width⟩ := e
  have hnot : ¬ ((∀ tier : Tier, name ≠ tier.name) ∨ name = Tier.base.name ∧ width ≠ 0) :=
    fun hc => hi (mem_ignoredBreakpoints.mpr ⟨width, he, hc⟩)
  obtain ⟨hname, hbase⟩ := not_or.mp hnot
  obtain ⟨tier, rfl⟩ : ∃ tier : Tier, name = tier.name := by simpa using hname
  refine ⟨tier, rfl, ?_⟩
  by_cases ht : tier = .base
  · subst ht
    have hzero : width = 0 := by simpa using hbase
    exact hzero.symm
  · rw [width_widths h ht, (lookup_eq_some_iff_mem h).mpr he]
    rfl

end Manifest

namespace Design

theorem documentWidth?_eq (t : Tree) (tier : Tier) :
    documentWidth? t tier = ((sectionOf t "breakpoints").lookup tier.name).bind fun n =>
      n.leaf?.bind fun v => v.number?.bind Binary64.asWidth? := by
  rw [documentWidth?, sectionOf]
  cases t.branch? "breakpoints" <;> rfl

theorem width_ofTree {start : Widths} {t : Tree}
    (h : DistinctNames (sectionOf t "breakpoints")) {tier : Tier} (ht : tier ≠ .base) :
    (ofTree start t).widths.width tier = (documentWidth? t tier).getD (start.width tier) := by
  rw [ofTree, Widths.override_eq_move, Widths.width_move _ _ h ht, documentWidth?_eq]

end Design

/-- Where widths come from. The base has width 0. Another tier has the width that the document
gives it, else the one that the manifest gives it, else the standard one. So neither the order
of entries nor entries that name no tier matter. A manifest reports just those of its entries
that name no tier or move the base. Without them it gives the same widths, and each of the
others is the width of the tier that it names. -/
theorem width_precedence {m : Manifest} (hm : DistinctNames m.breakpoints) {t : Tree}
    (ht : DistinctNames (Design.sectionOf t "breakpoints")) :
    (∀ tier, (Design.ofTree m.widths t).widths.width tier =
      if tier = .base then 0
      else ((documentWidth? t tier).or (m.breakpoints.lookup tier.name)).getD
        tier.defaultWidth) ∧
    (∀ (n : Manifest) (u : Tree), DistinctNames n.breakpoints →
      DistinctNames (Design.sectionOf u "breakpoints") →
      (tierEntries n.breakpoints).Perm (tierEntries m.breakpoints) →
      (tierEntries (Design.sectionOf u "breakpoints")).Perm
        (tierEntries (Design.sectionOf t "breakpoints")) →
      (Design.ofTree n.widths u).widths = (Design.ofTree m.widths t).widths) ∧
    (∀ name, name ∈ m.ignoredBreakpoints ↔ ∃ width, (name, width) ∈ m.breakpoints ∧
      ((∀ tier : Tier, name ≠ tier.name) ∨ name = Tier.base.name ∧ width ≠ 0)) ∧
    m.withoutIgnored.widths = m.widths ∧
    ∀ e ∈ m.breakpoints, e.1 ∉ m.ignoredBreakpoints →
      ∃ tier : Tier, e.1 = tier.name ∧ m.widths.width tier = e.2 := by
  refine ⟨fun tier => ?_, fun n u hn hu hmn htu => ?_, fun _ => Manifest.mem_ignoredBreakpoints,
    Manifest.widths_withoutIgnored hm, fun e => Manifest.width_of_not_ignored hm⟩
  · by_cases hb : tier = .base
    · subst hb
      rfl
    · rw [if_neg hb, Design.width_ofTree ht hb, Manifest.width_widths hm hb]
      cases documentWidth? t tier <;> rfl
  · refine Widths.ext_width fun tier hb => ?_
    rw [Design.width_ofTree hu hb, Design.width_ofTree ht hb, Manifest.width_widths hn hb,
      Manifest.width_widths hm hb, Design.documentWidth?_eq, Design.documentWidth?_eq,
      lookup_congr_of_perm hm hn hmn, lookup_congr_of_perm ht hu htu]

/-- All three sources of widths, and entries of both kinds that have no effect. -/
theorem width_precedence_layers :
    let m : Manifest := { Manifest.standard with
      breakpoints := [("base", 100), ("huge", 3000), ("large", 1000), ("small", 600)] }
    let t := parse "breakpoints\n\tlarge -5\n\tsmall 599.9\n\tbase 7\n\ttiny 1"
    (DistinctNames m.breakpoints ∧ DistinctNames (Design.sectionOf t "breakpoints")) ∧
      Tier.all.map (Design.ofTree m.widths t).widths.width = [0, 599, 768, 1000, 1200, 1400] ∧
      "base" ∈ m.ignoredBreakpoints := by
  intro m t
  have hm : DistinctNames m.breakpoints := by decide
  have ht : DistinctNames (Design.sectionOf t "breakpoints") := by decide +kernel
  have hh := width_precedence hm ht
  refine ⟨⟨hm, ht⟩, ?_, (hh.2.2.1 "base").mpr ⟨100, by decide, Or.inr ⟨rfl, by decide⟩⟩⟩
  rw [List.map_congr_left fun tier _ => hh.1 tier]
  simp only [Design.documentWidth?_eq, ← funext Binary64.clamp?_eq_asWidth?]
  decide +kernel

end DesignSystem
