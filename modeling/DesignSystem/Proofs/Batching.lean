import DesignSystem.Batch
import Mathlib.Data.List.Basic
import Mathlib.Data.List.Induction

/-! Batches that are sorted in the end are the batches that are kept sorted from the start. Changing
these one width at a time gives what sorting all changes by width at once gives: the widths ascend
from the base on, and the entries of a width come from the changes of that width alone, in their
order. -/

namespace DesignSystem

namespace Batch

variable {α β : Type}

/-- Changes the entries of a width in sorted batches. A width that is not there yet starts empty. -/
def alter (f : List α → List α) (width : Nat) : List (Batch α) → List (Batch α)
  | [] => [⟨width, f []⟩]
  | b :: rest =>
    if width < b.width then ⟨width, f []⟩ :: b :: rest
    else if width = b.width then ⟨width, f b.entries⟩ :: rest
    else b :: alter f width rest

section Sorting

theorem alter_insert_same (f : List α → List α) (width : Nat) (entries : List α)
    (batches : List (Batch α)) :
    alter f width (insert ⟨width, entries⟩ batches) = insert ⟨width, f entries⟩ batches := by
  induction batches with
  | nil => simp [insert, alter]
  | cons c batches ih =>
    rw [insert, insert]
    split_ifs with hle
    · simp [alter]
    · rw [alter, if_neg (fun h => hle (Nat.le_of_lt h)), if_neg (fun h => hle (Nat.le_of_eq h)), ih]

theorem alter_insert_other (f : List α → List α) {width : Nat} {b : Batch α}
    (h : b.width ≠ width) (batches : List (Batch α)) :
    alter f width (insert b batches) = insert b (alter f width batches) := by
  induction batches with
  | nil =>
    simp only [insert, alter]
    split_ifs <;> grind
  | cons c batches ih =>
    -- Once the three widths are compared with each other, both sides are the same list.
    simp only [insert, alter]
    split_ifs <;> simp only [insert, alter] <;> split_ifs <;> grind

theorem sort_touch (f : List α → List α) (width : Nat) (batches : List (Batch α)) :
    sort (touch f width batches) = alter f width (sort batches) := by
  induction batches with
  | nil => rfl
  | cons b batches ih =>
    rw [touch]
    split_ifs with h
    · subst h
      exact (alter_insert_same f b.width b.entries (sort batches)).symm
    · rw [sort, sort, ih, alter_insert_other f h]

end Sorting

def widths (batches : List (Batch α)) : List Nat :=
  batches.map (·.width)

/-- The entries of a width. A width without a batch has none. -/
def entriesAt (batches : List (Batch α)) (width : Nat) : List α :=
  (find? batches width).elim [] (·.entries)

/-- The widths are strictly ascending and start with the base, and no other batch is empty. -/
structure Ordered (batches : List (Batch α)) : Prop where
  ascending : (widths batches).Pairwise (· < ·)
  base : (widths batches).head? = some 0
  filled : ∀ b ∈ batches, b.width ≠ 0 → b.entries ≠ []

theorem mem_widths_alter (f : List α → List α) (width w : Nat) (batches : List (Batch α)) :
    w ∈ widths (alter f width batches) ↔ w = width ∨ w ∈ widths batches := by
  induction batches with
  | nil => simp [alter, widths]
  | cons b batches ih =>
    rw [alter]
    split_ifs with hlt heq
    · simp [widths]
    · simp [widths, heq]
    · simp only [widths, List.map_cons, List.mem_cons] at ih ⊢
      rw [ih]
      exact or_left_comm

theorem ascending_alter (f : List α → List α) (width : Nat) {batches : List (Batch α)}
    (h : (widths batches).Pairwise (· < ·)) :
    (widths (alter f width batches)).Pairwise (· < ·) := by
  induction batches with
  | nil => simp [alter, widths]
  | cons b batches ih =>
    obtain ⟨hb, hp⟩ := List.pairwise_cons.mp h
    rw [alter]
    split_ifs with hlt heq
    · refine List.pairwise_cons.mpr ⟨fun w hw => ?_, h⟩
      rcases List.mem_cons.mp hw with rfl | hw
      · exact hlt
      · exact Nat.lt_trans hlt (hb w hw)
    · exact List.pairwise_cons.mpr ⟨heq ▸ hb, hp⟩
    · refine List.pairwise_cons.mpr ⟨fun w hw => ?_, ih hp⟩
      rcases (mem_widths_alter f width w batches).mp hw with rfl | hw
      · exact Nat.lt_of_le_of_ne (Nat.le_of_not_lt hlt) (Ne.symm heq)
      · exact hb w hw

theorem filled_alter {f : List α → List α} (hf : ∀ es, f es ≠ []) (width : Nat)
    {batches : List (Batch α)} (h : ∀ b ∈ batches, b.width ≠ 0 → b.entries ≠ []) :
    ∀ b ∈ alter f width batches, b.width ≠ 0 → b.entries ≠ [] := by
  induction batches with
  | nil => simpa [alter] using fun _ => hf []
  | cons b batches ih =>
    have hr : ∀ c ∈ batches, c.width ≠ 0 → c.entries ≠ [] := fun c hc => h c (by simp [hc])
    rw [alter]
    split_ifs with hlt heq
    · exact List.forall_mem_cons.mpr ⟨fun _ => hf [], h⟩
    · exact List.forall_mem_cons.mpr ⟨fun _ => hf b.entries, hr⟩
    · exact List.forall_mem_cons.mpr ⟨h b (by simp), ih hr⟩

theorem Ordered.alter {batches : List (Batch α)} (h : Ordered batches) {f : List α → List α}
    (hf : ∀ es, f es ≠ []) (width : Nat) : Ordered (alter f width batches) := by
  refine ⟨ascending_alter f width h.ascending, ?_, filled_alter hf width h.filled⟩
  cases batches with
  | nil => cases h.base
  | cons b batches =>
    have hb : b.width = 0 := by simpa [widths] using h.base
    rw [Batch.alter, if_neg (by omega)]
    split_ifs with heq
    · simp [widths, heq, hb]
    · simp [widths, hb]

theorem entriesAt_cons (b : Batch α) (batches : List (Batch α)) (w : Nat) :
    entriesAt (b :: batches) w = if w = b.width then b.entries else entriesAt batches w := by
  by_cases h : w = b.width
  · simp [entriesAt, find?, h]
  · simp [entriesAt, find?, h, Ne.symm h]

theorem entriesAt_of_not_mem {batches : List (Batch α)} {w : Nat} (h : w ∉ widths batches) :
    entriesAt batches w = [] := by
  induction batches with
  | nil => rfl
  | cons b batches ih =>
    simp only [widths, List.map_cons, List.mem_cons, not_or] at h
    rw [entriesAt_cons, if_neg h.1, ih h.2]

theorem entriesAt_of_mem {batches : List (Batch α)} (h : (widths batches).Pairwise (· < ·))
    {b : Batch α} (hb : b ∈ batches) : entriesAt batches b.width = b.entries := by
  induction batches with
  | nil => cases hb
  | cons c batches ih =>
    obtain ⟨hc, hp⟩ := List.pairwise_cons.mp h
    rw [entriesAt_cons]
    rcases List.mem_cons.mp hb with rfl | hb
    · rw [if_pos rfl]
    · rw [if_neg (Nat.ne_of_gt (hc b.width (List.mem_map_of_mem hb))), ih hp hb]

theorem entriesAt_alter (f : List α → List α) (width w : Nat) {batches : List (Batch α)}
    (h : (widths batches).Pairwise (· < ·)) :
    entriesAt (alter f width batches) w =
      if w = width then f (entriesAt batches w) else entriesAt batches w := by
  induction batches with
  | nil => exact entriesAt_cons ⟨width, f []⟩ [] w
  | cons b batches ih =>
    obtain ⟨hb, hp⟩ := List.pairwise_cons.mp h
    rw [alter]
    by_cases hlt : width < b.width
    · -- The new batch comes before wider ones only, so its width had no entries.
      have hnew : width ∉ widths (b :: batches) := by
        intro hm
        rcases List.mem_cons.mp hm with he | hm
        · exact Nat.ne_of_lt hlt he
        · exact Nat.lt_asymm hlt (hb width hm)
      rw [if_pos hlt, entriesAt_cons]
      by_cases hw : w = width
      · rw [if_pos hw, if_pos hw, hw, entriesAt_of_not_mem hnew]
      · rw [if_neg hw, if_neg hw]
    · rw [if_neg hlt]
      by_cases heq : width = b.width
      · rw [if_pos heq, entriesAt_cons, entriesAt_cons, ← heq]
        by_cases hw : w = width <;> simp only [hw, if_true, if_false]
      · rw [if_neg heq, entriesAt_cons, entriesAt_cons, ih hp]
        by_cases hw : w = width
        · rw [if_pos hw, if_pos hw, if_neg (hw ▸ heq), if_neg (hw ▸ heq)]
        · rw [if_neg hw, if_neg hw]

section Run

variable (f : β → List α → List α) (width : β → Nat)

/-- The batches after changes, each of the entries of its width. -/
def alterAll (changes : List β) : List (Batch α) :=
  changes.foldl (fun batches c => alter (f c) (width c) batches) start

/-- Sorting after all changes gives the same batches. -/
theorem sort_foldl_touch (changes : List β) :
    sort (changes.foldl (fun batches c => touch (f c) (width c) batches) start) =
      alterAll f width changes := by
  -- By the last change: sorting goes past it, and the changes before it are sorted already.
  induction changes using List.reverseRecOn with
  | nil => rfl
  | append_singleton changes c ih =>
    rw [List.foldl_append, List.foldl_cons, List.foldl_nil, sort_touch, ih, alterAll, alterAll,
      List.foldl_append, List.foldl_cons, List.foldl_nil]

theorem ordered_start : Ordered (start : List (Batch α)) :=
  ⟨List.pairwise_singleton _ _, rfl, by simp [start]⟩

theorem ordered_alterAll (hf : ∀ c es, f c es ≠ []) (changes : List β) :
    Ordered (alterAll f width changes) :=
  List.foldlRecOn changes _ ordered_start fun _ h c _ => h.alter (hf c) (width c)

theorem entriesAt_foldl_alter (changes : List β) (w : Nat) {batches : List (Batch α)}
    (h : (widths batches).Pairwise (· < ·)) :
    entriesAt (changes.foldl (fun batches c => alter (f c) (width c) batches) batches) w =
      (changes.filter (width · = w)).foldl (fun es c => f c es) (entriesAt batches w) := by
  induction changes generalizing batches with
  | nil => rfl
  | cons c changes ih =>
    rw [List.foldl_cons, ih (ascending_alter (f c) (width c) h), entriesAt_alter _ _ _ h]
    by_cases hw : width c = w
    · simp [hw]
    · simp [hw, Ne.symm hw]

theorem entriesAt_alterAll (changes : List β) (w : Nat) :
    entriesAt (alterAll f width changes) w =
      (changes.filter (width · = w)).foldl (fun es c => f c es) [] := by
  have hs : entriesAt (start : List (Batch α)) w = [] := by
    rw [start, entriesAt_cons]
    split <;> rfl
  rw [alterAll, entriesAt_foldl_alter f width changes w ordered_start.ascending, hs]

end Run

end Batch

end DesignSystem
