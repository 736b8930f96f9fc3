import DesignSystem.Path
import Mathlib.Data.List.Lex

/-! The order of names by the bytes of their text, and the order of paths by components. The bytes
of a text are those of its UTF-8 form, which keeps the order of characters. -/

namespace DesignSystem

def nameBytes (name : String) : List UInt8 :=
  name.toByteArray.data.toList

section Bytes

theorem ofNat_lt_ofNat_iff {m n : Nat} (hm : m < 256) (hn : n < 256) :
    UInt8.ofNat m < UInt8.ofNat n ↔ m < n := by
  rw [UInt8.lt_iff_toNat_lt, UInt8.toNat_ofNat_of_lt' hm, UInt8.toNat_ofNat_of_lt' hn]

theorem ofNat_eq_ofNat_iff {m n : Nat} (hm : m < 256) (hn : n < 256) :
    UInt8.ofNat m = UInt8.ofNat n ↔ m = n := by
  rw [← UInt8.toNat_inj, UInt8.toNat_ofNat_of_lt' hm, UInt8.toNat_ofNat_of_lt' hn]

/-- The first byte that differs decides, as the count of bytes shows in the first byte. -/
theorem utf8EncodeChar_append_lt {c d : Char} (h : c < d) (l m : List UInt8) :
    String.utf8EncodeChar c ++ l < String.utf8EncodeChar d ++ m := by
  have hcd : c.val.toNat < d.val.toNat := h
  have hd : d.val.toNat < 0x110000 := by
    rcases d.valid with hlow | hhigh
    · exact Nat.lt_trans hlow (by decide)
    · exact hhigh.2
  simp only [String.utf8EncodeChar]
  generalize c.val.toNat = x at hcd
  generalize d.val.toNat = y at hcd hd
  -- The digits to base 64 of a number are those of its quotients.
  have hx := Nat.div_div_eq_div_mul x 64 64
  have hx' := Nat.div_div_eq_div_mul x 4096 64
  have hy := Nat.div_div_eq_div_mul y 64 64
  have hy' := Nat.div_div_eq_div_mul y 4096 64
  have hxtop : x / 262144 % 8 = x / 262144 := Nat.mod_eq_of_lt (by omega)
  have hytop : y / 262144 % 8 = y / 262144 := Nat.mod_eq_of_lt (by omega)
  rw [hxtop, hytop]
  split_ifs <;>
    simp (disch := omega) only [List.cons_append, List.nil_append, List.cons_lt_cons_iff,
      ofNat_lt_ofNat_iff, ofNat_eq_ofNat_iff] <;> omega

theorem flatMap_utf8EncodeChar_lt {cs ds : List Char} (h : cs < ds) :
    cs.flatMap String.utf8EncodeChar < ds.flatMap String.utf8EncodeChar := by
  induction h with
  | @nil d ds =>
    rw [List.flatMap_nil, List.flatMap_cons]
    cases hd : String.utf8EncodeChar d with
    | nil => exact absurd hd String.utf8EncodeChar_ne_nil
    | cons b bs => exact List.Lex.nil
  | rel hcd => exact utf8EncodeChar_append_lt hcd _ _
  | cons _ ih => exact List.append_left_lt ih

theorem nameBytes_eq (name : String) :
    nameBytes name = name.toList.flatMap String.utf8EncodeChar := by
  rw [nameBytes, ← String.utf8Encode_toList, List.utf8Encode, List.toList_data_toByteArray]

theorem nameBytes_lt {s t : String} (h : s < t) : nameBytes s < nameBytes t := by
  rw [nameBytes_eq, nameBytes_eq]
  exact flatMap_utf8EncodeChar_lt (String.lt_iff.mp h)

end Bytes

namespace Component

def rank : Component → Nat
  | root => 0
  | here => 1
  | up => 2
  | name _ => 3

/-- Names come last and are ordered by their bytes. -/
def Before : Component → Component → Prop
  | name s, name t => nameBytes s < nameBytes t
  | c, d => c.rank < d.rank

theorem Before.irrefl (c : Component) : ¬ c.Before c := by
  cases c with
  | name s => exact List.lt_irrefl _
  | _ => exact Nat.lt_irrefl _

end Component

namespace Path

/-- At the first components that differ the component of the first path is before the other one,
or the first path ends there. -/
def Before (p q : Path) : Prop :=
  List.Lex Component.Before p.components q.components

theorem not_lex_self (cs : List Component) : ¬ List.Lex Component.Before cs cs := by
  induction cs with
  | nil => nofun
  | cons c cs ih =>
    intro h
    cases h with
    | rel h => exact Component.Before.irrefl c h
    | cons h => exact ih h

theorem Before.components_ne {p q : Path} (h : p.Before q) : p.components ≠ q.components := by
  intro he
  rw [Before, he] at h
  exact not_lex_self _ h

end Path

end DesignSystem
