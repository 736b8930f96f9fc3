import DesignSystem.Value
import DesignSystem.Proofs.Numeral

/-! What a text is read as and how that is written out again. A number is rewritten as a
numeral, and everything else keeps its text, so a value that was read from a text reads back
from its own text. -/

namespace DesignSystem

theorem trimStart_append_of_isWord {w : List Char} (h : IsWord w) (rest : List Char) :
    trimStart (w ++ rest) = w ++ rest := by
  obtain ⟨c, cs, rfl⟩ := List.exists_cons_of_ne_nil h.1
  simp [trimStart, h.2 c]

theorem trimStart_of_isWord {w : List Char} (h : IsWord w) : trimStart w = w := by
  simpa using trimStart_append_of_isWord h []

theorem IsWord.reverse {w : List Char} (h : IsWord w) : IsWord w.reverse :=
  ⟨by simpa using h.1, fun c hc => h.2 c (List.mem_reverse.mp hc)⟩

theorem trim_of_isWord {w : List Char} (h : IsWord w) : trim w = w := by
  rw [trim, trimStart_of_isWord h, trimStart_of_isWord h.reverse, List.reverse_reverse]

section Commas

theorem comma_mem_readSign {cs : List Char} (h : ',' ∈ cs) : ',' ∈ (readSign cs).2 := by
  unfold readSign
  split <;> simpa using h

theorem comma_mem_dropWhile {p : Char → Bool} {cs : List Char} (hp : p ',' = false)
    (h : ',' ∈ cs) : ',' ∈ cs.dropWhile p := by
  rw [← List.takeWhile_append_dropWhile (p := p) (l := cs), List.mem_append] at h
  refine h.resolve_left fun ht => ?_
  rw [List.mem_takeWhile_imp ht] at hp
  cases hp

theorem readExponent_of_comma {cs : List Char} (h : ',' ∈ cs) : readExponent cs = none := by
  cases cs with
  | nil => cases h
  | cons c cs =>
    rw [readExponent]
    dsimp only
    refine if_neg fun hcond => ?_
    simp only [Bool.and_eq_true, List.all_eq_true] at hcond
    rcases List.mem_cons.mp h with rfl | h
    · cases hcond.1.1
    · cases hcond.2 _ (comma_mem_readSign h)

theorem Decimal.read?_of_comma {cs : List Char} (h : ',' ∈ cs) : read? cs = none := by
  have hrest := comma_mem_dropWhile (p := Char.isDigit) (by decide) h
  unfold read?
  dsimp only
  split
  · rename_i r hr
    rw [hr] at hrest
    have hr' := comma_mem_dropWhile (p := Char.isDigit) (by decide)
      (List.mem_of_ne_of_mem (by decide) hrest)
    rw [readExponent_of_comma hr']
    exact ite_self none
  · rw [readExponent_of_comma hrest]
    exact ite_self none

theorem Binary64.read?_of_comma {cs : List Char} (h : ',' ∈ cs) : read? cs = none := by
  have hrest := comma_mem_readSign h
  have hword : ',' ∈ (readSign cs).2.map Char.toLower :=
    List.mem_map.mpr ⟨',', hrest, by decide⟩
  unfold read?
  dsimp only
  rw [if_neg, if_neg, Decimal.read?_of_comma hrest]
  · rfl
  · rintro (he | he) <;> simp [he] at hword
  · intro he
    simp [he] at hword

/-- A list is never a number, so it does not matter which of the two is tried first. -/
theorem Value.readNumber?_of_comma {raw : List Char} (h : ',' ∈ raw) :
    readNumber? raw = none := by
  have htrim : ',' ∈ trim raw := by
    have hstart := comma_mem_dropWhile (p := isBlank) (by decide) h
    have hend := comma_mem_dropWhile (p := isBlank) (by decide) (List.mem_reverse.mpr hstart)
    exact List.mem_reverse.mpr hend
  rw [readNumber?, Binary64.read?_of_comma htrim]
  rfl

end Commas

namespace Value

theorem plain_number (n : Binary64) : (number n).plain = n.plain := rfl

theorem ofItem_plain (negative : Bool) (m : Magnitude) :
    ofItem (Binary64.finite negative m).plain = .number (.finite negative m) := by
  have hr : readNumber? (Binary64.finite negative m).plain = some (.finite negative m) := by
    rw [readNumber?, trim_of_isWord (Binary64.isWord_plain negative m), Binary64.read?_plain]
    rfl
  rw [ofItem, hr]

/-- An item that is no number keeps its text. -/
theorem plain_ofItem_of_not_number {raw : List Char} (h : readNumber? raw = none) :
    (ofItem raw).plain = raw := by
  rw [ofItem, h]
  dsimp only
  split_ifs with ht hf
  · exact ht.symm
  · exact hf.symm
  · exact String.toList_ofList

theorem plain_ofItem (raw : List Char) :
    (ofItem raw).plain = raw ∨ ∃ negative m, ofItem raw = .number (.finite negative m) := by
  cases h : readNumber? raw with
  | some n =>
    have hn : ofItem raw = .number n := by rw [ofItem, h]
    obtain ⟨-, hf⟩ := Option.filter_eq_some_iff.mp h
    cases n with
    | nan => cases hf
    | infinite negative => cases hf
    | finite negative m => exact Or.inr ⟨negative, m, hn⟩
  | none => exact Or.inl (plain_ofItem_of_not_number h)

theorem ofItem_plain_ofItem (raw : List Char) : ofItem (ofItem raw).plain = ofItem raw := by
  rcases plain_ofItem raw with h | ⟨negative, m, h⟩
  · rw [h]
  · rw [h, plain_number]
    exact ofItem_plain negative m

theorem map_ofItem_plain (parts : List (List Char)) :
    (parts.map fun p => (ofItem p).plain).map ofItem = parts.map ofItem := by
  simp only [List.map_map, Function.comp_def, ofItem_plain_ofItem]

theorem plain_ofItem_spaced (raw : List Char) :
    (ofItem raw).plain = raw ∨ IsWord (ofItem raw).plain := by
  rcases plain_ofItem raw with h | ⟨negative, m, h⟩
  · exact Or.inl h
  · rw [h, plain_number]
    exact Or.inr (Binary64.isWord_plain negative m)

theorem comma_not_mem_plain (negative : Bool) (m : Magnitude) :
    ',' ∉ (Binary64.finite negative m).plain := by
  intro hc
  rcases Binary64.mem_plain hc with hd | hd | hd <;> cases hd

theorem comma_not_mem_plain_ofItem {raw : List Char} (h : ',' ∉ raw) :
    ',' ∉ (ofItem raw).plain := by
  rcases plain_ofItem raw with he | ⟨negative, m, he⟩
  · rwa [he]
  · rw [he, plain_number]
    exact comma_not_mem_plain negative m

theorem opensQuote_plain (negative : Bool) (m : Magnitude) :
    opensQuote (Binary64.finite negative m).plain = false := by
  have hw := Binary64.isWord_plain negative m
  obtain ⟨c, cs, hcons⟩ := List.exists_cons_of_ne_nil hw.1
  have hc : c.isDigit ∨ c = '.' ∨ c = '-' := Binary64.mem_plain (hcons ▸ List.mem_cons_self)
  have hq : c ≠ '"' ∧ c ≠ '\'' := by
    constructor <;> rintro rfl <;> rcases hc with hd | hd | hd <;> cases hd
  rw [opensQuote, trimStart_of_isWord hw, hcons]
  simp [hq]

theorem opensQuote_plain_ofItem {raw : List Char} (h : opensQuote raw = false) :
    opensQuote (ofItem raw).plain = false := by
  rcases plain_ofItem raw with he | ⟨negative, m, he⟩
  · rwa [he]
  · rw [he, plain_number]
    exact opensQuote_plain negative m

theorem plain_list (items : List Value) :
    (list items).plain = [','].intercalate (items.map plain) := by
  cases items with
  | nil => rfl
  | cons v items =>
    rw [plain]
    induction items generalizing v with
    | nil => simp [plainItems]
    | cons w items ih =>
      rw [plainItems, ih w]
      simp [List.intercalate_cons_cons]

theorem splitOn_plain_list (cs : List Char) :
    (list ((cs.splitOn ',').map ofItem)).plain.splitOn ',' =
      (cs.splitOn ',').map fun p => (ofItem p).plain := by
  rw [plain_list, List.map_map]
  refine List.splitOn_intercalate ',' (fun q hq => ?_) (by simp)
  obtain ⟨p, hp, rfl⟩ := List.mem_map.mp hq
  exact comma_not_mem_plain_ofItem (not_mem_of_mem_splitOn hp)

theorem isListText_plain_list {cs : List Char} (h : isListText cs) :
    isListText (list ((cs.splitOn ',').map ofItem)).plain := by
  simp only [isListText, Bool.and_eq_true, Bool.not_eq_true', List.any_eq_false,
    List.contains_iff_mem] at h ⊢
  refine ⟨?_, ?_⟩
  · -- Without a comma the new text has one part, and then the old one had no comma either.
    by_contra hn
    have hone := splitOn_plain_list cs
    rw [List.splitOn_eq_singleton hn] at hone
    obtain ⟨p, hp, -⟩ := List.map_eq_singleton_iff.mp hone.symm
    have hcs : [','].intercalate (cs.splitOn ',') = cs := List.intercalate_splitOn ','
    rw [hp, List.intercalate_singleton] at hcs
    have hmem : p ∈ cs.splitOn ',' := by simp [hp]
    exact not_mem_of_mem_splitOn hmem (hcs ▸ h.1)
  · rw [splitOn_plain_list]
    intro q hq
    obtain ⟨p, hp, rfl⟩ := List.mem_map.mp hq
    simpa using opensQuote_plain_ofItem (by simpa using h.2 p hp)

theorem isListText_plain_ofItem {cs : List Char} (h : isListText cs = false) :
    isListText (ofItem cs).plain = false := by
  rcases plain_ofItem cs with he | ⟨negative, m, he⟩
  · rwa [he]
  · rw [he, plain_number]
    simp [isListText, comma_not_mem_plain negative m]

theorem coerce?_eq_some {raw : String} {v : Value} :
    coerce? raw = some v ↔ raw.toList ≠ [] ∧
      (isListText raw.toList = true ∧ v = list ((raw.toList.splitOn ',').map ofItem) ∨
        isListText raw.toList = false ∧ v = ofItem raw.toList) := by
  unfold coerce?
  dsimp only
  by_cases hn : raw.toList = []
  · simp [hn]
  · rw [if_neg (by simpa using hn)]
    cases isListText raw.toList with
    | true => simpa [hn] using eq_comm
    | false => simpa [hn] using eq_comm

/-- A value that was read from a text reads back from its own text. -/
theorem coerce?_display {raw : String} {v : Value} (h : coerce? raw = some v) :
    coerce? v.display = some v := by
  obtain ⟨hne, ⟨hl, rfl⟩ | ⟨hl, rfl⟩⟩ := coerce?_eq_some.mp h
  · refine coerce?_eq_some.mpr ?_
    rw [display, String.toList_ofList]
    have hl' := isListText_plain_list hl
    refine ⟨?_, Or.inl ⟨hl', ?_⟩⟩
    · intro he
      rw [he] at hl'
      cases hl'
    · rw [splitOn_plain_list, map_ofItem_plain]
  · refine coerce?_eq_some.mpr ?_
    rw [display, String.toList_ofList]
    refine ⟨?_, Or.inr ⟨isListText_plain_ofItem hl, (ofItem_plain_ofItem _).symm⟩⟩
    rcases plain_ofItem_spaced raw.toList with he | hw
    · rwa [he]
    · exact hw.1

theorem isSpaced_plain {raw : String} {v : Value} (h : coerce? raw = some v)
    (hs : IsSpaced raw.toList) : IsSpaced v.plain := by
  obtain ⟨hne, ⟨-, rfl⟩ | ⟨-, rfl⟩⟩ := coerce?_eq_some.mp h
  · rw [plain_list, List.map_map]
    have hcs : [','].intercalate (raw.toList.splitOn ',') = raw.toList :=
      List.intercalate_splitOn ','
    rw [← hcs] at hs hne
    exact hs.replaced plain_ofItem_spaced hne
  · rcases plain_ofItem_spaced raw.toList with he | hw
    · rwa [he]
    · exact hw.isSpaced

end Value

end DesignSystem
