import DesignSystem.Text
import Mathlib.Data.List.Chain

/-! Words and texts that are their own words with single spaces between them. Such a text is
recognized one pair of neighbours at a time: with a space put on either side of it, no two
neighbours are white space. -/

namespace DesignSystem

def IsWord (cs : List Char) : Prop :=
  cs ≠ [] ∧ ∀ c ∈ cs, isBlank c = false

/-- The text is its words with single spaces between them. -/
def IsSpaced (cs : List Char) : Prop :=
  [' '].intercalate (words cs) = cs

/-- Two neighbours that are not both white space. -/
def NoGap (a b : Char) : Prop :=
  isBlank a = false ∨ isBlank b = false

@[simp] theorem words_nil : words [] = [] := rfl

theorem words_append_blank (xs ys : List Char) {c : Char} (hc : isBlank c = true) :
    words (xs ++ c :: ys) = words xs ++ words ys := by
  rw [words, List.splitOnP_append_cons xs ys hc, List.filter_append]
  rfl

theorem words_of_isWord {w : List Char} (h : IsWord w) : words w = [w] := by
  rw [words, List.splitOnP_eq_singleton h.2]
  simp [h.1]

/-- A text is without white space, or such a text stands before its first white space. -/
theorem gap_induction {motive : List Char → Prop}
    (word : ∀ w, (∀ c ∈ w, isBlank c = false) → motive w)
    (gap : ∀ w c rest, (∀ a ∈ w, isBlank a = false) → isBlank c = true → motive rest →
      motive (w ++ c :: rest)) (cs : List Char) : motive cs := by
  induction hn : cs.length using Nat.strong_induction_on generalizing cs with
  | _ n ih =>
    cases hf : cs.find? isBlank with
    | none => exact word cs fun c hc => by simpa using List.find?_eq_none.mp hf c hc
    | some c =>
      obtain ⟨hc, w, rest, rfl, hw⟩ := List.find?_eq_some_iff_append.mp hf
      have hlt : rest.length < n := by
        rw [← hn, List.length_append, List.length_cons]
        omega
      exact gap w c rest (fun a ha => by simpa using hw a ha) hc (ih _ hlt rest rfl)

theorem words_of_not_blank {w : List Char} (h : ∀ c ∈ w, isBlank c = false) :
    words w = if w = [] then [] else [w] := by
  by_cases hne : w = []
  · rw [hne]
    rfl
  · rw [if_neg hne, words_of_isWord ⟨hne, h⟩]

theorem not_of_mem_splitOnP {p : Char → Bool} {cs w : List Char} (h : w ∈ cs.splitOnP p) :
    ∀ c ∈ w, p c = false := by
  induction cs generalizing w with
  | nil =>
    obtain rfl : w = [] := by simpa using h
    simp
  | cons x xs ih =>
    rw [List.splitOnP_cons_eq_if_modifyHead] at h
    obtain ⟨r, rs, hr⟩ := List.exists_cons_of_ne_nil (List.splitOnP_ne_nil p xs)
    split at h
    · rcases List.mem_cons.mp h with rfl | h
      · simp
      · exact ih h
    · rename_i hx
      rw [hr, List.modifyHead_cons] at h
      rcases List.mem_cons.mp h with rfl | h
      · intro c hc
        rcases List.mem_cons.mp hc with rfl | hc
        · simpa using hx
        · exact ih (by simp [hr]) c hc
      · exact ih (by simp [hr, h])

theorem not_mem_of_mem_splitOn {a : Char} {cs w : List Char} (h : w ∈ cs.splitOn a) : a ∉ w := by
  rw [List.splitOn_eq_splitOnP] at h
  intro ha
  simpa using not_of_mem_splitOnP h a ha

theorem splitOn_append (a : Char) (xs ys : List Char) :
    ∃ init last first rest, xs.splitOn a = init ++ [last] ∧ ys.splitOn a = first :: rest ∧
      (xs ++ ys).splitOn a = init ++ (last ++ first) :: rest := by
  obtain ⟨first, rest, hy⟩ := List.exists_cons_of_ne_nil (List.splitOn_ne_nil a ys)
  induction xs with
  | nil => exact ⟨[], [], first, rest, rfl, hy, hy⟩
  | cons x xs ih =>
    obtain ⟨init, last, first, rest, hx, hy, hxy⟩ := ih
    rw [List.cons_append, List.splitOn_cons_eq_if_modifyHead,
      List.splitOn_cons_eq_if_modifyHead, hx, hxy]
    by_cases he : x = a
    · exact ⟨[] :: init, last, first, rest, by simp [he], hy, by simp [he]⟩
    · cases init with
      | nil => exact ⟨[], x :: last, first, rest, by simp [he], hy, by simp [he]⟩
      | cons i init => exact ⟨(x :: i) :: init, last, first, rest, by simp [he], hy, by simp [he]⟩

theorem isWord_of_mem_words {cs w : List Char} (h : w ∈ words cs) : IsWord w := by
  obtain ⟨hw, hne⟩ := List.mem_filter.mp h
  exact ⟨by simpa using hne, not_of_mem_splitOnP hw⟩

theorem words_intercalate {ws : List (List Char)} (h : ∀ w ∈ ws, IsWord w) :
    words ([' '].intercalate ws) = ws := by
  induction ws with
  | nil => rfl
  | cons w ws ih =>
    have hw := h w (by simp)
    have hh := ih fun v hv => h v (by simp [hv])
    by_cases hne : ws = []
    · simpa [hne] using words_of_isWord hw
    · rw [List.intercalate_cons_of_ne_nil hne, List.append_assoc, List.singleton_append,
        words_append_blank _ _ (by decide), words_of_isWord hw, hh]
      rfl

theorem isSpaced_intercalate {ws : List (List Char)} (h : ∀ w ∈ ws, IsWord w) :
    IsSpaced ([' '].intercalate ws) := by
  rw [IsSpaced, words_intercalate h]

theorem IsWord.isSpaced {w : List Char} (h : IsWord w) : IsSpaced w := by
  rw [IsSpaced, words_of_isWord h, List.intercalate_singleton]

theorem mem_intercalate {a c : Char} {ws : List (List Char)} (h : c ∈ [a].intercalate ws) :
    c = a ∨ ∃ w ∈ ws, c ∈ w := by
  induction ws with
  | nil => simp at h
  | cons w ws ih =>
    by_cases hne : ws = []
    · exact Or.inr ⟨w, by simp, by simpa [hne] using h⟩
    · rw [List.intercalate_cons_of_ne_nil hne, List.append_assoc, List.mem_append, List.mem_append,
        List.mem_singleton] at h
      rcases h with h | h | h
      · exact Or.inr ⟨w, by simp, h⟩
      · exact Or.inl h
      · exact (ih h).imp_right fun ⟨v, hv, hc⟩ => ⟨v, by simp [hv], hc⟩

theorem mem_intercalate_of_mem {a c : Char} {w : List Char} {ws : List (List Char)} (hw : w ∈ ws)
    (hc : c ∈ w) : c ∈ [a].intercalate ws := by
  induction ws with
  | nil => cases hw
  | cons v ws ih =>
    by_cases hne : ws = []
    · subst hne
      rwa [List.intercalate_singleton, ← List.mem_singleton.mp hw]
    · rw [List.intercalate_cons_of_ne_nil hne]
      rcases List.mem_cons.mp hw with rfl | hw
      · simp [hc]
      · simp [ih hw]

theorem intercalate_append (a : Char) {xs ys : List (List Char)} (hx : xs ≠ []) (hy : ys ≠ []) :
    [a].intercalate (xs ++ ys) = [a].intercalate xs ++ a :: [a].intercalate ys := by
  induction xs with
  | nil => exact absurd rfl hx
  | cons x xs ih =>
    by_cases hne : xs = []
    · simp [hne, List.intercalate_cons_of_ne_nil hy]
    · rw [List.cons_append, List.intercalate_cons_of_ne_nil (by simp [hne]), ih hne,
        List.intercalate_cons_of_ne_nil hne]
      simp

theorem IsSpaced.eq_space {cs : List Char} (h : IsSpaced cs) {c : Char} (hc : c ∈ cs)
    (hb : isBlank c = true) : c = ' ' := by
  rw [← h] at hc
  rcases mem_intercalate hc with he | ⟨w, hw, hcw⟩
  · exact he
  · rw [(isWord_of_mem_words hw).2 c hcw] at hb
    cases hb

theorem isChain_cons_append_word {w rest : List Char} (a : Char) (hw : IsWord w)
    (hr : rest.IsChain NoGap) : (a :: (w ++ rest)).IsChain NoGap := by
  obtain ⟨hne, hb⟩ := hw
  induction w generalizing a with
  | nil => exact absurd rfl hne
  | cons c w ih =>
    have hc := hb c (by simp)
    refine List.isChain_cons_cons.mpr ⟨Or.inr hc, ?_⟩
    cases w with
    | nil =>
      cases rest with
      | nil => exact List.isChain_singleton c
      | cons b rest => exact List.isChain_cons_cons.mpr ⟨Or.inl hc, hr⟩
    | cons d w => exact ih c (by simp) fun e he => hb e (by simp [he])

theorem isChain_intercalate {ws : List (List Char)} (hne : ws ≠ []) (h : ∀ w ∈ ws, IsWord w)
    (a : Char) : (a :: ([' '].intercalate ws ++ [' '])).IsChain NoGap := by
  induction ws generalizing a with
  | nil => exact absurd rfl hne
  | cons w ws ih =>
    have hw := h w (by simp)
    by_cases hws : ws = []
    · simpa [hws] using isChain_cons_append_word a hw (List.isChain_singleton ' ')
    · rw [List.intercalate_cons_of_ne_nil hws, List.append_assoc, List.append_assoc]
      exact isChain_cons_append_word a hw (ih hws (fun v hv => h v (by simp [hv])) ' ')

theorem IsSpaced.isChain {cs : List Char} (h : IsSpaced cs) (hne : cs ≠ []) :
    (' ' :: (cs ++ [' '])).IsChain NoGap := by
  have hw : words cs ≠ [] := fun he => hne (by rw [← h, he]; rfl)
  rw [← h]
  exact isChain_intercalate hw (fun _ => isWord_of_mem_words) ' '

theorem not_noGap_space : ¬ NoGap ' ' ' ' := by
  simp [NoGap, isBlank]

/-- A text without gaps starts with a word, and behind the space after it lies a text
without gaps again. -/
theorem isSpaced_of_isChain {cs : List Char} (hb : ∀ c ∈ cs, isBlank c = true → c = ' ')
    (h : (' ' :: (cs ++ [' '])).IsChain NoGap) : IsSpaced cs := by
  induction cs using gap_induction with
  | word w hw =>
    by_cases hne : w = []
    · rw [hne]
      rfl
    · exact IsWord.isSpaced ⟨hne, hw⟩
  | gap w c rest hw hc ih =>
    obtain rfl : c = ' ' := hb c (by simp) hc
    have hchain : (' ' :: (rest ++ [' '])).IsChain NoGap := by
      have hh : ((' ' :: w) ++ (' ' :: (rest ++ [' ']))).IsChain NoGap := by simpa using h
      exact hh.right_of_append
    have hword : IsWord w := by
      refine ⟨?_, hw⟩
      rintro rfl
      exact not_noGap_space (List.isChain_cons_cons.mp h).1
    have hrest : IsSpaced rest := ih (fun c hc => hb c (by simp [hc])) hchain
    have hne : words rest ≠ [] := by
      intro he
      rw [IsSpaced, he] at hrest
      rw [← hrest] at hchain
      exact not_noGap_space (List.isChain_cons_cons.mp hchain).1
    rw [IsSpaced, words_append_blank _ _ (by decide), words_of_isWord hword,
      List.singleton_append, List.intercalate_cons_of_ne_nil hne, hrest]
    simp

theorem IsSpaced.not_blank_getLast {cs : List Char} (h : IsSpaced cs) {c : Char}
    (hc : cs.getLast? = some c) : isBlank c = false := by
  obtain ⟨rest, rfl⟩ := List.getLast?_eq_some_iff.mp hc
  have hch := h.isChain (by simp)
  rw [List.append_assoc, ← List.cons_append] at hch
  have hh := (List.isChain_cons_cons.mp hch.right_of_append).1
  simpa [NoGap, isBlank] using hh

theorem isChain_cons_append_replaced {p q tail other : List Char} (a : Char)
    (hq : q = p ∨ IsWord q) (h : (a :: (p ++ tail)).IsChain NoGap)
    (hh : other.head? = tail.head?) (ho : other.IsChain NoGap) :
    (a :: (q ++ other)).IsChain NoGap := by
  rcases hq with rfl | hw
  · rw [← List.cons_append, List.isChain_append] at h ⊢
    exact ⟨h.1, ho, hh ▸ h.2.2⟩
  · exact isChain_cons_append_word a hw ho

/-- Parts between commas may be replaced by words. The character before the first part and
the text after the last one are carried along, since a part may be empty. -/
theorem isChain_replaced {f : List Char → List Char} (hf : ∀ p, f p = p ∨ IsWord (f p))
    {parts : List (List Char)} (hne : parts ≠ []) (a : Char) {rest : List Char}
    (h : (a :: ([','].intercalate parts ++ rest)).IsChain NoGap) :
    (a :: ([','].intercalate (parts.map f) ++ rest)).IsChain NoGap := by
  induction parts generalizing a with
  | nil => exact absurd rfl hne
  | cons p parts ih =>
    by_cases hp : parts = []
    · subst hp
      rw [List.intercalate_singleton] at h
      rw [List.map_singleton, List.intercalate_singleton]
      have hrest : rest.IsChain NoGap := by
        rw [← List.cons_append] at h
        exact h.right_of_append
      exact isChain_cons_append_replaced a (hf p) h rfl hrest
    · have hm : parts.map f ≠ [] := by simpa using hp
      rw [List.intercalate_cons_of_ne_nil hp, List.append_assoc, List.append_assoc] at h
      rw [List.map_cons, List.intercalate_cons_of_ne_nil hm, List.append_assoc, List.append_assoc]
      have hrest : (',' :: ([','].intercalate parts ++ rest)).IsChain NoGap := by
        rw [← List.cons_append] at h
        exact h.right_of_append
      exact isChain_cons_append_replaced a (hf p) h rfl (ih hp ',' hrest)

theorem IsSpaced.replaced {f : List Char → List Char} (hf : ∀ p, f p = p ∨ IsWord (f p))
    {parts : List (List Char)} (hs : IsSpaced ([','].intercalate parts))
    (hne : [','].intercalate parts ≠ []) : IsSpaced ([','].intercalate (parts.map f)) := by
  have hparts : parts ≠ [] := by
    rintro rfl
    exact hne rfl
  refine isSpaced_of_isChain (fun c hc hb => ?_) (isChain_replaced hf hparts ' ' (hs.isChain hne))
  rcases mem_intercalate hc with rfl | ⟨q, hq, hcq⟩
  · cases hb
  · obtain ⟨p, hp, rfl⟩ := List.mem_map.mp hq
    rcases hf p with he | hw
    · exact hs.eq_space (mem_intercalate_of_mem hp (he ▸ hcq)) hb
    · rw [hw.2 c hcq] at hb
      cases hb

end DesignSystem
