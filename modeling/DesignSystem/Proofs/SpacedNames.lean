import DesignSystem.Line
import DesignSystem.Proofs.Coercion

/-! White space next to commas. Reading a line leaves single spaces where there was white space,
and with it the words between any two commas. A part between commas with a single word in it is
read as that word is, except for a part that is no number, which keeps the spaces around it. -/

namespace DesignSystem

/-- The words of a text with single spaces between them. -/
def spaced (cs : List Char) : List Char :=
  [' '].intercalate (words cs)

/-- The words between the commas of a text. -/
def wordsByComma (cs : List Char) : List (List (List Char)) :=
  (cs.splitOn ',').map words

theorem eq_nil_of_words_eq_nil {w : List Char} (h : ∀ c ∈ w, isBlank c = false)
    (hw : words w = []) : w = [] := by
  rw [words_of_not_blank h] at hw
  by_contra hne
  rw [if_neg hne] at hw
  cases hw

theorem isBlank_of_words_eq_nil {cs : List Char} (h : words cs = []) :
    ∀ c ∈ cs, isBlank c = true := by
  induction cs using gap_induction with
  | word w hw => simp [eq_nil_of_words_eq_nil hw h]
  | gap w c rest hw hc ih =>
    rw [words_append_blank _ _ hc, List.append_eq_nil_iff] at h
    rw [eq_nil_of_words_eq_nil hw h.1]
    exact List.forall_mem_cons.mpr ⟨hc, ih h.2⟩

/-- A text of a single word is that word with white space around it. -/
theorem exists_blanks_of_words {cs w : List Char} (h : words cs = [w]) :
    ∃ l r, cs = l ++ w ++ r ∧ (∀ c ∈ l, isBlank c = true) ∧ ∀ c ∈ r, isBlank c = true := by
  induction cs using gap_induction with
  | word v hv =>
    rw [words_of_not_blank hv] at h
    by_cases hne : v = []
    · rw [if_pos hne] at h
      cases h
    · rw [if_neg hne] at h
      exact ⟨[], [], by simp [List.singleton_inj.mp h], by simp, by simp⟩
  | gap v c rest hv hc ih =>
    rw [words_append_blank _ _ hc, words_of_not_blank hv] at h
    by_cases hne : v = []
    · rw [if_pos hne] at h
      obtain ⟨l, r, hrest, hl, hr⟩ := ih h
      exact ⟨c :: l, r, by simp [hne, hrest], List.forall_mem_cons.mpr ⟨hc, hl⟩, hr⟩
    · rw [if_neg hne, List.singleton_append] at h
      obtain ⟨rfl, hrest⟩ := List.cons_eq_cons.mp h
      exact ⟨[], c :: rest, by simp, by simp,
        List.forall_mem_cons.mpr ⟨hc, isBlank_of_words_eq_nil hrest⟩⟩

theorem trimStart_append_of_blank {l cs : List Char} (h : ∀ c ∈ l, isBlank c = true) :
    trimStart (l ++ cs) = trimStart cs :=
  List.dropWhile_append_of_pos h

theorem isWord_of_words {cs w : List Char} (h : words cs = [w]) : IsWord w :=
  isWord_of_mem_words (h ▸ List.mem_singleton_self w)

theorem trim_of_words {cs w : List Char} (h : words cs = [w]) : trim cs = w := by
  have hw := isWord_of_words h
  obtain ⟨l, r, rfl, hl, hr⟩ := exists_blanks_of_words h
  have hr' : ∀ c ∈ r.reverse, isBlank c = true := fun c hc => hr c (List.mem_reverse.mp hc)
  rw [trim, List.append_assoc, trimStart_append_of_blank hl, trimStart_append_of_isWord hw,
    List.reverse_append, trimStart_append_of_blank hr', trimStart_of_isWord hw.reverse,
    List.reverse_reverse]

theorem Value.opensQuote_of_words {cs w : List Char} (h : words cs = [w]) :
    opensQuote cs = opensQuote w := by
  have hw := isWord_of_words h
  obtain ⟨l, r, rfl, hl, -⟩ := exists_blanks_of_words h
  obtain ⟨c, v, rfl⟩ := List.exists_cons_of_ne_nil hw.1
  rw [opensQuote, opensQuote, List.append_assoc, trimStart_append_of_blank hl,
    trimStart_append_of_isWord hw, trimStart_of_isWord hw]
  rfl

theorem Value.readNumber?_of_words {cs w : List Char} (h : words cs = [w]) :
    readNumber? cs = readNumber? w := by
  rw [readNumber?, readNumber?, trim_of_words h, trim_of_isWord (isWord_of_words h)]

/-- White space joins the last part before it and the first part behind it, word by word. -/
theorem exists_wordsByComma_append (xs ys : List Char) {c : Char} (hc : isBlank c = true) :
    ∃ init last first rest, wordsByComma xs = init ++ [last] ∧ wordsByComma ys = first :: rest ∧
      wordsByComma (xs ++ c :: ys) = init ++ (last ++ first) :: rest := by
  have hne : c ≠ ',' := fun he => by
    rw [he] at hc
    cases hc
  obtain ⟨first, rest, hy⟩ := List.exists_cons_of_ne_nil (List.splitOn_ne_nil ',' ys)
  obtain ⟨init, last, cfirst, crest, hx, hcy, hxy⟩ := splitOn_append ',' xs (c :: ys)
  rw [List.splitOn_cons_eq_if_modifyHead, if_neg (by simpa using hne), hy] at hcy
  obtain ⟨rfl, rfl⟩ := List.cons_eq_cons.mp hcy
  refine ⟨init.map words, words last, words first, rest.map words, ?_, ?_, ?_⟩
  · simp [wordsByComma, hx]
  · simp [wordsByComma, hy]
  · simp [wordsByComma, hxy, words_append_blank _ _ hc]

theorem wordsByComma_append_congr {xs ys zs : List Char} {c d : Char} (hc : isBlank c = true)
    (hd : isBlank d = true) (h : wordsByComma ys = wordsByComma zs) :
    wordsByComma (xs ++ c :: ys) = wordsByComma (xs ++ d :: zs) := by
  obtain ⟨init, last, first, rest, hx, hy, hxy⟩ := exists_wordsByComma_append xs ys hc
  obtain ⟨init', last', first', rest', hx', hz, hxz⟩ := exists_wordsByComma_append xs zs hd
  obtain ⟨rfl, hlast⟩ := List.append_inj' (hx.symm.trans hx') rfl
  obtain rfl := List.singleton_inj.mp hlast
  obtain ⟨rfl, rfl⟩ := List.cons_eq_cons.mp (hy.symm.trans (h.trans hz))
  rw [hxy, hxz]

theorem wordsByComma_nil : wordsByComma [] = [[]] := rfl

theorem wordsByComma_cons_blank {c : Char} (hc : isBlank c = true) (ys : List Char) :
    wordsByComma (c :: ys) = wordsByComma ys := by
  obtain ⟨init, last, first, rest, hx, hy, hxy⟩ := exists_wordsByComma_append [] ys hc
  have hempty : [] ++ [[]] = init ++ [last] := wordsByComma_nil.symm.trans hx
  obtain ⟨rfl, hlast⟩ := List.append_inj' hempty rfl
  obtain rfl := List.singleton_inj.mp hlast
  exact hxy.trans hy.symm

theorem wordsByComma_append_blank {xs ys : List Char} {c : Char} (hc : isBlank c = true)
    (h : wordsByComma ys = [[]]) : wordsByComma (xs ++ c :: ys) = wordsByComma xs := by
  obtain ⟨init, last, first, rest, hx, hy, hxy⟩ := exists_wordsByComma_append xs ys hc
  obtain ⟨rfl, rfl⟩ := List.cons_eq_cons.mp (h.symm.trans hy)
  rw [hxy, hx, List.append_nil]

/-- Single spaces in place of white space leave the words between commas. -/
theorem wordsByComma_spaced (cs : List Char) : wordsByComma (spaced cs) = wordsByComma cs := by
  induction cs using gap_induction with
  | word w hw =>
    by_cases hne : w = []
    · rw [hne]
      rfl
    · rw [spaced, words_of_isWord ⟨hne, hw⟩, List.intercalate_singleton]
  | gap w c rest hw hc ih =>
    by_cases hne : w = []
    · have hs : spaced (w ++ c :: rest) = spaced rest := by
        rw [spaced, words_append_blank _ _ hc, hne]
        rfl
      rw [hs, ih, hne, List.nil_append, wordsByComma_cons_blank hc]
    · have hwords : words (w ++ c :: rest) = w :: words rest := by
        rw [words_append_blank _ _ hc, words_of_isWord ⟨hne, hw⟩]
        rfl
      -- Behind the last word the white space is dropped, and elsewhere a space replaces it.
      by_cases hrest : words rest = []
      · rw [spaced, hrest] at ih
        rw [spaced, hwords, hrest, List.intercalate_singleton]
        exact (wordsByComma_append_blank hc ih.symm).symm
      · rw [spaced, hwords, List.intercalate_cons_of_ne_nil hrest, List.append_assoc]
        exact wordsByComma_append_congr (by decide) hc ih

theorem Line.of_read?_bare {head : List Char} {depth : Nat} {name : String}
    (h : read? head = some ⟨depth, name, ""⟩) :
    countTabs head = depth ∧ words (head.dropWhile isTab) = [name.toList] := by
  have hwords : ∀ w ∈ words (head.dropWhile isTab), IsWord w := fun _ => isWord_of_mem_words
  unfold read? at h
  cases hw : words (head.dropWhile isTab) with
  | nil => simp [hw] at h
  | cons first rest =>
    simp only [hw, Option.some.injEq, Line.mk.injEq] at h
    obtain ⟨hdepth, rfl, hvalue⟩ := h
    rw [hw] at hwords
    have hrest : rest = [] := by
      have hempty : [' '].intercalate rest = [] := by simpa using hvalue
      have hback : words ([' '].intercalate rest) = rest :=
        words_intercalate fun w hm => hwords w (by simp [hm])
      rw [hempty] at hback
      exact hback.symm
    exact ⟨hdepth, by simp [hrest]⟩

/-- A line that starts like one without a value and goes on with a text after white space has
that text as its value. -/
theorem Line.read?_append {head : List Char} {depth : Nat} {name : String} {c : Char}
    (h : read? head = some ⟨depth, name, ""⟩) (hc : isBlank c = true) (text : List Char) :
    read? (head ++ c :: text) = some ⟨depth, name, String.ofList (spaced text)⟩ := by
  obtain ⟨hdepth, hwords⟩ := of_read?_bare h
  have hne : head.dropWhile isTab ≠ [] := fun he => by simp [he] at hwords
  have hlength : (head.takeWhile isTab).length ≠ head.length := by
    intro he
    have hsum := congrArg List.length (List.takeWhile_append_dropWhile (p := isTab) (l := head))
    rw [List.length_append, he] at hsum
    exact hne (List.length_eq_zero_iff.mp (by omega))
  have hdrop : (head ++ c :: text).dropWhile isTab = head.dropWhile isTab ++ c :: text := by
    rw [List.dropWhile_append, if_neg (by simpa using hne)]
  have hcount : countTabs (head ++ c :: text) = depth := by
    rw [countTabs, List.takeWhile_append, if_neg hlength]
    exact hdepth
  rw [read?, hdrop, words_append_blank _ _ hc, hwords, hcount]
  simp [spaced]

end DesignSystem
