import DesignSystem.Document
import DesignSystem.Proofs.Words

/-! Tidy lines: those that printing and reading leave as they are. Reading a text gives tidy
lines only, and the lines of a text made of printed tidy lines are these lines. -/

namespace DesignSystem

namespace Line

/-- The name is a word, and the value is made of words with single spaces between them. -/
structure Tidy (line : Line) : Prop where
  name : IsWord line.name.toList
  value : IsSpaced line.value.toList

/-- A line as it is printed, without its line break. -/
def text (line : Line) : List Char :=
  List.replicate line.depth '\t' ++ line.name.toList ++
    (if line.value.isEmpty then [] else ' ' :: line.value.toList)

theorem tidy_of_read? {cs : List Char} {line : Line} (h : read? cs = some line) :
    line.Tidy := by
  have hw : ∀ w ∈ words (cs.dropWhile isTab), IsWord w := fun _ => isWord_of_mem_words
  unfold read? at h
  cases he : words (cs.dropWhile isTab) with
  | nil => simp [he] at h
  | cons name rest =>
    rw [he] at hw
    simp only [he, Option.some.injEq] at h
    subst h
    refine ⟨by simpa using hw name (by simp), ?_⟩
    simpa using isSpaced_intercalate fun w hm => hw w (by simp [hm])

theorem isTab_eq_false_of_not_blank {c : Char} (h : isBlank c = false) : isTab c = false := by
  by_contra ht
  have hc : c = '\t' := by simpa [isTab] using ht
  rw [hc] at h
  cases h

theorem takeWhile_isTab (depth : Nat) {w : List Char} (hw : IsWord w) (rest : List Char) :
    (List.replicate depth '\t' ++ (w ++ rest)).takeWhile isTab = List.replicate depth '\t' ∧
      (List.replicate depth '\t' ++ (w ++ rest)).dropWhile isTab = w ++ rest := by
  obtain ⟨c, w, rfl⟩ := List.exists_cons_of_ne_nil hw.1
  have hc := isTab_eq_false_of_not_blank (hw.2 c (by simp))
  have ht : ∀ a ∈ List.replicate depth '\t', isTab a = true := by simp [isTab]
  rw [List.takeWhile_append_of_pos ht, List.dropWhile_append_of_pos ht]
  simp [hc]

theorem read?_text {line : Line} (h : line.Tidy) : read? line.text = some line := by
  have ht := takeWhile_isTab line.depth h.name
    (if line.value.isEmpty then [] else ' ' :: line.value.toList)
  have hw : words (line.name.toList ++
      (if line.value.isEmpty then [] else ' ' :: line.value.toList)) =
      line.name.toList :: words line.value.toList := by
    by_cases hv : line.value = ""
    · simp [hv, words_of_isWord h.name]
    · simp [hv, words_append_blank _ _ (show isBlank ' ' = true by decide),
        words_of_isWord h.name]
  have hv := h.value
  rw [IsSpaced] at hv
  simp only [read?, text, countTabs, List.append_assoc, ht.1, ht.2, hw, hv]
  simp

theorem newline_not_mem_text {line : Line} (h : line.Tidy) : '\n' ∉ line.text := by
  intro hm
  have hb : isBlank '\n' = true := by decide
  simp only [text, List.mem_append, List.mem_replicate] at hm
  rcases hm with (⟨-, hm⟩ | hm) | hm
  · cases hm
  · rw [h.name.2 _ hm] at hb
    cases hb
  · split at hm
    · cases hm
    · rcases List.mem_cons.mp hm with hm | hm
      · cases hm
      · cases h.value.eq_space hm hb

theorem text_getLast? {line : Line} (h : line.Tidy) {c : Char}
    (hc : line.text.getLast? = some c) : isBlank c = false := by
  rw [text] at hc
  split at hc
  · rw [List.append_nil, List.getLast?_append_of_ne_nil _ h.name.1] at hc
    exact h.name.2 c (List.mem_of_getLast? hc)
  · rename_i hv
    have hne : line.value.toList ≠ [] := by simpa using hv
    rw [List.getLast?_append_of_ne_nil _ (by simp), List.getLast?_cons_of_ne_nil hne] at hc
    exact h.value.not_blank_getLast hc

theorem dropReturn_text {line : Line} (h : line.Tidy) : dropReturn line.text = line.text := by
  rw [dropReturn, if_neg]
  intro hc
  cases text_getLast? h hc

end Line

theorem splitOn_flatMap_newline {lines : List (List Char)} (h : ∀ l ∈ lines, '\n' ∉ l) :
    (lines.flatMap (· ++ ['\n'])).splitOn '\n' = lines ++ [[]] := by
  induction lines with
  | nil => rfl
  | cons l lines ih =>
    rw [List.flatMap_cons, List.append_assoc, List.singleton_append,
      List.splitOn_append_cons_self_of_not_mem (h l (by simp)), ih fun m hm => h m (by simp [hm])]
    rfl

theorem textLines_flatMap_newline {lines : List (List Char)} (h : ∀ l ∈ lines, '\n' ∉ l)
    (hr : ∀ l ∈ lines, dropReturn l = l) : textLines (lines.flatMap (· ++ ['\n'])) = lines := by
  have hm : lines.map dropReturn = lines := (List.map_congr_left hr).trans (List.map_id' lines)
  rw [textLines, splitOn_flatMap_newline h]
  simpa using hm

theorem filterMap_read?_text {lines : List Line} (h : ∀ l ∈ lines, l.Tidy) :
    (lines.map Line.text).filterMap Line.read? = lines := by
  induction lines with
  | nil => rfl
  | cons l lines ih =>
    rw [List.map_cons, List.filterMap_cons, Line.read?_text (h l (by simp)),
      ih fun m hm => h m (by simp [hm])]

theorem documentLines_print {lines : List Line} (h : ∀ l ∈ lines, l.Tidy) :
    documentLines (String.ofList (lines.flatMap Line.print)) = lines := by
  have hp : lines.flatMap Line.print = (lines.map Line.text).flatMap (· ++ ['\n']) := by
    rw [List.flatMap_map]
    rfl
  have hn : ∀ l ∈ lines.map Line.text, '\n' ∉ l := by
    simpa using fun l hl => Line.newline_not_mem_text (h l hl)
  have hr : ∀ l ∈ lines.map Line.text, dropReturn l = l := by
    simpa using fun l hl => Line.dropReturn_text (h l hl)
  rw [documentLines, String.toList_ofList, hp, textLines_flatMap_newline hn hr]
  exact filterMap_read?_text h

theorem tidy_documentLines {source : String} {line : Line} (h : line ∈ documentLines source) :
    line.Tidy := by
  obtain ⟨cs, -, hc⟩ := List.mem_filterMap.mp h
  exact Line.tidy_of_read? hc

theorem documentLines_format (source : String) :
    documentLines (format source) = documentLines source :=
  documentLines_print fun _ => tidy_documentLines

theorem parseWith_format (convert : String → Option Value) (source : String) :
    parseWith convert (format source) = parseWith convert source := by
  rw [parseWith, parseWith, documentLines_format]

theorem format_format (source : String) : format (format source) = format source := by
  rw [format, documentLines_format, ← format]

end DesignSystem
