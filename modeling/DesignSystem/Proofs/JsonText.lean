import DesignSystem.Json
import Mathlib.Data.List.Basic
import Mathlib.Data.List.TakeWhile

/-! A text is the JSON of one value at most. What a text starts with tells what kind of value it
is, and the rest is read one part after the other: after each part it is plain where the next one
begins. -/

namespace DesignSystem

def isNumeralChar (c : Char) : Bool :=
  c.isDigit || c == '-' || c == '+' || c == '.' || c == 'e'

def IsNumeral (cs : List Char) : Prop :=
  cs ≠ [] ∧ ∀ c ∈ cs, isNumeralChar c

/-- A text that does not go on with a numeral. -/
def Ends (cs : List Char) : Prop :=
  ∀ c ∈ cs.head?, isNumeralChar c = false

theorem ends_nil : Ends [] := by
  simp [Ends]

theorem takeWhile_numeral {cs rest : List Char} (h : IsNumeral cs) (hr : Ends rest) :
    (cs ++ rest).takeWhile isNumeralChar = cs := by
  rw [List.takeWhile_append_of_pos h.2]
  cases rest with
  | nil => simp
  | cons c rest =>
    have hc : isNumeralChar c = false := hr c rfl
    simp [hc]

theorem numeral_append_inj {cs ds rest rest' : List Char} (hc : IsNumeral cs) (hd : IsNumeral ds)
    (hr : Ends rest) (hr' : Ends rest') (h : cs ++ rest = ds ++ rest') :
    cs = ds ∧ rest = rest' := by
  have hcd : cs = ds := by
    rw [← takeWhile_numeral hc hr, h, takeWhile_numeral hd hr']
  subst hcd
  exact ⟨rfl, List.append_cancel_left h⟩

namespace Json

section Quoting

/-- The characters that do not stand for themselves in a quoted text. -/
def escaped : List Char :=
  '"' :: '\\' :: (List.range 32).map Char.ofNat

theorem mem_escaped_of_lt {c : Char} (h : c.toNat < 32) : c ∈ escaped := by
  have hc : Char.ofNat c.toNat = c := Char.ofNat_toNat c
  have hm : c.toNat ∈ List.range 32 := List.mem_range.mpr h
  exact List.mem_cons_of_mem _ (List.mem_cons_of_mem _ (hc ▸ List.mem_map_of_mem hm))

theorem escape_of_not_mem {c : Char} (h : c ∉ escaped) : escape c = [c] := by
  have hc : ¬ c.toNat < 32 := fun hlt => h (mem_escaped_of_lt hlt)
  rw [escape, if_neg hc]
  all_goals
    rintro rfl
    exact h (by decide)

theorem eq_of_escape_prefixed {c d : Char} (hc : c ∈ escaped) (hd : d ∈ escaped)
    (h : escape c <+: escape d) : c = d := by
  have hall : escaped.all (fun c => escaped.all fun d =>
      !(escape c).isPrefixOf (escape d) || c == d) = true := by decide +kernel
  have hcd := List.all_eq_true.mp (List.all_eq_true.mp hall c hc) d hd
  have hp : (escape c).isPrefixOf (escape d) = true := List.isPrefixOf_iff_prefix.mpr h
  simpa only [hp, Bool.not_true, Bool.false_or, beq_iff_eq] using hcd

theorem head?_escape {c : Char} (hc : c ∈ escaped) : (escape c).head? = some '\\' := by
  have hall : escaped.all (fun c => (escape c).head? == some '\\') = true := by decide +kernel
  exact beq_iff_eq.mp (List.all_eq_true.mp hall c hc)

theorem head?_escape_append (c : Char) (rest : List Char) :
    (escape c ++ rest).head? = some (if c ∈ escaped then '\\' else c) := by
  by_cases hc : c ∈ escaped
  · rw [if_pos hc, List.head?_append, head?_escape hc, Option.some_or]
  · rw [if_neg hc, escape_of_not_mem hc]
    rfl

theorem escape_append_inj {c d : Char} {rest rest' : List Char}
    (h : escape c ++ rest = escape d ++ rest') : c = d ∧ rest = rest' := by
  have hhead := congrArg List.head? h
  rw [head?_escape_append, head?_escape_append, Option.some.injEq] at hhead
  have hback : '\\' ∈ escaped := by decide
  have hcd : c = d := by
    by_cases hc : c ∈ escaped <;> by_cases hd : d ∈ escaped
    · obtain hp | hp := List.prefix_or_prefix_of_prefix (List.prefix_append _ rest)
        (h ▸ List.prefix_append _ rest')
      · exact eq_of_escape_prefixed hc hd hp
      · exact (eq_of_escape_prefixed hd hc hp).symm
    · rw [if_pos hc, if_neg hd] at hhead
      exact absurd (hhead ▸ hback) hd
    · rw [if_neg hc, if_pos hd] at hhead
      exact absurd (hhead ▸ hback) hc
    · rwa [if_neg hc, if_neg hd] at hhead
  subst hcd
  exact ⟨rfl, List.append_cancel_left h⟩

/-- No escape starts with a quotation mark, so the first one ends the text. -/
theorem escapes_append_inj {cs ds rest rest' : List Char}
    (h : cs.flatMap escape ++ '"' :: rest = ds.flatMap escape ++ '"' :: rest') :
    cs = ds ∧ rest = rest' := by
  have hmark : ∀ c more, (escape c ++ more).head? ≠ some '"' := by
    intro c more hh
    rw [head?_escape_append, Option.some.injEq] at hh
    split at hh
    · cases hh
    · rename_i hc
      exact hc (hh ▸ List.mem_cons_self)
  induction cs generalizing ds with
  | nil =>
    cases ds with
    | nil => exact ⟨rfl, (List.cons.inj h).2⟩
    | cons d ds =>
      rw [List.flatMap_cons, List.append_assoc] at h
      exact absurd (congrArg List.head? h).symm (hmark d _)
  | cons c cs ih =>
    cases ds with
    | nil =>
      rw [List.flatMap_cons, List.append_assoc] at h
      exact absurd (congrArg List.head? h) (hmark c _)
    | cons d ds =>
      rw [List.flatMap_cons, List.flatMap_cons, List.append_assoc, List.append_assoc] at h
      obtain ⟨rfl, hrest⟩ := escape_append_inj h
      obtain ⟨rfl, hend⟩ := ih hrest
      exact ⟨rfl, hend⟩

theorem quote_append_inj {s t : String} {rest rest' : List Char}
    (h : quote s ++ rest = quote t ++ rest') : s = t ∧ rest = rest' := by
  rw [quote, quote, List.cons_append, List.cons_append, List.append_assoc, List.append_assoc] at h
  obtain ⟨hst, hrest⟩ := escapes_append_inj (List.cons.inj h).2
  exact ⟨String.toList_inj.mp hst, hrest⟩

end Quoting

section Each

mutual

def Each (P : Json → Prop) : Json → Prop
  | .list items => P (.list items) ∧ EachItem P items
  | .object fields => P (.object fields) ∧ EachField P fields
  | j => P j

def EachItem (P : Json → Prop) : List Json → Prop
  | [] => True
  | j :: rest => Each P j ∧ EachItem P rest

def EachField (P : Json → Prop) : List (String × Json) → Prop
  | [] => True
  | (_, j) :: rest => Each P j ∧ EachField P rest

end

theorem eachItem_iff {P : Json → Prop} {items : List Json} :
    EachItem P items ↔ ∀ j ∈ items, j.Each P := by
  induction items with
  | nil => simp [EachItem]
  | cons j items ih => simp [EachItem, ih]

/-- A number stands as a numeral. -/
def IsSpelled : Json → Prop
  | .number cs => IsNumeral cs
  | _ => True

def WellFormed (j : Json) : Prop :=
  j.Each IsSpelled

end Each

section Reading

def Layout.Blank (l : Layout) : Prop :=
  ∀ depth, ∀ c ∈ l.lineBreak depth, c = '\n' ∨ c = ' '

theorem blank_layout (isPretty : Bool) : (layout isPretty).Blank := by
  intro depth c hc
  cases isPretty with
  | false => cases hc
  | true =>
    obtain rfl | hc := List.mem_cons.mp hc
    · exact Or.inl rfl
    · exact Or.inr (List.eq_of_mem_replicate hc)

/-- A text that goes on with the end of a list or an object, or with a line break before it. -/
def Closes (cs : List Char) : Prop :=
  ∃ c rest, cs = c :: rest ∧ c ∈ ['\n', ' ', ']', '}']

theorem closes_lineBreak {l : Layout} (hl : l.Blank) (depth : Nat) {c : Char}
    (hc : c ∈ [']', '}']) (rest : List Char) : Closes (l.lineBreak depth ++ c :: rest) := by
  cases hb : l.lineBreak depth with
  | nil => exact ⟨c, rest, rfl, by simp_all⟩
  | cons b more =>
    have hblank := hl depth b (by simp [hb])
    exact ⟨b, more ++ c :: rest, rfl, by obtain rfl | rfl := hblank <;> simp⟩

theorem Closes.ends {cs : List Char} (h : Closes cs) : Ends cs := by
  obtain ⟨c, rest, rfl, hc⟩ := h
  rintro d hd
  obtain rfl : c = d := Option.some.inj hd
  simp only [List.mem_cons, List.not_mem_nil, or_false] at hc
  obtain rfl | rfl | rfl | rfl := hc <;> rfl

theorem Closes.ne_comma {cs rest : List Char} (h : Closes cs) : cs ≠ ',' :: rest := by
  obtain ⟨c, more, rfl, hc⟩ := h
  intro he
  obtain rfl : c = ',' := (List.cons.inj he).1
  simp at hc

theorem ends_comma (rest : List Char) : Ends (',' :: rest) := by
  rintro d hd
  obtain rfl : ',' = d := Option.some.inj hd
  decide

/-- What a value starts with. All numerals count as one. -/
def mark : Json → Char
  | .null => 'n'
  | .bool true => 't'
  | .bool false => 'f'
  | .number _ => '0'
  | .text _ => '"'
  | .list _ => '['
  | .object _ => '{'

def opening (c : Char) : Char :=
  if isNumeralChar c then '0' else c

theorem exists_print_eq_cons (l : Layout) (depth : Nat) {j : Json} (h : j.WellFormed) :
    ∃ c cs, j.print l depth = c :: cs ∧ opening c = j.mark := by
  match j with
  | .null => exact ⟨_, _, rfl, rfl⟩
  | .bool true => exact ⟨_, _, rfl, rfl⟩
  | .bool false => exact ⟨_, _, rfl, rfl⟩
  | .number cs =>
    obtain ⟨c, rest, hcs⟩ := List.exists_cons_of_ne_nil h.1
    have hc : isNumeralChar c := h.2 c (by simp [hcs])
    exact ⟨c, rest, hcs, by simp [opening, hc, mark]⟩
  | .text s => exact ⟨_, _, rfl, rfl⟩
  | .list [] => exact ⟨_, _, rfl, rfl⟩
  | .list (j :: rest) => exact ⟨_, _, rfl, rfl⟩
  | .object [] => exact ⟨_, _, rfl, rfl⟩
  | .object ((k, j) :: rest) => exact ⟨_, _, rfl, rfl⟩

theorem mark_eq_of_print {l : Layout} {depth : Nat} {i j : Json} (hi : i.WellFormed)
    (hj : j.WellFormed) {rest rest' : List Char}
    (h : i.print l depth ++ rest = j.print l depth ++ rest') : i.mark = j.mark := by
  obtain ⟨c, cs, hc, hmark⟩ := exists_print_eq_cons l depth hi
  obtain ⟨d, ds, hd, hmark'⟩ := exists_print_eq_cons l depth hj
  rw [hc, hd] at h
  rw [← hmark, ← hmark', (List.cons.inj h).1]

theorem closing_not_mark {c : Char} (hc : c ∈ [']', '}']) (j : Json) : opening c ≠ j.mark := by
  have hsame : opening c = c := by
    simp only [List.mem_cons, List.not_mem_nil, or_false] at hc
    obtain rfl | rfl := hc <;> rfl
  rw [hsame]
  rintro rfl
  match j with
  | .null | .bool true | .bool false | .number _ | .text _ | .list _ | .object _ =>
    simp [mark] at hc

theorem print_ne_closing {l : Layout} (hl : l.Blank) (depth : Nat) {j : Json}
    (hj : j.WellFormed) {c : Char} (hc : c ∈ [']', '}']) (rest rest' : List Char) :
    l.lineBreak depth ++ (j.print l depth ++ rest) ≠ c :: rest' := by
  intro h
  cases hb : l.lineBreak depth with
  | nil =>
    obtain ⟨d, ds, hd, hmark⟩ := exists_print_eq_cons l depth hj
    rw [hb, hd] at h
    obtain rfl : d = c := (List.cons.inj h).1
    exact closing_not_mark hc j hmark
  | cons b more =>
    rw [hb] at h
    obtain rfl : b = c := (List.cons.inj h).1
    obtain rfl | rfl := hl depth b (by simp [hb]) <;> simp at hc

theorem ends_items {l : Layout} {depth : Nat} (items : List Json) {tail : List Char}
    (h : Closes tail) : Ends (printItems l depth items ++ tail) := by
  cases items with
  | nil => exact h.ends
  | cons j items => exact ends_comma _

theorem ends_fields {l : Layout} {depth : Nat} (fields : List (String × Json))
    {tail : List Char} (h : Closes tail) : Ends (printFields l depth fields ++ tail) := by
  cases fields with
  | nil => exact h.ends
  | cons field fields => exact ends_comma _

mutual

/-- A value and what follows it are read off their text in one way. -/
theorem print_append_inj {l : Layout} (hl : l.Blank) : (i j : Json) → i.WellFormed →
    j.WellFormed → ∀ {depth : Nat} {rest rest' : List Char}, Ends rest → Ends rest' →
    i.print l depth ++ rest = j.print l depth ++ rest' → i = j ∧ rest = rest'
  | .null, j, hi, hj, depth, rest, rest', hr, hr', h => by
    have hmark := mark_eq_of_print hi hj h
    match j with
    | .null => exact ⟨rfl, List.append_cancel_left h⟩
  | .bool true, j, hi, hj, depth, rest, rest', hr, hr', h => by
    have hmark := mark_eq_of_print hi hj h
    match j with
    | .bool true => exact ⟨rfl, List.append_cancel_left h⟩
  | .bool false, j, hi, hj, depth, rest, rest', hr, hr', h => by
    have hmark := mark_eq_of_print hi hj h
    match j with
    | .bool false => exact ⟨rfl, List.append_cancel_left h⟩
  | .number cs, j, hi, hj, depth, rest, rest', hr, hr', h => by
    have hmark := mark_eq_of_print hi hj h
    match j with
    | .number ds =>
      obtain ⟨rfl, hrest⟩ := numeral_append_inj hi hj hr hr' h
      exact ⟨rfl, hrest⟩
  | .text s, j, hi, hj, depth, rest, rest', hr, hr', h => by
    have hmark := mark_eq_of_print hi hj h
    match j with
    | .text t =>
      obtain ⟨rfl, hrest⟩ := quote_append_inj h
      exact ⟨rfl, hrest⟩
  | .list [], j, hi, hj, depth, rest, rest', hr, hr', h => by
    have hmark := mark_eq_of_print hi hj h
    match j with
    | .list [] => exact ⟨rfl, List.append_cancel_left h⟩
    | .list (b :: js) =>
      simp only [print, List.cons_append, List.append_assoc, List.nil_append] at h
      exact absurd (List.cons.inj h).2.symm (print_ne_closing hl _ hj.2.1 (by simp) _ _)
  | .list (a :: is), j, hi, hj, depth, rest, rest', hr, hr', h => by
    have hmark := mark_eq_of_print hi hj h
    match j with
    | .list [] =>
      simp only [print, List.cons_append, List.append_assoc, List.nil_append] at h
      exact absurd (List.cons.inj h).2 (print_ne_closing hl _ hi.2.1 (by simp) _ _)
    | .list (b :: js) =>
      simp only [print, List.cons_append, List.append_assoc, List.nil_append] at h
      have hclose := closes_lineBreak hl depth (show ']' ∈ [']', '}'] by simp)
      have hfirst := List.append_cancel_left (List.cons.inj h).2
      obtain ⟨rfl, hitems⟩ := print_append_inj hl a b hi.2.1 hj.2.1
        (ends_items is (hclose rest)) (ends_items js (hclose rest')) hfirst
      obtain ⟨rfl, hend⟩ := printItems_append_inj hl is js hi.2.2 hj.2.2 (hclose rest)
        (hclose rest') hitems
      exact ⟨rfl, (List.cons.inj (List.append_cancel_left hend)).2⟩
  | .object [], j, hi, hj, depth, rest, rest', hr, hr', h => by
    have hmark := mark_eq_of_print hi hj h
    match j with
    | .object [] => exact ⟨rfl, List.append_cancel_left h⟩
    | .object ((m, b) :: js) =>
      simp only [print, List.cons_append, List.append_assoc, List.nil_append] at h
      have hkey : WellFormed (.text m) := trivial
      exact absurd (List.cons.inj h).2.symm (print_ne_closing hl _ hkey (by simp) _ _)
  | .object ((k, a) :: is), j, hi, hj, depth, rest, rest', hr, hr', h => by
    have hmark := mark_eq_of_print hi hj h
    match j with
    | .object [] =>
      simp only [print, List.cons_append, List.append_assoc, List.nil_append] at h
      have hkey : WellFormed (.text k) := trivial
      exact absurd (List.cons.inj h).2 (print_ne_closing hl _ hkey (by simp) _ _)
    | .object ((m, b) :: js) =>
      simp only [print, List.cons_append, List.append_assoc, List.nil_append] at h
      have hclose := closes_lineBreak hl depth (show '}' ∈ [']', '}'] by simp)
      obtain ⟨rfl, hvalue⟩ := quote_append_inj (List.append_cancel_left (List.cons.inj h).2)
      obtain ⟨rfl, hfields⟩ := print_append_inj hl a b hi.2.1 hj.2.1
        (ends_fields is (hclose rest)) (ends_fields js (hclose rest'))
        (List.append_cancel_left hvalue)
      obtain ⟨rfl, hend⟩ := printFields_append_inj hl is js hi.2.2 hj.2.2 (hclose rest)
        (hclose rest') hfields
      exact ⟨rfl, (List.cons.inj (List.append_cancel_left hend)).2⟩

theorem printItems_append_inj {l : Layout} (hl : l.Blank) : (is js : List Json) →
    EachItem IsSpelled is → EachItem IsSpelled js → ∀ {depth : Nat} {tail tail' : List Char},
    Closes tail → Closes tail' →
    printItems l depth is ++ tail = printItems l depth js ++ tail' → is = js ∧ tail = tail'
  | [], [], _, _, depth, tail, tail', ht, ht', h => ⟨rfl, h⟩
  | [], j :: js, _, _, depth, tail, tail', ht, ht', h => absurd h ht.ne_comma
  | i :: is, [], _, _, depth, tail, tail', ht, ht', h => absurd h.symm ht'.ne_comma
  | i :: is, j :: js, hi, hj, depth, tail, tail', ht, ht', h => by
    simp only [printItems, List.cons_append, List.append_assoc] at h
    have hfirst := List.append_cancel_left (List.cons.inj h).2
    obtain ⟨rfl, hitems⟩ := print_append_inj hl i j hi.1 hj.1 (ends_items is ht)
      (ends_items js ht') hfirst
    obtain ⟨rfl, htail⟩ := printItems_append_inj hl is js hi.2 hj.2 ht ht' hitems
    exact ⟨rfl, htail⟩

theorem printFields_append_inj {l : Layout} (hl : l.Blank) : (is js : List (String × Json)) →
    EachField IsSpelled is → EachField IsSpelled js → ∀ {depth : Nat} {tail tail' : List Char},
    Closes tail → Closes tail' →
    printFields l depth is ++ tail = printFields l depth js ++ tail' → is = js ∧ tail = tail'
  | [], [], _, _, depth, tail, tail', ht, ht', h => ⟨rfl, h⟩
  | [], j :: js, _, _, depth, tail, tail', ht, ht', h => absurd h ht.ne_comma
  | i :: is, [], _, _, depth, tail, tail', ht, ht', h => absurd h.symm ht'.ne_comma
  | (k, i) :: is, (m, j) :: js, hi, hj, depth, tail, tail', ht, ht', h => by
    simp only [printFields, List.cons_append, List.append_assoc] at h
    obtain ⟨rfl, hvalue⟩ := quote_append_inj (List.append_cancel_left (List.cons.inj h).2)
    obtain ⟨rfl, hfields⟩ := print_append_inj hl i j hi.1 hj.1 (ends_fields is ht)
      (ends_fields js ht') (List.append_cancel_left hvalue)
    obtain ⟨rfl, htail⟩ := printFields_append_inj hl is js hi.2 hj.2 ht ht' hfields
    exact ⟨rfl, htail⟩

end

/-- Different data have different texts, in each of the two layouts. -/
theorem render_inj {i j : Json} (hi : i.WellFormed) (hj : j.WellFormed) {isPretty : Bool}
    (h : i.render isPretty = j.render isPretty) : i = j := by
  have htext : i.print (layout isPretty) 0 ++ [] = j.print (layout isPretty) 0 ++ [] := by
    simpa [render] using congrArg String.toList h
  exact (print_append_inj (blank_layout isPretty) i j hi hj ends_nil ends_nil htext).1

end Reading

section Printing

def Printable (cs : List Char) : Prop :=
  ∀ c ∈ cs, 32 ≤ c.toNat

theorem Printable.append {cs ds : List Char} (hc : Printable cs) (hd : Printable ds) :
    Printable (cs ++ ds) := by
  intro c h
  exact (List.mem_append.mp h).elim (hc c) (hd c)

theorem Printable.cons {c : Char} {cs : List Char} (hc : 32 ≤ c.toNat) (hcs : Printable cs) :
    Printable (c :: cs) := by
  intro d h
  obtain rfl | h := List.mem_cons.mp h
  · exact hc
  · exact hcs d h

theorem printable_nil : Printable [] := by
  simp [Printable]

theorem printable_of_all {cs : List Char} (h : cs.all (fun c => decide (32 ≤ c.toNat)) = true) :
    Printable cs :=
  fun c hc => of_decide_eq_true (List.all_eq_true.mp h c hc)

theorem printable_escape (c : Char) : Printable (escape c) := by
  have hall : escaped.all (fun c => (escape c).all fun d => decide (32 ≤ d.toNat)) = true := by
    decide +kernel
  by_cases hc : c ∈ escaped
  · exact printable_of_all (List.all_eq_true.mp hall c hc)
  · rw [escape_of_not_mem hc]
    exact .cons (Nat.le_of_not_lt fun h => hc (mem_escaped_of_lt h)) printable_nil

theorem printable_quote (s : String) : Printable (quote s) := by
  refine .cons (by decide) (Printable.append (fun c hc => ?_) (.cons (by decide) printable_nil))
  obtain ⟨d, -, hd⟩ := List.mem_flatMap.mp hc
  exact printable_escape d c hd

theorem printable_numeral {cs : List Char} (h : IsNumeral cs) : Printable cs := by
  intro c hc
  have hn := h.2 c hc
  simp only [isNumeralChar, Bool.or_eq_true, beq_iff_eq] at hn
  obtain (((hd | rfl) | rfl) | rfl) | rfl := hn
  · exact Nat.le_trans (by decide) (Char.isDigit_iff_toNat.mp hd).1
  all_goals decide

theorem printable_single {c : Char} (h : 32 ≤ c.toNat) : Printable [c] :=
  .cons h printable_nil

theorem printable_lineBreak (depth : Nat) : Printable (compact.lineBreak depth) :=
  printable_nil

mutual

theorem printable_print (depth : Nat) : (j : Json) → j.WellFormed →
    Printable (j.print compact depth)
  | .null, _ => printable_of_all rfl
  | .bool true, _ => printable_of_all rfl
  | .bool false, _ => printable_of_all rfl
  | .number _, h => printable_numeral h
  | .text s, _ => printable_quote s
  | .list [], _ => .cons (by decide) (printable_single (by decide))
  | .object [], _ => .cons (by decide) (printable_single (by decide))
  | .list (j :: rest), h => by
    have hfirst := (printable_lineBreak (depth + 1)).append (printable_print (depth + 1) j h.2.1)
    have hrest := hfirst.append (printable_printItems (depth + 1) rest h.2.2)
    have hend := hrest.append (printable_lineBreak depth)
    exact .cons (by decide) (hend.append (printable_single (by decide)))
  | .object ((k, j) :: rest), h => by
    have hkey := (printable_lineBreak (depth + 1)).append (printable_quote k)
    have hcolon := hkey.append (printable_single (show 32 ≤ (':').toNat by decide))
    have hfirst := hcolon.append (printable_print (depth + 1) j h.2.1)
    have hrest := hfirst.append (printable_printFields (depth + 1) rest h.2.2)
    have hend := hrest.append (printable_lineBreak depth)
    exact .cons (by decide) (hend.append (printable_single (by decide)))

theorem printable_printItems (depth : Nat) : (items : List Json) → EachItem IsSpelled items →
    Printable (printItems compact depth items)
  | [], _ => printable_nil
  | j :: rest, h => by
    have hfirst := (printable_lineBreak depth).append (printable_print depth j h.1)
    exact .cons (by decide) (hfirst.append (printable_printItems depth rest h.2))

theorem printable_printFields (depth : Nat) : (fields : List (String × Json)) →
    EachField IsSpelled fields → Printable (printFields compact depth fields)
  | [], _ => printable_nil
  | (k, j) :: rest, h => by
    have hkey := (printable_lineBreak depth).append (printable_quote k)
    have hcolon := hkey.append (printable_single (show 32 ≤ (':').toNat by decide))
    have hfirst := hcolon.append (printable_print depth j h.1)
    exact .cons (by decide) (hfirst.append (printable_printFields depth rest h.2))

end

theorem printable_render {j : Json} (h : j.WellFormed) : Printable (j.render false).toList := by
  rw [render, String.toList_ofList]
  exact printable_print 0 j h

end Printing

end Json

end DesignSystem
