import DesignSystem.World
import Mathlib.Data.List.Basic

/-! What a path leads to, and when a file is read. -/

namespace DesignSystem

namespace Item

variable {α : Type}

theorem lookup_enter (name m : String) (item : Item α) (items : List (String × Item α)) :
    (enter name item items).lookup m = if m = name then some item else items.lookup m := by
  induction items with
  | nil =>
    by_cases hm : m = name
    · simp [enter, hm]
    · simp [enter, List.lookup_cons, beq_eq_false_iff_ne.mpr hm, hm]
  | cons e rest ih =>
    obtain ⟨k, old⟩ := e
    by_cases hm : m = name
    · subst m
      by_cases hk : name = k
      · simp [enter, hk]
      · have hk' : (name == k) = false := beq_eq_false_iff_ne.mpr hk
        by_cases hlt : name < k
        · simp [enter, hk, hlt]
        · simp [enter, hk, hlt, List.lookup_cons, hk', ih]
    · have hm' : (m == name) = false := beq_eq_false_iff_ne.mpr hm
      by_cases hk : name = k
      · subst k
        simp [enter, List.lookup_cons, hm', hm]
      · by_cases hlt : name < k
        · simp [enter, hk, hlt, List.lookup_cons, hm', hm]
        · simp [enter, hk, hlt, List.lookup_cons, ih, hm]

@[simp] theorem at?_nil (item : Item α) : at? [] item = some item := rfl

theorem at?_cons_folder (name : String) (rest : Place) (items : List (String × Item α)) :
    at? (name :: rest) (.folder items) = (items.lookup name).bind (at? rest) := rfl

theorem put_cons_of_lookup {name : String} {items : List (String × Item α)} {item : Item α}
    (h : items.lookup name = some item) (rest : Place) (new : Item α) :
    put (name :: rest) (.folder items) new = .folder (enter name (put rest item new) items) := by
  cases rest <;> simp [put, h]

end Item

namespace World

theorem read_congr {w v : World} (hw : w.workingPlace = v.workingPlace) (hr : w.root = v.root)
    (p : Path) : w.read p = v.read p := by
  have hwalk : w.walk = v.walk := by
    funext place part
    rw [walk, walk, hr]
  have hl : w.locate p = v.locate p := by rw [locate, locate, hwalk, hw]
  rw [read, read, find, find, hl, hr]

theorem find_eq_ok_file_iff {w : World} {p : Path} {content : Content} :
    w.find p = .ok (.file content) ↔ ∃ route place, w.locate p = .ok (route, place) ∧
      route.wantsFolder = false ∧ w.root.at? place = some (.file content) := by
  rw [find]
  cases hl : w.locate p with
  | error e => simp [bind, Except.bind]
  | ok r =>
    obtain ⟨route, place⟩ := r
    simp only [bind, Except.bind]
    cases ha : w.root.at? place with
    | none => simp [ha]
    | some item =>
      cases item with
      | folder items => simp [ha]
      | file c => cases hf : route.wantsFolder <;> simp [ha, hf]

theorem find_eq_ok_folder_iff {w : World} {p : Path} {items : List (String × Item Content)} :
    w.find p = .ok (.folder items) ↔ ∃ route place, w.locate p = .ok (route, place) ∧
      w.root.at? place = some (.folder items) := by
  rw [find]
  cases hl : w.locate p with
  | error e => simp [bind, Except.bind]
  | ok r =>
    obtain ⟨route, place⟩ := r
    simp only [bind, Except.bind]
    cases ha : w.root.at? place with
    | none => simp [ha]
    | some item =>
      cases item with
      | folder items => simp [ha]
      | file c => cases hf : route.wantsFolder <;> simp [ha]

theorem find?_eq_some_iff {w : World} {p : Path} {item : Item Content} :
    w.find? p = some item ↔ w.find p = .ok item := by
  rw [find?]
  cases w.find p <;> simp [Except.toOption]

theorem read_eq_ok_iff {w : World} {p : Path} {s : String} :
    w.read p = .ok s ↔ ∃ route place, w.locate p = .ok (route, place) ∧
      route.wantsFolder = false ∧ w.root.at? place = some (.file (.text s)) := by
  rw [← find_eq_ok_file_iff, read]
  cases hf : w.find p with
  | error e => simp [bind, Except.bind]
  | ok item =>
    cases item with
    | folder items => simp [bind, Except.bind]
    | file c => cases c <;> simp [bind, Except.bind, Content.text?]

theorem write_eq_put {w : World} {p : Path} {route : Route} {place : Place} {old : Content}
    (hl : w.locate p = .ok (route, place)) (hf : route.wantsFolder = false)
    (ha : w.root.at? place = some (.file old)) (t : String) :
    w.write p t = .ok (w.put place (.file (.text t))) := by
  simp [write, hl, bind, Except.bind, hf, ha]

end World

end DesignSystem
