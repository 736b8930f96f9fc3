import DesignSystem.Proofs.DocumentScan
import DesignSystem.Proofs.FolderChain

/-! Paths below a folder. What such a path leads to depends on the folder alone, provided that it
never leads out of the folder. -/

namespace DesignSystem

namespace Path

variable {r s : Path} {name : String}

theorem getLast?_toList_join (hs : s.isAbsolute = false) (hne : s.text ≠ "") :
    (r.join s).text.toList.getLast? = s.text.toList.getLast? := by
  rw [join_relative r hs, String.toList_append]
  exact List.getLast?_append_of_ne_nil _ (mt String.toList_eq_nil_iff.mp hne)

theorem gap_join (hs : s.isAbsolute = false) : (r.join s).gap = s.gap := by
  by_cases hne : s.text = ""
  · obtain rfl : s = ⟨""⟩ := congrArg Path.mk hne
    rw [join_relative r hs]
    by_cases hr : r.text = ""
    · simp [gap, hr]
    · by_cases hslash : r.text.toList.getLast? = some '/' <;> simp [gap, hr, hslash]
  · have hjoin : (r.join s).text ≠ "" := by simp [join_relative r hs, hne]
    rw [gap, gap, getLast?_toList_join hs hne]
    simp [hne, hjoin]

/-- A path below a path below a folder is below the folder. -/
theorem join_join (hs : s.isAbsolute = false) (h : IsFileName name) :
    (r.join s).join ⟨name⟩ = r.join (s.join ⟨name⟩) := by
  have hname : isAbsolute ⟨name⟩ = false := isAbsolute_of_isFileName h
  have hinner : (s.join ⟨name⟩).isAbsolute = false := (isAbsolute_join s h).trans hs
  rw [join_relative _ hname, join_relative r hinner, gap_join hs, join_relative r hs,
    join_relative s hname]
  simp only [String.append_assoc]

end Path

namespace World

variable {w : World} {r s : Path}

/-- An item as a machine of its own. -/
def alone (item : Item Content) : World :=
  ⟨item, [], "", ""⟩

section Below

variable {place q : Place} {item : Item Content} (hi : w.root.at? place = some item)
include hi

end Below

end World

end DesignSystem
