import DesignSystem.Proofs.Runs
import DesignSystem.World

/-! The files of a disk. A path leads to a file, maybe through links, and several paths can lead to
one file. What is written through one of them is then found through all of them. -/

namespace DesignSystem

/-- To which file a path leads, if to any, and what a file holds. -/
class Files (ρ : Type) (ι : outParam Type) where
  fileAt? : ρ → Place → Path → Option ι
  content? : ρ → ι → Option Content

/-- Paths lead to the files that they led to, and files that are not touched hold what they held. -/
structure Kept {ρ ι : Type} [Files ρ ι] (touched : ι → Prop) (place : Place) (r s : ρ) : Prop where
  paths : ∀ p i, Files.fileAt? r place p = some i → Files.fileAt? s place p = some i
  contents : ∀ i c, ¬ touched i → Files.content? r i = some c → Files.content? s i = some c

namespace Kept

variable {ρ ι : Type} [Files ρ ι] {touched more : ι → Prop} {place : Place} {r s t : ρ}

theorem refl (touched : ι → Prop) (place : Place) (r : ρ) : Kept touched place r r :=
  ⟨fun _ _ h => h, fun _ _ _ h => h⟩

theorem trans (h : Kept touched place r s) (h' : Kept touched place s t) :
    Kept touched place r t :=
  ⟨fun p i hp => h'.paths p i (h.paths p i hp),
    fun i c hi hc => h'.contents i c hi (h.contents i c hi hc)⟩

theorem mono (h : Kept touched place r s) (ht : ∀ i, touched i → more i) :
    Kept more place r s :=
  ⟨h.paths, fun i c hi hc => h.contents i c (fun hm => hi (ht i hm)) hc⟩

end Kept

/-- What is written is in the file that the path leads to from then on. Nothing else is touched by
writing, and nothing at all by making folders, be it in vain. -/
class LawfulFiles (ρ : Type) (ι : outParam Type) [Disk ρ] [Files ρ ι] : Prop where
  written : ∀ {r s : ρ} {place : Place} {p : Path} {text : String},
    Disk.write r place p text = (.ok (), s) → ∃ i, Files.fileAt? s place p = some i ∧
      Files.content? s i = some (.text text) ∧ Kept (· = i) place r s
  made : ∀ (r : ρ) (place : Place) (p : Path),
    Kept (fun _ => False) place r (Disk.makeFolder r place p).2

namespace Machine

section Files

variable {ρ ι : Type} [Files ρ ι]

def fileAt? (w : Machine ρ) (p : Path) : Option ι :=
  Files.fileAt? w.root w.workingPlace p

def content? (w : Machine ρ) (i : ι) : Option Content :=
  Files.content? w.root i

/-- All paths to a file end in one name. -/
def NamesTellFiles (w : Machine ρ) : Prop :=
  ∀ p q i, w.fileAt? p = some i → w.fileAt? q = some i → p.fileName? = q.fileName?

namespace Frame

/-- No path and no file changes, touched files apart. -/
def keeping (touched : ι → Prop) : Frame ρ where
  allows w v := v.workingPlace = w.workingPlace ∧ Kept touched w.workingPlace w.root v.root
  refl _ := ⟨rfl, .refl _ _ _⟩
  trans := fun ⟨hw, h⟩ ⟨hw', h'⟩ => ⟨hw'.trans hw, h.trans (hw ▸ h')⟩

variable {touched more : ι → Prop} {w v : Machine ρ}

theorem keeping_of_reporting (h : reporting.allows w v) : (keeping touched).allows w v :=
  ⟨workingPlace_of_reporting h, root_of_reporting h ▸ .refl _ _ _⟩

theorem keeping_mono (h : (keeping touched).allows w v) (ht : ∀ i, touched i → more i) :
    (keeping more).allows w v :=
  ⟨h.1, h.2.mono ht⟩

theorem fileAt?_of_keeping (h : (keeping touched).allows w v) {p : Path} {i : ι}
    (hp : w.fileAt? p = some i) : v.fileAt? p = some i := by
  rw [fileAt?, h.1]
  exact h.2.paths p i hp

theorem content?_of_keeping (h : (keeping touched).allows w v) {i : ι} {c : Content}
    (hi : ¬ touched i) (hc : w.content? i = some c) : v.content? i = some c :=
  h.2.contents i c hi hc

theorem fileAt?_of_reporting (h : reporting.allows w v) : v.fileAt? = w.fileAt? := by
  funext p
  rw [fileAt?, fileAt?, workingPlace_of_reporting h, root_of_reporting h]

theorem content?_of_reporting (h : reporting.allows w v) : v.content? = w.content? := by
  funext i
  rw [content?, content?, root_of_reporting h]

end Frame

/-- A text is in the file that a path leads to, and no other file has changed. -/
def Holds (w v : Machine ρ) (p : Path) (text : String) : Prop :=
  ∃ i : ι, v.fileAt? p = some i ∧ v.content? i = some (.text text) ∧
    (Frame.keeping (· = i)).allows w v

theorem Holds.of_kept {u w v : Machine ρ} {p : Path} {text : String} (h : w.Holds v p text)
    (hu : ∀ touched : ι → Prop, (Frame.keeping touched).allows u w) : u.Holds v p text :=
  have ⟨i, hi, hc, hkept⟩ := h
  ⟨i, hi, hc, (Frame.keeping _).trans (hu _) hkept⟩

theorem Holds.reported {w u v : Machine ρ} {p : Path} {text : String} (h : w.Holds u p text)
    (hv : Frame.reporting.allows u v) : w.Holds v p text := by
  obtain ⟨i, hi, hc, hkept⟩ := h
  refine ⟨i, ?_, ?_, (Frame.keeping _).trans hkept (Frame.keeping_of_reporting hv)⟩
  · rwa [Frame.fileAt?_of_reporting hv]
  · rwa [Frame.content?_of_reporting hv]

end Files

section Making

variable {ρ ι : Type} [Disk ρ] [Files ρ ι] [LawfulFiles ρ ι] {touched : ι → Prop}

theorem keeps_makeFolder (p : Path) : Keeps (.keeping touched)
    (Host.makeFolder p : StateM (Machine ρ) (Except FileError Unit)) :=
  fun w => ⟨rfl, (LawfulFiles.made w.root w.workingPlace p).mono fun _ => False.elim⟩

theorem keeps_ensureFolder (p : Path) : Keeps (.keeping touched)
    (Host.ensureFolder p : StateM (Machine ρ) (Except FileError Unit)) := by
  refine (keeps_makeFolder p).bind fun result => ?_
  split
  · refine (keeps_isFolder? p).of_still.bind fun there => ?_
    split
    · exact .pure _
    · exact .pure _
  · exact .pure _

theorem keeps_ensureChain (chain : List Path) : Keeps (.keeping touched)
    (Host.ensureChain chain : StateM (Machine ρ) (Except FileError Unit)) := by
  induction chain with
  | nil => exact .pure _
  | cons p outer ih =>
    refine (keeps_ensureFolder p).bind fun result => ?_
    split
    · refine ih.bind fun made => ?_
      split
      · exact keeps_ensureFolder p
      · exact .pure _
    · exact .pure _

end Making

section Writing

variable {ρ ι : Type} [Disk ρ] [Files ρ ι] [LawfulFiles ρ ι]

theorem holds_of_write {action : Action} {p : Path} {text : String} {w v : Machine ρ}
    (h : (attempt action p (Host.write p text) :
      ExceptT Failure (StateM (Machine ρ)) Unit).run.run w = (.ok (), v)) :
    w.Holds v p text := by
  have hrun : (Host.write p text : StateM (Machine ρ) (Except FileError Unit)).run w =
    ((Disk.write w.root w.workingPlace p text).1,
      { w with root := (Disk.write w.root w.workingPlace p text).2 }) := rfl
  rw [run_attempt, hrun] at h
  cases hw : Disk.write w.root w.workingPlace p text with
  | mk result r =>
    rw [hw] at h
    cases result with
    | error e => cases h
    | ok _ =>
      cases h
      obtain ⟨i, hi, hc, hkept⟩ := LawfulFiles.written hw
      exact ⟨i, hi, hc, rfl, hkept⟩

end Writing

end Machine

end DesignSystem
