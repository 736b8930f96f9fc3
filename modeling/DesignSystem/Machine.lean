import DesignSystem.Host

/-! Machines as values: a disk, a working folder and what was printed. What a disk is stays open. -/

namespace DesignSystem

/-- What a disk does with paths, which may start from a working folder. Looking at it changes
nothing. Changes may fail, and may leave something behind even then. Nothing is said about where
paths lead, about links, or about what may be read and written. -/
class Disk (ρ : Type) where
  isFolder? : ρ → Place → Path → Option Bool
  outline? : ρ → Place → Path → Option (Item Unit)
  read : ρ → Place → Path → Except FileError String
  write : ρ → Place → Path → String → Except FileError Unit × ρ
  makeFolder : ρ → Place → Path → Except FileError Unit × ρ

structure Machine (ρ : Type) where
  root : ρ
  workingPlace : Place
  stdout : String
  stderr : String

/-- The absolute path of a place. -/
def Place.path (place : Place) : Path :=
  ⟨"/" ++ "/".intercalate place⟩

namespace Machine

variable {ρ : Type} [Disk ρ]

def isFolder? (w : Machine ρ) (p : Path) : Option Bool :=
  Disk.isFolder? w.root w.workingPlace p

def outline? (w : Machine ρ) (p : Path) : Option (Item Unit) :=
  Disk.outline? w.root w.workingPlace p

def read (w : Machine ρ) (p : Path) : Except FileError String :=
  Disk.read w.root w.workingPlace p

def write (w : Machine ρ) (p : Path) (text : String) : Except FileError Unit × Machine ρ :=
  let (result, root) := Disk.write w.root w.workingPlace p text
  (result, { w with root := root })

def makeFolder (w : Machine ρ) (p : Path) : Except FileError Unit × Machine ρ :=
  let (result, root) := Disk.makeFolder w.root w.workingPlace p
  (result, { w with root := root })

instance : Host (StateM (Machine ρ)) where
  workingFolder := return (← get).workingPlace.path
  isFolder? p := return (← get).isFolder? p
  outline? p := return (← get).outline? p
  read p := return (← get).read p
  write p text := fun w => w.write p text
  makeFolder p := fun w => w.makeFolder p
  print text := modify fun w => { w with stdout := w.stdout ++ text }
  report text := modify fun w => { w with stderr := w.stderr ++ text }

end Machine

end DesignSystem
