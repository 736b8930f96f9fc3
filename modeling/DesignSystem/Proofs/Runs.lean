import DesignSystem.Failure
import DesignSystem.Machine
import Mathlib.Data.List.Basic

/-! Runs of commands on a machine. A run goes on with the result of its first part, or ends
with the failure of that part. A frame says what may happen to the machine, and a run stays in
it if its parts do. -/

namespace DesignSystem

namespace Machine

section Running

variable {ρ α β : Type} {act : ExceptT Failure (StateM (Machine ρ)) α}
  {f : α → ExceptT Failure (StateM (Machine ρ)) β} {w v : Machine ρ}

theorem run_bind_ok {a : α} (h : act.run.run w = (.ok a, v)) :
    (act >>= f).run.run w = (f a).run.run v := by
  rw [ExceptT.run_bind, StateT.run_bind, h]
  rfl

theorem run_bind_error {e : Failure} (h : act.run.run w = (.error e, v)) :
    (act >>= f).run.run w = (.error e, v) := by
  rw [ExceptT.run_bind, StateT.run_bind, h]
  rfl

theorem exists_of_run_bind {b : β} (h : (act >>= f).run.run w = (.ok b, v)) :
    ∃ a u, act.run.run w = (.ok a, u) ∧ (f a).run.run u = (.ok b, v) := by
  cases hr : act.run.run w with
  | mk result u =>
    cases result with
    | ok a => exact ⟨a, u, rfl, (run_bind_ok hr).symm.trans h⟩
    | error e =>
      rw [run_bind_error hr] at h
      cases h

theorem run_lift (talk : StateM (Machine ρ) α) (w : Machine ρ) :
    (ExceptT.lift talk : ExceptT Failure (StateM (Machine ρ)) α).run.run w =
      (.ok (talk.run w).1, (talk.run w).2) := rfl

theorem run_attempt (action : Action) (p : Path) (result : StateM (Machine ρ) (Except FileError α))
    (w : Machine ρ) : (attempt action p result : ExceptT Failure (StateM (Machine ρ)) α).run.run w =
      ((result.run w).1.mapError (.access p action), (result.run w).2) := rfl

end Running

/-- What may happen to a machine, at once or step by step. -/
structure Frame (ρ : Type) where
  allows : Machine ρ → Machine ρ → Prop
  refl : ∀ w, allows w w
  trans : ∀ {u v w}, allows u v → allows v w → allows u w

namespace Frame

variable {ρ : Type}

/-- Nothing changes in a view. -/
def same {α : Type} (view : Machine ρ → α) : Frame ρ :=
  ⟨fun w v => view v = view w, fun _ => rfl, fun h h' => h'.trans h⟩

/-- Nothing changes. -/
def still : Frame ρ :=
  same id

/-- Nothing changes but what was reported. -/
def reporting : Frame ρ :=
  same fun w => { w with stderr := "" }

/-- Nothing changes but what was reported and printed. -/
def printing : Frame ρ :=
  same fun w => { w with stdout := "", stderr := "" }

theorem printing_of_reporting {w v : Machine ρ} (h : reporting.allows w v) : printing.allows w v :=
  (congrArg (fun u : Machine ρ => { u with stdout := "" }) h :)

theorem root_of_reporting {w v : Machine ρ} (h : reporting.allows w v) : v.root = w.root :=
  (congrArg Machine.root h :)

theorem workingPlace_of_reporting {w v : Machine ρ} (h : reporting.allows w v) :
    v.workingPlace = w.workingPlace :=
  (congrArg Machine.workingPlace h :)

theorem stdout_of_reporting {w v : Machine ρ} (h : reporting.allows w v) : v.stdout = w.stdout :=
  (congrArg Machine.stdout h :)

end Frame

section Keeps

variable {ρ α β : Type} {F : Frame ρ}

/-- Whether all runs of an action stay in a frame. -/
def Keeps (F : Frame ρ) (act : StateM (Machine ρ) α) : Prop :=
  ∀ w, F.allows w (act.run w).2

theorem Keeps.mono {G : Frame ρ} {act : StateM (Machine ρ) α} (h : Keeps F act)
    (hfg : ∀ {w v}, F.allows w v → G.allows w v) : Keeps G act :=
  fun w => hfg (h w)

theorem Keeps.allows {act : StateM (Machine ρ) α} (h : Keeps F act) {w v : Machine ρ} {a : α}
    (hrun : act.run w = (a, v)) : F.allows w v := by
  have hv := h w
  rwa [hrun] at hv

theorem Keeps.of_still {act : StateM (Machine ρ) α} (h : Keeps .still act) : Keeps F act := by
  intro w
  have hw : (act.run w).2 = w := h w
  rw [hw]
  exact F.refl w

theorem Keeps.pure (a : α) : Keeps F (Pure.pure a : StateM (Machine ρ) α) := fun w => F.refl w

theorem Keeps.bind {act : StateM (Machine ρ) α} {f : α → StateM (Machine ρ) β} (ha : Keeps F act)
    (hf : ∀ a, Keeps F (f a)) : Keeps F (act >>= f) :=
  fun w => F.trans (ha w) (hf _ _)

theorem Keeps.andThen {act : ExceptT Failure (StateM (Machine ρ)) α}
    {f : α → ExceptT Failure (StateM (Machine ρ)) β} (ha : Keeps F act.run)
    (hf : ∀ a, Keeps F (f a).run) : Keeps F (act >>= f).run := by
  rw [ExceptT.run_bind]
  refine ha.bind fun result => ?_
  cases result with
  | ok a => exact hf a
  | error e => exact .pure _

theorem Keeps.lift {talk : StateM (Machine ρ) α} (h : Keeps F talk) :
    Keeps F (ExceptT.lift talk : ExceptT Failure (StateM (Machine ρ)) α).run :=
  h

theorem Keeps.tried {result : StateM (Machine ρ) (Except FileError α)} (h : Keeps F result)
    (action : Action) (p : Path) :
    Keeps F (attempt action p result : ExceptT Failure (StateM (Machine ρ)) α).run :=
  h.bind fun _ => .pure _

theorem Keeps.foldlM {f : β → α → StateM (Machine ρ) β} (h : ∀ b a, Keeps F (f b a)) (xs : List α)
    (b : β) : Keeps F (xs.foldlM f b) := by
  induction xs generalizing b with
  | nil => exact .pure b
  | cons x xs ih =>
    rw [List.foldlM_cons]
    exact (h b x).bind ih

theorem Keeps.forM {f : α → StateM (Machine ρ) Unit} {xs : List α} (h : ∀ x ∈ xs, Keeps F (f x)) :
    Keeps F (xs.forM f) := by
  induction xs with
  | nil => exact .pure _
  | cons x xs ih => exact (h x (by simp)).bind fun _ => ih fun y hy => h y (by simp [hy])

theorem Keeps.forMExcept {f : α → ExceptT Failure (StateM (Machine ρ)) Unit} {xs : List α}
    (h : ∀ x ∈ xs, Keeps F (f x).run) : Keeps F (xs.forM f).run := by
  induction xs with
  | nil => exact .pure _
  | cons x xs ih => exact (h x (by simp)).andThen fun _ => ih fun y hy => h y (by simp [hy])

end Keeps

section Talking

variable {ρ : Type} [Disk ρ]

theorem run_isThere (w : Machine ρ) (p : Path) :
    (ExceptT.lift (Host.isThere p) : ExceptT Failure (StateM (Machine ρ)) Bool).run.run w =
      (.ok (w.isFolder? p).isSome, w) := rfl

theorem keeps_isFolder? (p : Path) :
    Keeps .still (Host.isFolder? p : StateM (Machine ρ) (Option Bool)) := fun _ => rfl

theorem keeps_isThere (p : Path) : Keeps .still (Host.isThere p : StateM (Machine ρ) Bool) :=
  (keeps_isFolder? p).bind fun _ => .pure _

theorem keeps_outline? (p : Path) :
    Keeps .still (Host.outline? p : StateM (Machine ρ) (Option (Item Unit))) := fun _ => rfl

theorem keeps_read (p : Path) :
    Keeps .still (Host.read p : StateM (Machine ρ) (Except FileError String)) := fun _ => rfl

theorem keeps_display (p : Path) : Keeps .still (Host.display p : StateM (Machine ρ) String) := by
  have hw : Keeps .still (Host.workingFolder : StateM (Machine ρ) Path) := fun _ => rfl
  refine hw.bind fun folder => ?_
  cases p.relativeTo? folder with
  | none => exact .pure _
  | some rest => exact .pure _

theorem keeps_status (verb message : String) :
    Keeps .reporting (Host.status verb message : StateM (Machine ρ) Unit) := fun _ => rfl

theorem keeps_statusOf (verb : String) (p : Path) :
    Keeps .reporting (do Host.status verb (← Host.display p) : StateM (Machine ρ) Unit) :=
  (keeps_display p).of_still.bind fun _ => keeps_status verb _

theorem keeps_print (text : String) : Keeps .printing (Host.print text : StateM (Machine ρ) Unit) :=
  fun _ => rfl

end Talking

end Machine

end DesignSystem
