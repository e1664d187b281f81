import Tamga.Error
import Tamga.Lib.Stateful

/-!
# `Tamga.Slot` — the thread's error slot (`tamga_error.c`)

Elsewhere a `Failure` is a code together with the text that is in the slot when the caller looks. That
this is so has to be shown: the slot is a variable of the thread, written where a failure arises, kept
while the failure is handed on, and overwritten or cleared by the functions a function calls. Here it is
a variable, and `Slotted` is the code that sees it: a failure is *returned* by `throw`, which does not
touch the slot, and *raised* by `Slotted.raise`, which is `return tamga_error_set(…)`.

`Reports q view x` is the contract of such code: it leaves the text of the failure it returns, and
without one it does to the slot what `q` does. `Follows q view x y` says in addition that `x` is the
program `y` when the slot is left out.
-/

namespace Tamga

open Alloc Interact

variable {ρ ω α β : Type}

/-- `tamga_error_present` and `tamga_error_buf`. -/
structure ErrorSlot where
  present : Bool
  buffer : Bytes
  deriving DecidableEq

namespace ErrorSlot

/-- After `tamga_error_clear`. -/
def empty : ErrorSlot := ⟨false, []⟩

/-- After `tamga_error_set` with a code that is not `TAMGA_OK`. -/
def holding (f : Failure) : ErrorSlot := ⟨true, f.message⟩

/-- `tamga_last_error_message`. -/
def lastErrorMessage (slot : ErrorSlot) : Option Bytes :=
  if slot.present then some slot.buffer else none

/-- The slot behind a status: `TAMGA_OK` leaves it as it is. -/
def after (slot : ErrorSlot) : Option Failure → ErrorSlot
  | none => slot
  | some f => holding f

theorem lastErrorMessage_after {status : Option Failure} :
    (empty.after status).lastErrorMessage = none ↔ status = none := by
  cases status with
  | none => exact ⟨fun _ => rfl, fun _ => rfl⟩
  | some f => exact ⟨nofun, nofun⟩

end ErrorSlot

open ErrorSlot

/-- `tamga_error_clear`. -/
def errorClear : StateT ErrorSlot (Interact ρ ω) PUnit := StateT.set empty

/-- Writing the text of a failure into the slot. -/
def errorStore (f : Failure) : StateT ErrorSlot (Interact ρ ω) PUnit := StateT.set (holding f)

/-- Code that returns a status and its out-parameters, on a thread with an error slot. -/
abbrev Slotted (ρ ω α : Type) : Type := ExceptT Failure (StateT ErrorSlot (Interact ρ ω)) α

/-- The failure of a status. -/
def failureOf : Except Failure α → Option Failure
  | .ok _ => none
  | .error f => some f

namespace Slotted

/-- `return tamga_error_set(…)`. -/
def raise (f : Failure) : Slotted ρ ω α :=
  ExceptT.mk do
    errorStore f
    return .error f

/-- A function that raises its failures and hands on those of the functions it calls. -/
def ofCall (x : Call α) : Slotted ρ ω α :=
  ExceptT.mk do
    match ← (liftM (ofAlloc x.run : Interact ρ ω _) : StateT ErrorSlot (Interact ρ ω) _) with
    | .ok a => return .ok a
    | .error f => raise f

/-- The body of a public function, behind its `tamga_error_clear`. -/
def entry (x : Slotted ρ ω α) : Slotted ρ ω α :=
  ExceptT.mk do
    errorClear
    x.run

end Slotted

/-! ## The contract -/

/-- `x` leaves the text of the failure it returns, and else what `q` makes of the slot. -/
def Reports (q : ErrorSlot → ErrorSlot) (view : α → Option Failure)
    (x : StateT ErrorSlot (Interact ρ ω) α) : Prop :=
  ∀ slot, Triple (· = slot) x fun a slot' => slot' = (q slot).after (view a)

/-- `x` reports, and apart from the slot it is `y`. -/
def Follows (q : ErrorSlot → ErrorSlot) (view : α → Option Failure)
    (x : StateT ErrorSlot (Interact ρ ω) α) (y : Interact ρ ω α) : Prop :=
  ∀ slot, Tracks slot x y fun a => (q slot).after (view a)

section Contract

variable {q q' : ErrorSlot → ErrorSlot} {view : α → Option Failure}
  {x : StateT ErrorSlot (Interact ρ ω) α} {y : Interact ρ ω α}

theorem Follows.reports (h : Follows q view x y) : Reports q view x := fun slot => (h slot).triple

/-- Of the result, only the status is looked at. -/
theorem Follows.status (h : Follows q view x y) : Follows q id (view <$> x) (view <$> y) :=
  fun slot => (h slot).map fun _ => rfl

/-- **The contract of a public function.** The slot is empty exactly behind `TAMGA_OK`. -/
theorem Reports.lastErrorMessage (h : Reports (fun _ => empty) view x) (slot : ErrorSlot)
    {F : Prop} {answers : Stream' ω} {trace : List (ρ × ω)} {a : α} {slot' : ErrorSlot}
    (hrun : (x.run slot).Runs F answers trace (a, slot')) :
    slot'.lastErrorMessage = none ↔ view a = none := by
  rw [h slot slot rfl _ _ a slot' (hrun.mono fun _ => trivial)]
  exact lastErrorMessage_after

end Contract

namespace Slotted

/-- The contract of code with a status, and the call it is without the slot. -/
def Follows (q : ErrorSlot → ErrorSlot) (x : Slotted ρ ω α) (y : Call α) : Prop :=
  Tamga.Follows q failureOf x.run (ofAlloc y.run)

variable {q q' : ErrorSlot → ErrorSlot} {x : Slotted ρ ω α} {f : α → Slotted ρ ω β}
  {y : Call α} {g : α → Call β}

theorem Follows.raise (f : Failure) : Follows q (raise f : Slotted ρ ω α) (throwThe Failure f) :=
  fun _ => rfl

theorem Follows.ofCall (x : Call α) : Follows id (ofCall x : Slotted ρ ω α) x := by
  intro slot
  have h := Tracks.bind (Tracks.lift (s := slot) (ofAlloc x.run : Interact ρ ω _))
    (f := fun r => match r with
      | .ok a => Pure.pure (.ok a)
      | .error f => (Slotted.raise f).run) (z := Pure.pure) (k := fun r => slot.after (failureOf r)) (by
        rintro (f | a)
        · exact rfl
        · exact rfl)
  rw [bind_pure] at h
  exact h

theorem Follows.entry (h : Follows id x y) : Follows (fun _ => empty) x.entry y :=
  fun _ => Tracks.set_bind (h empty)

/-- **Handing a failure on.** -/
theorem Follows.bind (hx : Follows q x y) (hf : ∀ a, Follows q' (f a) (g a)) :
    Follows (q' ∘ q) (x >>= f) (y >>= g) := by
  intro slot
  rw [ExceptT.run_bind, ExceptT.run_bind, ofAlloc_bind]
  refine (hx slot).bind ?_
  rintro (failure | a)
  · exact .pure rfl
  · exact hf a (q slot)

theorem Follows.ofCall_bind {z : Call α} (hf : ∀ a, Follows q (f a) (g a)) :
    Follows q (Slotted.ofCall z >>= f) (z >>= g) := (Follows.ofCall z).bind hf

end Slotted

end Tamga
