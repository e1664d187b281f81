import Mathlib.Control.Monad.Basic

/-!
# `Lib.Checked` — code that refuses its input

A function that answers `false` on input it does not take, and fills its out-parameters otherwise. `none`
outside stands for what has no meaning: a read outside a buffer, an unsigned subtraction that wraps.
`Decides x P` is the contract of such code: it never gets there, and it answers `a` exactly when `P a`.
-/

/-- Code that may refuse (`some none`), and may go wrong (`none`). -/
abbrev Checked (α : Type) : Type := OptionT Option α

namespace Checked

variable {α β : Type}

/-- `x` has a meaning, and answers `a` exactly when `P a`. -/
def Decides (x : Checked α) (P : α → Prop) : Prop :=
  ∃ answer, x.run = some answer ∧ ∀ a, answer = some a ↔ P a

variable {x : Checked α} {P : α → Prop}

theorem Decides.congr {P' : α → Prop} (h : Decides x P) (hP : ∀ a, P a ↔ P' a) : Decides x P' := by
  obtain ⟨answer, hrun, hanswer⟩ := h
  exact ⟨answer, hrun, fun a => (hanswer a).trans (hP a)⟩

theorem Decides.iff (h : Decides x P) {a : α} : x.run = some (some a) ↔ P a := by
  obtain ⟨answer, hrun, hanswer⟩ := h
  rw [hrun, Option.some.injEq, hanswer]

theorem decides_pure (a : α) : Decides (pure a) (a = ·) :=
  ⟨some a, rfl, fun _ => Option.some_inj⟩

theorem decides_failure : Decides (failure : Checked α) fun _ => False :=
  ⟨none, rfl, fun _ => ⟨nofun, nofun⟩⟩

theorem decides_guard (p : Prop) [Decidable p] : Decides (guard p : Checked Unit) fun _ => p := by
  unfold guard
  split
  · exact (decides_pure ()).congr fun _ => iff_of_true rfl ‹p›
  · exact decides_failure.congr fun _ => iff_of_false id ‹¬p›

theorem Decides.bind {f : α → Checked β} {Q : α → β → Prop} (hx : Decides x P)
    (hf : ∀ a, P a → Decides (f a) (Q a)) : Decides (x >>= f) fun b => ∃ a, P a ∧ Q a b := by
  obtain ⟨answer, hrun, hanswer⟩ := hx
  cases answer with
  | none =>
      refine ⟨none, by rw [OptionT.run_bind, hrun]; rfl, fun b => ⟨nofun, ?_⟩⟩
      rintro ⟨a, ha, -⟩
      cases (hanswer a).2 ha
  | some a =>
      have ha := (hanswer a).1 rfl
      obtain ⟨answer, hrun', hanswer'⟩ := hf a ha
      refine ⟨answer, by rw [OptionT.run_bind, hrun]; exact hrun', fun b => (hanswer' b).trans ?_⟩
      constructor
      · exact fun hb => ⟨a, ha, hb⟩
      · rintro ⟨a', ha', hb⟩
        cases (hanswer a').2 ha'
        exact hb

end Checked
