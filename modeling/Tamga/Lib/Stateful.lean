import Tamga.Lib.Interact

/-!
# `Lib.Stateful` — interactive programs with a variable on the side

A program that also reads and writes a variable is a state transformer over `Interact`. Two things are
said of one here.

* `Triple P x Q`: started in a state with `P`, `x` ends, on every run and under every refusal, with a
  result and a state that satisfy `Q`.
* `Tracks s x y g`: started in `s`, `x` is `y`, a program without the variable, and leaves `g` of its
  result behind. What is proved of `y` then holds of `x`, and `g` says what becomes of the variable.
-/

namespace Interact

variable {ρ ω S α β : Type}

/-- What `x` returns and leaves in the variable, whatever is answered and refused. -/
def Triple (P : S → Prop) (x : StateT S (Interact ρ ω) α) (Q : α → S → Prop) : Prop :=
  ∀ s, P s → ∀ answers trace a s', (x.run s).Runs True answers trace (a, s') → Q a s'

/-- From `s`, `x` is `y`, and leaves `g` of the result in the variable. -/
def Tracks (s : S) (x : StateT S (Interact ρ ω) α) (y : Interact ρ ω α) (g : α → S) : Prop :=
  x.run s = (fun a => (a, g a)) <$> y

variable {s t : S} {x : StateT S (Interact ρ ω) α} {y : Interact ρ ω α} {g : α → S}
  {f : α → StateT S (Interact ρ ω) β} {z : α → Interact ρ ω β} {k : β → S}

theorem Tracks.pure {a : α} (h : g a = s) :
    Tracks s (pure a : StateT S (Interact ρ ω) α) (pure a : Interact ρ ω α) g := by
  subst h
  rfl

theorem Tracks.bind (hx : Tracks s x y g) (hf : ∀ a, Tracks (g a) (f a) (z a) k) :
    Tracks s (x >>= f) (y >>= z) k := by
  unfold Tracks
  rw [StateT.run_bind, hx, bind_map_left, map_bind]
  exact bind_congr hf

/-- A part that does not know of the variable. -/
theorem Tracks.lift (y : Interact ρ ω α) : Tracks s (liftM y : StateT S (Interact ρ ω) α) y fun _ => s :=
  (map_eq_pure_bind _ y).symm

/-- An assignment is not seen without the variable. -/
theorem Tracks.set_bind {f : PUnit → StateT S (Interact ρ ω) β} {z : Interact ρ ω β}
    (h : Tracks t (f ⟨⟩) z k) : Tracks s (StateT.set t >>= f) z k := h

theorem Tracks.map {φ : α → β} (h : Tracks s x y g) (hk : ∀ a, k (φ a) = g a) :
    Tracks s (φ <$> x) (φ <$> y) k := by
  rw [map_eq_pure_bind, map_eq_pure_bind]
  exact h.bind fun a => .pure (hk a)

theorem Tracks.triple (h : Tracks s x y g) : Triple (· = s) x fun a s' => s' = g a := by
  rintro _ rfl answers trace a s' hrun
  rw [h, map_eq_pure_bind] at hrun
  obtain ⟨_, _, b, -, -, -, hb⟩ := runs_bind.1 hrun
  cases hb
  rfl

end Interact
