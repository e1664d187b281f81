import Mathlib.Control.Basic
import Mathlib.Tactic

/-!
# `Lib.Alloc` — computations that ask an allocator which may refuse

A computation is a decision tree: it returns, or it requests one block and goes on with the
allocator's answer. Nothing here knows which program asks; the tree is the whole interface.

* `under σ` runs a tree against a **schedule**: the `i`-th request succeeds iff `σ i`.
* `ok` is the run in which every request succeeds.
* `Can F x a` says that `x` may end in `a` when requests may be refused only if `F`. At `F := True`
  this is "some schedule ends in `a`" (`can_iff_under`), at `F := False` it is "the failure-free run
  ends in `a`" (`can_false`). Proofs use `Can` with `F` left open, because it splits over `bind` and
  because one lemma "the answer is right, or `F` and it reports out-of-memory" then covers both.
* `Sound oom x` is the property such a program wants: whatever fails, the answer is the one of the
  run without failures, or one of the answers `oom` admits ("I ran out of memory").

The second half lifts the same notions to `ExceptT ε Alloc`, the shape of a function that returns a
status: there an out-of-memory error travels outwards through `bind` by itself, so soundness of a
sequence is soundness of its parts (`.bind`).
-/

/-- A tree of allocation requests with results at its leaves. -/
inductive Alloc (α : Type) : Type where
  | ret (a : α)
  | ask (k : Bool → Alloc α)

namespace Alloc

variable {α β γ : Type} {F : Prop}

protected def bind : Alloc α → (α → Alloc β) → Alloc β
  | ret a, f => f a
  | ask k, f => ask fun b => (k b).bind f

instance : Monad Alloc where
  pure := ret
  bind := Alloc.bind

protected theorem bind_ret (x : Alloc α) : x.bind ret = x := by
  induction x with
  | ret a => rfl
  | ask k ih => exact congrArg ask (funext ih)

protected theorem bind_assoc (x : Alloc α) (f : α → Alloc β) (g : β → Alloc γ) :
    (x.bind f).bind g = x.bind fun a => (f a).bind g := by
  induction x with
  | ret a => rfl
  | ask k ih => exact congrArg ask (funext ih)

instance : LawfulMonad Alloc :=
  LawfulMonad.mk' Alloc (fun x => Alloc.bind_ret x) (fun _ _ => rfl)
    (fun x f g => Alloc.bind_assoc x f g)

/-- One request; the answer says whether a block was handed out. -/
def request : Alloc Bool := ask ret

/-! ## Runs -/

/-- The run against schedule `σ`: request number `i` (counted from this point) succeeds iff `σ i`. -/
def under : Alloc α → (Nat → Bool) → α
  | ret a, _ => a
  | ask k, σ => (k (σ 0)).under fun i => σ (i + 1)

/-- The run in which no request fails. -/
def ok : Alloc α → α
  | ret a => a
  | ask k => (k true).ok

/-- `x` may end in `a` when a request may be refused only if `F`. -/
def Can (F : Prop) : Alloc α → α → Prop
  | ret b, a => b = a
  | ask k, a => (k true).Can F a ∨ F ∧ (k false).Can F a

theorem under_all_true (x : Alloc α) : (x.under fun _ => true) = x.ok := by
  induction x with
  | ret a => rfl
  | ask k ih => exact ih true

variable {x : Alloc α} {a : α}

theorem can_false : x.Can False a ↔ x.ok = a := by
  induction x with
  | ret b => exact Iff.rfl
  | ask k ih =>
    constructor
    · rintro (h | ⟨h, -⟩)
      · exact (ih true).mp h
      · exact h.elim
    · intro h; exact Or.inl ((ih true).mpr h)

theorem can_iff_under : x.Can True a ↔ ∃ σ, x.under σ = a := by
  induction x with
  | ret b => exact ⟨fun h => ⟨fun _ => true, h⟩, fun ⟨_, h⟩ => h⟩
  | ask k ih =>
    constructor
    · -- the answer taken first is put in front of the schedule of the rest
      have front : ∀ b, (k b).Can True a → ∃ σ, (ask k).under σ = a := by
        intro b hb
        obtain ⟨σ, hσ⟩ := (ih b).mp hb
        exact ⟨fun i => if i = 0 then b else σ (i - 1), by simpa [under] using hσ⟩
      rintro (h | ⟨-, h⟩)
      · exact front true h
      · exact front false h
    · rintro ⟨σ, hσ⟩
      have h : (k (σ 0)).Can True a := (ih (σ 0)).mpr ⟨_, hσ⟩
      cases hb : σ 0 with
      | true => rw [hb] at h; exact Or.inl h
      | false => rw [hb] at h; exact Or.inr ⟨trivial, h⟩

theorem can_under (x : Alloc α) (σ : Nat → Bool) : x.Can True (x.under σ) :=
  can_iff_under.2 ⟨σ, rfl⟩

theorem Can.mono {G : Prop} (hFG : F → G) (h : x.Can F a) : x.Can G a := by
  induction x with
  | ret b => exact h
  | ask k ih =>
    rcases h with h | ⟨hF, h⟩
    · exact Or.inl (ih true h)
    · exact Or.inr ⟨hFG hF, ih false h⟩

theorem can_ok (x : Alloc α) : x.Can F x.ok := (can_false.2 rfl).mono False.elim

@[simp] theorem ok_ret (a : α) : (ret a).ok = a := rfl
@[simp] theorem ok_pure (a : α) : (pure a : Alloc α).ok = a := rfl
@[simp] theorem ok_request : request.ok = true := rfl

@[simp] theorem ok_bind (x : Alloc α) (f : α → Alloc β) : (x >>= f).ok = (f x.ok).ok := by
  induction x with
  | ret a => rfl
  | ask k ih => exact ih true

@[simp] theorem ok_map (g : α → β) (x : Alloc α) : (g <$> x).ok = g x.ok := by
  rw [map_eq_pure_bind, ok_bind, ok_pure]

@[simp] theorem can_pure {a b : α} : (pure a : Alloc α).Can F b ↔ a = b := Iff.rfl

theorem can_request {b : Bool} : request.Can F b ↔ b = true ∨ F ∧ b = false := by
  show (true = b ∨ F ∧ false = b) ↔ _
  rw [eq_comm, @eq_comm _ false]

theorem can_bind {f : α → Alloc β} {b : β} :
    (x >>= f).Can F b ↔ ∃ a, x.Can F a ∧ (f a).Can F b := by
  induction x with
  | ret a =>
    constructor
    · intro h; exact ⟨a, rfl, h⟩
    · rintro ⟨_, rfl, h⟩; exact h
  | ask k ih =>
    constructor
    · rintro (h | ⟨hF, h⟩)
      · obtain ⟨a, ha, hb⟩ := (ih true).mp h
        exact ⟨a, Or.inl ha, hb⟩
      · obtain ⟨a, ha, hb⟩ := (ih false).mp h
        exact ⟨a, Or.inr ⟨hF, ha⟩, hb⟩
    · rintro ⟨a, ha | ⟨hF, ha⟩, hb⟩
      · exact Or.inl ((ih true).mpr ⟨a, ha, hb⟩)
      · exact Or.inr ⟨hF, (ih false).mpr ⟨a, ha, hb⟩⟩

/-- What follows a computation matters only where it may end. -/
theorem bind_congr_of_can {f g : α → Alloc β} (h : ∀ a, x.Can True a → f a = g a) :
    x >>= f = x >>= g := by
  induction x with
  | ret a => exact h a rfl
  | ask k ih =>
    refine congrArg ask (funext fun b => ih b fun a ha => h a ?_)
    cases b with
    | true => exact Or.inl ha
    | false => exact Or.inr ⟨trivial, ha⟩

theorem can_map {g : α → β} {b : β} : (g <$> x).Can F b ↔ ∃ a, x.Can F a ∧ g a = b := by
  rw [map_eq_pure_bind, can_bind]; rfl

/-! ## Soundness under failures -/

/-- Whatever the allocator does, `x` answers as without failures, or admits (`oom`) that memory ran
    out. -/
def Sound (oom : α → Prop) (x : Alloc α) : Prop := ∀ a, x.Can True a → a = x.ok ∨ oom a

variable {oom : α → Prop}

theorem sound_iff_under : Sound oom x ↔ ∀ σ, x.under σ = x.ok ∨ oom (x.under σ) := by
  constructor
  · intro h σ; exact h _ (can_under x σ)
  · rintro h a ha
    obtain ⟨σ, rfl⟩ := can_iff_under.1 ha
    exact h σ

/-- The way soundness is proved of a leaf function: its spec lemma holds at every `F`. -/
theorem Sound.of_can {v : α} (h : ∀ (F : Prop) a, x.Can F a → a = v ∨ F ∧ oom a) : Sound oom x := by
  have hv : x.ok = v := by
    rcases h False x.ok x.can_ok with h' | ⟨h', -⟩
    · exact h'
    · exact h'.elim
  intro a ha
  rw [hv]
  exact (h True a ha).imp id And.right

theorem Sound.pure (a : α) : Sound oom (pure a : Alloc α) :=
  fun _ h => Or.inl h.symm

/-- **Sequencing.** Where the first part admits to running out, so does the whole. -/
theorem Sound.bind {bad : α → Prop} {oom : β → Prop} {f : α → Alloc β}
    (hx : Sound bad x) (hbad : ∀ a, bad a → ∀ b, (f a).Can True b → oom b)
    (hf : Sound oom (f x.ok)) : Sound oom (x >>= f) := by
  intro b hb
  rw [ok_bind]
  obtain ⟨a, ha, hb⟩ := can_bind.1 hb
  rcases hx a ha with rfl | ha
  · exact hf b hb
  · exact Or.inr (hbad a ha b hb)

variable {x : Alloc (Option α)}

/-- A block that is handed out is the one of the run without failures. -/
theorem Sound.some_eq (hx : x.Sound (· = none)) (h : x.Can F (some a)) : x.ok = some a := by
  rcases hx _ (h.mono fun _ => trivial) with h | h
  · exact h.symm
  · cases h

/-- A block that is not there ends the computation with nothing. -/
theorem Sound.bind_none {f : Option α → Alloc (Option β)}
    (hx : Sound (· = none) x) (hnone : f none = Pure.pure none)
    (hf : ∀ a, x.ok = some a → Sound (· = none) (f (some a))) : Sound (· = none) (x >>= f) := by
  refine Sound.bind hx ?_ ?_
  · rintro _ rfl b hb
    rw [hnone] at hb
    exact (can_pure.1 hb).symm
  · cases h : x.ok with
    | none => rw [hnone]; exact Sound.pure none
    | some a => exact hf a h

theorem sound_request : Sound (· = false) request :=
  fun _ h => (can_request.1 h).imp id And.right

/-! ## Blocks with known contents -/

/-- `x` hands out `a`, or nothing, the latter only when a request is refused. -/
def Delivers (x : Alloc (Option α)) (a : α) : Prop :=
  ∀ (F : Prop) r, x.Can F r → r = some a ∨ F ∧ r = none

theorem Delivers.ok (h : x.Delivers a) : x.ok = some a := by
  rcases h False x.ok x.can_ok with h | ⟨h, -⟩
  · exact h
  · exact h.elim

end Alloc

/-! ## Computations that also return an error -/

theorem Except.ok_bind {ε α β : Type} (a : α) (f : α → Except ε β) : (Except.ok a >>= f) = f a :=
  rfl

theorem Except.bind_eq_ok_iff {ε α β : Type} {x : Except ε α} {f : α → Except ε β} {b : β} :
    x >>= f = .ok b ↔ ∃ a, x = .ok a ∧ f a = .ok b := by
  cases x with
  | error e => exact ⟨nofun, nofun⟩
  | ok a => exact ⟨fun h => ⟨a, rfl, h⟩, fun ⟨_, h, hf⟩ => by injection h with h; rw [h]; exact hf⟩

/-- A function that returns a value or an error, and allocates on the way. -/
abbrev AllocE (ε α : Type) : Type := ExceptT ε Alloc α

namespace AllocE

variable {ε α β : Type} {F : Prop}

/-- The result of the run in which no request fails. -/
def ok (x : AllocE ε α) : Except ε α := Alloc.ok x.run

/-- The result of the run against schedule `σ`. -/
def under (x : AllocE ε α) (σ : Nat → Bool) : Except ε α := Alloc.under x.run σ

/-- `x` may end in `r` when a request may be refused only if `F`. -/
def Can (F : Prop) (x : AllocE ε α) (r : Except ε α) : Prop := Alloc.Can F x.run r

theorem can_ok (x : AllocE ε α) : x.Can F x.ok := Alloc.can_ok x.run

variable {x : AllocE ε α} {r : Except ε α}

theorem can_false : x.Can False r ↔ x.ok = r := Alloc.can_false

theorem can_iff_under : x.Can True r ↔ ∃ σ, x.under σ = r :=
  Alloc.can_iff_under

@[simp] theorem ok_pure (a : α) : ok (pure a : AllocE ε α) = .ok a := rfl
@[simp] theorem ok_throw (e : ε) : ok (throw e : AllocE ε α) = .error e := rfl
@[simp] theorem ok_lift (x : Alloc α) : ok (liftM x : AllocE ε α) = .ok x.ok := by
  show Alloc.ok (Except.ok <$> x) = _
  rw [Alloc.ok_map]

theorem run_bind (x : AllocE ε α) (f : α → AllocE ε β) :
    (x >>= f).run = x.run >>= fun r => match r with
      | .ok a => (f a).run
      | .error e => pure (.error e) := by
  rw [ExceptT.run_bind]; rfl

@[simp] theorem ok_bind (x : AllocE ε α) (f : α → AllocE ε β) :
    ok (x >>= f) = x.ok.bind fun a => ok (f a) := by
  unfold ok
  rw [run_bind, Alloc.ok_bind]
  cases Alloc.ok x.run <;> rfl

variable {f : α → AllocE ε β}

theorem ok_bind_eq_ok {b : β} : ok (x >>= f) = .ok b ↔ ∃ a, x.ok = .ok a ∧ ok (f a) = .ok b := by
  rw [ok_bind]
  exact Except.bind_eq_ok_iff

/-- The first part is known to succeed. -/
theorem ok_bind_of_ok (h : x.ok = .ok a) : ok (x >>= f) = ok (f a) := by
  rw [ok_bind, h]; rfl

variable {e : ε}

/-- The first part is known to fail. -/
theorem ok_bind_of_error (h : x.ok = .error e) : ok (x >>= f) = .error e := by
  rw [ok_bind, h]; rfl

@[simp] theorem can_pure : Can F (pure a : AllocE ε α) r ↔ .ok a = r :=
  Iff.rfl
@[simp] theorem can_throw : Can F (throw e : AllocE ε α) r ↔ .error e = r :=
  Iff.rfl

theorem can_lift {x : Alloc α} {r : Except ε α} :
    Can F (liftM x : AllocE ε α) r ↔ ∃ a, x.Can F a ∧ Except.ok a = r := by
  show Alloc.Can F (Except.ok <$> x) r ↔ _
  exact Alloc.can_map

theorem can_bind {r : Except ε β} : Can F (x >>= f) r ↔
      (∃ e, x.Can F (.error e) ∧ r = .error e) ∨ ∃ a, x.Can F (.ok a) ∧ (f a).Can F r := by
  unfold Can
  rw [run_bind, Alloc.can_bind]
  constructor
  · rintro ⟨(e | a), ha, hr⟩
    · exact Or.inl ⟨e, ha, hr.symm⟩
    · exact Or.inr ⟨a, ha, hr⟩
  · rintro (⟨e, he, rfl⟩ | ⟨a, ha, hr⟩)
    · exact ⟨.error e, he, rfl⟩
    · exact ⟨.ok a, ha, hr⟩

theorem can_bind_ok {b : β} :
    Can F (x >>= f) (.ok b) ↔ ∃ a, x.Can F (.ok a) ∧ (f a).Can F (.ok b) := by
  rw [can_bind]
  constructor
  · rintro (⟨e, -, h⟩ | h)
    · cases h
    · exact h
  · exact Or.inr

theorem can_bind_lift {γ : Type} {x : Alloc γ} {f : γ → AllocE ε β} {r : Except ε β} :
    Can F ((liftM x : AllocE ε γ) >>= f) r ↔ ∃ c, x.Can F c ∧ (f c).Can F r := by
  rw [can_bind]
  constructor
  · rintro (⟨e, he, -⟩ | ⟨c, hc, hr⟩)
    · obtain ⟨c, -, h⟩ := can_lift.1 he
      cases h
    · obtain ⟨c', hc', h⟩ := can_lift.1 hc
      injection h with h; subst h
      exact ⟨c', hc', hr⟩
  · rintro ⟨c, hc, hr⟩
    exact Or.inr ⟨c, can_lift.2 ⟨c, hc, rfl⟩, hr⟩

/-- The same value, or errors that look the same through `view`. -/
def Agrees {γ : Type} (view : ε → γ) : Except ε α → Except ε α → Prop
  | .ok a, .ok b => a = b
  | .error e, .error e' => view e = view e'
  | _, _ => False

section Agrees

variable {γ : Type} {view : ε → γ}

theorem Agrees.refl : ∀ r : Except ε α, Agrees view r r
  | .ok _ => rfl
  | .error _ => rfl

theorem agrees_ok : Agrees view (.ok a) r ↔ r = .ok a := by
  cases r with
  | error e => exact ⟨False.elim, nofun⟩
  | ok b => exact ⟨fun h => congrArg Except.ok h.symm, fun h => by injection h with h; exact h.symm⟩

/-- Two computations agree when their first parts do, and what follows does on the common value. -/
theorem Agrees.bind {x y : AllocE ε α} {f g : α → AllocE ε β} (h : Agrees view x.ok y.ok)
    (hfg : ∀ a, y.ok = .ok a → Agrees view (f a).ok (g a).ok) :
    Agrees view (x >>= f).ok (y >>= g).ok := by
  rw [ok_bind, ok_bind]
  cases hx : x.ok with
  | ok a =>
    rw [hx] at h
    have hy := agrees_ok.1 h
    rw [hy]
    exact hfg a hy
  | error e =>
    cases hy : y.ok with
    | ok b => rw [hx, hy] at h; exact h.elim
    | error e' => rw [hx, hy] at h; exact h

end Agrees

/-- Whatever the allocator does, `x` answers as without failures — up to what `view` hides of an
    error — or reports an error that `oom` admits. -/
def Sound {γ : Type} (oom : ε → Prop) (view : ε → γ) (x : AllocE ε α) : Prop :=
  ∀ r, x.Can True r → Agrees view r x.ok ∨ ∃ e, oom e ∧ r = .error e

section Sound

variable {γ : Type} {oom : ε → Prop} {view : ε → γ}

/-- A result under refusals is the result without. -/
theorem Sound.ok_eq (hx : Sound oom view x) (h : x.Can F (.ok a)) : x.ok = .ok a := by
  rcases hx _ (Alloc.Can.mono (fun _ => trivial) h) with h | ⟨_, _, h⟩
  · exact agrees_ok.1 h
  · cases h

theorem Sound.pure (a : α) : Sound oom view (pure a : AllocE ε α) := by
  rintro r h
  rw [← can_pure.1 h]
  exact Or.inl (Agrees.refl _)

theorem Sound.throw (e : ε) : Sound oom view (throw e : AllocE ε α) := by
  rintro r h
  rw [← can_throw.1 h]
  exact Or.inl (Agrees.refl _)

/-- **Sequencing.** An error of the first part is the answer of the whole, so nothing is asked about
    the continuation there. -/
theorem Sound.bind (hx : Sound oom view x)
    (hf : ∀ a, x.ok = .ok a → Sound oom view (f a)) : Sound oom view (x >>= f) := by
  intro r hr
  rw [ok_bind]
  rcases can_bind.1 hr with ⟨e, he, rfl⟩ | ⟨a, ha, hr⟩
  · rcases hx _ he with h | ⟨e', he', h⟩
    · cases hok : x.ok with
      | ok a => rw [hok] at h; exact h.elim
      | error e' => rw [hok] at h; exact Or.inl h
    · injection h with h; subst h
      exact Or.inr ⟨e, he', rfl⟩
  · rcases hx _ ha with h | ⟨e', _, h⟩
    · cases hok : x.ok with
      | ok a' =>
        rw [hok] at h
        obtain rfl : a = a' := h
        exact hf a hok r hr
      | error e' => rw [hok] at h; exact h.elim
    · cases h

variable {δ : Type}

/-- Going on from the answer of a part that allocates; on the answers that mean out of memory the
    rest reports just that. -/
theorem Sound.bind_lift {bad : δ → Prop} {x : Alloc δ} {f : δ → AllocE ε β}
    (hx : x.Sound bad) (hbad : ∀ d, bad d → ∃ e, oom e ∧ f d = throwThe ε e)
    (hf : Sound oom view (f x.ok)) : Sound oom view ((liftM x : AllocE ε δ) >>= f) := by
  intro r hr
  rw [ok_bind_of_ok (ok_lift x)]
  obtain ⟨d, hd, hr⟩ := can_bind_lift.1 hr
  rcases hx d hd with rfl | hd
  · exact hf r hr
  · obtain ⟨e, he, hthrow⟩ := hbad d hd
    rw [hthrow] at hr
    exact Or.inr ⟨e, he, (can_throw.1 hr).symm⟩

/-- Reading an optional block: `none` is an out-of-memory error, anything else goes on. -/
theorem Sound.bind_option {x : Alloc (Option δ)} {f : Option δ → AllocE ε β}
    (he : oom e) (hx : x.Sound (· = none)) (hnone : f none = throwThe ε e)
    (hf : Sound oom view (f x.ok)) : Sound oom view ((liftM x : AllocE ε (Option δ)) >>= f) :=
  Sound.bind_lift hx (fun _ hd => ⟨e, he, hd ▸ hnone⟩) hf

/-- Two optional blocks, both asked for before either is looked at. -/
theorem Sound.bind_both {δ ζ : Type} {x : Alloc (Option δ)} {y : Alloc (Option ζ)}
    {f : Option δ → Option ζ → AllocE ε β} (he : oom e) (hx : x.Sound (· = none))
    (hy : y.Sound (· = none)) (hleft : ∀ b, f none b = throwThe ε e)
    (hright : ∀ a, f a none = throwThe ε e) (hf : Sound oom view (f x.ok y.ok)) :
    Sound oom view ((liftM x : AllocE ε (Option δ)) >>= fun a =>
      (liftM y : AllocE ε (Option ζ)) >>= fun b => f a b) := by
  intro r hr
  rw [ok_bind_of_ok (ok_lift x), ok_bind_of_ok (ok_lift y)]
  obtain ⟨a, ha, hr⟩ := can_bind_lift.1 hr
  obtain ⟨b, hb, hr⟩ := can_bind_lift.1 hr
  rcases hx a ha with rfl | rfl
  · rcases hy b hb with rfl | rfl
    · exact hf r hr
    · rw [hright] at hr
      exact Or.inr ⟨e, he, (can_throw.1 hr).symm⟩
  · rw [hleft] at hr
    exact Or.inr ⟨e, he, (can_throw.1 hr).symm⟩

end Sound

/-! ### Runs that stray -/

/-- How the outcomes of `x'` compare with the run of `x` without failures: they agree, admit that memory
    ran out, or are errors that `P` tells. All of `P` does occur, and where there is nothing of it a
    result of `x` does. `x'` is `x` under refused requests, or in another environment. -/
structure Strays {γ : Type} (oom : ε → Prop) (view : ε → γ) (F : Prop) (x' x : AllocE ε α)
    (P : γ → Prop) : Prop where
  outcome : ∀ r, x'.Can F r → Agrees view r x.ok ∨ (F ∧ ∃ e, oom e ∧ r = .error e) ∨
    ∃ e, P (view e) ∧ r = .error e
  reach : ∀ c, P c → ∃ e, view e = c ∧ x'.Can F (.error e)
  arrive : (∀ c, ¬ P c) → ∀ a, x.ok = .ok a → x'.Can F (.ok a)

section Strays

variable {γ : Type} {oom : ε → Prop} {view : ε → γ} {x' : AllocE ε α} {f' : α → AllocE ε β}
  {P P' : γ → Prop} {Q : α → γ → Prop}

theorem Strays.of_sound (hx : Sound oom view x) : Strays oom view F x x fun _ => False where
  outcome r hr := by
    by_cases hF : F
    · exact (hx r (Alloc.Can.mono (fun _ => trivial) hr)).imp_right fun h => Or.inl ⟨hF, h⟩
    · rw [← can_false.1 (Alloc.Can.mono hF hr)]
      exact Or.inl (Agrees.refl _)
  reach _ h := h.elim
  arrive _ a h := h ▸ can_ok x

theorem Strays.congr (hx : Strays oom view F x' x P) (h : ∀ c, P c ↔ P' c) :
    Strays oom view F x' x P' := by
  obtain rfl : P = P' := funext fun c => propext (h c)
  exact hx

/-- A result is the one without refusals. -/
theorem Strays.ok_eq (hx : Strays oom view F x' x P) {a : α} (h : x'.Can F (.ok a)) : x.ok = .ok a := by
  rcases hx.outcome _ h with h | ⟨-, _, -, h⟩ | ⟨_, -, h⟩
  · exact agrees_ok.1 h
  · cases h
  · cases h

/-- **Sequencing.** The first part strays, or the second does once the first has arrived. -/
theorem Strays.bind (hx : Strays oom view F x' x P)
    (hf : ∀ a, x.ok = .ok a → Strays oom view F (f' a) (f a) (Q a)) :
    Strays oom view F (x' >>= f') (x >>= f)
      fun c => P c ∨ ∃ a, x.ok = .ok a ∧ x'.Can F (.ok a) ∧ Q a c where
  outcome r hr := by
    rcases can_bind.1 hr with ⟨e, he, rfl⟩ | ⟨a, ha, hr⟩
    · rcases hx.outcome _ he with h | ⟨hF, e', he', h⟩ | ⟨e', he', h⟩
      · cases hok : x.ok with
        | ok a => rw [hok] at h; exact h.elim
        | error e' =>
          rw [hok] at h
          rw [ok_bind_of_error hok]
          exact Or.inl h
      · exact Or.inr (Or.inl ⟨hF, e', he', by injection h with h; rw [h]⟩)
      · exact Or.inr (Or.inr ⟨e', Or.inl he', by injection h with h; rw [h]⟩)
    · have hok := hx.ok_eq ha
      rw [ok_bind_of_ok hok]
      exact ((hf a hok).outcome r hr).imp_right fun h => h.imp_right fun ⟨e, he, heq⟩ =>
        ⟨e, Or.inr ⟨a, hok, ha, he⟩, heq⟩
  reach c hc := by
    rcases hc with hc | ⟨a, hok, ha, hc⟩
    · obtain ⟨e, he, hcan⟩ := hx.reach c hc
      exact ⟨e, he, can_bind.2 (Or.inl ⟨e, hcan, rfl⟩)⟩
    · obtain ⟨e, he, hcan⟩ := (hf a hok).reach c hc
      exact ⟨e, he, can_bind.2 (Or.inr ⟨a, ha, hcan⟩)⟩
  arrive hnone b hb := by
    obtain ⟨a, hok, hb⟩ := ok_bind_eq_ok.1 hb
    have ha := hx.arrive (fun c hc => hnone c (Or.inl hc)) a hok
    exact can_bind.2 (Or.inr ⟨a, ha,
      (hf a hok).arrive (fun c hc => hnone c (Or.inr ⟨a, hok, ha, hc⟩)) b hb⟩)

/-- After a part that does not stray. -/
theorem Strays.after (hx : Sound oom view x)
    (hf : ∀ a, x.ok = .ok a → Strays oom view F (f' a) (f a) (Q a)) :
    Strays oom view F (x >>= f') (x >>= f) fun c => ∃ a, x.ok = .ok a ∧ Q a c := by
  refine ((Strays.of_sound hx).bind hf).congr fun c => ?_
  rw [false_or]
  exact exists_congr fun a => ⟨fun h => ⟨h.1, h.2.2⟩, fun h => ⟨h.1, h.1 ▸ can_ok x, h.2⟩⟩

/-- Before a part that does not stray. -/
theorem Strays.before (hx : Strays oom view F x' x P) (hf : ∀ a, x.ok = .ok a → Sound oom view (f a)) :
    Strays oom view F (x' >>= f) (x >>= f) P := by
  refine (hx.bind fun a ha => .of_sound (hf a ha)).congr fun c => ?_
  exact or_iff_left fun ⟨_, _, _, h⟩ => h

end Strays

/-! ### The errors a computation can end in -/

/-- Every error of `x`, whatever the allocator does, satisfies `P`. -/
def Raises (P : ε → Prop) (x : AllocE ε α) : Prop := ∀ e, x.Can True (.error e) → P e

section Raises

variable {P : ε → Prop} {x : AllocE ε α} {f : α → AllocE ε β}

theorem Raises.pure (a : α) : Raises P (pure a : AllocE ε α) := nofun

theorem Raises.throw (h : P e) : Raises P (throw e : AllocE ε α) := by
  intro e' he
  injection can_throw.1 he with he
  exact he ▸ h

theorem Raises.bind (hx : Raises P x) (hf : ∀ a, Raises P (f a)) : Raises P (x >>= f) := by
  intro e he
  rcases can_bind.1 he with ⟨e', he', h⟩ | ⟨a, -, ha⟩
  · injection h with h
    exact hx e (h ▸ he')
  · exact hf a e ha

/-- A part that only allocates raises nothing itself. -/
theorem Raises.bind_lift {y : Alloc δ} {g : δ → AllocE ε β} (hg : ∀ d, Raises P (g d)) :
    Raises P ((liftM y : AllocE ε δ) >>= g) := by
  intro e he
  obtain ⟨d, -, hd⟩ := can_bind_lift.1 he
  exact hg d e hd

theorem Raises.of_ok (hx : Raises P x) (h : x.ok = .error e) : P e :=
  hx e (h ▸ can_ok x)

end Raises

/-! ### What holds of every result -/

/-- Every result of `x`, whatever the allocator does, satisfies `Q`. -/
def Ensures (Q : α → Prop) (x : AllocE ε α) : Prop := ∀ a, x.Can True (.ok a) → Q a

section Ensures

variable {Q : α → Prop} {R : β → Prop} {x : AllocE ε α} {f : α → AllocE ε β}

theorem Ensures.pure (h : Q a) : Ensures Q (pure a : AllocE ε α) := by
  intro b hb
  injection can_pure.1 hb with hb
  exact hb ▸ h

theorem Ensures.throw (e : ε) : Ensures Q (throw e : AllocE ε α) := nofun

theorem Ensures.bind (hx : Ensures Q x) (hf : ∀ a, Q a → Ensures R (f a)) : Ensures R (x >>= f) := by
  intro b hb
  obtain ⟨a, ha, hb⟩ := can_bind_ok.1 hb
  exact hf a (hx a ha) b hb

/-- Nothing need be known of the first part. -/
theorem Ensures.rest (hf : ∀ a, Ensures R (f a)) : Ensures R (x >>= f) :=
  Ensures.bind (Q := fun _ => True) (fun _ _ => trivial) fun a _ => hf a

theorem Ensures.bind_lift {y : Alloc δ} {g : δ → AllocE ε β}
    (hg : ∀ d, y.Can True d → Ensures R (g d)) : Ensures R ((liftM y : AllocE ε δ) >>= g) := by
  intro b hb
  obtain ⟨d, hd, hb⟩ := can_bind_lift.1 hb
  exact hg d hd b hb

theorem Ensures.mono {S : α → Prop} (hx : Ensures Q x) (hQS : ∀ a, Q a → S a) : Ensures S x :=
  fun a ha => hQS a (hx a ha)

theorem Ensures.of_can (hx : Ensures Q x) (h : x.Can F (.ok a)) : Q a :=
  hx a (Alloc.Can.mono (fun _ => trivial) h)

end Ensures

/-! ### Computations with a known result -/

/-- Every outcome is the result `a`, or an error that `bad` admits. -/
def Yields (F : Prop) (bad : ε → Prop) (x : AllocE ε α) (a : α) : Prop :=
  ∀ r, x.Can F r → r = .ok a ∨ ∃ e, bad e ∧ r = .error e

section Yields

variable {bad bad' : ε → Prop} {x : AllocE ε α} {f : α → AllocE ε β} {a : α} {b : β}

theorem Yields.pure (a : α) : Yields F bad (pure a : AllocE ε α) a := fun _ h => Or.inl h.symm

theorem Yields.mono (h : Yields F bad x a) (hbad : ∀ e, bad e → bad' e) : Yields F bad' x a :=
  fun r hr => (h r hr).imp id fun ⟨e, he, hr⟩ => ⟨e, hbad e he, hr⟩

theorem Yields.bind (hx : Yields F bad x a) (hf : Yields F bad (f a) b) :
    Yields F bad (x >>= f) b := by
  intro r hr
  rcases can_bind.1 hr with ⟨e, he, rfl⟩ | ⟨a', ha', hr⟩
  · rcases hx _ he with h | ⟨e', he', h⟩
    · cases h
    · injection h with h; subst h
      exact Or.inr ⟨e, he', rfl⟩
  · rcases hx _ ha' with h | ⟨e', -, h⟩
    · injection h with h; subst h
      exact hf r hr
    · cases h

/-- A block that is handed out unless a request is refused. -/
theorem Yields.bind_option {γ : Type} {x : Alloc (Option γ)} {f : Option γ → AllocE ε β} {c : γ}
    (hx : ∀ r, x.Can F r → r = some c ∨ F ∧ r = none)
    (hnone : F → ∃ e, bad e ∧ f none = throwThe ε e) (hf : Yields F bad (f (some c)) b) :
    Yields F bad ((liftM x : AllocE ε (Option γ)) >>= f) b := by
  intro r hr
  obtain ⟨c', hc', hr⟩ := can_bind_lift.1 hr
  rcases hx c' hc' with rfl | ⟨hF, rfl⟩
  · exact hf r hr
  · obtain ⟨e, he, hfe⟩ := hnone hF
    rw [hfe] at hr
    exact Or.inr ⟨e, he, (can_throw.1 hr).symm⟩

/-- Where no error is admitted the failure-free run ends in the result. -/
theorem Yields.ok_eq (h : Yields False bad x a) (hbad : ∀ e, ¬ bad e) : x.ok = .ok a := by
  rcases h _ (can_ok x) with h | ⟨e, he, -⟩
  · exact h
  · exact absurd he (hbad e)

theorem Yields.can_ok (h : Yields False bad x a) (hbad : ∀ e, ¬ bad e) : x.Can F (.ok a) := by
  rw [← h.ok_eq hbad]
  exact AllocE.can_ok x

end Yields

end AllocE
