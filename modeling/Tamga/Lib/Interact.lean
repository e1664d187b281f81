import Mathlib.Data.Stream.Init
import Tamga.Lib.Alloc

/-!
# `Lib.Interact` — computations that also talk to the outside

A computation of `Lib.Alloc` extended by one more node: it hands a request `r : ρ` to its environment
and goes on with the answer `w : ω`. The environment is a sequence of answers; the **trace** of a run
is the list of requests with the answers they got.

* `Runs F x answers trace a`: against `answers`, `x` may end in `a` with `trace`, when allocations may
  be refused only if `F`.
* `run x answers` is the run in which no allocation is refused (`runs_false`), `under` the run against
  a schedule of refusals (`runs_iff_under`).

* `Sends p x`: every request of every run satisfies `p`.

A tree is finite along every path, so every run ends: what a program is proved to do in `Runs`, it does.
-/

/-- A tree of allocations and requests to the environment, with results at its leaves. -/
inductive Interact (ρ ω α : Type) : Type where
  | ret (a : α)
  | ask (k : Bool → Interact ρ ω α)
  | call (r : ρ) (k : ω → Interact ρ ω α)

namespace Interact

variable {ρ ω α β γ : Type} {F : Prop}

protected def bind : Interact ρ ω α → (α → Interact ρ ω β) → Interact ρ ω β
  | ret a, f => f a
  | ask k, f => ask fun b => (k b).bind f
  | call r k, f => call r fun w => (k w).bind f

instance : Monad (Interact ρ ω) where
  pure := ret
  bind := Interact.bind

protected theorem bind_ret (x : Interact ρ ω α) : x.bind ret = x := by
  induction x with
  | ret a => rfl
  | ask k ih => exact congrArg ask (funext ih)
  | call r k ih => exact congrArg (call r) (funext ih)

protected theorem bind_assoc (x : Interact ρ ω α) (f : α → Interact ρ ω β)
    (g : β → Interact ρ ω γ) : (x.bind f).bind g = x.bind fun a => (f a).bind g := by
  induction x with
  | ret a => rfl
  | ask k ih => exact congrArg ask (funext ih)
  | call r k ih => exact congrArg (call r) (funext ih)

instance : LawfulMonad (Interact ρ ω) :=
  LawfulMonad.mk' (Interact ρ ω) (fun x => Interact.bind_ret x) (fun _ _ => rfl)
    (fun x f g => Interact.bind_assoc x f g)

/-- A part that only allocates. -/
def ofAlloc : Alloc α → Interact ρ ω α
  | .ret a => ret a
  | .ask k => ask fun b => ofAlloc (k b)

theorem ofAlloc_bind (x : Alloc α) (f : α → Alloc β) :
    (ofAlloc (x >>= f) : Interact ρ ω β) = ofAlloc x >>= fun a => ofAlloc (f a) := by
  induction x with
  | ret a => rfl
  | ask k ih => exact congrArg ask (funext ih)

/-- One request. -/
def perform (r : ρ) : Interact ρ ω ω := call r ret

/-! ## Runs -/

/-- `x` may end in `a` with `trace` against `answers`, allocations refused only if `F`. -/
def Runs (F : Prop) : Interact ρ ω α → Stream' ω → List (ρ × ω) → α → Prop
  | ret a, _, trace, b => trace = [] ∧ a = b
  | ask k, answers, trace, b => (k true).Runs F answers trace b ∨ F ∧ (k false).Runs F answers trace b
  | call r k, answers, trace, b =>
      ∃ rest, trace = (r, answers.head) :: rest ∧ (k answers.head).Runs F answers.tail rest b

/-- The run in which no allocation is refused. -/
def run : Interact ρ ω α → Stream' ω → List (ρ × ω) × α
  | ret a, _ => ([], a)
  | ask k, answers => (k true).run answers
  | call r k, answers =>
      ((r, answers.head) :: ((k answers.head).run answers.tail).1,
        ((k answers.head).run answers.tail).2)

/-- The run against a schedule of refusals. -/
def under : Interact ρ ω α → (ℕ → Bool) → Stream' ω → List (ρ × ω) × α
  | ret a, _, _ => ([], a)
  | ask k, σ, answers => (k (σ 0)).under (fun i => σ (i + 1)) answers
  | call r k, σ, answers =>
      ((r, answers.head) :: ((k answers.head).under σ answers.tail).1,
        ((k answers.head).under σ answers.tail).2)

variable {answers : Stream' ω} {trace : List (ρ × ω)}

variable {x : Interact ρ ω α}

theorem runs_false {a : α} : x.Runs False answers trace a ↔ x.run answers = (trace, a) := by
  induction x generalizing answers trace with
  | ret b =>
    constructor
    · rintro ⟨rfl, rfl⟩; rfl
    · intro h; injection h with h h'; exact ⟨h.symm, h'⟩
  | ask k ih =>
    constructor
    · rintro (h | ⟨h, -⟩)
      · exact (ih true).mp h
      · exact h.elim
    · intro h; exact Or.inl ((ih true).mpr h)
  | call r k ih =>
    constructor
    · rintro ⟨rest, rfl, h⟩
      rw [run, (ih _).mp h]
    · intro h
      injection h with h h'
      exact ⟨_, h.symm, (ih _).mpr (Prod.ext rfl h')⟩

theorem runs_run (x : Interact ρ ω α) (answers : Stream' ω) :
    x.Runs False answers (x.run answers).1 (x.run answers).2 :=
  runs_false.2 rfl

theorem Runs.mono {G : Prop} (hFG : F → G) {a : α}
    (h : x.Runs F answers trace a) : x.Runs G answers trace a := by
  induction x generalizing answers trace with
  | ret b => exact h
  | ask k ih =>
    rcases h with h | ⟨hF, h⟩
    · exact Or.inl (ih true h)
    · exact Or.inr ⟨hFG hF, ih false h⟩
  | call r k ih =>
    obtain ⟨rest, htrace, h⟩ := h
    exact ⟨rest, htrace, ih _ h⟩

theorem runs_under (x : Interact ρ ω α) (σ : ℕ → Bool) (answers : Stream' ω) :
    x.Runs True answers (x.under σ answers).1 (x.under σ answers).2 := by
  induction x generalizing σ answers with
  | ret b => exact ⟨rfl, rfl⟩
  | ask k ih =>
    have h := ih (σ 0) (fun i => σ (i + 1)) answers
    cases hb : σ 0 with
    | true => rw [hb] at h; exact Or.inl (by rw [under, hb]; exact h)
    | false => rw [hb] at h; exact Or.inr ⟨trivial, by rw [under, hb]; exact h⟩
  | call r k ih => exact ⟨_, rfl, ih _ σ answers.tail⟩

theorem under_all_true (x : Interact ρ ω α) (answers : Stream' ω) :
    x.under (fun _ => true) answers = x.run answers := by
  induction x generalizing answers with
  | ret a => rfl
  | ask k ih => exact ih true answers
  | call r k ih => rw [under, run, ih]

theorem runs_iff_under {a : α} :
    x.Runs True answers trace a ↔ ∃ σ, x.under σ answers = (trace, a) := by
  constructor
  · intro h
    induction x generalizing answers trace with
    | ret b =>
      obtain ⟨rfl, rfl⟩ := h
      exact ⟨fun _ => true, rfl⟩
    | ask k ih =>
      -- the answer taken first is put in front of the schedule of the rest
      have front : ∀ b, (k b).Runs True answers trace a →
          ∃ σ, (ask k).under σ answers = (trace, a) := by
        intro b hb
        obtain ⟨σ, hσ⟩ := ih b hb
        exact ⟨fun i => if i = 0 then b else σ (i - 1), by simpa [under] using hσ⟩
      rcases h with h | ⟨-, h⟩
      · exact front true h
      · exact front false h
    | call r k ih =>
      obtain ⟨rest, rfl, h⟩ := h
      obtain ⟨σ, hσ⟩ := ih _ h
      exact ⟨σ, by rw [under, hσ]⟩
  · rintro ⟨σ, hσ⟩
    have h := runs_under x σ answers
    rw [hσ] at h
    exact h

/-! ## The parts of a run -/

@[simp] theorem runs_pure {a b : α} :
    (pure a : Interact ρ ω α).Runs F answers trace b ↔ trace = [] ∧ a = b :=
  Iff.rfl

variable {f : α → Interact ρ ω β}

/-- **Sequencing.** The trace of a sequence is cut where the first part ends, and the second part
    sees the answers that are left. -/
theorem runs_bind {b : β} :
    (x >>= f).Runs F answers trace b ↔ ∃ first rest a, trace = first ++ rest ∧
      x.Runs F answers first a ∧ (f a).Runs F (answers.drop first.length) rest b := by
  induction x generalizing answers trace with
  | ret a =>
    constructor
    · intro h; exact ⟨[], trace, a, rfl, ⟨rfl, rfl⟩, h⟩
    · rintro ⟨_, rest, _, rfl, ⟨rfl, rfl⟩, h⟩; exact h
  | ask k ih =>
    constructor
    · rintro (h | ⟨hF, h⟩)
      · obtain ⟨first, rest, a, rfl, ha, hb⟩ := (ih true).mp h
        exact ⟨first, rest, a, rfl, Or.inl ha, hb⟩
      · obtain ⟨first, rest, a, rfl, ha, hb⟩ := (ih false).mp h
        exact ⟨first, rest, a, rfl, Or.inr ⟨hF, ha⟩, hb⟩
    · rintro ⟨first, rest, a, rfl, ha | ⟨hF, ha⟩, hb⟩
      · exact Or.inl ((ih true).mpr ⟨first, rest, a, rfl, ha, hb⟩)
      · exact Or.inr ⟨hF, (ih false).mpr ⟨first, rest, a, rfl, ha, hb⟩⟩
  | call r k ih =>
    constructor
    · rintro ⟨tail, rfl, h⟩
      obtain ⟨first, rest, a, rfl, ha, hb⟩ := (ih _).mp h
      exact ⟨_ :: first, rest, a, rfl, ⟨first, rfl, ha⟩, hb⟩
    · rintro ⟨_, rest, a, rfl, ⟨first, rfl, ha⟩, hb⟩
      exact ⟨first ++ rest, rfl, (ih _).mpr ⟨first, rest, a, rfl, ha, hb⟩⟩

theorem runs_ofAlloc {x : Alloc α} {a : α} :
    (ofAlloc x : Interact ρ ω α).Runs F answers trace a ↔ trace = [] ∧ x.Can F a := by
  induction x with
  | ret b => exact Iff.rfl
  | ask k ih =>
    show (ofAlloc (k true)).Runs F answers trace a ∨ F ∧ (ofAlloc (k false)).Runs F answers trace a ↔ _
    rw [ih true, ih false]
    show _ ↔ trace = [] ∧ ((k true).Can F a ∨ F ∧ (k false).Can F a)
    tauto

theorem runs_bind_ofAlloc {x : Alloc α} {b : β} :
    (ofAlloc x >>= f).Runs F answers trace b ↔ ∃ a, x.Can F a ∧ (f a).Runs F answers trace b := by
  rw [runs_bind]
  constructor
  · rintro ⟨first, rest, a, rfl, ha, hb⟩
    obtain ⟨rfl, hcan⟩ := runs_ofAlloc.1 ha
    exact ⟨a, hcan, hb⟩
  · rintro ⟨a, ha, hb⟩
    exact ⟨[], trace, a, rfl, runs_ofAlloc.2 ⟨rfl, ha⟩, hb⟩

theorem runs_bind_perform {r : ρ} {f : ω → Interact ρ ω β} {b : β} :
    (perform r >>= f).Runs F answers trace b ↔
      ∃ rest, trace = (r, answers.head) :: rest ∧ (f answers.head).Runs F answers.tail rest b :=
  Iff.rfl

/-! ## The requests a computation can make -/

/-- Every request of every run satisfies `p`. -/
def Sends (p : ρ → Prop) : Interact ρ ω α → Prop
  | ret _ => True
  | ask k => ∀ b, (k b).Sends p
  | call r k => p r ∧ ∀ w, (k w).Sends p

section Sends

variable {p q : ρ → Prop}

theorem Sends.pure (a : α) : Sends p (pure a : Interact ρ ω α) := trivial

theorem Sends.mono (hpq : ∀ r, p r → q r) (h : x.Sends p) : x.Sends q := by
  induction x with
  | ret a => trivial
  | ask k ih => exact fun b => ih b (h b)
  | call r k ih => exact ⟨hpq r h.1, fun w => ih w (h.2 w)⟩

theorem Sends.bind (hx : x.Sends p) (hf : ∀ a, (f a).Sends p) : (x >>= f).Sends p := by
  induction x with
  | ret a => exact hf a
  | ask k ih => exact fun b => ih b (hx b)
  | call r k ih => exact ⟨hx.1, fun w => ih w (hx.2 w)⟩

/-- The rest only sees what the allocating part can end in. -/
theorem Sends.bind_ofAlloc {x : Alloc α}
    (hf : ∀ a, x.Can True a → (f a).Sends p) : (ofAlloc x >>= f).Sends p := by
  induction x with
  | ret a => exact hf a rfl
  | ask k ih =>
    intro b
    cases b with
    | true => exact ih true fun a ha => hf a (Or.inl ha)
    | false => exact ih false fun a ha => hf a (Or.inr ⟨trivial, ha⟩)

theorem Sends.ofAlloc (x : Alloc α) : Sends p (ofAlloc x : Interact ρ ω α) := by
  induction x with
  | ret a => trivial
  | ask k ih => exact ih

theorem Sends.runs {a : α} (h : x.Sends p) (hrun : x.Runs F answers trace a) :
    ∀ e ∈ trace, p e.1 := by
  induction x generalizing answers trace with
  | ret b =>
    obtain ⟨rfl, -⟩ := hrun
    exact nofun
  | ask k ih =>
    rcases hrun with hrun | ⟨-, hrun⟩
    · exact ih true (h true) hrun
    · exact ih false (h false) hrun
  | call r k ih =>
    obtain ⟨rest, rfl, hrun⟩ := hrun
    intro e he
    rcases List.mem_cons.mp he with rfl | he
    · exact h.1
    · exact ih _ (h.2 _) hrun e he

end Sends

/-! ## Properties that sequencing keeps -/

/-- What a program made of parts has if its parts have it. -/
structure Compositional (K : ∀ α : Type, Interact ρ ω α → Prop) : Prop where
  pure {α : Type} (a : α) : K α (pure a)
  bind {α β : Type} {x : Interact ρ ω α} {f : α → Interact ρ ω β} (hx : K α x)
    (hf : ∀ a, K β (f a)) : K β (x >>= f)
  bind_ofAlloc {α β : Type} {x : Alloc α} {f : α → Interact ρ ω β}
    (hf : ∀ a, x.Can True a → K β (f a)) : K β (ofAlloc x >>= f)

theorem compositional_sends (p : ρ → Prop) :
    Compositional fun α (x : Interact ρ ω α) => x.Sends p :=
  ⟨Sends.pure, Sends.bind, Sends.bind_ofAlloc⟩

/-- The trace of every run is a row of segments that satisfy `q`. -/
def Cuts (q : List (ρ × ω) → Prop) (x : Interact ρ ω α) : Prop :=
  ∀ answers trace a, x.Runs True answers trace a →
    ∃ segments : List (List (ρ × ω)), trace = segments.flatten ∧ ∀ segment ∈ segments, q segment

theorem compositional_cuts (q : List (ρ × ω) → Prop) :
    Compositional fun α (x : Interact ρ ω α) => x.Cuts q where
  pure a answers trace b h := ⟨[], (runs_pure.1 h).1, nofun⟩
  bind {α β x f} hx hf answers trace b h := by
    obtain ⟨first, rest, a, rfl, ha, hb⟩ := runs_bind.1 h
    obtain ⟨segments, rfl, hsegments⟩ := hx _ _ _ ha
    obtain ⟨segments', rfl, hsegments'⟩ := hf _ _ _ _ hb
    refine ⟨segments ++ segments', List.flatten_append.symm, fun segment hmem => ?_⟩
    rcases List.mem_append.mp hmem with hmem | hmem
    · exact hsegments segment hmem
    · exact hsegments' segment hmem
  bind_ofAlloc {α β x f} hf answers trace b h := by
    obtain ⟨a, ha, hb⟩ := runs_bind_ofAlloc.1 h
    exact hf a ha _ _ _ hb

/-! ## Runs without refusals -/

@[simp] theorem run_pure (a : α) (answers : Stream' ω) :
    (pure a : Interact ρ ω α).run answers = ([], a) := rfl

theorem run_bind (x : Interact ρ ω α) (f : α → Interact ρ ω β) (answers : Stream' ω) :
    (x >>= f).run answers =
      ((x.run answers).1 ++ ((f (x.run answers).2).run (answers.drop (x.run answers).1.length)).1,
        ((f (x.run answers).2).run (answers.drop (x.run answers).1.length)).2) :=
  runs_false.1 (runs_bind.2 ⟨_, _, _, rfl, runs_run x answers, runs_run _ _⟩)

theorem run_ofAlloc (x : Alloc α) (answers : Stream' ω) :
    (ofAlloc x : Interact ρ ω α).run answers = ([], x.ok) :=
  runs_false.1 (runs_ofAlloc.2 ⟨rfl, x.can_ok⟩)

@[simp] theorem run_bind_ofAlloc (x : Alloc α) (f : α → Interact ρ ω β) (answers : Stream' ω) :
    (ofAlloc x >>= f).run answers = (f x.ok).run answers :=
  runs_false.1 (runs_bind_ofAlloc.2 ⟨x.ok, x.can_ok, runs_run _ answers⟩)

/-! ## Answers that are handed over by the program itself -/

section Through

variable {deliver : ω → Alloc ω} {delivered : Stream' ω}

end Through

/-! ## An environment that answers each request by itself -/

/-- The result without refusals, every request answered by `serve`. -/
def against (serve : ρ → ω) : Interact ρ ω α → α
  | ret a => a
  | ask k => (k true).against serve
  | call r k => (k (serve r)).against serve

section Against

variable (serve : ρ → ω)

@[simp] theorem against_pure (a : α) : (pure a : Interact ρ ω α).against serve = a := rfl

@[simp] theorem against_perform (r : ρ) : (perform r).against serve = serve r := rfl

@[simp] theorem against_bind (x : Interact ρ ω α) (f : α → Interact ρ ω β) :
    (x >>= f).against serve = (f (x.against serve)).against serve := by
  induction x with
  | ret a => rfl
  | ask k ih => exact ih true
  | call r k ih => exact ih (serve r)

@[simp] theorem against_ofAlloc (x : Alloc α) :
    (ofAlloc x : Interact ρ ω α).against serve = x.ok := by
  induction x with
  | ret a => rfl
  | ask k ih => exact ih true

end Against

end Interact
