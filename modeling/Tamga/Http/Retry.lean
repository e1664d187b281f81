import Tamga.Http.Session
import Tamga.Json.Exact

/-!
# `Http.Retry` — how often a request is repeated

The loop of `tamga_client_send_scoped` repeats a request only after a 429, only if the request may be
repeated, and at most `max_retries` times; what it sleeps is bounded whatever `Retry-After` says. The
bound on `max_retries` is an invariant of a client's life. Which requests may be repeated is decided on
the path: none that creates, counts usage, changes or deletes is among them (`isOneShot_not_retryable`).

Every run is finite by construction: a program is a tree without infinite paths.
-/

namespace Tamga

open Alloc

variable {P : Platform}

/-! ## The attempts of one call -/

/-- Whatever the server asks for, at most a minute. -/
theorem retryDelayMs_le (P : Platform) (attempt : Nat) (seconds : Int) :
    retryDelayMs P attempt seconds ≤ 60000 := by
  unfold retryDelayMs
  split
  · omega
  · have hpow : 2 ^ min attempt 5 ≤ 2 ^ 5 := Nat.pow_le_pow_right (by decide) (by omega)
    have hjitter : retryJitterMs P attempt < 1000 := Nat.mod_lt _ (by decide)
    omega

theorem throttled_eq_some {retryable : Bool} {answer : Answer} {seconds : Int}
    (h : throttled retryable answer = some seconds) :
    retryable = true ∧ ∃ http, answer = .answered http ∧ http.status = 429 := by
  cases answer with
  | failed reason => cases h
  | answered http =>
    simp only [throttled] at h
    split at h
    · rename_i hcond
      exact ⟨hcond.2, http, rfl, hcond.1⟩
    · cases h

section Attempts

variable {request : HttpRequest} {retryable : Bool}

theorem attempts_length : ∀ {n attempt : Nat} {sleptMs : Option Nat} {answers : Stream' Answer},
    (attempts P request retryable n attempt sleptMs answers).length ≤ n + 1 := by
  intro n
  induction n with
  | zero => exact fun {_ _ _} => Nat.le_refl 1
  | succ n ih =>
    intro attempt sleptMs answers
    unfold attempts
    cases throttled retryable answers.head with
    | none => exact Nat.le_add_left 1 _
    | some seconds => exact Nat.succ_le_succ ih

theorem attempts_request : ∀ {n attempt : Nat} {sleptMs : Option Nat} {answers : Stream' Answer},
    ∀ entry ∈ attempts P request retryable n attempt sleptMs answers, entry.1.request = request := by
  intro n
  induction n with
  | zero =>
    intro attempt sleptMs answers entry hentry
    rw [List.mem_singleton.mp hentry]
  | succ n ih =>
    intro attempt sleptMs answers entry hentry
    unfold attempts at hentry
    rcases List.mem_cons.mp hentry with rfl | hentry
    · rfl
    · split at hentry
      · exact ih entry hentry
      · cases hentry

/-- An attempt that is not the last was answered 429, and the request is one that may be repeated. -/
theorem attempts_dropLast : ∀ {n attempt : Nat} {sleptMs : Option Nat} {answers : Stream' Answer},
    ∀ entry ∈ (attempts P request retryable n attempt sleptMs answers).dropLast,
      retryable = true ∧ ∃ http, entry.2 = .answered http ∧ http.status = 429 := by
  intro n
  induction n with
  | zero => exact fun {_ _ _} _ hentry => by cases hentry
  | succ n ih =>
    intro attempt sleptMs answers entry hentry
    unfold attempts at hentry
    cases hthrottled : throttled retryable answers.head with
    | none => rw [hthrottled] at hentry; cases hentry
    | some seconds =>
      rw [hthrottled] at hentry
      obtain ⟨rest, hrest⟩ := attempts_eq_cons P request retryable n (attempt + 1)
        (some (retryDelayMs P attempt seconds)) answers.tail
      simp only [hrest, List.dropLast_cons_cons] at hentry
      rcases List.mem_cons.mp hentry with rfl | hentry
      · exact throttled_eq_some hthrottled
      · exact ih entry (hrest ▸ hentry)

theorem attempts_sleptMs : ∀ {n attempt : Nat} {sleptMs : Option Nat} {answers : Stream' Answer},
    (∀ ms ∈ sleptMs, ms ≤ 60000) →
      ∀ entry ∈ attempts P request retryable n attempt sleptMs answers,
        ∀ ms ∈ entry.1.sleptMs, ms ≤ 60000 := by
  intro n
  induction n with
  | zero =>
    intro attempt sleptMs answers hslept entry hentry
    rw [List.mem_singleton.mp hentry]
    exact hslept
  | succ n ih =>
    intro attempt sleptMs answers hslept entry hentry
    unfold attempts at hentry
    rcases List.mem_cons.mp hentry with rfl | hentry
    · exact hslept
    · split at hentry
      · refine ih ?_ entry hentry
        rintro _ ⟨⟩
        exact retryDelayMs_le _ _ _
      · cases hentry

end Attempts

/-! ## Which endpoints may repeat their request -/

/-- Creations, usage actions, changes and deletions. -/
def Operation.isOneShot : Operation → Bool
  | createMachine .. | createComponent .. | createProcess .. | incrementEntitlementUsage ..
  | decrementEntitlementUsage .. | resetEntitlementUsage .. | updateMachine .. | deleteMachine ..
  | deleteProcess .. => true
  | _ => false

/-- A path that ends in another text has none of the suffixes. -/
theorem post_not_retryable {start : Bytes} {suffix : String}
    (h : ∀ s ∈ retryableSuffixes, ∀ rest : Bytes,
      s.reverse.isPrefixOf ((ascii suffix).reverse ++ rest) = false) :
    requestIsRetryable .post (start ++ ascii suffix) = false := by
  show (retryableSuffixes.any fun s => s.isSuffixOf (start ++ ascii suffix)) = false
  rw [List.any_eq_false]
  intro s hs
  rw [List.isSuffixOf, List.reverse_append, h s hs]
  exact Bool.false_ne_true

theorem usage_not_retryable {licenseId entitlementId : Option Bytes} {suffix : String} {r : Route}
    (h : ∀ s ∈ retryableSuffixes, ∀ rest : Bytes,
      s.reverse.isPrefixOf ((ascii suffix).reverse ++ rest) = false)
    (hroute : entitlementRoute .post licenseId entitlementId suffix = some r) :
    requestIsRetryable r.method r.path = false := by
  obtain ⟨license, -, hroute⟩ := Option.bind_eq_some_iff.mp hroute
  obtain ⟨entitlement, -, hroute⟩ := Option.bind_eq_some_iff.mp hroute
  injection hroute with hroute
  rw [← hroute]
  exact post_not_retryable h

theorem Operation.isOneShot_not_retryable {op : Operation} {r : Route} (hop : op.isOneShot = true)
    (h : op.route = some r) : requestIsRetryable r.method r.path = false := by
  cases op with
  | createMachine | createComponent | createProcess => injection h with h; rw [← h]; decide
  | incrementEntitlementUsage | decrementEntitlementUsage | resetEntitlementUsage =>
    refine usage_not_retryable (fun s hs rest => ?_) h
    simp only [retryableSuffixes, List.mem_cons, List.not_mem_nil, or_false] at hs
    rcases hs with rfl | rfl | rfl | rfl | rfl | rfl | rfl <;> rfl
  | updateMachine | deleteMachine | deleteProcess =>
    obtain ⟨canonical, -, rfl⟩ := Option.map_eq_some_iff.mp h
    rfl
  | _ => cases hop

/-! ## Every call of every endpoint of every client -/

/-- What the attempts of one call of `tamga_client_send_scoped` come to. -/
structure Disciplined (client : Client) (op : Operation) (trace : List (Attempt × Answer)) : Prop where
  length : trace.length ≤ client.maxRetries + 1
  bounded : trace.length ≤ 17
  identical : ∀ entry ∈ trace, ∀ entry' ∈ trace, entry.1.request = entry'.1.request
  repeated : 1 < trace.length → ∃ route, op.route = some route ∧ (route.method = .get ∨
    route.method = .post ∧ ∃ suffix ∈ retryableSuffixes, suffix <:+ route.path)
  throttled : ∀ entry ∈ trace.dropLast, ∃ http, entry.2 = .answered http ∧ http.status = 429
  oneShot : op.isOneShot = true → trace.length ≤ 1
  sleptMs : ∀ entry ∈ trace, ∀ ms ∈ entry.1.sleptMs, ms ≤ 60000

theorem disciplined_nil (client : Client) (op : Operation) : Disciplined client op [] :=
  ⟨Nat.zero_le _, Nat.zero_le _, nofun, nofun, nofun, fun _ => Nat.zero_le _, nofun⟩

theorem retryable_iff {method : Method} {path : Bytes} : requestIsRetryable method path = true ↔
    method = .get ∨ method = .post ∧ ∃ suffix ∈ retryableSuffixes, suffix <:+ path := by
  cases method with
  | get => simp [requestIsRetryable]
  | post => simp [requestIsRetryable]
  | patch => simp [requestIsRetryable]
  | delete => simp [requestIsRetryable]

variable {answers : Stream' Answer}

theorem attempts_repeated {request : HttpRequest} {retryable : Bool} {n attempt : Nat}
    {sleptMs : Option Nat}
    (h : 1 < (attempts P request retryable n attempt sleptMs answers).length) : retryable = true := by
  have hne : (attempts P request retryable n attempt sleptMs answers).dropLast ≠ [] := by
    rw [← List.length_pos_iff, List.length_dropLast]
    omega
  obtain ⟨entry, hentry⟩ := List.exists_mem_of_ne_nil _ hne
  exact (attempts_dropLast entry hentry).1

theorem Operation.run_disciplined {op : Operation} {client : Client} {slot : Bool}
    (hclient : client.maxRetries ≤ 16) {trace : List (Attempt × Answer)}
    {out : Outcome} (h : (op.run P (some client) slot).Runs True answers trace out) :
    Disciplined client op trace := by
  rcases runs_iff.1 h with ⟨failure, -, rfl, -⟩ | ⟨c, p, r, hbuild, rfl, -⟩
  · exact disciplined_nil client op
  · obtain ⟨⟨⟩, -⟩ := build_can_ok.1 hbuild
    obtain ⟨route, hroute, hfollows, -, -⟩ := build_route hbuild
    rw [hfollows.method, hfollows.path]
    refine ⟨attempts_length, attempts_length.trans (by omega), ?_, ?_, ?_, ?_, ?_⟩
    · intro entry hentry entry' hentry'
      rw [attempts_request entry hentry, attempts_request entry' hentry']
    · exact fun hlength => ⟨route, hroute, retryable_iff.1 (attempts_repeated hlength)⟩
    · exact fun entry hentry => (attempts_dropLast entry hentry).2
    · intro hop
      by_contra hlength
      have hretryable := attempts_repeated (Nat.lt_of_not_le hlength)
      rw [isOneShot_not_retryable hop hroute] at hretryable
      cases hretryable
    · exact attempts_sleptMs nofun

/-- The retries of a client are bounded through all its life. -/
theorem history_maxRetries {builtIn : Option Transport} {accountId host : Option Bytes}
    {calls : List ClientCall} {trace : List (Attempt × Answer)}
    {client : Client}
    (h : (history P builtIn accountId host calls).Runs True answers trace (some client)) :
    client.maxRetries ≤ 16 := by
  refine history_keeps (I := fun c => c.maxRetries ≤ 16) ?_ (fun c c' hc hstores => ?_) h
  · refine clientNew_ensures.mono ?_
    rintro _ ⟨a, h, -, -, -, -, rfl⟩
    exact (by decide : defaultMaxRetries ≤ 16)
  · cases hstores with
    | maxRetries n hn => exact hn
    | auth | apiVersion | timeoutMs | transport => exact hc

/-- **Retry discipline.** Of a client that any history of setters and endpoints leaves, and against any
    answers and refusals: the attempts of every call of `tamga_client_send_scoped` are disciplined, and
    whatever an endpoint sends is sent by such calls. -/
theorem retry_discipline (P : Platform) (builtIn : Option Transport) (accountId host : Option Bytes)
    (calls : List ClientCall) (σ : Nat → Bool) (answers : Stream' Answer) (client : Client)
    (hclient : ((history P builtIn accountId host calls).under σ answers).2 = some client) :
    (∀ (op : Operation) slot σ answers,
      Disciplined client op ((op.run P (some client) slot).under σ answers).1) ∧
    ∀ (e : Endpoint) σ answers, ∃ segments : List (List (Attempt × Answer)),
      ((e.run P (some client)).under σ answers).1 = segments.flatten ∧
        ∀ segment ∈ segments, ∃ op slot σ answers, e.Issues op ∧
          segment = ((op.run P (some client) slot).under σ answers).1 := by
  have hrun := Interact.runs_under (history P builtIn accountId host calls) σ answers
  rw [hclient] at hrun
  refine ⟨fun op slot σ answers => ?_, fun e σ answers => ?_⟩
  · exact Operation.run_disciplined (history_maxRetries hrun) (Interact.runs_under _ σ answers)
  · refine Endpoint.run_issued (K := fun _ x => x.Cuts _) (Interact.compositional_cuts _) ?_ answers
      _ _ (Interact.runs_under _ σ answers)
    intro op slot hop answers trace out h
    obtain ⟨σ, hσ⟩ := Interact.runs_iff_under.1 h
    refine ⟨[trace], by simp, ?_⟩
    simp only [List.mem_singleton, forall_eq]
    exact ⟨op, slot, σ, answers, hop, by rw [hσ]⟩

/-- A new client repeats a request three times by default, against a server that always throttles. -/
theorem retry_discipline_default :
    Disciplined (newClient none (ascii "acme") (ascii "h")).ready .listSigningKeys
      ((Operation.listSigningKeys.run ⟨exactLibc, 0⟩
        (some (newClient none (ascii "acme") (ascii "h")).ready) true).under (fun _ => true)
          (Stream'.const (.answered ⟨429, none, []⟩))).1 ∧
    ((Operation.listSigningKeys.run ⟨exactLibc, 0⟩
        (some (newClient none (ascii "acme") (ascii "h")).ready) true).under (fun _ => true)
          (Stream'.const (.answered ⟨429, none, []⟩))).1.length = 4 :=
  ⟨(retry_discipline ⟨exactLibc, 0⟩ none (some (ascii "acme")) (some (ascii "h"))
    [.set (.transport (some 0)), .set (.auth 0 (some (ascii "t")) none)] (fun _ => true)
    (Stream'.const (.failed .network)) _ (by decide +kernel)).1 _ _ _ _, by decide +kernel⟩

end Tamga
