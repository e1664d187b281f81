import Tamga.Http.Composed
import Tamga.Http.Url

/-!
# `Http.Send` — what a single request does

`Operation.build` is everything an endpoint does before its first attempt, `attempts` the calls of the
transport the retry loop makes, and `settled` the answer it ends with. The loop does not allocate
between attempts, so both depend on the answers alone, and `runs_operation` says what a run is: a
failure to build the request, or those attempts and what `conclude` makes of the last answer.
-/

namespace Tamga

open Alloc Json Interact

variable {F : Prop} {P : Platform}

/-! ## The request -/

section Request

variable {client : Client} {p : Prepared} {r : HttpRequest}

theorem basicPair_sound (auth : Credentials) : (basicPair auth).Sound (· = none) := by
  unfold basicPair
  split
  · exact joined_sound _
  · refine Sound.bind ((Buf.Writes.pieces [auth.primary, ascii ":"]).sound Buf.init) ?_
      (Buf.detachString_sound _)
    intro buf _ s hs
    exact Buf.detachString_failed rfl hs
  · exact joined_sound _
  · exact joined_sound _

theorem authValue_sound (auth : Credentials) : (authValue auth).Sound (· = none) := by
  unfold authValue
  split
  · exact joined_sound _
  · exact joined_sound _
  · refine Sound.bind (basicPair_sound auth) ?_ ?_
    · rintro _ rfl s hs
      exact (can_pure.1 hs).symm
    cases (basicPair auth).ok with
    | none => exact Sound.pure none
    | some pair =>
      refine Sound.bind (base64EncodeAlloc_sound pair) ?_ ?_
      · rintro _ rfl s hs
        exact (can_pure.1 hs).symm
      cases (base64EncodeAlloc pair).ok with
      | none => exact Sound.pure none
      | some encoded => exact joined_sound _

theorem clientAuthHeader_sound (auth : Credentials) : (clientAuthHeader auth).Sound (· = none) := by
  unfold clientAuthHeader
  split
  · exact Sound.pure _
  · refine Sound.bind (authValue_sound auth) ?_ ?_
    · rintro _ rfl s hs
      exact (can_pure.1 hs).symm
    cases (authValue auth).ok with
    | none => exact Sound.pure none
    | some value =>
      refine Sound.bind (strndup_sound _) ?_ ?_
      · rintro _ rfl s hs
        exact (can_pure.1 hs).symm
      · split
        · exact Sound.pure _
        · exact Sound.pure _

/-- The end of `clientRequest`, with the URL and the version both asked for. -/
def assemble (client : Client) (p : Prepared) (header : Option (Bytes × Bytes)) :
    Option Bytes → Option Bytes → Call HttpRequest
  | some url, some version =>
      return ⟨p.method, url, requestHeaders header version p, p.body, client.timeoutMs⟩
  | _, _ => Call.fail .outOfMemory "could not build the request"

theorem clientRequest_eq {transport : Transport} {auth : Credentials}
    (htransport : client.transport = some transport) (hauth : client.auth = some auth)
    (hotp : ∀ otp ∈ p.otp, headerValueIsSafe otp = true) : clientRequest client p = (do
      let header ← Call.orFail .outOfMemory "could not build the auth header" (clientAuthHeader auth)
      let url ← (liftM (buildUrl client p.scope p.path p.query) : Call (Option Bytes))
      let version ← (liftM (sanitizeApiVersion client.apiVersion) : Call (Option Bytes))
      assemble client p header url version) := by
  unfold clientRequest
  rw [htransport, hauth]
  simp only
  rw [if_neg (not_not.mpr hotp)]
  rfl

theorem assemble_ok {header : Option (Bytes × Bytes)} {url version : Option Bytes} :
    (assemble client p header url version).ok = .ok r ↔ ∃ u v, url = some u ∧ version = some v ∧
      r = ⟨p.method, u, requestHeaders header v p, p.body, client.timeoutMs⟩ := by
  cases url with
  | none => exact ⟨nofun, nofun⟩
  | some url =>
    cases version with
    | none => exact ⟨nofun, nofun⟩
    | some version =>
      constructor
      · intro h
        injection h with h
        exact ⟨url, version, rfl, rfl, h.symm⟩
      · rintro ⟨_, _, ⟨⟩, ⟨⟩, rfl⟩
        rfl

/-- **The request.** What a client needs to send `p`, and what it sends. -/
theorem clientRequest_ok : (clientRequest client p).ok = .ok r ↔
    client.transport ≠ none ∧ (∀ otp ∈ p.otp, headerValueIsSafe otp = true) ∧
      ∃ auth header version, client.auth = some auth ∧ (clientAuthHeader auth).ok = some header ∧
        (sanitizeApiVersion client.apiVersion).ok = some version ∧
        (buildUrl client p.scope p.path p.query).ok = some r.url ∧
        r = ⟨p.method, r.url, requestHeaders header version p, p.body, client.timeoutMs⟩ := by
  cases htransport : client.transport with
  | none =>
    unfold clientRequest
    rw [htransport]
    exact ⟨nofun, fun h => absurd rfl h.1⟩
  | some transport =>
    cases hauth : client.auth with
    | none =>
      unfold clientRequest
      rw [htransport, hauth]
      exact ⟨nofun, nofun⟩
    | some auth =>
      by_cases hotp : ∀ otp ∈ p.otp, headerValueIsSafe otp = true
      · rw [clientRequest_eq htransport hauth hotp, AllocE.ok_bind_eq_ok]
        constructor
        · rintro ⟨header, hheader, h⟩
          rw [AllocE.ok_bind_of_ok (AllocE.ok_lift _), AllocE.ok_bind_of_ok (AllocE.ok_lift _),
            assemble_ok] at h
          obtain ⟨url, version, hurl, hversion, rfl⟩ := h
          exact ⟨nofun, hotp, auth, header, version, rfl, Call.orFail_eq_ok.1 hheader, hversion,
            hurl, rfl⟩
        · rintro ⟨-, -, _, header, version, ⟨⟩, hheader, hversion, hurl, hr⟩
          refine ⟨header, Call.orFail_eq_ok.2 hheader, ?_⟩
          rw [AllocE.ok_bind_of_ok (AllocE.ok_lift _), AllocE.ok_bind_of_ok (AllocE.ok_lift _),
            assemble_ok]
          exact ⟨_, version, hurl, hversion, hr⟩
      · unfold clientRequest
        rw [htransport, hauth]
        simp only
        rw [if_pos hotp]
        exact ⟨nofun, fun h => absurd h.2.1 hotp⟩

/-- Without a transport, without credentials, with an unsafe OTP, or for want of memory. -/
theorem clientRequest_reports (client : Client) (p : Prepared) : Call.Reports
    (fun c => c = .outOfMemory ∨ c = .noTransport ∧ client.transport = none ∨
      c = .nullArgument ∧ client.transport ≠ none ∧ (client.auth = none ∨ p.otp ≠ none))
    (clientRequest client p) := by
  cases htransport : client.transport with
  | none =>
    unfold clientRequest
    rw [htransport]
    exact .fail (Or.inr (Or.inl ⟨rfl, rfl⟩))
  | some transport =>
    cases hauth : client.auth with
    | none =>
      unfold clientRequest
      rw [htransport, hauth]
      exact .fail (Or.inr (Or.inr ⟨rfl, nofun, Or.inl rfl⟩))
    | some auth =>
      by_cases hotp : ∀ otp ∈ p.otp, headerValueIsSafe otp = true
      · rw [clientRequest_eq htransport hauth hotp]
        refine .bind (.orFail (Or.inl rfl) (clientAuthHeader_sound auth)) fun header _ => ?_
        refine .bind_both (buildUrl_sound _ _ _ _) (sanitizeApiVersion_sound _)
          (fun _ => rfl) (fun url => ?_) fun url version => ?_
        · cases url <;> rfl
        · cases url with
          | none => exact .fail (Or.inl rfl)
          | some url =>
            cases version with
            | none => exact .fail (Or.inl rfl)
            | some version => exact .pure _
      · unfold clientRequest
        rw [htransport, hauth]
        simp only
        rw [if_pos hotp]
        refine .fail (Or.inr (Or.inr ⟨rfl, nofun, Or.inr fun hnone => hotp ?_⟩))
        rw [hnone]
        exact nofun

end Request

/-! ## The attempts -/

/-- The calls of the transport that the loop makes, with their answers. -/
def attempts (P : Platform) (request : HttpRequest) (retryable : Bool) :
    (retriesLeft attempt : Nat) → (sleptMs : Option Nat) → Stream' Answer → List (Attempt × Answer)
  | 0, _, sleptMs, answers => [(⟨sleptMs, request⟩, answers.head)]
  | retriesLeft + 1, attempt, sleptMs, answers =>
      (⟨sleptMs, request⟩, answers.head) ::
        match throttled retryable answers.head with
        | some seconds => attempts P request retryable retriesLeft (attempt + 1)
            (some (retryDelayMs P attempt seconds)) answers.tail
        | none => []

theorem attempts_eq_cons (P : Platform) (request : HttpRequest) (retryable : Bool)
    (retriesLeft attempt : Nat) (sleptMs : Option Nat) (answers : Stream' Answer) :
    ∃ rest, attempts P request retryable retriesLeft attempt sleptMs answers =
      (⟨sleptMs, request⟩, answers.head) :: rest := by
  cases retriesLeft with
  | zero => exact ⟨[], rfl⟩
  | succ n => exact ⟨_, rfl⟩

/-- The answer the loop does not retry. -/
def settled (retryable : Bool) : (retriesLeft : Nat) → Stream' Answer → Answer
  | 0, answers => answers.head
  | retriesLeft + 1, answers =>
      match throttled retryable answers.head with
      | some _ => settled retryable retriesLeft answers.tail
      | none => answers.head

section Loop

variable {request : HttpRequest} {retryable : Bool}

/-- **The loop.** Its attempts and its last answer do not depend on the allocator. -/
theorem runs_sendLoop {out : Outcome} : ∀ {n attempt : Nat} {sleptMs : Option Nat}
    {answers : Stream' Answer} {trace : List (Attempt × Answer)},
      (sendLoop P request retryable n attempt sleptMs).Runs F answers trace out ↔
        trace = attempts P request retryable n attempt sleptMs answers ∧
          (conclude P.toLibc (settled retryable n answers)).Can F out := by
  intro n
  induction n with
  | zero =>
    intro attempt sleptMs answers trace
    unfold sendLoop
    rw [runs_bind_perform]
    constructor
    · rintro ⟨rest, rfl, h⟩
      obtain ⟨rfl, hend⟩ := runs_ofAlloc.1 h
      exact ⟨rfl, hend⟩
    · rintro ⟨rfl, h⟩
      exact ⟨[], rfl, runs_ofAlloc.2 ⟨rfl, h⟩⟩
  | succ n ih =>
    intro attempt sleptMs answers trace
    unfold sendLoop
    rw [runs_bind_perform, attempts, settled]
    cases throttled retryable answers.head with
    | none =>
      constructor
      · rintro ⟨rest, rfl, h⟩
        obtain ⟨rfl, hend⟩ := runs_ofAlloc.1 h
        exact ⟨rfl, hend⟩
      · rintro ⟨rfl, h⟩
        exact ⟨[], rfl, runs_ofAlloc.2 ⟨rfl, h⟩⟩
    | some seconds =>
      constructor
      · rintro ⟨rest, rfl, h⟩
        obtain ⟨rfl, hend⟩ := ih.mp h
        exact ⟨rfl, hend⟩
      · rintro ⟨rfl, h⟩
        exact ⟨_, rfl, ih.mpr ⟨rfl, h⟩⟩

theorem sendLoop_sends {q : HttpRequest → Prop} (h : q request) : ∀ {n attempt : Nat}
    {sleptMs : Option Nat}, (sendLoop P request retryable n attempt sleptMs).Sends
      fun attempt => q attempt.request := by
  intro n
  induction n with
  | zero =>
    intro attempt sleptMs
    unfold sendLoop
    exact ⟨h, fun answer => .ofAlloc _⟩
  | succ n ih =>
    intro attempt sleptMs
    unfold sendLoop
    refine ⟨h, fun answer => ?_⟩
    show Interact.Sends _ (match throttled retryable answer with
      | some seconds =>
        sendLoop P request retryable n (attempt + 1) (some (retryDelayMs P attempt seconds))
      | none => ofAlloc (conclude P.toLibc answer))
    split
    · exact ih
    · exact .ofAlloc _

end Loop

/-! ## The whole of an endpoint -/

namespace Operation

variable {op : Operation} {client : Option Client} {slot : Bool}

/-- Everything before the first attempt. -/
def build (L : Libc) (client : Option Client) (slot : Bool) (op : Operation) :
    Call (Client × Prepared × HttpRequest) :=
  match client, slot, op.prepare L with
  | some client, true, some prepare => do
      let p ← prepare
      let request ← clientRequest client p
      return (client, p, request)
  | _, _, _ => Call.fail .nullArgument op.message

/-- The rest, with the request that was built. -/
def send (P : Platform) : Except Failure (Client × Prepared × HttpRequest) → Http Outcome
  | .error failure => return refused failure
  | .ok (client, p, request) =>
      sendLoop P request (requestIsRetryable p.method p.path) client.maxRetries 0 none

theorem run_eq : op.run P client slot =
    ofAlloc (op.build P.toLibc client slot).run >>= send P := by
  unfold run endpoint build
  rcases client with _ | client
  · rfl
  rcases slot with _ | _
  · rfl
  cases op.prepare P.toLibc with
  | none => rfl
  | some prepare =>
    simp only [AllocE.run_bind, ofAlloc_bind, bind_assoc]
    congr 1
    funext r
    cases r with
    | error failure => rfl
    | ok p =>
      simp only [sendScoped, ofAlloc_bind, bind_assoc]
      congr 1
      funext r
      cases r <;> rfl

theorem build_can_ok {L : Libc} {c : Client} {p : Prepared} {r : HttpRequest} :
    (op.build L client slot).Can F (.ok (c, p, r)) ↔ client = some c ∧ slot = true ∧
      ∃ prepare, op.prepare L = some prepare ∧ prepare.Can F (.ok p) ∧
        (clientRequest c p).Can F (.ok r) := by
  unfold build
  rcases client with _ | client
  · exact ⟨nofun, nofun⟩
  rcases slot with _ | _
  · exact ⟨nofun, nofun⟩
  cases op.prepare L with
  | none => exact ⟨nofun, nofun⟩
  | some prepare =>
    show AllocE.Can F (prepare >>= fun p => clientRequest client p >>= fun request =>
      pure (client, p, request)) _ ↔ _
    simp only [AllocE.can_bind_ok, AllocE.can_pure]
    constructor
    · rintro ⟨_, hp, _, hr, ⟨⟩⟩
      exact ⟨rfl, trivial, prepare, rfl, hp, hr⟩
    · rintro ⟨⟨⟩, -, _, ⟨⟩, hp, hr⟩
      exact ⟨p, hp, r, hr, rfl⟩

/-- **A run of an endpoint**: a failure to build the request, or its attempts and what is made of the
    answer that settles them. -/
theorem runs_iff {answers : Stream' Answer} {trace : List (Attempt × Answer)} {out : Outcome} :
    (op.run P client slot).Runs F answers trace out ↔
      (∃ failure, (op.build P.toLibc client slot).Can F (.error failure) ∧ trace = [] ∧
        out = refused failure) ∨
      ∃ c p r, (op.build P.toLibc client slot).Can F (.ok (c, p, r)) ∧
        trace = attempts P r (requestIsRetryable p.method p.path) c.maxRetries 0 none answers ∧
        (conclude P.toLibc (settled (requestIsRetryable p.method p.path) c.maxRetries answers)).Can F
          out := by
  rw [run_eq, runs_bind_ofAlloc]
  constructor
  · rintro ⟨failure | ⟨c, p, r⟩, hb, h⟩
    · obtain ⟨rfl, rfl⟩ := runs_pure.1 h
      exact Or.inl ⟨failure, hb, rfl, rfl⟩
    · obtain ⟨htrace, hend⟩ := runs_sendLoop.1 h
      exact Or.inr ⟨c, p, r, hb, htrace, hend⟩
  · rintro (⟨failure, hb, rfl, rfl⟩ | ⟨c, p, r, hb, rfl, h⟩)
    · exact ⟨.error failure, hb, runs_pure.2 ⟨rfl, rfl⟩⟩
    · exact ⟨.ok (c, p, r), hb, runs_sendLoop.2 ⟨rfl, h⟩⟩

theorem run_of_failure {failure : Failure} (h : (op.build P.toLibc client slot).ok = .error failure)
    (answers : Stream' Answer) : (op.run P client slot).run answers = ([], refused failure) :=
  runs_false.1 (runs_iff.2 (Or.inl ⟨failure, AllocE.can_false.2 h, rfl, rfl⟩))

theorem run_of_build {c : Client} {p : Prepared} {r : HttpRequest}
    (h : (op.build P.toLibc client slot).ok = .ok (c, p, r)) (answers : Stream' Answer) :
    (op.run P client slot).run answers =
      (attempts P r (requestIsRetryable p.method p.path) c.maxRetries 0 none answers,
        (conclude P.toLibc (settled (requestIsRetryable p.method p.path) c.maxRetries answers)).ok) :=
  runs_false.1 (runs_iff.2 (Or.inr ⟨c, p, r, AllocE.can_false.2 h, rfl, Alloc.can_ok _⟩))

/-- What holds of the request that is built holds of every attempt. -/
theorem sends_of_build {q : HttpRequest → Prop} (h : ∀ c p r,
    (op.build P.toLibc client slot).Can True (.ok (c, p, r)) → q r) :
    (op.run P client slot).Sends fun attempt => q attempt.request := by
  rw [run_eq]
  refine .bind_ofAlloc fun b hb => ?_
  match b, hb with
  | .error failure, _ => exact .pure _
  | .ok (c, p, r), hb => exact sendLoop_sends (h c p r hb)

end Operation

end Tamga
