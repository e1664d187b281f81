import Tamga.Http.Retry
import Tamga.Json.ParseMemory

/-!
# `Http.Exchange` — one endpoint against the server

What an answer says is read off the answer alone: `HttpResponse.read` is the response a client makes of
it when memory suffices, `Answer.accepted` the response of a 2xx. An `Exchange` is what one endpoint
leaves in a trace: attempts at its own route, the last of which got the answer that counts.
`Operation.runs_cases` says that a call which is not refused memory either sends nothing or makes one
exchange.
-/

namespace Tamga

open Alloc Json Interact

variable {P : Platform} {L : Libc}

/-! ## What an answer says -/

/-- The document of a body, if it is one. -/
def HttpResponse.json (L : Libc) (http : HttpResponse) : Option Json :=
  match http.body with
  | none => none
  | some body => if body.length = 0 then none else (parse L (some body)).ok.toOption

/-- The response made of an answer. -/
def HttpResponse.read (L : Libc) (http : HttpResponse) : Response :=
  ⟨http.status, http.body, http.json L, http.headers, none⟩

theorem responseFromHttp_ok (http : HttpResponse) :
    (responseFromHttp L http).ok = some (http.read L) := by
  unfold responseFromHttp HttpResponse.read HttpResponse.json
  simp only [ok_bind, malloc, ok_request, if_true]
  cases http.body with
  | none => rfl
  | some body =>
    by_cases hempty : body.length = 0
    · simp only [if_pos hempty]; rfl
    · simp only [if_neg hempty, ok_bind]
      have hmemory : (parse L (some body)).ok ≠ .error .outOfMemory :=
        fun h => parse_blames (AllocE.can_false.2 h)
      unfold AllocE.ok at hmemory ⊢
      generalize Alloc.ok (ExceptT.run (parse L (some body))) = parsed at hmemory ⊢
      cases parsed with
      | ok json => rfl
      | error e =>
        cases e with
        | outOfMemory => exact absurd rfl hmemory
        | malformed message => rfl

/-- A status the library counts as success. -/
def IsSuccess (status : Int) : Prop := 200 ≤ status ∧ status < 300

instance (status : Int) : Decidable (IsSuccess status) := inferInstanceAs (Decidable (_ ∧ _))

/-- The response of a 2xx. -/
def Answer.accepted (L : Libc) : Answer → Option Response
  | .failed _ => none
  | .answered http => if IsSuccess http.status then some (http.read L) else none

/-- The server's code for an answer that is no 2xx, as the library names it. -/
def Answer.refusedWith (L : Libc) : Answer → Option ErrorCode
  | .failed reason => some (transportFailure reason).code
  | .answered http =>
      if IsSuccess http.status then none else some (mapApiError http.status (apiErrorCode (http.json L)))

/-- The document that came with an answer. -/
def Answer.json (L : Libc) : Answer → Option Json
  | .failed _ => none
  | .answered http => http.json L

theorem conclude_accepted {answer : Answer} {response : Response}
    (h : answer.accepted L = some response) : (conclude L answer).ok = .ok response := by
  cases answer with
  | failed reason => cases h
  | answered http =>
    simp only [Answer.accepted] at h
    split at h
    · rename_i hstatus
      injection h with h
      subst h
      unfold conclude
      rw [ok_bind, responseFromHttp_ok]
      exact congrArg Alloc.ok (if_pos hstatus)
    · cases h

/-- The status; none is `TAMGA_OK`. -/
def Outcome.code : Outcome → Option ErrorCode
  | .ok _ => none
  | .error refusal => some refusal.failure.code

/-- The document in the response slot. -/
def Outcome.json : Outcome → Option Json
  | .ok response => response.json
  | .error refusal => refusal.response.bind Response.json

/-- A status and a document. -/
abbrev View : Type := Option ErrorCode × Option Json

def Outcome.view (out : Outcome) : View := (out.code, out.json)

def Answer.view (L : Libc) (answer : Answer) : View := (answer.refusedWith L, answer.json L)

def Response.view (response : Response) : View :=
  (if IsSuccess response.status then none
    else some (mapApiError response.status (Tamga.apiErrorCode response.json)), response.json)

theorem concludeResponse_view {F : Prop} {out : Outcome} {response : Response}
    (h : (concludeResponse response).Can F out) :
    out.view = response.view := by
  unfold Response.view
  unfold concludeResponse at h
  split at h
  · rename_i hstatus
    rw [if_pos (show IsSuccess response.status from hstatus), ← can_pure.1 h]
    rfl
  · rename_i hstatus
    rw [if_neg (show ¬ IsSuccess response.status from hstatus)]
    -- the copy of the server's code shows in the text of the failure alone
    cases hcode : apiErrorCode response.json with
    | none =>
      rw [hcode] at h
      rw [← can_pure.1 h]
      rfl
    | some code =>
      rw [hcode] at h
      obtain ⟨copy, -, h⟩ := can_bind.1 h
      rw [← can_pure.1 h]
      rfl

theorem conclude_view (answer : Answer) : (conclude L answer).ok.view = answer.view L := by
  cases answer with
  | failed reason => rfl
  | answered http =>
    unfold conclude
    rw [ok_bind, responseFromHttp_ok]
    exact concludeResponse_view (F := False) (concludeResponse (http.read L)).can_ok

/-- What is made of an answer that is no 2xx. -/
theorem conclude_refused {answer : Answer} (h : answer.accepted L = none) :
    ∃ refusal, (conclude L answer).ok = .error refusal ∧
      answer.refusedWith L = some refusal.failure.code ∧
      refusal.response.bind Response.json = answer.json L := by
  have hview := conclude_view (L := L) answer
  cases hconclude : (conclude L answer).ok with
  | error refusal =>
    rw [hconclude] at hview
    exact ⟨refusal, rfl, (congrArg Prod.fst hview).symm, congrArg Prod.snd hview⟩
  | ok response =>
    rw [hconclude] at hview
    have haccepted : none = answer.refusedWith L := congrArg Prod.fst hview
    cases answer with
    | failed reason => cases haccepted
    | answered http =>
      simp only [Answer.refusedWith, Answer.accepted] at haccepted h
      split at haccepted
      · rename_i hstatus
        rw [if_pos hstatus] at h
        cases h
      · cases haccepted

/-! ## Exchanges -/

/-- What one endpoint leaves in a trace. -/
structure Exchange (client : Option Client) (op : Operation) (trace : List (Attempt × Answer))
    (answer : Answer) : Prop where
  addressed : ∀ entry ∈ trace, op.Addressed client entry.1.request
  final : ∃ before attempt, trace = before ++ [(attempt, answer)]
  oneShot : op.isOneShot = true → trace.length = 1

theorem settled_get (retryable : Bool) (n : Nat) (answers : Stream' Answer) :
    ∃ k, settled retryable n answers = answers.get k := by
  induction n generalizing answers with
  | zero => exact ⟨0, rfl⟩
  | succ n ih =>
    unfold settled
    split
    · obtain ⟨k, hk⟩ := ih answers.tail
      exact ⟨k + 1, hk⟩
    · exact ⟨0, rfl⟩

theorem attempts_final {request : HttpRequest} {retryable : Bool} :
    ∀ {n attempt : Nat} {sleptMs : Option Nat} {answers : Stream' Answer},
      ∃ before last, attempts P request retryable n attempt sleptMs answers =
        before ++ [(last, settled retryable n answers)] := by
  intro n
  induction n with
  | zero => exact fun {_ _ _} => ⟨[], _, rfl⟩
  | succ n ih =>
    intro attempt sleptMs answers
    unfold attempts settled
    cases throttled retryable answers.head with
    | none => exact ⟨[], _, rfl⟩
    | some seconds =>
      obtain ⟨before, last, h⟩ := @ih (attempt + 1) (some (retryDelayMs P attempt seconds))
        answers.tail
      exact ⟨_ :: before, last, congrArg (List.cons _) h⟩

/-- A 2xx ends the attempts. -/
theorem attempts_accepted {request : HttpRequest} {retryable : Bool} {entry : Attempt × Answer} :
    ∀ {n attempt : Nat} {sleptMs : Option Nat} {answers : Stream' Answer},
      entry ∈ attempts P request retryable n attempt sleptMs answers → entry.2.accepted L ≠ none →
        entry.2 = settled retryable n answers := by
  intro n
  induction n with
  | zero =>
    intro attempt sleptMs answers h _
    rw [List.mem_singleton.mp h]
    rfl
  | succ n ih =>
    intro attempt sleptMs answers h haccepted
    unfold attempts at h
    unfold settled
    cases hthrottled : throttled retryable answers.head with
    | none =>
      rw [hthrottled] at h
      rw [List.mem_singleton.mp h]
    | some seconds =>
      rw [hthrottled] at h
      rcases List.mem_cons.mp h with rfl | h
      · refine absurd ?_ haccepted
        show answers.head.accepted L = none
        cases hanswer : answers.head with
        | failed reason => rfl
        | answered http =>
          rw [hanswer] at hthrottled
          have hstatus := (Option.ite_none_right_eq_some.mp hthrottled).1.1
          exact if_neg fun hsuccess => by unfold IsSuccess at hsuccess; omega
      · exact ih h haccepted

namespace Operation

variable {op : Operation} {client : Option Client} {slot : Bool}

theorem run_exchange {c : Client} {p : Prepared} {r : HttpRequest}
    (h : (op.build P.toLibc client slot).ok = .ok (c, p, r)) (answers : Stream' Answer) :
    ∃ trace answer, Exchange client op trace answer ∧
      (op.run P client slot).run answers = (trace, (conclude P.toLibc answer).ok) := by
  refine ⟨_, _, ⟨?_, attempts_final, fun hop => ?_⟩, run_of_build h answers⟩
  · have hruns := runs_run (op.run P client slot) answers
    rw [run_of_build h answers] at hruns
    exact sends_addressed.runs hruns
  · obtain ⟨route, hroute, hfollows, -, -⟩ := build_route (AllocE.can_false.2 h)
    rw [hfollows.method, hfollows.path, isOneShot_not_retryable hop hroute]
    obtain ⟨rest, hrest⟩ := attempts_eq_cons P r false c.maxRetries 0 none answers
    have hone : ¬ 1 < (attempts P r false c.maxRetries 0 none answers).length :=
      fun hlong => Bool.false_ne_true (attempts_repeated hlong)
    rw [hrest] at hone ⊢
    simp only [List.length_cons] at hone ⊢
    omega

/-- **A call.** It sends nothing and fails, or it makes one exchange and answers with what the last
    answer says. -/
theorem runs_cases {answers : Stream' Answer} {trace : List (Attempt × Answer)} {out : Outcome}
    (h : (op.run P client slot).Runs False answers trace out) :
    (∃ failure, (op.build P.toLibc client slot).ok = .error failure ∧ trace = [] ∧
      out = refused failure) ∨
    ∃ built answer, (op.build P.toLibc client slot).ok = .ok built ∧
      Exchange client op trace answer ∧ out = (conclude P.toLibc answer).ok := by
  have hrun := runs_false.1 h
  cases hbuild : (op.build P.toLibc client slot).ok with
  | error failure =>
    rw [run_of_failure hbuild answers] at hrun
    injection hrun with htrace hout
    exact Or.inl ⟨failure, rfl, htrace.symm, hout.symm⟩
  | ok built =>
    obtain ⟨c, p, r⟩ := built
    obtain ⟨trace', answer, hexchange, hrun'⟩ := run_exchange hbuild answers
    rw [hrun'] at hrun
    injection hrun with htrace hout
    exact Or.inr ⟨_, answer, rfl, htrace ▸ hexchange, hout.symm⟩

/-- **A call returns the response it was sent.** Only a 429 is retried, so no other 2xx came. -/
theorem run_ok_iff {answers : Stream' Answer} {trace : List (Attempt × Answer)} {out : Outcome}
    (h : (op.run P client slot).run answers = (trace, out)) {response : Response} :
    out = .ok response ↔ ∃ entry ∈ trace, entry.2.accepted P.toLibc = some response := by
  cases hbuild : (op.build P.toLibc client slot).ok with
  | error failure =>
    rw [run_of_failure hbuild answers] at h
    obtain ⟨rfl, rfl⟩ := Prod.mk.inj h
    exact ⟨nofun, fun ⟨_, hentry, _⟩ => absurd hentry List.not_mem_nil⟩
  | ok built =>
    obtain ⟨c, p, r⟩ := built
    rw [run_of_build hbuild answers] at h
    obtain ⟨rfl, rfl⟩ := Prod.mk.inj h
    constructor
    · intro hout
      obtain ⟨before, last, hfinal⟩ : ∃ before last,
          attempts P r (requestIsRetryable p.method p.path) c.maxRetries 0 none answers = before ++
            [(last, settled (requestIsRetryable p.method p.path) c.maxRetries answers)] :=
        attempts_final
      refine ⟨_, by rw [hfinal]; exact List.mem_append_right _ (List.mem_singleton_self _), ?_⟩
      cases haccepted : Answer.accepted P.toLibc _ with
      | none =>
        obtain ⟨refusal, hrefused, -⟩ := conclude_refused haccepted
        rw [hrefused] at hout
        cases hout
      | some response' =>
        rw [conclude_accepted haccepted] at hout
        exact congrArg some (Except.ok.inj hout)
    · rintro ⟨entry, hentry, haccepted⟩
      rw [← attempts_accepted hentry (by rw [haccepted]; nofun)]
      exact conclude_accepted haccepted

end Operation

/-! ## Rows of exchanges -/

/-- The answer of the last request that satisfies `p`. -/
def LastAnswer {α ω : Type} (p : α → Prop) : List (α × ω) → ω → Prop
  | [], _ => False
  | (a, w) :: rest, answer =>
      LastAnswer p rest answer ∨ (∀ entry ∈ rest, ¬ p entry.1) ∧ p a ∧ w = answer

theorem lastAnswer_append {α ω : Type} {p : α → Prop} {l l' : List (α × ω)} {w : ω} :
    LastAnswer p (l ++ l') w ↔
      LastAnswer p l' w ∨ (∀ entry ∈ l', ¬ p entry.1) ∧ LastAnswer p l w := by
  induction l with
  | nil => simp [LastAnswer]
  | cons e l ih =>
    simp only [List.cons_append, LastAnswer, ih, List.forall_mem_append]
    tauto

theorem lastAnswer_none {α ω : Type} {p : α → Prop} {l : List (α × ω)} {w : ω}
    (h : ∀ entry ∈ l, ¬ p entry.1) : ¬ LastAnswer p l w := by
  induction l with
  | nil => exact id
  | cons e l ih =>
    obtain ⟨he, hl⟩ := List.forall_mem_cons.mp h
    rintro (hlast | ⟨-, hp, -⟩)
    · exact ih hl hlast
    · exact he hp

theorem lastAnswer_unique {α ω : Type} {p : α → Prop} {l : List (α × ω)} {w w' : ω}
    (h : LastAnswer p l w) (h' : LastAnswer p l w') : w = w' := by
  induction l with
  | nil => exact h.elim
  | cons e l ih =>
    rcases h with h | ⟨hnone, -, rfl⟩
    · rcases h' with h' | ⟨hnone, -, -⟩
      · exact ih h h'
      · exact absurd h (lastAnswer_none hnone)
    · rcases h' with h' | ⟨-, -, rfl⟩
      · exact absurd h' (lastAnswer_none hnone)
      · rfl

/-- A trace cut into exchanges; of each, the endpoint and the answer that counts. -/
inductive Exchanges (client : Option Client) :
    List (Operation × Answer) → List (Attempt × Answer) → Prop where
  | nil : Exchanges client [] []
  | cons {op : Operation} {answer : Answer} {trace rest : List (Attempt × Answer)}
      {steps : List (Operation × Answer)} (head : Exchange client op trace answer)
      (tail : Exchanges client steps rest) : Exchanges client ((op, answer) :: steps) (trace ++ rest)

namespace Exchanges

variable {client : Option Client} {steps steps' : List (Operation × Answer)}
  {trace trace' : List (Attempt × Answer)} {p : HttpRequest → Prop} {q : Operation → Prop}

theorem single {op : Operation} {answer : Answer} (h : Exchange client op trace answer) :
    Exchanges client [(op, answer)] trace := by
  have := Exchanges.cons h .nil
  rwa [List.append_nil] at this

theorem append (h : Exchanges client steps trace) (h' : Exchanges client steps' trace') :
    Exchanges client (steps ++ steps') (trace ++ trace') := by
  induction h with
  | nil => exact h'
  | cons head tail ih => rw [List.append_assoc]; exact .cons head ih

theorem mem (h : Exchanges client steps trace) {entry : Attempt × Answer} (hentry : entry ∈ trace) :
    ∃ step ∈ steps, step.1.Addressed client entry.1.request := by
  induction h with
  | nil => cases hentry
  | cons head tail ih =>
    rcases List.mem_append.mp hentry with hentry | hentry
    · exact ⟨_, List.mem_cons_self, head.addressed entry hentry⟩
    · obtain ⟨step, hstep, haddressed⟩ := ih hentry
      exact ⟨step, List.mem_cons_of_mem _ hstep, haddressed⟩

/-- Requests are told apart by the endpoints that make them. -/
theorem exists_iff (h : Exchanges client steps trace)
    (hpq : ∀ step ∈ steps, ∀ r, step.1.Addressed client r → (p r ↔ q step.1)) :
    (∃ entry ∈ trace, p entry.1.request) ↔ ∃ step ∈ steps, q step.1 := by
  induction h with
  | nil => simp
  | @cons op answer trace rest steps head tail ih =>
    have ih := ih fun step hstep => hpq step (List.mem_cons_of_mem _ hstep)
    have hhead : (∃ entry ∈ trace, p entry.1.request) ↔ q op := by
      constructor
      · rintro ⟨entry, hentry, hp⟩
        exact (hpq _ List.mem_cons_self _ (head.addressed entry hentry)).mp hp
      · intro hq
        obtain ⟨before, attempt, htrace⟩ := head.final
        have hmem : (attempt, answer) ∈ trace := by simp [htrace]
        exact ⟨_, hmem, (hpq _ List.mem_cons_self _ (head.addressed _ hmem)).mpr hq⟩
    simp only [List.mem_append, List.mem_cons, or_and_right, exists_or, exists_eq_left, hhead, ih]

theorem lastAnswer_iff (h : Exchanges client steps trace) {w : Answer}
    (hpq : ∀ step ∈ steps, ∀ r, step.1.Addressed client r → (p r ↔ q step.1)) :
    LastAnswer (fun attempt => p attempt.request) trace w ↔ LastAnswer q steps w := by
  induction h with
  | nil => rfl
  | @cons op answer trace rest steps head tail ih =>
    have hrest : ∀ step ∈ steps, ∀ r, step.1.Addressed client r → (p r ↔ q step.1) :=
      fun step hstep => hpq step (List.mem_cons_of_mem _ hstep)
    have hnone : (∀ entry ∈ rest, ¬ p entry.1.request) ↔ ∀ step ∈ steps, ¬ q step.1 := by
      simpa only [not_exists, not_and] using not_congr (tail.exists_iff hrest)
    have hhead : LastAnswer (fun attempt => p attempt.request) trace w ↔ q op ∧ answer = w := by
      have hentries : ∀ entry ∈ trace, p entry.1.request ↔ q op := fun entry hentry =>
        hpq _ List.mem_cons_self _ (head.addressed entry hentry)
      by_cases hop : q op
      · obtain ⟨before, attempt, htrace⟩ := head.final
        have hlast : p attempt.request := (hentries (attempt, answer) (by simp [htrace])).mpr hop
        simp [htrace, lastAnswer_append, LastAnswer, hlast, hop]
      · have hno : ¬ LastAnswer (fun attempt => p attempt.request) trace w :=
          lastAnswer_none fun entry hentry hp => hop ((hentries entry hentry).mp hp)
        simp [hno, hop]
    rw [lastAnswer_append, ih hrest, hnone, hhead, LastAnswer]

/-- An endpoint that sends once and is called once is seen once. -/
theorem once (h : Exchanges client steps trace)
    (hpq : ∀ step ∈ steps, ∀ r, step.1.Addressed client r → (p r ↔ q step.1))
    (hq : ∀ op, q op → op.isOneShot = true)
    (hsteps : steps.Pairwise fun s s' => ¬ (q s.1 ∧ q s'.1)) :
    trace.Pairwise fun e e' => ¬ (p e.1.request ∧ p e'.1.request) := by
  induction h with
  | nil => exact .nil
  | @cons op answer trace rest steps head tail ih =>
    have hrest : ∀ step ∈ steps, ∀ r, step.1.Addressed client r → (p r ↔ q step.1) :=
      fun step hstep => hpq step (List.mem_cons_of_mem _ hstep)
    obtain ⟨hfirst, hsteps⟩ := List.pairwise_cons.mp hsteps
    have hop : ∀ entry ∈ trace, p entry.1.request → q op := fun entry hentry =>
      (hpq _ List.mem_cons_self _ (head.addressed entry hentry)).mp
    refine List.pairwise_append.mpr ⟨?_, ih hrest hsteps, ?_⟩
    · by_cases hone : q op
      · obtain ⟨entry, rfl⟩ := List.length_eq_one_iff.mp (head.oneShot (hq op hone))
        exact List.pairwise_singleton _ _
      · exact List.pairwise_of_forall_mem_list fun e he e' _ hboth => hone (hop e he hboth.1)
    · rintro e he e' he' ⟨hp, hp'⟩
      obtain ⟨step, hstep, hqstep⟩ := (tail.exists_iff hrest).mp ⟨e', he', hp'⟩
      exact hfirst step hstep ⟨hop e he hp, hqstep⟩

end Exchanges

end Tamga
