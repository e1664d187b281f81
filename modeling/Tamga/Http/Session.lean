import Tamga.Http.Routes

/-!
# `Http.Session` — a client over its whole life

A client comes from `tamga_client_new` and is then given setters and endpoints in any order. `session`
is one such life after its creation, `history` one from the beginning. An invariant that the creation
establishes and the setters keep holds whenever an endpoint runs (`session_sends`), so what is shown of
one request under the invariant is shown of every request of every history.
-/

namespace Tamga

open Alloc Json Interact

variable {P : Platform} {F : Prop}

/-- The setters with their arguments. -/
inductive Setter : Type where
  | auth (kind : UInt32) (primary secondary : Option Bytes)
  | apiVersion (version : Option Bytes)
  | timeoutMs (ms : UInt32)
  | maxRetries (n : UInt32)
  | transport (callback : Option Nat)

def Setter.run (client : Client) : Setter → Update
  | auth kind primary secondary => setAuth client kind primary secondary
  | apiVersion version => setApiVersion client version
  | timeoutMs ms => setTimeoutMs client ms
  | maxRetries n => setMaxRetries client n
  | transport callback => setTransport client callback

/-- A call on a client. -/
inductive ClientCall : Type where
  | set (setter : Setter)
  | use (endpoint : Endpoint)

/-- Calls one after the other; the client they leave. -/
def session (P : Platform) : List ClientCall → Client → Http Client
  | [], client => return client
  | .set setter :: calls, client => do
      let updated ← Interact.ofAlloc (setter.run client)
      session P calls updated.2
  | .use endpoint :: calls, client => do
      endpoint.run P (some client)
      session P calls client

/-- The life of a client, if it comes into being. -/
def history (P : Platform) (builtIn : Option Transport) (accountId host : Option Bytes)
    (calls : List ClientCall) : Http (Option Client) := do
  match ← Interact.ofAlloc (clientNew builtIn accountId host).run with
  | .error _ => return none
  | .ok client => some <$> session P calls client

/-! ## What a setter can do -/

/-- What a setter stores when it succeeds. -/
inductive Stores (client : Client) : Client → Prop where
  | auth (auth : Credentials) (hprimary : headerValueIsSafe auth.primary = true)
      (hsecondary : ∀ s ∈ auth.secondary, headerValueIsSafe s = true) :
      Stores client { client with auth := some auth }
  | apiVersion (version : Bytes) : Stores client { client with apiVersion := version }
  | timeoutMs (ms : Nat) : Stores client { client with timeoutMs := ms }
  | maxRetries (n : Nat) (h : n ≤ 16) : Stores client { client with maxRetries := n }
  | transport (transport : Transport) : Stores client { client with transport := some transport }

/-- The outcomes of a setter: a failure that changes nothing, or a success that stores. -/
def Settles (client : Client) (result : Except Failure Unit × Client) : Prop :=
  (∃ failure, result.1 = .error failure) ∧ result.2 = client ∨
    result.1 = .ok () ∧ Stores client result.2

section Setters

variable {client : Client} {result : Except Failure Unit × Client}

theorem settles_refuse {code : ErrorCode} {message : String}
    (h : (client.refuse code message).Can F result) : Settles client result :=
  Or.inl (can_pure.1 h ▸ ⟨⟨_, rfl⟩, rfl⟩)

theorem settles_stored {client' : Client} (hstores : Stores client client')
    (h : (pure (.ok (), client') : Update).Can F result) : Settles client result :=
  Or.inr (can_pure.1 h ▸ ⟨rfl, hstores⟩)

theorem headerValueIsSafe_copy {value copy : Bytes} (hsafe : headerValueIsSafe value = true)
    (h : (strdup value).Can F (some copy)) : headerValueIsSafe copy = true := by
  rw [(strndup_some h).1]
  unfold headerValueIsSafe at hsafe ⊢
  rw [List.all_eq_true] at hsafe ⊢
  exact fun c hc => hsafe c ((List.takeWhile_sublist _).subset hc)

theorem storeCredentials_settles {kind : AuthKind} {primary : Bytes} {secondary : Option Bytes}
    (hprimary : headerValueIsSafe primary = true)
    (hsecondary : ∀ s ∈ secondary, headerValueIsSafe s = true)
    (h : (storeCredentials client kind primary secondary).Can F result) : Settles client result := by
  obtain ⟨copy, hcopy, h⟩ := can_bind.1 h
  cases copy with
  | none => exact settles_refuse h
  | some copy =>
    have hsafe := headerValueIsSafe_copy hprimary hcopy
    cases secondary with
    | none => exact settles_stored (.auth _ hsafe fun _ hs => by cases hs) h
    | some secondary =>
      obtain ⟨copy', hcopy', h⟩ := can_bind.1 h
      cases copy' with
      | none => exact settles_refuse h
      | some copy' =>
        refine settles_stored (.auth _ hsafe ?_) h
        rintro _ ⟨⟩
        exact headerValueIsSafe_copy (hsecondary _ rfl) hcopy'

theorem setAuth_settles {kind : UInt32} {primary secondary : Option Bytes}
    (h : (setAuth client kind primary secondary).Can F result) : Settles client result := by
  unfold setAuth at h
  split at h
  · exact settles_refuse h
  split at h
  · exact settles_refuse h
  split at h
  · exact settles_refuse h
  split at h
  · exact settles_refuse h
  · rename_i hsafe
    obtain ⟨hprimary, hsecondary⟩ := not_not.mp hsafe
    exact storeCredentials_settles hprimary hsecondary h

/-- **Setters.** A setter that fails changes nothing; one that succeeds changes one field. -/
theorem Setter.run_settles {setter : Setter} (h : (setter.run client).Can F result) :
    Settles client result := by
  cases setter with
  | auth kind primary secondary => exact setAuth_settles h
  | apiVersion version =>
    cases version with
    | none => exact settles_refuse h
    | some version =>
      obtain ⟨copy, -, h⟩ := can_bind.1 h
      cases copy with
      | none => exact settles_refuse h
      | some copy => exact settles_stored (.apiVersion copy) h
  | timeoutMs ms =>
    simp only [Setter.run, setTimeoutMs] at h
    split at h
    · exact settles_refuse h
    · exact settles_stored (.timeoutMs _) h
  | maxRetries n =>
    simp only [Setter.run, setMaxRetries] at h
    split at h
    · exact settles_refuse h
    · rename_i hn
      refine settles_stored (.maxRetries _ ?_) h
      simpa [UInt32.le_iff_toNat_le] using hn
  | transport callback =>
    cases callback with
    | none => exact settles_refuse h
    | some callback =>
      rcases malloc_can h with h | ⟨-, h⟩
      · rcases malloc_can h with h | ⟨-, h⟩
        · exact settles_stored (.transport _) h
        · exact settles_refuse h
      · exact settles_refuse h

end Setters

/-! ## Invariants of a client's life -/

section Invariant

variable {I : Client → Prop} {q : Attempt → Prop} {calls : List ClientCall} {client : Client}

theorem Setter.keeps (hstores : ∀ c c', I c → Stores c c' → I c') {setter : Setter}
    {result : Except Failure Unit × Client} (hclient : I client)
    (h : (setter.run client).Can F result) : I result.2 := by
  rcases Setter.run_settles h with ⟨-, hsame⟩ | ⟨-, hnew⟩
  · rw [hsame]; exact hclient
  · exact hstores _ _ hclient hnew

/-- What holds of the requests of an endpoint under the invariant holds of all requests. -/
theorem session_sends (hstores : ∀ c c', I c → Stores c c' → I c')
    (huse : ∀ (e : Endpoint) c, I c → (e.run P (some c)).Sends q) (hclient : I client) :
    (session P calls client).Sends q := by
  induction calls generalizing client with
  | nil => exact .pure _
  | cons call calls ih =>
    cases call with
    | set setter =>
      refine .bind_ofAlloc fun result hresult => ih ?_
      exact Setter.keeps hstores hclient hresult
    | use e => exact (huse e client hclient).bind fun _ => ih hclient

theorem session_keeps (hstores : ∀ c c', I c → Stores c c' → I c') {answers : Stream' Answer}
    {trace : List (Attempt × Answer)} {client' : Client} (hclient : I client)
    (h : (session P calls client).Runs F answers trace client') : I client' := by
  induction calls generalizing client answers trace with
  | nil => exact (runs_pure.1 h).2 ▸ hclient
  | cons call calls ih =>
    cases call with
    | set setter =>
      obtain ⟨result, hresult, h⟩ := runs_bind_ofAlloc.1 h
      exact ih (Setter.keeps hstores hclient hresult) h
    | use e =>
      obtain ⟨first, rest, _, -, -, h⟩ := runs_bind.1 h
      exact ih hclient h

variable {builtIn : Option Transport} {accountId host : Option Bytes}

theorem history_sends (hnew : Call.Ensures I (clientNew builtIn accountId host))
    (hstores : ∀ c c', I c → Stores c c' → I c')
    (huse : ∀ (e : Endpoint) c, I c → (e.run P (some c)).Sends q) :
    (history P builtIn accountId host calls).Sends q := by
  refine .bind_ofAlloc fun result hresult => ?_
  match result, hresult with
  | .error failure, _ => exact .pure _
  | .ok client, hresult =>
    show Interact.Sends q (some <$> session P calls client)
    rw [map_eq_pure_bind]
    exact (session_sends hstores huse (hnew client hresult)).bind fun _ => .pure _

theorem history_keeps (hnew : Call.Ensures I (clientNew builtIn accountId host))
    (hstores : ∀ c c', I c → Stores c c' → I c') {answers : Stream' Answer}
    {trace : List (Attempt × Answer)}
    (h : (history P builtIn accountId host calls).Runs True answers trace (some client)) :
    I client := by
  obtain ⟨result, hresult, h⟩ := runs_bind_ofAlloc.1 h
  match result, hresult with
  | .error failure, _ => cases (runs_pure.1 h).2
  | .ok created, hresult =>
    replace h : (session P calls created >>= fun c => pure (some c)).Runs True answers trace
        (some client) := by
      rw [← map_eq_pure_bind]; exact h
    obtain ⟨first, rest, c, -, hsession, h⟩ := runs_bind.1 h
    obtain ⟨-, ⟨⟩⟩ := runs_pure.1 h
    exact session_keeps hstores (hnew created hresult) hsession

end Invariant

/-! ## The client that is created -/

/-- The host without the blanks before it and the blanks and slashes after it. -/
def trimmedHost (host : Bytes) : Bytes :=
  (host.dropWhile (· = 0x20)).rdropWhile fun c => c = 0x2F || c = 0x20

/-- The pieces of an origin. -/
def originPieces (host : Bytes) : List Bytes :=
  if (7 < (trimmedHost host).length && (trimmedHost host).take 7 = ascii "http://") ||
      (8 < (trimmedHost host).length && (trimmedHost host).take 8 = ascii "https://") then
    [trimmedHost host]
  else [ascii "https://", trimmedHost host]

/-- The account's URL under an origin. -/
def baseUrlPieces (origin accountId : Bytes) : List Bytes := [origin, ascii "/v1/accounts/", accountId]

theorem composeOrigin_eq (host : Bytes) : composeOrigin host = joined (originPieces host) := by
  unfold composeOrigin joined originPieces trimmedHost
  simp only
  split <;> simp_all [Buf.appendStr]

theorem composeBaseUrl_eq (origin accountId : Bytes) :
    composeBaseUrl origin accountId = joined (baseUrlPieces origin accountId) := by
  simp [composeBaseUrl, joined, baseUrlPieces]

/-- The client for an account and a host. -/
def newClient (builtIn : Option Transport) (accountId host : Bytes) : Client where
  accountId := cstr accountId
  host := cstr host
  apiVersion := defaultApiVersion
  origin := (originPieces host).flatten
  baseUrl := (baseUrlPieces (originPieces host).flatten accountId).flatten
  timeoutMs := defaultTimeoutMs
  maxRetries := defaultMaxRetries
  auth := none
  transport := builtIn

/-- A C string that `tamga_client_new` can store. -/
structure Accepted (text : Bytes) : Prop where
  nonempty : text ≠ []
  short : text.length ≤ maxReasonableLen
  nulFree : NulFree text

/-- Trimming takes blanks and slashes away and nothing else. -/
theorem mem_trimmedHost {host : Bytes} {b : UInt8} (h : b ≠ 0x20 ∧ b ≠ 0x2F) :
    b ∈ trimmedHost host ↔ b ∈ host := by
  have hdrop : ∀ {p : UInt8 → Bool} {text : Bytes}, p b = false →
      (b ∈ text.dropWhile p ↔ b ∈ text) := by
    intro p text hb
    conv_rhs => rw [← text.takeWhile_append_dropWhile (p := p), List.mem_append]
    refine (or_iff_right fun hmem => ?_).symm
    rw [List.mem_takeWhile_imp hmem] at hb
    cases hb
  unfold trimmedHost List.rdropWhile
  rw [List.mem_reverse, hdrop (by simp [h]), List.mem_reverse, hdrop (by simp [h])]

theorem originPieces_nulFree {host : Bytes} :
    NulFree (originPieces host).flatten ↔ NulFree host := by
  have htrimmed : NulFree (trimmedHost host) ↔ NulFree host :=
    not_congr (mem_trimmedHost (by decide))
  have hscheme : NulFree (ascii "https://") := by decide
  unfold originPieces
  split
  · simpa using htrimmed
  · simpa [nulFree_append, hscheme] using htrimmed

theorem clientNew_ensures :
    Call.Ensures (fun c => ∃ a h, accountId = some a ∧ host = some h ∧ Accepted a ∧ Accepted h ∧
      c = newClient builtIn a h) (clientNew builtIn accountId host) := by
  unfold clientNew
  split
  · rename_i a h
    split
    · exact .throw _
    rename_i hne
    refine .bind_lift fun block _ => ?_
    cases block with
    | false => exact .throw _
    | true =>
      refine .bind_lift fun accountCopy ha => .bind_lift fun hostCopy hh =>
        .bind_lift fun version hv => .bind_lift fun origin ho => ?_
      cases origin with
      | none =>
        refine .rest fun baseUrl => ?_
        simp only
        exact .throw _
      | some origin =>
        refine .bind_lift fun baseUrl hb => ?_
        simp only
        split
        · rename_i horigin
          injection horigin with horigin
          rw [composeOrigin_eq] at ho
          rw [composeBaseUrl_eq] at hb
          obtain ⟨horiginText, horiginNul, -⟩ := joined_some ho
          obtain ⟨hbaseText, hbaseNul, -⟩ := joined_some hb
          have hh0 : NulFree h := originPieces_nulFree.1 (horiginText ▸ horiginNul)
          have ha0 : NulFree a := by
            rw [hbaseText] at hbaseNul
            simp only [baseUrlPieces, List.flatten_cons, List.flatten_nil, List.append_nil,
              nulFree_append] at hbaseNul
            exact hbaseNul.2.2
          obtain ⟨haText, -, haLen⟩ := strndup_some ha
          obtain ⟨hhText, -, hhLen⟩ := strndup_some hh
          rw [cstr_of_nulFree ha0] at haLen
          rw [cstr_of_nulFree hh0] at hhLen
          have hne' : a ≠ [] ∧ h ≠ [] := by
            simpa [List.length_eq_zero_iff] using hne
          refine .pure ⟨a, h, rfl, rfl, ⟨hne'.1, haLen, ha0⟩, ⟨hne'.2, hhLen, hh0⟩, ?_⟩
          rw [← horigin, hbaseText, horiginText, haText, hhText, (strndup_some hv).1]
          rfl
        · exact .throw _
  · exact .throw _

theorem originPieces_accepted {host : Bytes} (h : Accepted host) :
    NulFree (originPieces host).flatten ∧ (originPieces host).flatten.length ≤ host.length + 8 := by
  refine ⟨originPieces_nulFree.2 h.nulFree, ?_⟩
  have hlen : (trimmedHost host).length ≤ host.length :=
    ((List.rdropWhile_prefix _ _).sublist.trans (List.dropWhile_sublist _)).length_le
  have hscheme : (ascii "https://").length = 8 := by decide
  unfold originPieces
  split
  · simp only [List.flatten_cons, List.flatten_nil, List.append_nil]; omega
  · simp only [List.flatten_cons, List.flatten_nil, List.append_nil, List.length_append]; omega

theorem newClient_baseUrl (builtIn : Option Transport) {a h : Bytes} (ha : Accepted a)
    (hh : Accepted h) : NulFree (newClient builtIn a h).baseUrl ∧
      (newClient builtIn a h).baseUrl.length ≤ 2 * maxReasonableLen + 21 := by
  obtain ⟨hnul, hlen⟩ := originPieces_accepted hh
  have := ha.short
  have := hh.short
  have h13 : (ascii "/v1/accounts/").length = 13 := by decide
  constructor
  · show NulFree [_, _, _].flatten
    simp only [List.flatten_cons, List.flatten_nil, List.append_nil, nulFree_append]
    exact ⟨hnul, by decide, ha.nulFree⟩
  · show [_, _, _].flatten.length ≤ _
    simp only [List.flatten_cons, List.flatten_nil, List.append_nil, List.length_append]
    omega

/-- **Creation.** An account and a host that can be stored make a client. -/
theorem clientNew_ok {a h : Bytes} (ha : Accepted a) (hh : Accepted h) :
    (clientNew builtIn (some a) (some h)).ok = .ok (newClient builtIn a h) := by
  have hmax : maxReasonableLen + 100 < Buf.maxGrowth := by decide
  have hlen := (newClient_baseUrl builtIn ha hh).2
  have horigin : (composeOrigin h).ok = some (originPieces h).flatten := by
    rw [composeOrigin_eq]
    have := originPieces_accepted hh
    have := hh.short
    exact joined_ok.2 ⟨rfl, by tauto, by omega⟩
  have hbase : (composeBaseUrl (originPieces h).flatten a).ok =
      some (newClient builtIn a h).baseUrl := by
    rw [composeBaseUrl_eq]
    refine joined_ok.2 ⟨rfl, (newClient_baseUrl builtIn ha hh).1, ?_⟩
    have : 3 * maxReasonableLen < Buf.maxGrowth := by decide
    have : 21 < maxReasonableLen := by decide
    omega
  have hne : ¬ (a.length = 0 ∨ h.length = 0) := by
    simpa [List.length_eq_zero_iff] using ⟨ha.nonempty, hh.nonempty⟩
  have hversion : (strdup defaultApiVersion).ok = some defaultApiVersion :=
    strdup_ok (by decide) (by decide)
  unfold clientNew
  simp only [if_neg hne]
  rw [AllocE.ok_bind_of_ok (AllocE.ok_lift _)]
  simp only [malloc, ok_request, if_true]
  rw [AllocE.ok_bind_of_ok (AllocE.ok_lift _), AllocE.ok_bind_of_ok (AllocE.ok_lift _),
    AllocE.ok_bind_of_ok (AllocE.ok_lift _), AllocE.ok_bind_of_ok (AllocE.ok_lift _), horigin,
    strdup_ok ha.short ha.nulFree, strdup_ok hh.short hh.nulFree,
    hversion]
  simp only
  rw [AllocE.ok_bind_of_ok (AllocE.ok_lift _), hbase]
  simp [newClient, cstr_of_nulFree ha.nulFree, cstr_of_nulFree hh.nulFree]

/-- A client with a transport and a bearer token, as two setters leave it. -/
def Client.ready (c : Client) : Client :=
  { c with transport := some (.custom 0), auth := some ⟨.bearer, ascii "t", none⟩ }

end Tamga
