import Tamga.Http.Activation
import Tamga.Http.Keyset

/-!
# `Http.Lookup` — a machine looked up by its fingerprint (`http/endpoints.c`)

The server's search finds substrings, so the library walks the pages of the search and compares. What a
walk over pages is, is said by `Walk`, of outcomes alone; `Asked` ties the outcomes to the calls of the
pages 1, 2, … against one stream of answers.
-/

namespace Tamga

open Alloc Json Interact

/-! ## One page -/

/-- The request for one page of the lookup. -/
def lookupPage (licenseId fingerprint : Option Bytes) (number : Nat) : Operation :=
  .listMachines licenseId fingerprint (UInt32.ofNat number) machinePageSize

/-- The request on the wire: a `GET` for that page, a hundred machines long. -/
def AsksFor (client : Option Client) (licenseId fingerprint : Option Bytes) (number : Nat)
    (request : HttpRequest) : Prop :=
  ∃ c license search, client = some c ∧ licenseId.bind uuidNormalize = some license ∧
    fingerprint = some search ∧ request.method = .get ∧
    request.url = c.urlOf ⟨.account, .get, ascii "/machines",
      [(ascii "page[number]", Decimal.encode number), (ascii "page[size]", Decimal.encode 100),
        (ascii "filter[license]", license), (ascii "filter[q]", search)]⟩

/-- The machines on a page. -/
def listedMachines (response : Response) : List Json := jsonItems (jsonMember response.json "data")

/-- The page has no match and says that there is another. -/
def Onward (fingerprint : Bytes) (number : Nat) (response : Response) : Prop :=
  (listedMachines response).findSome? (exactMatch fingerprint) = none ∧
    ∃ totalPages, responseTotalPages response = some totalPages ∧ (number : Int) < totalPages.toInt

/-! ## A walk over pages -/

/-- `Walk fingerprint number pagesLeft outcomes found`: from page `number` on, with `pagesLeft` pages
    allowed, calls that came to `outcomes` end in `found`. -/
inductive Walk (fingerprint : Bytes) :
    Nat → Nat → List Outcome → Except Failure (Option Bytes) → Prop where
  | cap (number : Nat) : Walk fingerprint number 0 [] (.ok none)
  | failed (number pagesLeft : Nat) (refusal : Refusal) :
      Walk fingerprint number (pagesLeft + 1) [.error refusal] (.error refusal.failure)
  | stop (number pagesLeft : Nat) (response : Response) (h : ¬ Onward fingerprint number response) :
      Walk fingerprint number (pagesLeft + 1) [.ok response]
        (.ok ((listedMachines response).findSome? (exactMatch fingerprint)))
  | onward {number pagesLeft : Nat} {response : Response} {outcomes : List Outcome}
      {found : Except Failure (Option Bytes)} (h : Onward fingerprint number response)
      (rest : Walk fingerprint (number + 1) pagesLeft outcomes found) :
      Walk fingerprint number (pagesLeft + 1) (.ok response :: outcomes) found

/-- The machines on the pages that came, in order. -/
def listed (outcomes : List Outcome) : List Json :=
  outcomes.flatMap fun outcome =>
    match outcome with
    | .ok response => listedMachines response
    | .error _ => []

@[simp] theorem listed_ok_cons (response : Response) (outcomes : List Outcome) :
    listed (.ok response :: outcomes) = listedMachines response ++ listed outcomes := rfl

namespace Walk

variable {fingerprint : Bytes} {number pagesLeft : Nat} {outcomes : List Outcome}
  {found : Except Failure (Option Bytes)}

theorem length_le (h : Walk fingerprint number pagesLeft outcomes found) :
    outcomes.length ≤ pagesLeft := by
  induction h with
  | cap => exact Nat.le_refl 0
  | failed | stop => exact Nat.succ_le_succ (Nat.zero_le _)
  | onward _ _ ih => exact Nat.succ_le_succ ih

/-- A page that is not the last one was no reason to stop. -/
theorem onward_of_lt (h : Walk fingerprint number pagesLeft outcomes found) :
    ∀ {i : Nat}, i + 1 < outcomes.length →
      ∃ response, outcomes[i]? = some (.ok response) ∧ Onward fingerprint (number + i) response := by
  induction h with
  | cap =>
    intro i hi
    exact absurd hi (Nat.not_lt_zero _)
  | failed | stop =>
    intro i hi
    rw [List.length_singleton] at hi
    omega
  | @onward number pagesLeft response outcomes found h rest ih =>
    intro i hi
    cases i with
    | zero => exact ⟨response, rfl, h⟩
    | succ i =>
      obtain ⟨response', hget, hon⟩ := ih (i := i) (by simpa using hi)
      refine ⟨response', hget, ?_⟩
      rwa [show number + (i + 1) = number + 1 + i by omega]

variable {response : Response}

/-- The last page was one, unless there was no page left. -/
theorem stops (h : Walk fingerprint number pagesLeft outcomes found)
    (hfew : outcomes.length < pagesLeft)
    (hlast : outcomes.getLast? = some (.ok response)) :
    ¬ Onward fingerprint (number + (outcomes.length - 1)) response := by
  induction h with
  | cap => cases hlast
  | failed => cases hlast
  | stop number pagesLeft response' h =>
    cases hlast
    exact h
  | @onward number pagesLeft response' outcomes found h rest ih =>
    cases outcomes with
    | nil =>
      cases rest
      exact absurd hfew (by simp)
    | cons outcome outcomes =>
      have := ih (by simpa using hfew) hlast
      rwa [show number + ((.ok response' :: outcome :: outcomes : List Outcome).length - 1) =
        number + 1 + ((outcome :: outcomes).length - 1) by simp only [List.length_cons]; omega]

/-- A success is the first match among all that was listed. -/
theorem found_eq (h : Walk fingerprint number pagesLeft outcomes found) {id : Option Bytes}
    (hid : found = .ok id) : id = (listed outcomes).findSome? (exactMatch fingerprint) ∧
      ∀ outcome ∈ outcomes, ∃ response, outcome = .ok response := by
  induction h with
  | cap =>
    cases hid
    exact ⟨rfl, by simp⟩
  | failed => cases hid
  | stop number pagesLeft response h =>
    cases hid
    refine ⟨?_, by simp⟩
    rw [listed_ok_cons, show listed [] = [] from rfl, List.append_nil]
  | @onward number pagesLeft response outcomes found h rest ih =>
    obtain ⟨hfound, hall⟩ := ih hid
    refine ⟨?_, List.forall_mem_cons.mpr ⟨⟨response, rfl⟩, hall⟩⟩
    rw [hfound, listed_ok_cons, List.findSome?_append, h.1, Option.none_or]

/-- A failure is that of the last call. -/
theorem failure_eq (h : Walk fingerprint number pagesLeft outcomes found) {failure : Failure}
    (hfailure : found = .error failure) :
    ∃ refusal, outcomes.getLast? = some (.error refusal) ∧ refusal.failure = failure := by
  induction h with
  | cap => cases hfailure
  | failed number pagesLeft refusal =>
    cases hfailure
    exact ⟨refusal, rfl, rfl⟩
  | stop => cases hfailure
  | @onward number pagesLeft response outcomes found h rest ih =>
    obtain ⟨refusal, hlast, hrefusal⟩ := ih hfailure
    refine ⟨refusal, ?_, hrefusal⟩
    rw [List.getLast?_cons, hlast]
    rfl

end Walk

/-! ## The calls -/

/-- One call for a page: what was sent and answered, and what it came to. -/
structure PageCall where
  trace : List (Attempt × Answer)
  outcome : Outcome

/-- The calls for the pages from `number` on, one after the other, against `answers`. -/
inductive Asked (P : Platform) (client : Option Client) (licenseId fingerprint : Option Bytes) :
    Nat → Stream' Answer → List PageCall → Prop where
  | nil (number : Nat) (answers : Stream' Answer) :
      Asked P client licenseId fingerprint number answers []
  | cons {number : Nat} {answers : Stream' Answer} {call : PageCall} {calls : List PageCall}
      (head : ((lookupPage licenseId fingerprint number).run P client true).run answers =
        (call.trace, call.outcome))
      (tail : Asked P client licenseId fingerprint (number + 1) (answers.drop call.trace.length) calls) :
      Asked P client licenseId fingerprint number answers (call :: calls)

section Calls

variable {P : Platform} {client : Option Client} {licenseId fingerprint : Option Bytes}

variable {number : Nat}

theorem asksFor_of_addressed (hpos : 1 ≤ number) (hcap : number ≤ 10)
    {license search : Bytes} (hlicense : licenseId.bind uuidNormalize = some license)
    (hsearch : fingerprint = some search) {request : HttpRequest}
    (h : (lookupPage licenseId fingerprint number).Addressed client request) :
    AsksFor client licenseId fingerprint number request := by
  obtain ⟨c, route, hc, hroute, hmethod, hurl⟩ := h
  obtain ⟨id, rfl, hid⟩ := Option.bind_eq_some_iff.mp hlicense
  subst hsearch
  have hnumber : (UInt32.ofNat number).toNat = number := by
    rw [UInt32.toNat_ofNat']
    omega
  have hform : (lookupPage (some id) (some search) number).route = some ⟨.account, .get,
      ascii "/machines", [(ascii "page[number]", Decimal.encode number),
        (ascii "page[size]", Decimal.encode 100), (ascii "filter[license]", license),
        (ascii "filter[q]", search)]⟩ := by
    have hne : number ≠ 0 := by omega
    unfold lookupPage Operation.route
    simp only [optionalUuid, hid, hnumber, givenNumber, if_neg hne]
    rfl
  obtain rfl := Option.some.inj (hroute.symm.trans hform)
  exact ⟨c, license, search, hc, hlicense, rfl, hmethod, hurl⟩

/-- Every attempt of the `i`-th call is for the `i`-th page. -/
theorem Asked.asksFor {license search : Bytes} (hlicense : licenseId.bind uuidNormalize = some license)
    (hsearch : fingerprint = some search) {answers : Stream' Answer}
    {calls : List PageCall} (h : Asked P client licenseId fingerprint number answers calls)
    (hpos : 1 ≤ number) (hcap : number + calls.length ≤ 11) :
    ∀ {i : Nat} {call : PageCall}, calls[i]? = some call → ∀ entry ∈ call.trace,
      AsksFor client licenseId fingerprint (number + i) entry.1.request := by
  induction h with
  | nil => intro i call hi; simp at hi
  | @cons number answers call calls head tail ih =>
    rw [List.length_cons] at hcap
    intro i call' hi entry hentry
    cases i with
    | zero =>
      obtain rfl := Option.some.inj hi
      have hruns := runs_false.2 head
      exact asksFor_of_addressed hpos (by omega) hlicense hsearch
        (Operation.sends_addressed.runs hruns entry hentry)
    | succ i =>
      have := ih (by omega) (by omega) hi entry hentry
      rwa [show number + (i + 1) = number + 1 + i by omega]

theorem storable_of_json {L : Libc} {http : HttpResponse} {v : Json} (h : v ∈ http.json L) :
    v.Every Storable := by
  unfold HttpResponse.json at h
  cases hbody : http.body with
  | none => rw [hbody] at h; cases h
  | some body =>
    rw [hbody] at h
    dsimp only at h
    split at h
    · cases h
    · cases hparse : (parse L (some body)).ok with
      | error e => rw [hparse] at h; cases h
      | ok w =>
        rw [hparse] at h
        obtain rfl := Option.some.inj h
        exact storable_of_parse hparse

/-- What a call returns was parsed, so its strings are short. -/
theorem storable_of_run {op : Operation} {answers : Stream' Answer} {trace : List (Attempt × Answer)}
    (h : (op.run P client true).run answers = (trace, .ok response)) :
    ∀ v ∈ response.json, v.Every Storable := by
  obtain ⟨⟨attempt, answer⟩, -, haccepted⟩ := (Operation.run_ok_iff h).1 rfl
  cases answer with
  | failed reason => cases haccepted
  | answered http =>
    obtain ⟨-, hread⟩ := Option.ite_none_right_eq_some.mp haccepted
    obtain rfl := Option.some.inj hread
    intro v hv
    exact storable_of_json hv

/-- What is found in a stored value is stored. -/
theorem storable_member {value : Option Json} (h : ∀ v ∈ value, v.Every Storable) (name : String) :
    ∀ v ∈ jsonMember value name, v.Every Storable := by
  intro v hv
  obtain ⟨root, hroot, hget⟩ := Option.bind_eq_some_iff.mp hv
  exact (h root hroot).objectGet hget

theorem storable_items {value : Option Json} (h : ∀ v ∈ value, v.Every Storable) :
    ∀ v ∈ jsonItems value, v.Every Storable := by
  intro v hv
  cases value with
  | none => cases hv
  | some root =>
    cases root with
    | arr items => exact (every_arr.1 (h _ rfl)).2 v hv
    | null | bool | int | double | str | obj => cases hv

/-- A string of it can be copied. -/
theorem storable_string {value : Option Json} (h : ∀ v ∈ value, v.Every Storable) {text : Bytes}
    (htext : jsonString value = some text) : text.length ≤ maxReasonableLen ∧ NulFree text := by
  obtain ⟨bytes, hbytes, rfl⟩ := Option.map_eq_some_iff.mp htext
  obtain ⟨root, hroot, hstring⟩ := Option.bind_eq_some_iff.mp hbytes
  refine ⟨le_trans (length_cstr_le bytes) ?_, nulFree_cstr bytes⟩
  cases root with
  | str text =>
    obtain rfl := Option.some.inj hstring
    exact (h _ hroot).self
  | null | bool | int | double | arr | obj => cases hstring

/-- The id of a listed machine is a string of the document. -/
theorem length_exactMatch_le (hstored : ∀ v ∈ response.json, v.Every Storable)
    {machine : Json} (hmem : machine ∈ listedMachines response) {search id : Bytes}
    (hmatch : exactMatch search machine = some id) :
    id.length ≤ maxReasonableLen ∧ NulFree id := by
  have hmachine : ∀ v ∈ some machine, v.Every Storable := by
    rintro v ⟨⟩
    exact storable_items (storable_member hstored "data") machine hmem
  obtain ⟨-, hid⟩ := Option.ite_none_right_eq_some.mp hmatch
  exact storable_string (storable_member hmachine "id") hid

/-- The copy of an id that was parsed can be made. -/
theorem machinePageExactMatch_ok
    (hstored : ∀ v ∈ response.json, v.Every Storable) (search : Bytes) :
    (machinePageExactMatch response search).ok =
      .ok ((listedMachines response).findSome? (exactMatch search)) := by
  unfold machinePageExactMatch
  cases hfound : (listedMachines response).findSome? (exactMatch search) with
  | none =>
    rw [show (jsonItems (jsonMember response.json "data")).findSome? _ = none from hfound]
    rfl
  | some id =>
    obtain ⟨machine, hmem, hmatch⟩ := List.exists_of_findSome?_eq_some hfound
    obtain ⟨hlen, hnul⟩ := length_exactMatch_le hstored hmem hmatch
    rw [show (jsonItems (jsonMember response.json "data")).findSome? _ = some id from hfound]
    dsimp only
    rw [ok_bind, strdup_ok hlen hnul]
    rfl

/-- **The loop is a walk** over the calls it makes. -/
theorem findPages_walk (c : Client) (license search : Bytes) (pagesLeft : Nat) :
    ∀ (number : Nat) (answers : Stream' Answer), ∃ calls,
      Asked P (some c) (some license) (some search) number answers calls ∧
      ((findPages P c license search pagesLeft number).run answers).1 =
        calls.flatMap PageCall.trace ∧
      Walk search number pagesLeft (calls.map PageCall.outcome)
        ((findPages P c license search pagesLeft number).run answers).2 := by
  induction pagesLeft with
  | zero =>
    intro number answers
    exact ⟨[], .nil _ _, rfl, .cap number⟩
  | succ pagesLeft ih =>
    intro number answers
    obtain ⟨trace, outcome, hcall⟩ : ∃ trace outcome, ((Operation.listMachines (some license)
        (some search) (UInt32.ofNat number) machinePageSize).run P (some c) true).run answers =
          (trace, outcome) := ⟨_, _, rfl⟩
    unfold findPages
    rw [run_bind, hcall]
    dsimp only
    -- the page is the last one, or the calls of the others come behind it
    cases outcome with
    | error refusal =>
      refine ⟨[⟨trace, .error refusal⟩], .cons hcall (.nil _ _), ?_, ?_⟩
      · simp
      · exact .failed number pagesLeft refusal
    | ok response =>
      dsimp only
      rw [run_bind_ofAlloc, machinePageExactMatch_ok (storable_of_run hcall)]
      by_cases hon : Onward search number response
      · obtain ⟨calls, hasked, htrace, hwalk⟩ := ih (number + 1) (answers.drop trace.length)
        obtain ⟨hnone, totalPages, htotal, hlt⟩ := id hon
        rw [hnone]
        dsimp only
        rw [htotal]
        dsimp only
        rw [if_neg (not_le.mpr hlt), htrace]
        exact ⟨⟨trace, .ok response⟩ :: calls, .cons hcall hasked, rfl, .onward hon hwalk⟩
      · refine ⟨[⟨trace, .ok response⟩], .cons hcall (.nil _ _), ?_⟩
        have hwalk := (show Walk search _ _ _ _ from .stop number pagesLeft response hon)
        cases hfound : (listedMachines response).findSome? (exactMatch search) with
        | some id =>
          rw [hfound] at hwalk
          exact ⟨by simp, hwalk⟩
        | none =>
          rw [hfound] at hwalk
          dsimp only
          cases htotal : responseTotalPages response with
          | none => exact ⟨by simp, hwalk⟩
          | some totalPages =>
            have hle : totalPages.toInt ≤ number := by
              apply not_lt.mp
              intro hlt
              exact hon ⟨hfound, totalPages, htotal, hlt⟩
            dsimp only
            rw [if_pos hle]
            exact ⟨by simp, hwalk⟩

end Calls

/-! ## The server -/

/-- How many pages of a hundred a list has; an empty one may count as a page. -/
def PageCount (total : Nat) (totalPages : Int) : Prop :=
  totalPages = ((total + 99) / 100 : Nat) ∨ total = 0 ∧ totalPages = 1

/-- The document of one page of the hits. -/
structure HitPage (hits : List Json) (number : Nat) (document : Json) : Prop where
  data : jsonMember (some document) "data" = some (.arr ((hits.drop (100 * (number - 1))).take 100))
  counted : ∃ (page : List (Bytes × Json)) (totalPages : Int64),
    jsonMember (jsonMember (some document) "meta") "page" = some (.obj page) ∧
    jsonMember (some (.obj page)) "number" = some (.int (Int64.ofNat number)) ∧
    jsonMember (some (.obj page)) "size" = some (.int 100) ∧
    jsonMember (some (.obj page)) "total" = some (.int (Int64.ofNat hits.length)) ∧
    jsonMember (some (.obj page)) "totalPages" = some (.int totalPages) ∧
    PageCount hits.length totalPages.toInt

/-- A server that pages the hits of the search: it answers 200 and the page, for the first page and for
    every other that there is. -/
def ServesHits (L : Libc) (client : Client) (licenseId search : Bytes) (hits : List Json)
    (serve : Attempt → Answer) : Prop :=
  ∀ (number : Nat) (attempt : Attempt), number = 1 ∨ 1 < number ∧ 100 * (number - 1) < hits.length →
    AsksFor (some client) (some licenseId) (some search) number attempt.request →
    ∃ http document, serve attempt = .answered http ∧ http.status = 200 ∧
      http.json L = some document ∧ HitPage hits number document

/-- The client is set up: the request for each page can be built. -/
def CanLookUp (L : Libc) (client : Client) (licenseId search : Bytes) : Prop :=
  ∀ number, 1 ≤ number → number ≤ 10 →
    ∃ built, ((lookupPage (some licenseId) (some search) number).build L (some client) true).ok =
      .ok built

section Server

variable {P : Platform} {client : Client} {licenseId license search : Bytes} {hits : List Json}
  {serve : Attempt → Answer}

theorem HitPage.totalPages {document : Json}
    (h : HitPage hits number document) (hjson : response.json = some document) :
    ∃ totalPages, responseTotalPages response = some totalPages ∧
      PageCount hits.length totalPages.toInt := by
  obtain ⟨page, totalPages, hpage, hnumber, hsize, htotal, hpages, hcount⟩ := h.counted
  refine ⟨totalPages, ?_, hcount⟩
  unfold responseTotalPages
  rw [hjson, hpage]
  dsimp only
  rw [hnumber, hsize, htotal, hpages]
  rfl

/-- A call for a page of the hits returns it. -/
theorem lookupPage_against (hid : uuidNormalize licenseId = some license)
    (hclient : CanLookUp P.toLibc client licenseId search)
    (hserves : ServesHits P.toLibc client licenseId search hits serve)
    (hpos : 1 ≤ number) (hcap : number ≤ 10)
    (hpage : number = 1 ∨ 1 < number ∧ 100 * (number - 1) < hits.length) :
    ∃ (http : HttpResponse) (document : Json), ((lookupPage (some licenseId) (some search) number).run P
        (some client) true).against serve = .ok (http.read P.toLibc) ∧ http.json P.toLibc = some document ∧
      HitPage hits number document := by
  obtain ⟨⟨c, p, r⟩, hbuild⟩ := hclient number hpos hcap
  obtain ⟨route, hroute, -, hmethod, hurl⟩ := Operation.build_route (AllocE.can_false.2 hbuild)
  obtain ⟨⟨⟩, -⟩ := Operation.build_can_ok.1 (AllocE.can_false.2 hbuild)
  have hasks : AsksFor (some client) (some licenseId) (some search) number r :=
    asksFor_of_addressed hpos hcap (show (some licenseId).bind uuidNormalize =
      _ from hid) rfl ⟨client, route, rfl, hroute, hmethod, hurl⟩
  obtain ⟨http, document, hserve, hstatus, hjson, hhits⟩ := hserves number ⟨none, r⟩ hpage hasks
  refine ⟨http, document, ?_, hjson, hhits⟩
  exact Operation.against_of_build hbuild hserve hstatus

/-- **The loop against such a server** finds the first match of what is left behind the pages it has
    seen. -/
theorem findPages_against (hid : uuidNormalize licenseId = some license)
    (hclient : CanLookUp P.toLibc client licenseId search)
    (hserves : ServesHits P.toLibc client licenseId search hits serve) (hfew : hits.length ≤ 1000)
    (pagesLeft : Nat) :
    ∀ number, 1 ≤ number → number + pagesLeft = 11 →
      (number = 1 ∨ 1 < number ∧ 100 * (number - 1) < hits.length) →
      (findPages P client licenseId search pagesLeft number).against serve =
        .ok ((hits.drop (100 * (number - 1))).findSome? (exactMatch search)) := by
  induction pagesLeft with
  | zero =>
    intro number hpos hsum hpage
    omega
  | succ pagesLeft ih =>
    intro number hpos hsum hpage
    obtain ⟨http, document, hcall, hjson, hhits⟩ :=
      lookupPage_against hid hclient hserves hpos (by omega) hpage
    obtain ⟨totalPages, htotal, hcount⟩ := hhits.totalPages (show (http.read P.toLibc).json = _ from hjson)
    have hlisted : listedMachines (http.read P.toLibc) =
        (hits.drop (100 * (number - 1))).take 100 := by
      unfold listedMachines
      rw [show (http.read P.toLibc).json = http.json P.toLibc from rfl, hjson, hhits.data]
      rfl
    have hsplit : (hits.drop (100 * (number - 1))).findSome? (exactMatch search) =
        (((hits.drop (100 * (number - 1))).take 100).findSome? (exactMatch search)).or
          ((hits.drop (100 * number)).findSome? (exactMatch search)) := by
      rw [← List.findSome?_append]
      apply congrArg
      conv_lhs => rw [← List.take_append_drop 100 (hits.drop (100 * (number - 1)))]
      rw [List.drop_drop, show 100 * (number - 1) + 100 = 100 * number by omega]
    have hstored : ∀ v ∈ (http.read P.toLibc).json, v.Every Storable := by
      intro v hv
      exact storable_of_json hv
    unfold findPages
    rw [against_bind, show ((Operation.listMachines (some licenseId) (some search)
      (UInt32.ofNat number) machinePageSize).run P (some client) true).against serve = _ from hcall]
    dsimp only
    rw [against_bind, against_ofAlloc, machinePageExactMatch_ok hstored, hlisted,
      hsplit]
    cases ((hits.drop (100 * (number - 1))).take 100).findSome? (exactMatch search) with
    | some id => rfl
    | none =>
      rw [Option.none_or]
      dsimp only
      rw [htotal]
      dsimp only
      by_cases hlast : totalPages.toInt ≤ number
      · rw [if_pos hlast, List.drop_eq_nil_of_le (by unfold PageCount at hcount; omega)]
        rfl
      · rw [if_neg hlast, ih (number + 1) (by omega) (by omega)
          (by unfold PageCount at hcount; omega), Nat.add_sub_cancel]

end Server

/-! ## The lookup -/

/-- What is promised of the outcomes of the pages 1, 2, … and of the result. -/
structure LookedUp (search : Bytes) (outcomes : List Outcome) (found : Except Failure (Option Bytes)) :
    Prop where
  bounded : outcomes.length ≤ 10
  onward : ∀ i, i + 1 < outcomes.length →
    ∃ response, outcomes[i]? = some (.ok response) ∧ Onward search (i + 1) response
  stops : outcomes.length < 10 → ∀ response, outcomes.getLast? = some (.ok response) →
    ¬ Onward search outcomes.length response
  exact : ∀ id, found = .ok id → id = (listed outcomes).findSome? (exactMatch search) ∧
    ∀ outcome ∈ outcomes, ∃ response, outcome = .ok response
  failed : ∀ failure, found = .error failure →
    ∃ refusal, outcomes.getLast? = some (.error refusal) ∧ refusal.failure = failure

theorem Walk.lookedUp {search : Bytes} {outcomes : List Outcome}
    {found : Except Failure (Option Bytes)} (h : Walk search 1 10 outcomes found) :
    LookedUp search outcomes found where
  bounded := h.length_le
  onward i hi := by
    obtain ⟨response, hget, hon⟩ := h.onward_of_lt hi
    exact ⟨response, hget, Nat.add_comm 1 i ▸ hon⟩
  stops hfew response hlast := by
    have hpos : outcomes.length ≠ 0 := by
      intro h0
      rw [List.eq_nil_of_length_eq_zero h0] at hlast
      cases hlast
    have := h.stops hfew hlast
    rwa [show 1 + (outcomes.length - 1) = outcomes.length by omega] at this
  exact _ hid := h.found_eq hid
  failed _ hfailure := h.failure_eq hfailure

theorem exactMatch_isSome {search : Bytes} {machines : List Json}
    (hids : ∀ machine ∈ machines, (jsonString (jsonMember (some machine) "id")).isSome) :
    (machines.findSome? (exactMatch search)).isSome ↔ ∃ machine ∈ machines,
      jsonString (jsonMember (jsonMember (some machine) "attributes") "fingerprint") = some search := by
  rw [List.findSome?_isSome_iff]
  constructor
  · rintro ⟨machine, hmem, hmatch⟩
    refine ⟨machine, hmem, ?_⟩
    by_contra hother
    rw [exactMatch, if_neg hother] at hmatch
    cases hmatch
  · rintro ⟨machine, hmem, hsame⟩
    refine ⟨machine, hmem, ?_⟩
    rw [exactMatch, if_pos hsame]
    exact hids machine hmem

/-- The lookup once the id of the licence is checked. -/
def lookUpIn (P : Platform) (client : Client) (search : Bytes) :
    Except Failure Bytes → Http (Except Failure (Option Bytes))
  | .error failure => pure (.error failure)
  | .ok licenseId => findPages P client licenseId search machineLookupMaxPages 1

/-- **Looking a machine up is exact and bounded**, whatever the answers; and against a server that pages
    at most a thousand hits it finds a machine exactly if a hit has the fingerprint. -/
theorem machine_lookup (P : Platform) (client : Client) (licenseId search : Bytes) :
    (uuidNormalize licenseId = none → ∀ answers, ∃ failure,
      (findMachineByFingerprint P (some client) (some licenseId) (some search) true).run answers =
        ([], .error failure)) ∧
    ∀ license, uuidNormalize licenseId = some license →
      (∀ answers, ∃ calls, Asked P (some client) (some licenseId) (some search) 1 answers calls ∧
        ((findMachineByFingerprint P (some client) (some licenseId) (some search) true).run
          answers).1 = calls.flatMap PageCall.trace ∧
        (∀ (i : Nat) (call : PageCall), calls[i]? = some call → ∀ entry ∈ call.trace,
          AsksFor (some client) (some licenseId) (some search) (i + 1) entry.1.request) ∧
        LookedUp search (calls.map PageCall.outcome)
          ((findMachineByFingerprint P (some client) (some licenseId) (some search) true).run
            answers).2) ∧
      ∀ (hits : List Json) (serve : Attempt → Answer),
        CanLookUp P.toLibc client licenseId search →
        ServesHits P.toLibc client licenseId search hits serve → hits.length ≤ 1000 →
        (∀ hit ∈ hits, (jsonString (jsonMember (some hit) "id")).isSome) →
        ∃ found, (findMachineByFingerprint P (some client) (some licenseId) (some search)
            true).against serve = .ok found ∧
          (found.isSome ↔ ∃ hit ∈ hits,
            jsonString (jsonMember (jsonMember (some hit) "attributes") "fingerprint") =
              some search) := by
  have hparts : ∀ uuid, (requireUuid (some licenseId) "license_id").ok = uuid →
      (∀ answers, (findMachineByFingerprint P (some client) (some licenseId) (some search) true).run
        answers = (lookUpIn P client search uuid).run answers) ∧
      ∀ serve, (findMachineByFingerprint P (some client) (some licenseId) (some search) true).against
        serve = (lookUpIn P client search uuid).against serve := by
    rintro _ rfl
    constructor
    · intro answers
      exact Interact.run_bind_ofAlloc _ (lookUpIn P client search) answers
    · intro serve
      exact (Interact.against_bind serve _ (lookUpIn P client search)).trans
        (congrArg (fun uuid => (lookUpIn P client search uuid).against serve)
          (Interact.against_ofAlloc serve _))
  constructor
  · intro hid answers
    obtain ⟨failure, hfailure⟩ : ∃ failure,
        (requireUuid (some licenseId) "license_id").ok = .error failure := by
      unfold requireUuid
      simp [hid]
    exact ⟨failure, (hparts _ hfailure).1 answers⟩
  · intro license hid
    obtain ⟨hrun, hagainst⟩ := hparts _ (requireUuid_ok "license_id" hid)
    constructor
    · intro answers
      obtain ⟨calls, hasked, htrace, hwalk⟩ := findPages_walk client licenseId search 10 1 answers
      have hlookedUp := hwalk.lookedUp
      have hbound := hlookedUp.bounded
      rw [List.length_map] at hbound
      rw [hrun]
      refine ⟨calls, hasked, htrace, ?_, hlookedUp⟩
      intro i call hcall entry hentry
      rw [Nat.add_comm]
      exact hasked.asksFor (show (some licenseId).bind uuidNormalize = _ from hid) rfl (Nat.le_refl 1)
        (by omega) hcall entry hentry
    · intro hits serve hclient hserves hfew hids
      refine ⟨hits.findSome? (exactMatch search), ?_, exactMatch_isSome hids⟩
      rw [hagainst]
      exact findPages_against hid hclient hserves hfew 10 1 (Nat.le_refl 1) rfl (Or.inl rfl)

/-- A machine `m` with the fingerprint `f`, and one `o` without. -/
def sampleHit : Json :=
  .obj [(ascii "id", .str (ascii "m")),
    (ascii "attributes", .obj [(ascii "fingerprint", .str (ascii "f"))])]

def otherHit : Json := .obj [(ascii "id", .str (ascii "o"))]

/-- A search with a hundred and one hits: the machine is on the second page. -/
def sampleHits : List Json := List.replicate 100 otherHit ++ [sampleHit]

def hitPageMeta (number : Int64) : Json :=
  .obj [(ascii "page", .obj [(ascii "number", .int number), (ascii "size", .int 100),
    (ascii "total", .int 101), (ascii "totalPages", .int 2)])]

/-- The text of a page, from the texts of its hits. -/
def hitPageText (hits : List Bytes) (number : String) : Bytes :=
  ascii "\x7b\x22data\x22:[" ++ joinComma hits ++ ascii ("],\x22meta\x22:\x7b\x22page\x22:"
    ++ "\x7b\x22number\x22:" ++ number
    ++ ",\x22size\x22:100,\x22total\x22:101,\x22totalPages\x22:2\x7d\x7d\x7d")

def firstHitPage : HttpResponse :=
  ⟨200, some (hitPageText (List.replicate 100 (ascii "\x7b\x22id\x22:\x22o\x22\x7d")) "1"), []⟩

def secondHitPage : HttpResponse :=
  ⟨200, some (hitPageText [ascii ("\x7b\x22id\x22:\x22m\x22,\x22attributes\x22:"
    ++ "\x7b\x22fingerprint\x22:\x22f\x22\x7d\x7d")] "2"), []⟩

/-- The URL of a page. -/
def hitPageUrl (number : Nat) : Bytes :=
  sampleClient.urlOf ⟨.account, .get, ascii "/machines",
    [(ascii "page[number]", Decimal.encode number), (ascii "page[size]", Decimal.encode 100),
      (ascii "filter[license]", sampleId), (ascii "filter[q]", ascii "f")]⟩

/-- A server with the two pages. -/
def hitServer (attempt : Attempt) : Answer :=
  .answered (if attempt.request.url = hitPageUrl 1 then firstHitPage else secondHitPage)

theorem firstHitPage_json : firstHitPage.json exactLibc = some (.obj [
    (ascii "data", .arr (List.replicate 100 otherHit)), (ascii "meta", hitPageMeta 1)]) := by
  decide +kernel

theorem secondHitPage_json : secondHitPage.json exactLibc = some (.obj [
    (ascii "data", .arr [sampleHit]), (ascii "meta", hitPageMeta 2)]) := by
  decide +kernel

theorem serves_hitServer :
    ServesHits exactLibc sampleClient sampleId (ascii "f") sampleHits hitServer := by
  rintro number attempt hnumber ⟨_, _, _, ⟨⟩, hlicense, ⟨⟩, -, hurl⟩
  have hid : uuidNormalize sampleId = some sampleId := by decide +kernel
  obtain rfl := Option.some.inj (hid.symm.trans hlicense)
  replace hurl : attempt.request.url = hitPageUrl number := hurl
  rcases hnumber with rfl | ⟨hlow, hhigh⟩
  · refine ⟨firstHitPage, _, ?_, rfl, firstHitPage_json, rfl, _, 2, rfl, rfl, rfl, rfl, rfl, ?_⟩
    · rw [hitServer, if_pos hurl]
    · exact Or.inl (by decide)
  · obtain rfl : number = 2 := by
      have hlen : sampleHits.length = 101 := rfl
      omega
    refine ⟨secondHitPage, _, ?_, rfl, secondHitPage_json, rfl, _, 2, rfl, rfl, rfl, rfl, rfl, ?_⟩
    · have hne : hitPageUrl 2 ≠ hitPageUrl 1 := by decide +kernel
      rw [hitServer, hurl, if_neg hne]
    · exact Or.inl (by decide)

/-- The hit on the second page is found. -/
theorem machine_lookup_hit :
    sampleHits.length = 101 ∧ ∃ found,
      (findMachineByFingerprint ⟨exactLibc, 0⟩ (some sampleClient) (some sampleId) (some (ascii "f"))
        true).against hitServer = .ok found ∧ found.isSome := by
  have hclient : CanLookUp exactLibc sampleClient sampleId (ascii "f") := by
    have hbuilt : ∀ number < 11, 1 ≤ number → ((lookupPage (some sampleId) (some (ascii "f"))
        number).build exactLibc (some sampleClient) true).ok.toOption.isSome := by decide +kernel
    intro number hpos hcap
    have hsome := hbuilt number (by omega) hpos
    cases hbuild : ((lookupPage (some sampleId) (some (ascii "f")) number).build exactLibc
        (some sampleClient) true).ok with
    | error failure => rw [hbuild] at hsome; cases hsome
    | ok built => exact ⟨built, rfl⟩
  obtain ⟨found, hfound, hsome⟩ := ((machine_lookup ⟨exactLibc, 0⟩ sampleClient sampleId
    (ascii "f")).2 sampleId (by decide +kernel)).2 sampleHits hitServer hclient serves_hitServer
      (by decide) (by decide +kernel)
  exact ⟨rfl, found, hfound, hsome.mpr ⟨sampleHit, by simp [sampleHits], rfl⟩⟩

end Tamga
