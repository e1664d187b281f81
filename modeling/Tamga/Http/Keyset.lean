import Tamga.Http.Activation
import Tamga.Http.MachineBody
import Tamga.Http.Refusal
import Tamga.Json.Serde
import Tamga.Lib.Keyset

/-!
# `Http.Keyset` — the components of a machine, page by page (`http/client.c`, `http/endpoints.c`)

A listing says neither how long it is nor where the next page starts. `tamga_response_next_cursor`
takes the last id of a page that has exactly `limit` entries; the server sends at most 100 however large
`limit` is. The caller's loop is `keysetWalk`; against a server as the documentation has it, it is the
walk of `Lib.Keyset` with the server's page of `min limit 100` and a full page of `limit`.
-/

namespace Tamga

open Alloc Json Interact

/-! ## The program -/

/-- `tamga_response_next_cursor`, for a response that is there. -/
def responseNextCursor (response : Response) (limit : UInt32) : Option Bytes :=
  if limit = 0 then none
  else
    match jsonMember response.json "data" with
    | some (.arr items) =>
        if items.length = 0 ∨ items.length ≠ limit.toNat then none
        else
          match items.getLast? with
          | some (.obj members) => jsonString (jsonMember (some (.obj members)) "id")
          | _ => none
    | _ => none

/-- The loop the documentation asks a caller to write: list, keep the entries, go on with the cursor of
    the same limit until there is none. `none` when a call fails or `fuel` is used up. -/
def keysetWalk (P : Platform) (client : Client) (machineId : Bytes) (limit : UInt32) :
    (fuel : Nat) → (after : Option Bytes) → Http (Option (List Json))
  | 0, _ => pure none
  | fuel + 1, after => do
      match ← (Operation.listComponents (some machineId) limit after).run P (some client) true with
      | .error _ => return none
      | .ok response =>
          let items := jsonItems (jsonMember response.json "data")
          match responseNextCursor response limit with
          | none => return some items
          | some cursor =>
              let others ← keysetWalk P client machineId limit fuel (some cursor)
              return others.map (items ++ ·)

/-! ## The server -/

/-- A component as the server lists it: its document, and the UUID its `id` spells. -/
structure Component where
  document : Json
  id : Bytes
  spelled : ∃ text, jsonString (jsonMember (some document) "id") = some text ∧
    uuidNormalize text = some id

/-- The server's cap on a page. -/
def serverPageCap : Nat := 100

/-- The page behind a cursor. -/
def componentPage (components : List Component) (limit : UInt32) (after : Option Bytes) :
    List Component :=
  (Keyset.rest Component.id components after).take (min limit.toNat serverPageCap)

/-- The server of the documentation: asked for components with `limit`, and with `after` the id of a
    component or nothing, it answers 200 and the page. -/
def ServesComponents (L : Libc) (client : Client) (machineId : Bytes) (limit : UInt32)
    (components : List Component) (serve : Attempt → Answer) : Prop :=
  ∀ (after : Option Bytes) (route : Route) (attempt : Attempt),
    (∀ id ∈ after, id ∈ components.map Component.id) →
    listRoute "/machines/" (some machineId) "/components" limit after = some route →
    attempt.request.method = .get → attempt.request.url = client.urlOf route →
    ∃ http document, serve attempt = .answered http ∧ http.status = 200 ∧
      http.json L = some document ∧ jsonMember (some document) "data" =
        some (.arr ((componentPage components limit after).map Component.document))

/-- The client is set up: whatever cursor it is given, the request can be built. -/
def CanList (L : Libc) (client : Client) (machineId : Bytes) (limit : UInt32) : Prop :=
  ∀ after : Option Bytes, (optionalUuid after).isSome →
    ∃ built, ((Operation.listComponents (some machineId) limit after).build L (some client) true).ok =
      .ok built

/-! ## One call -/

section Call

variable {P : Platform} {client : Client} {machineId : Bytes} {limit : UInt32}
  {components : List Component} {serve : Attempt → Answer}

/-- A success is not tried again. -/
theorem sendLoop_against {request : HttpRequest} {retryable : Bool} {retries attempt : Nat}
    {sleptMs : Option Nat} {http : HttpResponse} (hserve : serve ⟨sleptMs, request⟩ = .answered http)
    (hstatus : http.status = 200) :
    (sendLoop P request retryable retries attempt sleptMs).against serve =
      .ok (http.read P.toLibc) := by
  have haccepted : (serve ⟨sleptMs, request⟩).accepted P.toLibc = some (http.read P.toLibc) := by
    rw [hserve]
    show (if IsSuccess http.status then _ else _) = _
    rw [if_pos (by rw [hstatus]; decide)]
  have hsettled : throttled retryable (serve ⟨sleptMs, request⟩) = none := by
    rw [hserve]
    show (if http.status = 429 ∧ retryable = true then _ else _) = _
    rw [if_neg (by rw [hstatus]; rintro ⟨⟨⟩, -⟩)]
  cases retries with
  | zero =>
    unfold sendLoop
    rw [against_bind, against_perform, against_ofAlloc]
    exact conclude_accepted haccepted
  | succ retries =>
    unfold sendLoop
    rw [against_bind, against_perform, hsettled]
    dsimp only
    rw [against_ofAlloc]
    exact conclude_accepted haccepted

/-- A call whose request is answered by a success returns what the answer holds. -/
theorem Operation.against_of_build {op : Operation} {c : Client} {p : Prepared} {r : HttpRequest}
    {http : HttpResponse} (hbuild : (op.build P.toLibc (some client) true).ok = .ok (c, p, r))
    (hserve : serve ⟨none, r⟩ = .answered http) (hstatus : http.status = 200) :
    (op.run P (some client) true).against serve = .ok (http.read P.toLibc) := by
  rw [Operation.run_eq, against_bind, against_ofAlloc]
  show (Operation.send P (op.build P.toLibc (some client) true).ok).against serve = _
  rw [hbuild]
  exact sendLoop_against hserve hstatus

theorem uuidNormalize_canonical {text id : Bytes} (h : uuidNormalize text = some id) :
    uuidNormalize id = some id := by
  obtain ⟨uuid, hlen, -, rfl⟩ := uuidNormalize_eq_some.1 h
  unfold uuidNormalize
  rw [uuidParse_uuidFormat hlen]
  rfl

/-- A cursor is sent in its canonical form. -/
theorem listRoute_canonical {start suffix : String} {id after canonical : Option Bytes}
    (h : optionalUuid after = some canonical) :
    listRoute start id suffix limit canonical = listRoute start id suffix limit after := by
  have hsame : optionalUuid canonical = some canonical := by
    cases after with
    | none =>
      obtain rfl := Option.some.inj h
      rfl
    | some text =>
      obtain ⟨id, hid, rfl⟩ := Option.map_eq_some_iff.mp h
      exact congrArg (Option.map some) (uuidNormalize_canonical hid)
  unfold listRoute
  rw [h, hsame]

/-- A call with a cursor the server knows returns its page. -/
theorem listComponents_against (hclient : CanList P.toLibc client machineId limit)
    (hserves : ServesComponents P.toLibc client machineId limit components serve)
    {after canonical : Option Bytes} (hafter : optionalUuid after = some canonical)
    (hknown : ∀ id ∈ canonical, id ∈ components.map Component.id) :
    ∃ response, ((Operation.listComponents (some machineId) limit after).run P (some client)
        true).against serve = .ok response ∧
      jsonMember response.json "data" =
        some (.arr ((componentPage components limit canonical).map Component.document)) := by
  obtain ⟨⟨c, p, r⟩, hbuild⟩ := hclient after (by rw [hafter]; rfl)
  obtain ⟨route, hroute, -, hmethod, hurl⟩ := Operation.build_route (AllocE.can_false.2 hbuild)
  obtain ⟨⟨⟩, -⟩ := Operation.build_can_ok.1 (AllocE.can_false.2 hbuild)
  replace hroute : listRoute "/machines/" (some machineId) "/components" limit after = some route :=
    hroute
  have hget : route.method = .get := by
    obtain ⟨_, -, h⟩ := Option.bind_eq_some_iff.mp hroute
    obtain ⟨_, -, rfl⟩ := Option.map_eq_some_iff.mp h
    rfl
  obtain ⟨http, document, hserve, hstatus, hjson, hdata⟩ := hserves canonical route ⟨none, r⟩ hknown
    ((listRoute_canonical hafter).trans hroute) (hmethod.trans hget) hurl
  refine ⟨http.read P.toLibc, ?_, ?_⟩
  · exact Operation.against_of_build hbuild hserve hstatus
  · show jsonMember (http.json P.toLibc) "data" = _
    rw [hjson, hdata]

/-- The cursor behind a page: the id of the last component, when the page has `limit` of them. -/
theorem nextCursor_eq {response : Response} (hlimit : limit ≠ 0) {page : List Component}
    (hdata : jsonMember response.json "data" = some (.arr (page.map Component.document))) :
    (responseNextCursor response limit = none ∧ page.length ≠ limit.toNat) ∨
      ∃ (last : Component) (text : Bytes), responseNextCursor response limit = some text ∧
        uuidNormalize text = some last.id ∧ page.getLast? = some last ∧ page.length = limit.toNat := by
  have hpos : limit.toNat ≠ 0 := by
    intro h
    exact hlimit (UInt32.toNat_inj.mp h)
  unfold responseNextCursor
  rw [if_neg hlimit, hdata]
  dsimp only
  rw [List.length_map]
  by_cases hlen : page.length = limit.toNat
  · right
    rw [if_neg (by omega)]
    have hne : page ≠ [] := by
      rintro rfl
      exact hpos hlen.symm
    obtain ⟨text, hspelled, hid⟩ := (page.getLast hne).spelled
    refine ⟨page.getLast hne, text, ?_, hid, List.getLast?_eq_some_getLast hne, hlen⟩
    rw [List.getLast?_map, List.getLast?_eq_some_getLast hne, Option.map_some]
    -- only an object has a member `id`
    cases hdoc : (page.getLast hne).document with
    | obj members =>
      rw [hdoc] at hspelled
      exact hspelled
    | null | bool | int | double | str | arr =>
      rw [hdoc] at hspelled
      cases hspelled
  · left
    rw [if_pos (by omega)]
    exact ⟨rfl, hlen⟩

/-- **The loop is the walk** of `Lib.Keyset`, with the limit for a full page. -/
theorem keysetWalk_against (hclient : CanList P.toLibc client machineId limit)
    (hserves : ServesComponents P.toLibc client machineId limit components serve) (hlimit : limit ≠ 0)
    (fuel : Nat) :
    ∀ {after canonical : Option Bytes}, optionalUuid after = some canonical →
      (∀ id ∈ canonical, id ∈ components.map Component.id) →
      (keysetWalk P client machineId limit fuel after).against serve =
        (Keyset.walk Component.id (componentPage components limit) limit.toNat fuel canonical).map
          (·.map Component.document) := by
  induction fuel with
  | zero =>
    intro after canonical _ _
    rfl
  | succ fuel ih =>
    intro after canonical hafter hknown
    obtain ⟨response, hcall, hdata⟩ := listComponents_against hclient hserves hafter hknown
    unfold keysetWalk Keyset.walk
    rw [against_bind, hcall]
    dsimp only
    have hitems : jsonItems (jsonMember response.json "data") =
        (componentPage components limit canonical).map Component.document := by
      rw [hdata]
      rfl
    rcases nextCursor_eq hlimit hdata with ⟨hnone, hlen⟩ | ⟨last, text, hsome, hid, hlast, hlen⟩
    · rw [hnone, if_neg hlen, hitems]
      rfl
    · have hmem : last ∈ components := by
        apply Keyset.rest_subset canonical
        exact List.mem_of_mem_take (List.mem_of_getLast? hlast)
      have hknown' : ∀ id ∈ some last.id, id ∈ components.map Component.id := by
        rintro id ⟨⟩
        exact List.mem_map_of_mem hmem
      have hrest := ih (show optionalUuid (some text) = some (some last.id) from
        congrArg (Option.map some) hid) hknown'
      rw [hsome, if_pos hlen, hlast, hitems]
      dsimp only
      rw [against_bind, hrest]
      cases Keyset.walk Component.id (componentPage components limit) limit.toNat fuel
          (some last.id) with
      | none => rfl
      | some others => exact congrArg some List.map_append.symm

/-- A page of more than the cap is never full, so the loop ends with the first one. -/
theorem keysetWalk_short (hclient : CanList P.toLibc client machineId limit)
    (hserves : ServesComponents P.toLibc client machineId limit components serve)
    (hshort : 100 < limit.toNat) (fuel : Nat) :
    (keysetWalk P client machineId limit (fuel + 1) none).against serve =
      some ((components.take 100).map Component.document) := by
  have hlimit : limit ≠ 0 := by
    rintro rfl
    exact absurd hshort (by decide)
  have hfetch : ∀ after, componentPage components limit after =
      (Keyset.rest Component.id components after).take 100 := by
    intro after
    unfold componentPage serverPageCap
    rw [Nat.min_eq_right hshort.le]
  rw [keysetWalk_against hclient hserves hlimit _ rfl (by rintro id ⟨⟩),
    Keyset.walk_short hfetch hshort, Option.map_some]

end Call

/-- **The walk is complete** exactly when the limit is at most the server's cap, or the components fit
    into one page; otherwise the loop ends, without an error, after the first hundred. -/
theorem keyset_walk_iff {P : Platform} {client : Client} {machineId : Bytes} {limit : UInt32}
    {components : List Component} {serve : Attempt → Answer}
    (hclient : CanList P.toLibc client machineId limit)
    (hserves : ServesComponents P.toLibc client machineId limit components serve)
    (hdistinct : (components.map Component.id).Nodup) (hlimit : limit ≠ 0) :
    (∃ fuel, (keysetWalk P client machineId limit fuel none).against serve =
        some (components.map Component.document)) ↔
      limit.toNat ≤ 100 ∨ components.length ≤ 100 := by
  have hpos : 0 < limit.toNat := Nat.pos_of_ne_zero fun h => hlimit (UInt32.toNat_inj.mp h)
  by_cases hcap : limit.toNat ≤ 100
  · have hfetch : ∀ after, componentPage components limit after =
        (Keyset.rest Component.id components after).take limit.toNat := by
      intro after
      unfold componentPage serverPageCap
      rw [Nat.min_eq_left hcap]
    refine iff_of_true ⟨components.length + 1, ?_⟩ (Or.inl hcap)
    rw [keysetWalk_against hclient hserves hlimit _ rfl (by rintro id ⟨⟩),
      Keyset.walk_complete hfetch hdistinct hpos, Option.map_some]
  · have hshort : 100 < limit.toNat := Nat.lt_of_not_le hcap
    rw [or_iff_right hcap]
    constructor
    · rintro ⟨fuel, hall⟩
      cases fuel with
      | zero => cases hall
      | succ fuel =>
          rw [keysetWalk_short hclient hserves hshort, Option.some.injEq] at hall
          have hlen := congrArg List.length hall
          rw [List.length_map, List.length_map, List.length_take] at hlen
          omega
    · intro hlen
      refine ⟨1, ?_⟩
      rw [keysetWalk_short hclient hserves hshort, List.take_of_length_le hlen]

/-! ## A server of that kind -/

section Server

variable {L : Libc} {client : Client} {machineId : Bytes} {limit : UInt32}

/-- Two cursors that lead to one URL are the same. -/
theorem cursor_of_urlOf (hlimit : limit ≠ 0) {start suffix : String} {id after after' : Option Bytes}
    {route route' : Route} (h : listRoute start id suffix limit after = some route)
    (h' : listRoute start id suffix limit after' = some route')
    (hurl : client.urlOf route = client.urlOf route') : optionalUuid after = optionalUuid after' := by
  obtain ⟨c, hc, h⟩ := Option.bind_eq_some_iff.mp h
  obtain ⟨c', hc', h'⟩ := Option.bind_eq_some_iff.mp h'
  obtain ⟨canonical, hid, rfl⟩ := Option.map_eq_some_iff.mp h
  obtain ⟨canonical', hid', rfl⟩ := Option.map_eq_some_iff.mp h'
  obtain rfl := Option.some.inj (hid.symm.trans hid')
  have hne : ∀ tail : List (Bytes × Bytes), givenNumber "limit" limit.toNat ++ tail ≠ [] := by
    intro tail
    have hpos : limit.toNat ≠ 0 := fun h0 => hlimit (UInt32.toNat_inj.mp h0)
    simp [givenNumber, hpos]
  unfold Client.urlOf queryText at hurl
  simp only [List.append_assoc, hne, if_false] at hurl
  have hrender := (List.cons.inj (List.append_cancel_left (List.append_cancel_left
    (List.append_cancel_left (List.append_cancel_left hurl))))).2
  have hpairs := congrArg Percent.parse hrender
  rw [Percent.parse_render (hne _), Percent.parse_render (hne _)] at hpairs
  have hgiven := List.append_cancel_right (List.append_cancel_left hpairs)
  rw [hc, hc']
  cases c <;> cases c' <;> simp_all [given]

/-- The document of a page. -/
def pageDocument (page : List Component) : Json :=
  .obj [(ascii "data", .arr (page.map Component.document))]

/-- A server that looks the URL up among those it can be asked for. -/
def pageServer (L : Libc) (client : Client) (machineId : Bytes) (limit : UInt32)
    (components : List Component) (attempt : Attempt) : Answer :=
  let asked (after : Option Bytes) : Bool :=
    (listRoute "/machines/" (some machineId) "/components" limit after).map client.urlOf =
      some attempt.request.url
  match (none :: components.map (some ·.id)).find? asked with
  | none => .answered ⟨404, none, []⟩
  | some after =>
      .answered ⟨200, some ((pageDocument (componentPage components limit after)).text L false), []⟩

/-- The ids of components are in canonical form. -/
theorem optionalUuid_known {components : List Component} {after : Option Bytes}
    (hknown : ∀ id ∈ after, id ∈ components.map Component.id) : optionalUuid after = some after := by
  cases after with
  | none => rfl
  | some id =>
    obtain ⟨component, -, rfl⟩ := List.mem_map.mp (hknown id rfl)
    obtain ⟨text, -, hid⟩ := component.spelled
    exact congrArg (Option.map some) (uuidNormalize_canonical hid)

theorem serves_pageServer (hlimit : limit ≠ 0) {components : List Component}
    (hread : ∀ after, (parse L (some ((pageDocument (componentPage components limit after)).text L
      false))).ok = .ok (pageDocument (componentPage components limit after))) :
    ServesComponents L client machineId limit components
      (pageServer L client machineId limit components) := by
  intro after route attempt hknown hroute _ hurl
  -- the lookup succeeds, and at no other cursor
  have hasked : after ∈ none :: components.map (some ·.id) := by
    cases after with
    | none => exact List.mem_cons_self
    | some id =>
      obtain ⟨component, hmem, rfl⟩ := List.mem_map.mp (hknown id rfl)
      exact List.mem_cons_of_mem _ (List.mem_map.mpr ⟨component, hmem, rfl⟩)
  have hserve : pageServer L client machineId limit components attempt = .answered ⟨200,
      some ((pageDocument (componentPage components limit after)).text L false), []⟩ := by
    unfold pageServer
    dsimp only
    cases hfind : (none :: components.map (some ·.id)).find? fun after => decide
        ((listRoute "/machines/" (some machineId) "/components" limit after).map client.urlOf =
          some attempt.request.url) with
    | none =>
      have := List.find?_eq_none.mp hfind after hasked
      rw [hroute, Option.map_some, hurl] at this
      exact absurd (decide_eq_true rfl) this
    | some after' =>
      have hfound := List.find?_some hfind
      rw [decide_eq_true_eq] at hfound
      obtain ⟨route', hroute', hurl'⟩ := Option.map_eq_some_iff.mp hfound
      have hknown' : ∀ id ∈ after', id ∈ components.map Component.id := by
        rintro id ⟨⟩
        rcases List.mem_cons.mp (List.mem_of_find?_eq_some hfind) with h | h
        · cases h
        · obtain ⟨component, hmem, hid⟩ := List.mem_map.mp h
          exact List.mem_map.mpr ⟨component, hmem, Option.some.inj hid⟩
      have hsame := cursor_of_urlOf hlimit hroute' hroute (hurl'.trans hurl)
      rw [optionalUuid_known hknown, optionalUuid_known hknown'] at hsame
      rw [Option.some.inj hsame]
  refine ⟨_, pageDocument (componentPage components limit after), hserve, rfl, ?_, rfl⟩
  unfold HttpResponse.json
  dsimp only
  rw [if_neg (by simp [pageDocument, text]), hread]
  rfl

/-- The query of a listing is short, so it can be written. -/
theorem listQuery_ok (hlimit : limit ≠ 0) {after : Option Bytes}
    (hafter : ∀ id ∈ after, id.length = 36 ∧ NulFree id) :
    ∃ query, (listQuery limit after).ok = some query ∧ NulFree query ∧ query.length < 100 := by
  have hnumber : (printInt limit.toNat).length ≤ 10 := by
    rw [Query.printInt_natCast]
    exact Decimal.length_encode_le (by decide) (by have := limit.toNat_lt; omega)
  have hname : (ascii "page%5Bafter%5D=").length = 16 := by decide
  have hlimitName : (ascii "limit=").length = 6 := by decide
  have hlimitFree : NulFree (ascii "limit=" ++ printInt limit.toNat) :=
    nulFree_append.2 ⟨by decide, nulFree_printInt _⟩
  have htext : NulFree (listText limit after) ∧ (listText limit after).length < 100 := by
    unfold listText
    cases after with
    | none =>
      rw [if_pos hlimit, Option.map_none, Option.getD_none, List.append_nil, List.length_append]
      exact ⟨hlimitFree, by omega⟩
    | some id =>
      obtain ⟨hid, hnul⟩ := hafter id rfl
      rw [if_pos hlimit, if_pos hlimit, Option.map_some, Option.getD_some]
      refine ⟨nulFree_append.2 ⟨hlimitFree, nulFree_append.2 ⟨by decide,
          nulFree_append.2 ⟨by decide, hnul⟩⟩⟩, ?_⟩
      simp only [List.length_append, List.length_singleton]
      omega
  obtain ⟨w, hw, heq⟩ := listQuery_writes limit after
  exact ⟨_, heq ▸ hw.detachString_ok.2 ⟨rfl, htext.1, lt_trans htext.2 (by decide)⟩, htext⟩

theorem canList_sample (hlimit : limit ≠ 0) : CanList L sampleClient sampleId limit := by
  intro after hafter
  obtain ⟨canonical, hcanonical⟩ := Option.isSome_iff_exists.mp hafter
  have hid : uuidNormalize sampleId = some sampleId := by decide +kernel
  have hcursor : (optionalCanonical after "after").ok = .ok canonical := by
    cases after with
    | none =>
      obtain rfl := Option.some.inj hcanonical
      rfl
    | some id =>
      obtain ⟨c, hc, rfl⟩ := Option.map_eq_some_iff.mp hcanonical
      exact (AllocE.ok_bind_of_ok (requireCanonical_ok "after" hc)).trans rfl
  have hshort : ∀ id ∈ canonical, id.length = 36 ∧ NulFree id := by
    rintro id rfl
    cases after with
    | none => cases hcanonical
    | some text =>
      obtain ⟨c, hc, hid⟩ := Option.map_eq_some_iff.mp hcanonical
      obtain rfl := Option.some.inj hid
      exact canonical_spec hc
  obtain ⟨query, hquery, hfree, hlen⟩ := listQuery_ok hlimit hshort
  obtain ⟨path, hpath, hpathFree, hpathLen⟩ : ∃ path,
      (tamgaPath "/machines/" sampleId "/components").ok = some path ∧
        NulFree (sampleClient.root .account ++ path) ∧
        (sampleClient.root .account ++ path).length < 200 := by
    refine ⟨[ascii "/machines/", sampleId, ascii "/components"].flatten, ?_, ?_, ?_⟩
    · rw [tamgaPath_eq hid]
      exact joined_ok.2 ⟨rfl, by decide +kernel, by decide +kernel⟩
    · decide +kernel
    · decide +kernel
  have hprepare : (prepareList "/machines/" (some sampleId) "machine_id" "/components" limit after).ok =
      .ok (getRequest path (some query)) := by
    have hrequire : (require (listQuery limit canonical)).ok = .ok query := Call.orFail_eq_ok.2 hquery
    have hrequire' : (require (tamgaPath "/machines/" sampleId "/components")).ok = .ok path :=
      Call.orFail_eq_ok.2 hpath
    unfold prepareList
    rw [AllocE.ok_bind_of_ok (requireUuid_ok "machine_id" hid), AllocE.ok_bind_of_ok hcursor,
      AllocE.ok_bind_of_ok hrequire, AllocE.ok_bind_of_ok hrequire']
    rfl
  have hurl : (buildUrl sampleClient .account path (some query)).ok =
      some (sampleClient.urlText .account path query) := by
    have htext : sampleClient.urlText .account path query =
        sampleClient.root .account ++ path ++ (if query.length ≠ 0 then 0x3F :: query else []) := by
      rw [Client.urlText, show sampleClient.token = none from rfl, urlPieces]
      split <;> simp
    have hroom : 1000 < Buf.maxGrowth := by decide
    apply buildUrl_ok.2
    rw [Option.getD_some, htext]
    refine ⟨rfl, nulFree_append.2 ⟨hpathFree, ?_⟩, ?_⟩
    · split
      · exact nulFree_cons.2 ⟨by decide, hfree⟩
      · exact nulFree_nil
    · have htail : (if query.length ≠ 0 then 0x3F :: query else []).length ≤ 100 := by
        split
        · exact hlen
        · exact Nat.zero_le _
      rw [List.length_append]
      omega
  obtain ⟨request, hrequest⟩ : ∃ request,
      (clientRequest sampleClient (getRequest path (some query))).ok = .ok request := by
    obtain ⟨header, hheader⟩ : ∃ header,
        (clientAuthHeader ⟨.bearer, ascii "t", none⟩).ok = some header :=
      Option.isSome_iff_exists.mp (by decide +kernel)
    obtain ⟨version, hversion⟩ : ∃ version,
        (sanitizeApiVersion defaultApiVersion).ok = some version :=
      Option.isSome_iff_exists.mp (by decide +kernel)
    refine ⟨⟨.get, sampleClient.urlText .account path query, requestHeaders header version
      (getRequest path (some query)), none, sampleClient.timeoutMs⟩,
      clientRequest_ok.2 ⟨?_, ?_, _, header, version, rfl, hheader, hversion, hurl, rfl⟩⟩
    · decide
    · rintro otp ⟨⟩
  exact ⟨_, AllocE.can_false.1 (Operation.build_can_ok.2 ⟨rfl, rfl, _, rfl,
    AllocE.can_false.2 hprepare, AllocE.can_false.2 hrequest⟩)⟩

end Server

/-! ### A hundred and one components -/

def plainId (n : UInt8) : Bytes := uuidFormat (List.replicate 15 0 ++ [n])

theorem plainId_normalize (n : UInt8) : uuidNormalize (plainId n) = some (plainId n) := by
  unfold uuidNormalize plainId
  rw [uuidParse_uuidFormat (by simp)]
  rfl

/-- A component that has nothing but its id. -/
def plainComponent (n : UInt8) : Component where
  document := .obj [(ascii "id", .str (plainId n))]
  id := plainId n
  spelled := by
    refine ⟨plainId n, ?_, plainId_normalize n⟩
    exact congrArg some (cstr_of_nulFree (canonical_spec (plainId_normalize n)).2)

def plainComponents (count : Nat) : List Component :=
  (List.range count).map fun n => plainComponent (UInt8.ofNat n)

theorem length_plainComponents (count : Nat) : (plainComponents count).length = count := by
  rw [plainComponents, List.length_map, List.length_range]

theorem plainComponents_distinct {count : Nat} (h : count ≤ 256) :
    ((plainComponents count).map Component.id).Nodup := by
  unfold plainComponents
  rw [List.map_map]
  refine List.Nodup.map_on ?_ List.nodup_range
  intro m hm n hn hid
  have hbytes := uuidFormat_inj (by simp) (by simp) hid
  have hlast := List.cons.inj (List.append_cancel_left hbytes)
  have hval := congrArg UInt8.toNat hlast.1
  simp only [UInt8.toNat_ofNat'] at hval
  rw [List.mem_range] at hm hn
  omega

theorem plainComponent_text (n : UInt8) :
    ((plainComponent n).document.text exactLibc false).length = 45 := by
  have hplain : ∀ c, isCanonical c = true → (escapeByte c).length = 1 := forall_byte (by decide +kernel)
  have hescape : (escape (plainId n)).length = 36 := by
    have hone : (plainId n).map (fun c => (escapeByte c).length) = (plainId n).map fun _ => 1 :=
      List.map_congr_left fun c hc => hplain c (isCanonical_of_mem_uuidFormat c hc)
    rw [escape, List.length_flatMap, hone, List.map_const', List.sum_replicate,
      (canonical_spec (plainId_normalize n)).1]
    rfl
  have hname : (quoted (cstr (ascii "id"))).length = 4 := by decide
  have htext : (plainComponent n).document.text exactLibc false =
      lbrace :: (quoted (cstr (ascii "id")) ++ colon :: quote :: (escape (plainId n) ++ [quote]) ++
        [] ++ [rbrace]) := by
    unfold plainComponent text memberTexts memberTexts text
    rfl
  simp only [htext, List.length_cons, List.length_append, List.length_nil, hname, hescape]

theorem length_joinComma_le {α : Type} {f : α → Bytes} {k : Nat} {as : List α}
    (h : ∀ a ∈ as, (f a).length ≤ k) : (joinComma (as.map f)).length ≤ as.length * (k + 1) := by
  have hmore : ∀ bs : List α, (∀ b ∈ bs, (f b).length ≤ k) →
      ((bs.map f).flatMap fun t => comma :: t).length ≤ bs.length * (k + 1) := by
    intro bs
    induction bs with
    | nil => simp
    | cons b bs ih =>
      intro hbs
      have hb := hbs b List.mem_cons_self
      have := ih fun c hc => hbs c (List.mem_cons_of_mem b hc)
      simp only [List.map_cons, List.flatMap_cons, List.length_append, List.length_cons, Nat.add_mul]
      omega
  cases as with
  | nil => simp [joinComma]
  | cons a as =>
    have ha := h a List.mem_cons_self
    have := hmore as fun b hb => h b (List.mem_cons_of_mem a hb)
    simp only [List.map_cons, joinComma, List.length_append, List.length_cons, Nat.add_mul]
    omega

theorem plainId_wellFormed (n : UInt8) : Utf8.WellFormed (plainId n) := by
  have hlow : ∀ c, isCanonical c = true → c.toNat < 0x80 := forall_byte (by decide +kernel)
  exact Utf8.wellFormed_of_ascii fun c hc => hlow c (isCanonical_of_mem_uuidFormat c hc)

/-- A page of such components can be read back. -/
theorem parse_plainPage {page : List Component} (hplain : ∀ c ∈ page, ∃ n, c = plainComponent n)
    (hlen : page.length ≤ 100) : (parse exactLibc (some ((pageDocument page).text exactLibc false))).ok =
      .ok (pageDocument page) := by
  have hdata : Utf8.WellFormed (ascii "data") := Utf8.wellFormed_of_ascii (by decide +kernel)
  have hidKey : Utf8.WellFormed (ascii "id") := Utf8.wellFormed_of_ascii (by decide +kernel)
  -- what holds at the nodes of each component holds at those of the page
  have hevery : ∀ p : Json → Prop, p (pageDocument page) → p (.arr (page.map Component.document)) →
      (∀ n, (plainComponent n).document.Every p) → (pageDocument page).Every p := by
    intro p htop harray hone
    refine every_obj.2 ⟨htop, ?_⟩
    rintro _ (_ | ⟨_, ⟨⟩⟩)
    refine every_arr.2 ⟨harray, ?_⟩
    intro v hv
    obtain ⟨c, hc, rfl⟩ := List.mem_map.mp hv
    obtain ⟨n, rfl⟩ := hplain c hc
    exact hone n
  have hdepth : (pageDocument page).depth ≤ 64 := by
    have hitems : itemsDepth (page.map Component.document) ≤ 2 := by
      refine itemsDepth_le.2 fun v hv => ?_
      obtain ⟨c, hc, rfl⟩ := List.mem_map.mp hv
      obtain ⟨n, rfl⟩ := hplain c hc
      exact le_refl 2
    simp only [pageDocument, depth, membersDepth]
    omega
  have hshort : ((pageDocument page).text exactLibc false).length ≤ 16 * 1024 * 1024 := by
    have hitems : (joinComma (itemTexts exactLibc false (page.map Component.document))).length ≤
        page.length * 46 := by
      rw [itemTexts_eq, List.map_map]
      refine length_joinComma_le fun c hc => ?_
      obtain ⟨n, rfl⟩ := hplain c hc
      exact (plainComponent_text n).le
    have hname : (quoted (cstr (ascii "data"))).length = 6 := by decide
    have htext : (pageDocument page).text exactLibc false = lbrace :: (quoted (cstr (ascii "data")) ++
        colon :: lbracket :: (joinComma (itemTexts exactLibc false (page.map Component.document)) ++
          [rbracket]) ++ [] ++ [rbrace]) := by
      unfold pageDocument text memberTexts memberTexts text
      rfl
    simp only [htext, List.length_cons, List.length_append, List.length_nil, hname]
    omega
  refine parse_text (hevery NoDouble trivial trivial ?_)
    (hevery DistinctKeys ?_ trivial ?_) (hevery Utf8Text ?_ trivial ?_) hdepth hshort
  · intro n
    simp [plainComponent, NoDouble]
  · simp [pageDocument, DistinctKeys]
    decide
  · intro n
    simp [plainComponent, DistinctKeys]
    decide
  · simp [pageDocument, Utf8Text, hdata]
  · intro n
    simp [plainComponent, Utf8Text, hidKey, plainId_wellFormed]

theorem serves_plainComponents {limit : UInt32} (hlimit : limit ≠ 0) (count : Nat) :
    ServesComponents exactLibc sampleClient sampleId limit (plainComponents count)
      (pageServer exactLibc sampleClient sampleId limit (plainComponents count)) := by
  apply serves_pageServer hlimit
  intro after
  apply parse_plainPage
  · intro c hc
    have hmem := Keyset.rest_subset after (List.mem_of_mem_take hc)
    obtain ⟨n, -, rfl⟩ := List.mem_map.mp hmem
    exact ⟨_, rfl⟩
  · unfold componentPage serverPageCap
    rw [List.length_take]
    omega

/-- A hundred and one components and a limit of 200: the walk reports a hundred, as if they were all. -/
theorem keyset_walk_truncated :
    ((plainComponents 101).map Component.id).Nodup ∧
      ServesComponents exactLibc sampleClient sampleId 200 (plainComponents 101)
        (pageServer exactLibc sampleClient sampleId 200 (plainComponents 101)) ∧
      (plainComponents 101).length = 101 ∧
      ∀ fuel, (keysetWalk ⟨exactLibc, 0⟩ sampleClient sampleId 200 (fuel + 1) none).against
          (pageServer exactLibc sampleClient sampleId 200 (plainComponents 101)) =
        some (((plainComponents 101).take 100).map Component.document) := by
  have hserves := serves_plainComponents (show (200 : UInt32) ≠ 0 by decide) 101
  refine ⟨plainComponents_distinct (by decide), hserves, length_plainComponents 101, ?_⟩
  intro fuel
  exact keysetWalk_short (P := ⟨exactLibc, 0⟩) (canList_sample (by decide)) hserves (by decide) fuel

/-- With a limit of 50 the same components are all found. -/
theorem keyset_walk_iff_fifty :
    (plainComponents 101).length = 101 ∧
      ∃ fuel, (keysetWalk ⟨exactLibc, 0⟩ sampleClient sampleId 50 fuel none).against
          (pageServer exactLibc sampleClient sampleId 50 (plainComponents 101)) =
        some ((plainComponents 101).map Component.document) := by
  refine ⟨length_plainComponents 101, ?_⟩
  exact (keyset_walk_iff (P := ⟨exactLibc, 0⟩) (canList_sample (by decide))
    (serves_plainComponents (by decide) 101)
    (plainComponents_distinct (by decide)) (by decide)).mpr (Or.inl (by decide))

end Tamga
