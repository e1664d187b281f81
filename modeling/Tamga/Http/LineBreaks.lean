import Tamga.Http.Session
import Tamga.Json.Exact

/-!
# `Http.LineBreaks` — no request is split

A CR or LF byte in a URL or in a header value would let a caller's string end the line and start
another. Credentials and one-time passwords are checked for them, the version is filtered, ids are
canonical UUIDs, query values are percent-encoded and `Basic` credentials are base64. The account id
and the host of `tamga_client_new` are **not** checked: the URL of every request begins with them as
they are. So a client's life is free of line breaks exactly when these two are (`history_lineFree`).
-/

namespace Tamga

open Alloc Json Percent

variable {P : Platform} {F : Prop}

/-- Neither CR nor LF occurs. -/
def LineFree (text : Bytes) : Prop := 0x0D ∉ text ∧ 0x0A ∉ text

instance (text : Bytes) : Decidable (LineFree text) := inferInstanceAs (Decidable (_ ∧ _))

theorem lineFree_iff {text : Bytes} : LineFree text ↔ ∀ c ∈ text, isLineBreak c = false := by
  unfold LineFree
  constructor
  · rintro ⟨hcr, hlf⟩ c hc
    simp only [isLineBreak, Bool.or_eq_false_iff, decide_eq_false_iff_not]
    exact ⟨fun h => hcr (h ▸ hc), fun h => hlf (h ▸ hc)⟩
  · intro h
    exact ⟨fun hcr => absurd (h _ hcr) (by decide), fun hlf => absurd (h _ hlf) (by decide)⟩

theorem headerValueIsSafe_iff {value : Bytes} : headerValueIsSafe value = true ↔ LineFree value := by
  rw [lineFree_iff, headerValueIsSafe, List.all_eq_true]
  simp only [Bool.not_eq_true']

theorem lineFree_append {a b : Bytes} : LineFree (a ++ b) ↔ LineFree a ∧ LineFree b := by
  simp only [lineFree_iff, List.mem_append]
  constructor
  · exact fun h => ⟨fun c hc => h c (Or.inl hc), fun c hc => h c (Or.inr hc)⟩
  · rintro ⟨ha, hb⟩ c (hc | hc)
    · exact ha c hc
    · exact hb c hc

theorem lineFree_flatten {parts : List Bytes} : LineFree parts.flatten ↔ ∀ part ∈ parts, LineFree part := by
  simp only [lineFree_iff, List.mem_flatten]
  constructor
  · exact fun h part hpart c hc => h c ⟨part, hpart, hc⟩
  · rintro h c ⟨part, hpart, hc⟩
    exact h part hpart c hc

/-- A class of bytes without line breaks. -/
theorem lineFree_of_class {p : UInt8 → Bool} (hcr : p 0x0D = false) (hlf : p 0x0A = false) {text : Bytes}
    (h : ∀ c ∈ text, p c = true) : LineFree text := by
  constructor
  · intro hmem; rw [h _ hmem] at hcr; cases hcr
  · intro hmem; rw [h _ hmem] at hlf; cases hlf

/-! ## What the code lets through -/

theorem lineFree_encode (value : Bytes) : LineFree (encode value) := by
  refine lineFree_of_class (p := fun c => unreserved c || c = percent) rfl rfl
    fun c hc => ?_
  simpa using mem_encode hc

theorem lineFree_render (pairs : List (Bytes × Bytes)) : LineFree (render pairs) := by
  have hpair : ∀ pair : Bytes × Bytes, LineFree (renderPair pair) := by
    intro pair
    refine lineFree_append.2 ⟨lineFree_encode _, ?_⟩
    exact lineFree_append (a := [Percent.equals]) |>.mpr ⟨by decide, lineFree_encode _⟩
  induction pairs with
  | nil => decide
  | cons p pairs ih =>
    cases pairs with
    | nil => simpa [render] using hpair p
    | cons q pairs =>
      rw [render_cons_cons]
      refine lineFree_append.2 ⟨hpair p, ?_⟩
      exact lineFree_append (a := [ampersand]) |>.mpr ⟨by decide, ih⟩

theorem lineFree_queryText (pairs : List (Bytes × Bytes)) : LineFree (queryText pairs) := by
  unfold queryText
  split
  · decide
  · exact lineFree_append (a := [0x3F]) |>.mpr ⟨by decide, lineFree_render pairs⟩

theorem lineFree_canonical {id : Option Bytes} {canonical : Bytes}
    (h : id.bind uuidNormalize = some canonical) : LineFree canonical := by
  obtain ⟨id, rfl, h⟩ := Option.bind_eq_some_iff.mp h
  obtain ⟨uuid, -, -, rfl⟩ := uuidNormalize_eq_some.1 h
  exact lineFree_of_class (p := isCanonical) rfl rfl isCanonical_of_mem_uuidFormat

theorem lineFree_base64 (bytes : Bytes) : LineFree (Base64.encode bytes) := by
  refine lineFree_append.2 ⟨?_, ?_⟩
  · refine lineFree_of_class (p := fun c => (Base64.value c).isSome) rfl rfl fun c hc => ?_
    obtain ⟨s, hs⟩ := Base64.value_of_mem_digits bytes c hc
    rw [hs]; rfl
  · refine lineFree_of_class (p := fun c => c = Base64.pad) rfl rfl fun c hc => ?_
    simpa using List.eq_of_mem_replicate hc

/-! ## Paths -/

theorem idRoute_lineFree {method : Method} {start suffix : String} {id : Option Bytes}
    {query : List (Bytes × Bytes)} {r : Route} (hstart : LineFree (ascii start))
    (hsuffix : LineFree (ascii suffix)) (h : idRoute method start id suffix query = some r) :
    LineFree r.path := by
  obtain ⟨canonical, hcanonical, rfl⟩ := Option.map_eq_some_iff.mp h
  exact lineFree_append.2 ⟨lineFree_append.2 ⟨hstart, lineFree_canonical hcanonical⟩, hsuffix⟩

theorem listRoute_lineFree {start suffix : String} {id after : Option Bytes} {limit : UInt32}
    {r : Route} (hstart : LineFree (ascii start)) (hsuffix : LineFree (ascii suffix))
    (h : listRoute start id suffix limit after = some r) : LineFree r.path := by
  obtain ⟨canonical, -, h⟩ := Option.bind_eq_some_iff.mp h
  exact idRoute_lineFree hstart hsuffix h

theorem entitlementRoute_lineFree {method : Method} {licenseId entitlementId : Option Bytes}
    {suffix : String} {r : Route} (hsuffix : LineFree (ascii suffix))
    (h : entitlementRoute method licenseId entitlementId suffix = some r) : LineFree r.path := by
  obtain ⟨license, hlicense, h⟩ := Option.bind_eq_some_iff.mp h
  obtain ⟨entitlement, hentitlement, h⟩ := Option.bind_eq_some_iff.mp h
  injection h with h
  rw [← h]
  simp only [lineFree_append]
  exact ⟨⟨⟨⟨by decide, lineFree_canonical hlicense⟩, by decide⟩, lineFree_canonical hentitlement⟩,
    hsuffix⟩

theorem Operation.route_lineFree {op : Operation} {r : Route} (h : op.route = some r) :
    LineFree r.path := by
  cases op with
  | validateByKey | createMachine | createComponent | createProcess | listSigningKeys | health =>
    injection h with h; rw [← h]; decide
  | listMachines | checkUpgrade =>
    obtain ⟨_, -, h⟩ := Option.bind_eq_some_iff.mp h
    injection h with h; rw [← h]; dsimp only; decide
  | listComponents | listMachineProcesses | listEntitlements | listReleaseArtifacts =>
    exact listRoute_lineFree (by decide) (by decide) h
  | getEntitlement | incrementEntitlementUsage | decrementEntitlementUsage
  | resetEntitlementUsage => exact entitlementRoute_lineFree (by decide) h
  | _ => exact idRoute_lineFree (by decide) (by decide) h

/-! ## Headers -/

/-- The invariant: everything a client writes into requests as it is. -/
structure Client.Clean (c : Client) : Prop where
  origin : LineFree c.origin
  baseUrl : LineFree c.baseUrl
  auth : ∀ auth ∈ c.auth, LineFree auth.primary

theorem authValue_lineFree {auth : Credentials} {value : Bytes} (hprimary : LineFree auth.primary)
    (h : (authValue auth).Can F (some value)) : LineFree value := by
  have htext : ∀ {lead text : Bytes}, LineFree lead → LineFree text →
      (joined [lead, text]).Can F (some value) → LineFree value := by
    intro lead text hlead htext h
    rw [(joined_some h).1]
    exact lineFree_flatten.2 (by simpa using ⟨hlead, htext⟩)
  unfold authValue at h
  split at h
  · exact htext (by decide) hprimary h
  · exact htext (by decide) hprimary h
  · obtain ⟨pair, -, h⟩ := can_bind.1 h
    cases pair with
    | none => cases h
    | some pair =>
      obtain ⟨encoded, hencoded, h⟩ := can_bind.1 h
      cases encoded with
      | none => cases h
      | some encoded =>
        rcases base64EncodeAlloc_can hencoded with he | he
        · injection he with he
          exact htext (by decide) (he ▸ lineFree_base64 pair) h
        · cases he

theorem clientAuthHeader_lineFree {auth : Credentials} {header : Option (Bytes × Bytes)}
    (hprimary : LineFree auth.primary) (h : (clientAuthHeader auth).Can F (some header)) :
    ∀ nv ∈ header, LineFree nv.2 := by
  unfold clientAuthHeader at h
  split at h
  · injection can_pure.1 h with h
    rw [← h]
    exact nofun
  · obtain ⟨value, hvalue, h⟩ := can_bind.1 h
    cases value with
    | none => cases h
    | some value =>
      obtain ⟨name, -, h⟩ := can_bind.1 h
      cases name with
      | none => cases h
      | some name =>
        injection can_pure.1 h with h
        rw [← h]
        rintro _ ⟨⟩
        exact authValue_lineFree hprimary hvalue

theorem sanitizeApiVersion_lineFree {version text : Bytes}
    (h : (sanitizeApiVersion version).Can F (some text)) : LineFree text := by
  rw [sanitizeApiVersion_eq] at h
  rw [(joined_some h).1, ← List.flatMap_def, List.flatMap_singleton']
  refine lineFree_of_class (p := isVersionChar) rfl rfl fun c hc => ?_
  exact (List.mem_filter.mp (List.mem_of_mem_take hc)).2

/-- Neither the URL nor a header value of the request has a line break. -/
def HttpRequest.LineFree (r : HttpRequest) : Prop :=
  Tamga.LineFree r.url ∧ ∀ header ∈ r.headers, Tamga.LineFree header.2

theorem requestHeaders_lineFree {header : Option (Bytes × Bytes)} {version : Bytes} {p : Prepared}
    (hheader : ∀ nv ∈ header, LineFree nv.2) (hversion : LineFree version)
    (hotp : ∀ otp ∈ p.otp, headerValueIsSafe otp = true) :
    ∀ nv ∈ requestHeaders header version p, LineFree nv.2 := by
  intro nv hnv
  simp only [requestHeaders, List.mem_append, List.mem_cons, List.not_mem_nil, or_false] at hnv
  rcases hnv with ((hnv | rfl | rfl) | hnv) | hnv
  · exact hheader nv (by simpa using hnv)
  · exact hversion
  · exact (by decide : LineFree (ascii "application/vnd.api+json, application/json"))
  · split at hnv
    · obtain rfl := List.mem_singleton.mp hnv
      show LineFree (if _ then _ else _)
      split <;> decide
    · cases hnv
  · obtain ⟨otp, hotp', rfl⟩ := Option.map_eq_some_iff.mp (by simpa using hnv)
    exact headerValueIsSafe_iff.1 (hotp otp hotp')

theorem Operation.sends_lineFree {op : Operation} {c : Client} {slot : Bool} (hc : c.Clean) :
    (op.run P (some c) slot).Sends fun a => a.request.LineFree := by
  refine sends_of_build fun c' p r h => ?_
  obtain ⟨route, hroute, -, -, hurl⟩ := build_route h
  obtain ⟨⟨⟩, -, prepare, -, -, hr⟩ := build_can_ok.1 h
  obtain ⟨-, hotp, auth, header, version, hauth, hheader, hversion, -, hform⟩ :=
    clientRequest_ok.1 ((clientRequest_reports c p).sound.ok_eq hr)
  constructor
  · rw [hurl, Client.urlOf, lineFree_append, lineFree_append]
    refine ⟨⟨?_, route_lineFree hroute⟩, lineFree_queryText _⟩
    unfold Client.root
    split
    · exact hc.origin
    · exact hc.baseUrl
  · rw [hform]
    exact requestHeaders_lineFree
      (clientAuthHeader_lineFree (hc.auth auth hauth) (can_false.2 hheader))
      (sanitizeApiVersion_lineFree (can_false.2 hversion)) hotp

/-! ## A client's whole life -/

theorem Client.Clean.stores {c c' : Client} (h : c.Clean) (hstores : Stores c c') : c'.Clean := by
  cases hstores with
  | auth auth hprimary hsecondary =>
    refine ⟨h.origin, h.baseUrl, ?_⟩
    rintro _ ⟨⟩
    exact headerValueIsSafe_iff.1 hprimary
  | apiVersion version => exact ⟨h.origin, h.baseUrl, h.auth⟩
  | timeoutMs ms => exact ⟨h.origin, h.baseUrl, h.auth⟩
  | maxRetries n hn => exact ⟨h.origin, h.baseUrl, h.auth⟩
  | transport transport => exact ⟨h.origin, h.baseUrl, h.auth⟩

theorem Endpoint.sends_lineFree {e : Endpoint} {c : Client} (hc : c.Clean) :
    (e.run P (some c)).Sends fun a => a.request.LineFree :=
  Endpoint.run_issued (Interact.compositional_sends _) fun _ _ _ => Operation.sends_lineFree hc

/-- Trimming takes no line break away. -/
theorem trimmedHost_lineFree {host : Bytes} : LineFree (trimmedHost host) ↔ LineFree host := by
  unfold LineFree
  rw [mem_trimmedHost (by decide), mem_trimmedHost (by decide)]

theorem originPieces_lineFree {host : Bytes} :
    LineFree (originPieces host).flatten ↔ LineFree host := by
  rw [lineFree_flatten, ← @trimmedHost_lineFree host]
  have hscheme : LineFree (ascii "https://") := by decide
  unfold originPieces
  split
  · simp
  · simp [hscheme]

theorem newClient_lineFree {builtIn : Option Transport} {a h : Bytes} :
    LineFree (newClient builtIn a h).baseUrl ↔ LineFree a ∧ LineFree h := by
  have hmiddle : LineFree (ascii "/v1/accounts/") := by decide
  show LineFree (baseUrlPieces _ _).flatten ↔ _
  simp only [baseUrlPieces, List.flatten_cons, List.flatten_nil, List.append_nil, lineFree_append,
    originPieces_lineFree, hmiddle, true_and]
  exact and_comm

/-- A life with one request. -/
def signingKeysCalls : List ClientCall :=
  [.set (.transport (some 0)), .set (.auth 0 (some (ascii "t")) none),
    .use (.single .listSigningKeys true)]

theorem ready_request (builtIn : Option Transport) {a h : Bytes} (ha : Accepted a) (hh : Accepted h) :
    ∃ p r, (Operation.listSigningKeys.build P.toLibc (some (newClient builtIn a h).ready) true).ok =
      .ok ((newClient builtIn a h).ready, p, r) ∧
        r.url = (newClient builtIn a h).baseUrl ++ ascii "/signing-keys" := by
  obtain ⟨hnul, hlen⟩ := newClient_baseUrl builtIn ha hh
  have hmax : 3 * maxReasonableLen < Buf.maxGrowth := by decide
  have h13 : (ascii "/signing-keys").length = 13 := by decide
  have hroom : 34 < maxReasonableLen := by decide
  have hversion : (sanitizeApiVersion defaultApiVersion).ok = some (ascii "1.8") := by decide +kernel
  have hheader : (clientAuthHeader ⟨.bearer, ascii "t", none⟩).ok =
      some (some (ascii "Authorization", ascii "Bearer t")) := by decide +kernel
  refine ⟨getRequest (ascii "/signing-keys") none,
    ⟨.get, (newClient builtIn a h).baseUrl ++ ascii "/signing-keys", _, none, _⟩, AllocE.can_false.1
    (Operation.build_can_ok.2 ⟨rfl, rfl, _, rfl, AllocE.can_pure.2 rfl, AllocE.can_false.2
      (clientRequest_ok.2 ⟨nofun, nofun, _, _, _, rfl, hheader, hversion,
        buildUrl_ok.2 ⟨?_, ?_, ?_⟩, rfl⟩)⟩), rfl⟩
  · simp [Client.urlText, urlPieces, Client.root, getRequest, Client.ready, Client.token]
  · exact nulFree_append.2 ⟨hnul, by decide⟩
  · rw [List.length_append]; omega

theorem history_signingKeys (builtIn : Option Transport) {a h : Bytes} (ha : Accepted a)
    (hh : Accepted h) (answers : Stream' Answer) : ∃ entry ∈
      ((history P builtIn (some a) (some h) signingKeysCalls).run answers).1,
        entry.1.request.url = (newClient builtIn a h).baseUrl ++ ascii "/signing-keys" := by
  obtain ⟨p, r, hbuild, hurl⟩ := ready_request (P := P) builtIn ha hh
  unfold history
  rw [Interact.run_bind_ofAlloc]
  have hnew : (clientNew builtIn (some a) (some h)).run.ok = .ok (newClient builtIn a h) :=
    clientNew_ok ha hh
  have hset : (Setter.run (newClient builtIn a h) (.transport (some 0))).ok =
      (.ok (), { newClient builtIn a h with transport := some (.custom 0) }) := rfl
  have hauth : (Setter.run { newClient builtIn a h with transport := some (.custom 0) }
      (.auth 0 (some (ascii "t")) none)).ok = (.ok (), (newClient builtIn a h).ready) := rfl
  rw [hnew]
  simp only [map_eq_pure_bind, signingKeysCalls, session, Interact.run_bind, Interact.run_ofAlloc,
    List.nil_append, List.length_nil, Stream'.drop_zero, hset, hauth, Endpoint.run,
    Operation.run_of_build hbuild, Interact.run_pure, List.append_nil]
  obtain ⟨rest, hrest⟩ := attempts_eq_cons P r (requestIsRetryable p.method p.path)
    (newClient builtIn a h).ready.maxRetries 0 none answers
  rw [hrest]
  exact ⟨_, List.mem_cons_self, hurl⟩

/-- **Line breaks.** With arbitrary strings for credentials, version, one-time password and the
    arguments of endpoints, no URL and no header value of a client's life has a line break: exactly
    when the account id and the host it was created with have none, or cannot be stored. A setter that
    fails changes nothing, whatever fails. -/
theorem history_lineFree (P : Platform) (builtIn : Option Transport) (accountId host : Option Bytes) :
    ((∀ calls σ answers, ∀ entry ∈ ((history P builtIn accountId host calls).under σ answers).1,
        entry.1.request.LineFree) ↔
      ∀ a h, accountId = some a → host = some h → Accepted a → Accepted h →
        LineFree a ∧ LineFree h) ∧
    ∀ (client : Client) (setter : Setter) (σ : Nat → Bool),
      ((setter.run client).under σ).1 ≠ .ok () → ((setter.run client).under σ).2 = client := by
  refine ⟨⟨?_, ?_⟩, ?_⟩
  · rintro hsafe a h rfl rfl ha hh
    obtain ⟨entry, hentry, hurl⟩ := history_signingKeys (P := P) builtIn ha hh
      (Stream'.const (.failed .network))
    have hline := (hsafe signingKeysCalls (fun _ => true) _ entry
      (by rw [Interact.under_all_true]; exact hentry)).1
    rw [hurl, lineFree_append] at hline
    exact newClient_lineFree.1 hline.1
  · intro hclean calls σ answers
    have hsends : (history P builtIn accountId host calls).Sends fun a => a.request.LineFree := by
      refine history_sends (I := Client.Clean) ?_ (fun c c' hc => hc.stores)
        fun e c hc => Endpoint.sends_lineFree hc
      refine clientNew_ensures.mono ?_
      rintro _ ⟨a, h, ha, hh, haccepted, hhaccepted, rfl⟩
      obtain ⟨hline, hline'⟩ := hclean a h ha hh haccepted hhaccepted
      exact ⟨originPieces_lineFree.2 hline', newClient_lineFree.2 ⟨hline, hline'⟩, nofun⟩
    exact hsends.runs (Interact.runs_under _ σ answers)
  · intro client setter σ hfailed
    rcases Setter.run_settles (Alloc.can_under _ σ) with ⟨-, hsame⟩ | ⟨hok, -⟩
    · exact hsame
    · exact absurd hok hfailed

/-- A host with a line break goes into the URL of a request as it is. -/
theorem history_lineFree_host :
    ((history ⟨exactLibc, 0⟩ none (some (ascii "acme")) (some (ascii "h\x0d\x0aX-Evil: 1"))
        signingKeysCalls).under (fun _ => true) (Stream'.const (.failed .network))).1.map
      (fun entry => (entry.1.request.url, decide (LineFree entry.1.request.url))) =
    [(ascii "https://h\x0d\x0aX-Evil: 1/v1/accounts/acme/signing-keys", false)] := by
  decide +kernel

end Tamga
