import Tamga.Http.Endpoints
import Tamga.Lib.Percent

/-!
# `Http.Url` — the texts a request is made of

Every path, query and URL is written into a buffer piece by piece. For each builder there are two
facts: what it hands over when no request is refused (`_ok`), and that under refusals it hands over
the same text or nothing (`_sound`). Together they say what any text that was handed over is.
-/

namespace Tamga

open Alloc Percent

variable {F : Prop} {c : Bytes}

/-! ## Pieces joined in a buffer -/

section Joined

variable {parts : List Bytes}

theorem joined_some (h : (joined parts).Can F (some c)) :
    c = parts.flatten ∧ NulFree c ∧ c.length < Buf.maxGrowth :=
  (Buf.Writes.pieces parts).detachString_some h

theorem joined_ok :
    (joined parts).ok = some c ↔ c = parts.flatten ∧ NulFree c ∧ c.length < Buf.maxGrowth :=
  (Buf.Writes.pieces parts).detachString_ok

theorem joined_sound (parts : List Bytes) : (joined parts).Sound (· = none) :=
  (Buf.Writes.pieces parts).detachString_sound Buf.init

/-- Writing byte by byte is joining pieces of one byte. -/
theorem foldlM_appendByte (bytes : Bytes) :
    (bytes.foldlM Buf.appendByte Buf.init >>= Buf.detachString) = joined (bytes.map fun b => [b]) := by
  unfold joined
  rw [List.foldlM_map]
  rfl

end Joined

/-! ## Percent-encoding -/

theorem urlEncodeByte_eq (b : UInt8) : urlEncodeByte b = encodeByte b :=
  forall_byte (P := fun b => urlEncodeByte b = encodeByte b) (by decide +kernel) b

theorem urlEncode_eq (value : Bytes) :
    urlEncode value = joined ((encode value).map fun b => [b]) := by
  have : value.flatMap urlEncodeByte = encode value :=
    congrArg value.flatMap (funext urlEncodeByte_eq)
  rw [← this]
  exact foldlM_appendByte _

theorem urlEncode_sound (value : Bytes) : (urlEncode value).Sound (· = none) := by
  rw [urlEncode_eq]; exact joined_sound _

theorem urlEncode_ok {value : Bytes} : (urlEncode value).ok = some c ↔
    c = encode value ∧ NulFree c ∧ c.length < Buf.maxGrowth := by
  rw [urlEncode_eq, joined_ok, ← List.flatMap_def, List.flatMap_singleton']

theorem sanitizeApiVersion_eq (version : Bytes) : sanitizeApiVersion version =
    joined (((version.filter isVersionChar).take 32).map fun b => [b]) :=
  foldlM_appendByte _

theorem sanitizeApiVersion_sound (version : Bytes) : (sanitizeApiVersion version).Sound (· = none) := by
  rw [sanitizeApiVersion_eq]; exact joined_sound _

/-! ## Paths -/

theorem tamgaPath_eq {start : String} {id canonical : Bytes} {suffix : String}
    (h : uuidNormalize id = some canonical) :
    tamgaPath start id suffix = joined [ascii start, canonical, ascii suffix] := by
  unfold tamgaPath joined
  simp only [h, List.foldlM_cons, List.foldlM_nil, bind_assoc, pure_bind]

theorem tamgaPath_sound (start : String) (id : Bytes) (suffix : String) :
    (tamgaPath start id suffix).Sound (· = none) := by
  cases h : uuidNormalize id with
  | none =>
    unfold tamgaPath
    rw [h]
    refine Sound.bind ((Buf.Writes.append _).sound _) ?_ (Sound.pure none)
    intro _ _ r hr
    exact (can_pure.1 hr).symm
  | some canonical =>
    rw [tamgaPath_eq h]
    exact joined_sound _

theorem tamgaPath_ok {start : String} {id : Bytes} {suffix : String}
    (h : (tamgaPath start id suffix).ok = some c) : ∃ canonical, uuidNormalize id = some canonical ∧
      c = ascii start ++ canonical ++ ascii suffix := by
  cases hid : uuidNormalize id with
  | none =>
    unfold tamgaPath at h
    rw [hid, ok_bind] at h
    cases h
  | some canonical =>
    rw [tamgaPath_eq hid] at h
    refine ⟨canonical, rfl, (joined_ok.1 h).1.trans ?_⟩
    simp

/-! ## Queries -/

namespace Query

/-- A query that `finish` will not hand over. -/
def Spoilt (query : Query) : Prop := query.built = false ∨ query.buf.failed = true

/-- The end of a query builder: a spoilt query stays so, and refusals are owned up to. -/
structure Ends (f : Query → Alloc (Option Bytes)) : Prop where
  spoilt : ∀ {query : Query} {r : Option Bytes}, query.Spoilt → (f query).Can True r → r = none
  sound : ∀ query : Query, (f query).Sound (· = none)

theorem ends_finish : Ends finish := by
  constructor
  · intro query r hspoilt h
    obtain ⟨text, htext, h⟩ := can_bind.1 h
    obtain rfl := can_pure.1 h
    rcases hspoilt with hbuilt | hfailed
    · simp [hbuilt]
    · rw [Buf.detachString_failed hfailed htext]
      exact ite_self none
  · intro query
    refine Sound.bind (Buf.detachString_sound _) ?_ (Sound.pure _)
    rintro _ rfl r h
    obtain rfl := can_pure.1 h
    exact ite_self none

variable {f : Query → Alloc (Option Bytes)}

/-- One more step in front of an end. -/
theorem Ends.step (hf : Ends f) {w : Query → Alloc Query}
    (hspoilt : ∀ {query query' : Query}, query.Spoilt → (w query).Can True query' → query'.Spoilt)
    (hsound : ∀ query : Query, (w query).Sound Spoilt) : Ends fun query => w query >>= f := by
  constructor
  · intro query r hq h
    obtain ⟨query', hq', h⟩ := can_bind.1 h
    exact hf.spoilt (hspoilt hq hq') h
  · intro query
    exact Sound.bind (hsound query) (fun _ hq _ h => hf.spoilt hq h) (hf.sound _)

/-- The writes of one pair: the separator, then what `w` writes. -/
def writePair (first : Bool) (w : Buf → Alloc Buf) (buf : Buf) : Alloc Buf :=
  (if first then pure buf else buf.appendByte 0x26) >>= w

theorem writes_pair (first : Bool) {w : Buf → Alloc Buf} {t : Bytes} (hw : Buf.Writes w t) :
    Buf.Writes (writePair first w) ((if first then [] else [0x26]) ++ t) := by
  refine .seq (w := fun buf => if first then pure buf else buf.appendByte 0x26) ?_ hw
  cases first with
  | true => exact .nil
  | false => exact .append [0x26]

theorem add_eq {query : Query} (hbuilt : query.built = true) (name : String) (value : Bytes) :
    query.add name value = urlEncode value >>= fun encoded => match encoded with
      | none => pure { query with built := false }
      | some encoded =>
        writePair query.first ([ascii name, [0x3D], encoded].foldlM Buf.append) query.buf >>=
          fun buf => pure ⟨buf, false, true⟩ := by
  unfold add
  rw [if_neg (by simp [hbuilt])]
  congr 1
  funext encoded
  cases encoded with
  | none => rfl
  | some encoded =>
    cases query.first <;> simp [writePair, Buf.appendStr, Buf.appendByte]

theorem addNumber_eq {query : Query} {number : Nat} (hnumber : number ≠ 0) (name : String) :
    query.addNumber name number =
      writePair query.first (fun buf => buf.appendFmt (ascii name ++ 0x3D :: printInt number))
        query.buf >>= fun buf => pure ⟨buf, false, query.built⟩ := by
  unfold addNumber
  rw [if_neg hnumber]
  cases query.first <;> simp [writePair]

theorem Ends.add (hf : Ends f) (name : String) (value : Bytes) :
    Ends fun query => query.add name value >>= f := by
  have hpair := fun (first : Bool) (encoded : Bytes) =>
    writes_pair first (.pieces [ascii name, [0x3D], encoded])
  refine hf.step ?_ ?_
  · intro query query' hspoilt h
    cases hbuilt : query.built with
    | false =>
      unfold Query.add at h
      rw [if_pos (by simp [hbuilt])] at h
      exact can_pure.1 h ▸ hspoilt
    | true =>
      have hfailed : query.buf.failed = true := by
        rcases hspoilt with h | h
        · rw [hbuilt] at h; cases h
        · exact h
      rw [add_eq hbuilt] at h
      obtain ⟨encoded, -, h⟩ := can_bind.1 h
      cases encoded with
      | none => exact can_pure.1 h ▸ Or.inl rfl
      | some encoded =>
        obtain ⟨buf, hbuf, h⟩ := can_bind.1 h
        exact can_pure.1 h ▸ Or.inr ((hpair _ encoded).failed hfailed hbuf)
  · intro query
    cases hbuilt : query.built with
    | false =>
      unfold Query.add
      rw [if_pos (by simp [hbuilt])]
      exact Sound.pure _
    | true =>
      rw [add_eq hbuilt]
      refine Sound.bind (urlEncode_sound value) ?_ ?_
      · rintro _ rfl query' h
        exact can_pure.1 h ▸ Or.inl rfl
      · cases (urlEncode value).ok with
        | none => exact Sound.pure _
        | some encoded =>
          refine Sound.bind ((hpair _ encoded).sound _) ?_ (Sound.pure _)
          intro buf hbuf query' h
          exact can_pure.1 h ▸ Or.inr hbuf

theorem Ends.addOptional (hf : Ends f) (name : String)
    (value : Option Bytes) : Ends fun query => query.addOptional name value >>= f := by
  cases value with
  | none => exact hf
  | some value => exact hf.add name value

theorem Ends.addNumber (hf : Ends f) (name : String)
    (number : Nat) : Ends fun query => query.addNumber name number >>= f := by
  by_cases hnumber : number = 0
  · have : ∀ query : Query, query.addNumber name number = pure query := fun query => if_pos hnumber
    simpa only [this, pure_bind] using hf
  have hpair := fun first : Bool => writes_pair first
    (.appendFmt (ascii name ++ 0x3D :: printInt number))
  refine hf.step ?_ ?_
  · intro query query' hspoilt h
    rw [addNumber_eq hnumber] at h
    obtain ⟨buf, hbuf, h⟩ := can_bind.1 h
    rw [← can_pure.1 h]
    exact hspoilt.imp id fun hfailed => (hpair _).failed hfailed hbuf
  · intro query
    rw [addNumber_eq hnumber]
    refine Sound.bind ((hpair _).sound _) ?_ (Sound.pure _)
    intro buf hbuf query' h
    exact can_pure.1 h ▸ Or.inr hbuf

/-! ### Its contents -/

/-- The query is the rendering of `pairs`, if it can be handed over at all. -/
def Renders (query : Query) (pairs : List (Bytes × Bytes)) : Prop :=
  query.built = true → query.buf.Holds True (Percent.render pairs) ∧ (query.first = true ↔ pairs = [])

theorem renders_init : init.Renders [] := fun _ => ⟨Buf.holds_init, by simp [init]⟩

variable {query query' : Query} {pairs : List (Bytes × Bytes)}

/-- A pair behind its separator. -/
theorem holds_writePair {buf buf' : Buf} {first : Bool} {w : Buf → Alloc Buf} {pair : Bytes × Bytes}
    (hb : buf.Holds True (render pairs)) (hfirst : first = true ↔ pairs = [])
    (hw : Buf.Writes w (renderPair pair)) (h : (writePair first w buf).Can F buf') :
    buf'.Holds True (render (pairs ++ [pair])) := by
  have hpair := (writes_pair first hw).holds hb (fun _ => trivial) (fun _ => trivial) h
  cases first with
  | true =>
    obtain rfl := hfirst.mp rfl
    simpa [render] using hpair
  | false =>
    have hne : pairs ≠ [] := fun h => by cases hfirst.mpr h
    rwa [render_append hne]

theorem Renders.add {name : String} {value : Bytes} (hq : query.Renders pairs) (decoded : Bytes)
    (hname : ascii name = encode decoded) (h : (query.add name value).Can F query') :
    query'.Renders (pairs ++ [(decoded, value)]) := by
  intro hbuilt'
  cases hbuilt : query.built with
  | false =>
    unfold Query.add at h
    rw [if_pos (by simp [hbuilt])] at h
    rw [← can_pure.1 h, hbuilt] at hbuilt'
    cases hbuilt'
  | true =>
    rw [add_eq hbuilt] at h
    obtain ⟨encoded, hencoded, h⟩ := can_bind.1 h
    cases encoded with
    | none => rw [← can_pure.1 h] at hbuilt'; cases hbuilt'
    | some encoded =>
      obtain ⟨rfl, -, -⟩ := urlEncode_ok.1 ((urlEncode_sound value).some_eq hencoded)
      obtain ⟨buf, hbuf, h⟩ := can_bind.1 h
      obtain rfl := can_pure.1 h
      refine ⟨holds_writePair (hq hbuilt).1 (hq hbuilt).2 ?_ hbuf, by simp⟩
      simpa [renderPair, hname, Percent.equals] using Buf.Writes.pieces [ascii name, [0x3D], encode value]

theorem Renders.addOptional {name : String} {value : Option Bytes} (hq : query.Renders pairs)
    (decoded : Bytes) (hname : ascii name = encode decoded)
    (h : (query.addOptional name value).Can F query') :
    query'.Renders (pairs ++ (value.map fun v => (decoded, v)).toList) := by
  cases value with
  | none =>
    obtain rfl := can_pure.1 h
    simpa using hq
  | some value => exact hq.add decoded hname h

/-- Digits need no encoding. -/
theorem encode_decimal (n : Nat) : encode (Decimal.encode n) = Decimal.encode n := by
  refine encode_eq_self fun c hc => ?_
  have hdigit := (Decimal.encode_plain n).digits c hc
  have : ∀ c, Decimal.isDigit c = true → unreserved c = true :=
    forall_byte (by decide +kernel)
  exact this c hdigit

theorem printInt_natCast (n : Nat) : printInt n = Decimal.encode n := by
  unfold printInt
  rw [if_neg (by omega), Int.natAbs_natCast]

theorem Renders.addNumber {name : String} {number : Nat} (hq : query.Renders pairs)
    (decoded : Bytes) (hname : ascii name = encode decoded)
    (h : (query.addNumber name number).Can F query') : query'.Renders
      (pairs ++ if number = 0 then [] else [(decoded, Decimal.encode number)]) := by
  by_cases hnumber : number = 0
  · unfold Query.addNumber at h
    rw [if_pos hnumber] at h
    obtain rfl := can_pure.1 h
    rw [if_pos hnumber, List.append_nil]
    exact hq
  · rw [addNumber_eq hnumber] at h
    rw [if_neg hnumber]
    intro hbuilt'
    obtain ⟨buf, hbuf, h⟩ := can_bind.1 h
    obtain rfl := can_pure.1 h
    refine ⟨holds_writePair (hq hbuilt').1 (hq hbuilt').2 ?_ hbuf, by simp⟩
    have htext : ascii name ++ 0x3D :: printInt number = renderPair (decoded, Decimal.encode number) := by
      rw [hname, printInt_natCast, renderPair, encode_decimal]
      rfl
    exact htext ▸ .appendFmt _

theorem Renders.finish {text : Bytes} (hq : query.Renders pairs)
    (h : query.finish.Can F (some text)) : text = render pairs := by
  obtain ⟨detached, hdetached, h⟩ := can_bind.1 h
  have h := can_pure.1 h
  cases hbuilt : query.built with
  | false => simp [hbuilt] at h
  | true =>
    simp only [hbuilt, if_true] at h
    subst h
    exact ((hq hbuilt).1.detachString_some hdetached).1

end Query

/-! ## URLs -/

/-- What a URL begins with. -/
def Client.root (client : Client) (scope : PathScope) : Bytes :=
  if scope = .origin then client.origin else client.baseUrl

/-- The credential that goes into the query. -/
def Client.token (client : Client) : Option Bytes :=
  match client.auth with
  | some ⟨.queryToken, primary, _⟩ => some primary
  | _ => none

/-- The pieces of a URL up to the caller's query. -/
def urlPieces (root path query : Bytes) : List Bytes :=
  if query.length ≠ 0 then [root, path, [0x3F], query] else [root, path]

/-- The pieces of the token, which comes last. -/
def tokenPieces (query encoded : Bytes) : List Bytes :=
  [[if query.length ≠ 0 then 0x26 else 0x3F], ascii "token=", encoded]

/-- The URL of a request. -/
def Client.urlText (client : Client) (scope : PathScope) (path query : Bytes) : Bytes :=
  (urlPieces (client.root scope) path query).flatten ++
    (client.token.map fun primary => (tokenPieces query (Percent.encode primary)).flatten).getD []

section BuildUrl

variable {client : Client} {scope : PathScope} {path : Bytes} {query : Option Bytes}

/-- The writes of `urlPieces`. -/
def writeUrl (root path query : Bytes) (buf : Buf) : Alloc Buf :=
  (urlPieces root path query).foldlM Buf.append buf

/-- The writes of `tokenPieces`. -/
def writeToken (query encoded : Bytes) (buf : Buf) : Alloc Buf :=
  (tokenPieces query encoded).foldlM Buf.append buf

/-- The pieces before the token are written before the token is encoded. -/
theorem buildUrl_eq : buildUrl client scope path query =
    writeUrl (client.root scope) path (query.getD []) Buf.init >>= fun buf =>
      match client.token with
      | none => buf.detachString
      | some primary => urlEncode primary >>= fun encoded => match encoded with
          | none => pure none
          | some encoded => writeToken (query.getD []) encoded buf >>= Buf.detachString := by
  have hq : query.getD [] = [] ∨ query.getD [] ≠ [] := em _
  unfold buildUrl Client.token Client.root writeUrl urlPieces writeToken tokenPieces
  rcases client.auth with _ | ⟨kind, primary, secondary⟩
  · rcases hq with hq | hq <;> simp [hq, Buf.appendStr, Buf.appendByte]
  · cases kind
    case queryToken =>
      rcases hq with hq | hq
      · simp only [Buf.appendStr, Buf.appendByte, hq, List.length_nil, ne_eq, not_true_eq_false,
          decide_false, Bool.false_eq_true, if_false, pure_bind, List.foldlM_cons, List.foldlM_nil,
          bind_pure, bind_assoc] <;> rfl
      · simp only [Buf.appendStr, Buf.appendByte, ne_eq, List.length_eq_zero_iff, hq,
          not_false_eq_true, decide_true, if_true, bind_assoc, List.foldlM_cons, List.foldlM_nil,
          bind_pure] <;> rfl
    all_goals
      rcases hq with hq | hq <;> simp [hq, Buf.appendStr, Buf.appendByte]

/-- **URLs.** Without refusals a URL is handed over unless a block cannot hold it. -/
theorem buildUrl_ok {url : Bytes} : (buildUrl client scope path query).ok = some url ↔
    url = client.urlText scope path (query.getD []) ∧ NulFree url ∧ url.length < Buf.maxGrowth := by
  rw [buildUrl_eq, ok_bind, Client.urlText]
  cases client.token with
  | none =>
    have hjoin : (writeUrl (client.root scope) path (query.getD []) Buf.init).ok.detachString.ok =
        (joined (urlPieces (client.root scope) path (query.getD []))).ok := (ok_bind _ _).symm
    show Alloc.ok (Buf.detachString _) = some url ↔ _
    rw [hjoin, joined_ok]
    simp
  | some primary =>
    have hjoin : ∀ encoded, (writeToken (query.getD []) encoded
        (writeUrl (client.root scope) path (query.getD []) Buf.init).ok >>= Buf.detachString).ok =
          (joined (urlPieces (client.root scope) path (query.getD []) ++
            tokenPieces (query.getD []) encoded)).ok := by
      intro encoded
      simp [joined, writeToken, writeUrl]
      rfl
    rw [ok_bind]
    constructor
    · intro h
      cases henc : (urlEncode primary).ok with
      | none => rw [henc] at h; cases h
      | some encoded =>
        rw [henc] at h
        obtain ⟨rfl, -, -⟩ := urlEncode_ok.1 henc
        obtain ⟨rfl, hnul, hlen⟩ := joined_ok.1 ((hjoin _).symm.trans h)
        exact ⟨by simp, hnul, hlen⟩
    · rintro ⟨rfl, hnul, hlen⟩
      -- the encoded token is the end of the URL, so it is no longer and has no NUL byte either
      have henc : (urlEncode primary).ok = some (encode primary) := by
        refine urlEncode_ok.2 ⟨rfl, ?_, ?_⟩
        · intro h0
          exact hnul (by simp [tokenPieces, h0])
        · refine lt_of_le_of_lt ?_ hlen
          simp [tokenPieces]
          omega
      rw [henc]
      exact (hjoin _).trans (joined_ok.2 ⟨by simp, hnul, hlen⟩)

theorem buildUrl_sound (client : Client) (scope : PathScope) (path : Bytes) (query : Option Bytes) :
    (buildUrl client scope path query).Sound (· = none) := by
  have hw := (Buf.Writes.pieces (urlPieces (client.root scope) path (query.getD []))).sound Buf.init
  rw [buildUrl_eq]
  cases client.token with
  | none =>
    exact Sound.bind hw (fun _ hb _ hr => Buf.detachString_failed hb hr) (Buf.detachString_sound _)
  | some primary =>
    have htoken := fun encoded => Buf.Writes.pieces (tokenPieces (query.getD []) encoded)
    refine Sound.bind hw ?_ (Sound.bind (urlEncode_sound primary) ?_ ?_)
    · -- a buffer that failed before the token stays failed behind it
      intro buf hb r hr
      obtain ⟨encoded, -, hr⟩ := can_bind.1 hr
      cases encoded with
      | none => exact (can_pure.1 hr).symm
      | some encoded =>
        obtain ⟨buf', hb', hr⟩ := can_bind.1 hr
        exact Buf.detachString_failed ((htoken encoded).failed hb hb') hr
    · rintro _ rfl r hr
      exact (can_pure.1 hr).symm
    · cases (urlEncode primary).ok with
      | none => exact Sound.pure none
      | some encoded => exact (htoken encoded).detachString_sound _

end BuildUrl

end Tamga
