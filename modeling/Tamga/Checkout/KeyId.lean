import Tamga.Checkout.KeyDocument
import Tamga.Checkout.Accept

/-!
# `Checkout.KeyId` — which key a `kid` names

A row's id and a payload's `kid` are JSON strings, and a JSON string may hold U+0000. The code keeps,
copies and compares both as C strings, so two strings that differ only behind a U+0000 name the same
key. Lookup, labelling and the mismatch count all apply one test, `PublishedKey.NamedBy`. Their results
are what exact comparison gives, except on the documents `keyId_matching` describes.
-/

namespace Tamga

open Alloc Base64 Json

variable {C : Crypto} {L : Libc} {set : KeySet} {payload : Json} {kid : Bytes}
  {rows : List PublishedKey}

/-- The `meta.kid` of a payload, as the decoded JSON string. -/
def payloadKid (payload : Json) : Option Bytes :=
  (payload.objectGet (ascii "meta")).bind (stringField · "kid")

theorem claimsKeyId_payload :
    claimsKeyId (payload.objectGet (ascii "meta")) = (payloadKid payload).map cstr := rfl

/-- `strcmp(entry.key_id, kid) == 0`, the entry being the one `row` is held as. -/
def PublishedKey.NamedBy (kid : Bytes) (row : PublishedKey) : Prop := row.entry.keyId = cstr kid

instance (row : PublishedKey) : Decidable (row.NamedBy kid) := inferInstanceAs (Decidable (_ = _))

/-- Two different strings that agree up to their first U+0000. -/
def OnlyBehindNul (a b : Bytes) : Prop := cstr a = cstr b ∧ a ≠ b

theorem not_onlyBehindNul {a b : Bytes} (ha : NulFree a) (hb : NulFree b) : ¬ OnlyBehindNul a b := by
  rintro ⟨hsame, hne⟩
  rw [cstr_of_nulFree ha, cstr_of_nulFree hb] at hsame
  exact hne hsame

/-- The key of the first row that is served under `kid`. -/
def exactLookup (rows : List PublishedKey) (kid : Bytes) : Option PublicKey :=
  (rows.find? fun row => decide (row.servedId = kid)).map PublishedKey.key

/-- The three results are those of comparing the strings themselves. -/
structure ExactResults (C : Crypto) (rows : List PublishedKey) (kid : Bytes)
    (found : Option PublicKey) (label : ErrorCode) (mismatched : Nat) : Prop where
  lookup : found = exactLookup rows kid
  -- with nothing before its first U+0000 a `kid` names no key, and no row is asked
  label : cstr kid ≠ [] → (label = .signatureInvalid ↔ ∃ row ∈ rows, row.servedId = kid)
  count : mismatched = rows.countP fun row => decide (row.servedId ≠ row.computedId C)

/-- The first row that agrees with `kid` up to a U+0000 is not served under it, and the first row that
    is, if there is one, has another key. -/
def Misread (rows : List PublishedKey) (kid : Bytes) : Prop :=
  ∃ before row after, rows = before ++ row :: after ∧ (∀ other ∈ before, ¬ other.NamedBy kid) ∧
    OnlyBehindNul row.servedId kid ∧ exactLookup after kid ≠ some row.key

/-- A hex text has no NUL in it. -/
theorem nulFree_hexEncode (bytes : Bytes) : NulFree (hexEncode bytes) := by
  intro h
  obtain ⟨b, -, hb⟩ := List.mem_flatMap.mp h
  exact absurd hb (forall_byte (P := fun b => (0 : UInt8) ∉
    [(ascii "0123456789abcdef").getD (b >>> 4 &&& 0x0F).toNat 0,
      (ascii "0123456789abcdef").getD (b &&& 0x0F).toNat 0]) (by decide +kernel) b)

theorem mismatched_iff {row : PublishedKey} :
    row.Mismatched C ↔ ¬ row.NamedBy (row.computedId C) := by
  have hhex : cstr (row.computedId C) = row.computedId C := cstr_of_nulFree (nulFree_hexEncode _)
  unfold PublishedKey.Mismatched PublishedKey.NamedBy
  rw [hhex]
  rfl

/-! ## Lookup and labels on a loaded document -/

theorem keySetLookup_rows (hset : set.entries = rows.map PublishedKey.entry) :
    keySetLookup set (cstr kid) =
      (rows.find? fun row => decide (row.NamedBy kid)).map PublishedKey.key := by
  unfold keySetLookup
  rw [hset, List.find?_map, Option.map_map]
  rfl

/-- The code a file that no held key signed is refused under, by the `kid` it names. -/
def labelCode (set : KeySet) : Option Bytes → ErrorCode
  | none | some [] => .signatureInvalid
  | some kid =>
      if (keySetLookup set kid).isSome then .signatureInvalid
      else if kid = unpublishedKeyId then .signingKeyNotPublished
      else .unknownSigningKey

theorem keySetLabelFailure_payload (set : KeySet) (payload : Json) :
    ∃ f, keySetLabelFailure (some set) (.ok payload) = .error f ∧
      f.code = labelCode set (claimsKeyId (payload.objectGet (ascii "meta"))) := by
  unfold keySetLabelFailure
  dsimp only
  cases claimsKeyId (payload.objectGet (ascii "meta")) with
  | none => exact ⟨_, rfl, rfl⟩
  | some kid =>
    cases kid with
    | nil => exact ⟨_, rfl, rfl⟩
    | cons c kid =>
      unfold keySetSelect labelCode
      dsimp only
      cases keySetLookup set (c :: kid) with
      | some key => exact ⟨_, rfl, rfl⟩
      | none =>
        dsimp only
        by_cases hunpublished : c :: kid = unpublishedKeyId
        · rw [if_pos hunpublished, if_pos hunpublished]
          exact ⟨_, rfl, rfl⟩
        · rw [if_neg hunpublished, if_neg hunpublished]
          exact ⟨_, rfl, rfl⟩

/-- Naming a key, and not finding it, is never called a bad signature. -/
theorem labelCode_signatureInvalid (hne : kid ≠ []) :
    labelCode set (some kid) = .signatureInvalid ↔ (keySetLookup set kid).isSome = true := by
  cases kid with
  | nil => exact absurd rfl hne
  | cons c kid =>
    unfold labelCode
    dsimp only
    by_cases hheld : (keySetLookup set (c :: kid)).isSome = true
    · rw [if_pos hheld]
      exact ⟨fun _ => hheld, fun _ => rfl⟩
    · rw [if_neg hheld]
      refine ⟨fun h => ?_, fun h => absurd h hheld⟩
      split at h <;> cases h

theorem keySetLookup_isSome {id : Bytes} :
    (keySetLookup set id).isSome = true ↔ ∃ entry ∈ set.entries, entry.keyId = id := by
  unfold keySetLookup
  rw [Option.isSome_map, List.find?_isSome]
  simp only [decide_eq_true_eq]

theorem labelCode_absent {id : Bytes} (hne : id ≠ [])
    (habsent : ∀ entry ∈ set.entries, entry.keyId ≠ id) :
    labelCode set (some id) =
      if id = unpublishedKeyId then .signingKeyNotPublished else .unknownSigningKey := by
  have hlookup : ¬ (keySetLookup set id).isSome = true := by
    rw [keySetLookup_isSome]
    rintro ⟨entry, hentry, hid⟩
    exact habsent entry hentry hid
  cases id with
  | nil => exact absurd rfl hne
  | cons c id =>
    unfold labelCode
    dsimp only
    rw [if_neg hlookup]

/-! ## Exactness -/

theorem namedBy_of_servedId {row : PublishedKey} (h : row.servedId = kid) : row.NamedBy kid :=
  congrArg cstr h

/-- Rows that do not agree with `kid` are passed over by the exact lookup too. -/
theorem exactLookup_append {before : List PublishedKey} (h : ∀ row ∈ before, ¬ row.NamedBy kid) :
    exactLookup (before ++ rows) kid = exactLookup rows kid := by
  have hnone : before.find? (fun row => decide (row.servedId = kid)) = none := by
    refine List.find?_eq_none.mpr fun row hrow hserved => ?_
    exact h row hrow (namedBy_of_servedId (of_decide_eq_true hserved))
  rw [exactLookup, List.find?_append, hnone, Option.none_or]
  rfl

/-- **Lookup** returns the key of another row exactly on the misread documents. -/
theorem lookup_exact_iff :
    (rows.find? fun row => decide (row.NamedBy kid)).map PublishedKey.key = exactLookup rows kid ↔
      ¬ Misread rows kid := by
  have hfirst : ∀ {before after : List PublishedKey} {row : PublishedKey},
      (∀ other ∈ before, ¬ other.NamedBy kid) → row.NamedBy kid →
        (before ++ row :: after).find? (fun row => decide (row.NamedBy kid)) = some row := by
    intro before after row hbefore hrow
    refine List.find?_eq_some_iff_append.mpr ⟨decide_eq_true hrow, before, after, rfl, ?_⟩
    intro other hother
    simpa using hbefore other hother
  constructor
  · rintro hexact ⟨before, row, after, rfl, hbefore, hnul, hother⟩
    rw [hfirst hbefore hnul.1, exactLookup_append hbefore, exactLookup, List.find?_cons_of_neg] at hexact
    · exact hother hexact.symm
    · simpa using hnul.2
  · intro h
    cases hfind : rows.find? fun row => decide (row.NamedBy kid) with
    | none =>
      have hnone : ∀ row ∈ rows, ¬ row.NamedBy kid := by simpa using hfind
      have happend : exactLookup (rows ++ []) kid = exactLookup [] kid := exactLookup_append hnone
      rw [List.append_nil] at happend
      exact happend.symm
    | some row =>
      obtain ⟨hrow, before, after, rfl, hbefore⟩ := List.find?_eq_some_iff_append.mp hfind
      have hbefore : ∀ other ∈ before, ¬ other.NamedBy kid := by simpa using hbefore
      rw [exactLookup_append hbefore, exactLookup]
      by_cases hserved : row.servedId = kid
      · simp [hserved]
      · rw [List.find?_cons_of_neg (by simpa using hserved)]
        by_contra hother
        exact h ⟨before, row, after, rfl, hbefore, ⟨of_decide_eq_true hrow, hserved⟩, fun heq =>
          hother heq.symm⟩

/-- A document that is not misread has a row served under `kid` if it has one that agrees with it. -/
theorem exists_served (h : ¬ Misread rows kid) :
    (∃ row ∈ rows, row.NamedBy kid) ↔ ∃ row ∈ rows, row.servedId = kid := by
  refine ⟨fun hnamed => ?_, fun ⟨row, hrow, hserved⟩ => ⟨row, hrow, namedBy_of_servedId hserved⟩⟩
  have hsome : (rows.find? fun row => decide (row.NamedBy kid)).isSome = true := by
    simpa using hnamed
  have hexact := congrArg Option.isSome (lookup_exact_iff.2 h)
  rw [exactLookup, Option.isSome_map, Option.isSome_map, hsome] at hexact
  simpa using hexact.symm

/-- **Counting.** Rows whose id hides its difference behind a U+0000 are not counted, all others are. -/
theorem count_exact_iff (C : Crypto) (rows : List PublishedKey) :
    (rows.countP fun row => decide (¬ row.NamedBy (row.computedId C))) =
        (rows.countP fun row => decide (row.servedId ≠ row.computedId C)) ↔
      ∀ row ∈ rows, ¬ OnlyBehindNul row.servedId (row.computedId C) := by
  induction rows with
  | nil => simp
  | cons row rows ih =>
    have hle : (rows.countP fun row => decide (¬ row.NamedBy (row.computedId C))) ≤
        rows.countP fun row => decide (row.servedId ≠ row.computedId C) := by
      refine List.countP_mono_left fun row _ h => decide_eq_true fun hserved => ?_
      exact of_decide_eq_true h (namedBy_of_servedId hserved)
    rw [List.forall_mem_cons, ← ih, List.countP_cons, List.countP_cons]
    by_cases hserved : row.servedId = row.computedId C
    · simp [OnlyBehindNul, hserved, namedBy_of_servedId hserved]
    · by_cases hnamed : row.NamedBy (row.computedId C)
      · have hnul : OnlyBehindNul row.servedId (row.computedId C) := ⟨hnamed, hserved⟩
        rw [if_neg (by simpa using hnamed), if_pos (decide_eq_true hserved)]
        refine iff_of_false (by omega) fun h => h.1 hnul
      · have hnul : ¬ OnlyBehindNul row.servedId (row.computedId C) := fun h => hnamed h.1
        simp [hnamed, hserved, hnul]

/-- **What a `kid` names.** Of a set that was loaded from a document, the lookup, the label of a file
    that no held key signed and the mismatch count are those of comparing ids exactly just when the
    document is not misread at this `kid` and no row's id differs from its computed one only behind a
    U+0000; in particular when no id and not the `kid` holds one. -/
theorem keyId_matching (C : Crypto) (L : Libc) (json : Option Bytes) (payload : Json) (kid : Bytes)
    (set : KeySet) (counts : AddedCounts) (σ : Nat → Bool)
    (hload : (keySetAddJson C L KeySet.empty json).under σ = .ok (set, counts))
    (hkid : payloadKid payload = some kid) :
    ∃ resources rows f, KeyDocument L json resources ∧ rows = resources.filterMap publishedKey ∧
      keySetLabelFailure (some set) (.ok payload) = .error f ∧
      (ExactResults C rows kid (keySetLookup set (cstr kid)) f.code counts.mismatched ↔
        ¬ Misread rows kid ∧ ∀ row ∈ rows, ¬ OnlyBehindNul row.servedId (row.computedId C)) ∧
      (NulFree kid → (∀ row ∈ rows, NulFree row.servedId) →
        ExactResults C rows kid (keySetLookup set (cstr kid)) f.code counts.mismatched) := by
  obtain ⟨resources, hdoc, hentries, hcounts⟩ :=
    keySetAddJson_loads (AllocE.can_iff_under.2 ⟨σ, hload⟩)
  obtain ⟨f, hf, hcode⟩ := keySetLabelFailure_payload set payload
  have hmismatched := hcounts.mismatched
  obtain ⟨rows, hrows⟩ : ∃ rows, rows = resources.filterMap publishedKey := ⟨_, rfl⟩
  rw [← hrows] at hentries hmismatched
  have hlookup : keySetLookup set (cstr kid) = _ := keySetLookup_rows hentries
  have hlabel : cstr kid ≠ [] → (f.code = .signatureInvalid ↔ ∃ row ∈ rows, row.NamedBy kid) := by
    intro hne
    rw [claimsKeyId_payload, hkid] at hcode
    rw [hcode, Option.map_some, labelCode_signatureInvalid hne, hlookup, Option.isSome_map,
      List.find?_isSome]
    simp only [decide_eq_true_eq]
  have hcount : counts.mismatched =
      rows.countP fun row => decide (¬ row.NamedBy (row.computedId C)) := by
    rw [hmismatched]
    simp only [mismatched_iff]
  have hiff : ExactResults C rows kid (keySetLookup set (cstr kid)) f.code counts.mismatched ↔
      ¬ Misread rows kid ∧ ∀ row ∈ rows, ¬ OnlyBehindNul row.servedId (row.computedId C) := by
    constructor
    · intro h
      exact ⟨lookup_exact_iff.1 (hlookup ▸ h.lookup), (count_exact_iff C rows).1 (hcount ▸ h.count)⟩
    · rintro ⟨hread, hmatched⟩
      exact ⟨hlookup.trans (lookup_exact_iff.2 hread), fun hne =>
        (hlabel hne).trans (exists_served hread), hcount.trans ((count_exact_iff C rows).2 hmatched)⟩
  refine ⟨resources, rows, f, hdoc, hrows, hf, hiff, fun hnul hserved => hiff.2 ⟨?_, ?_⟩⟩
  · rintro ⟨before, row, after, rfl, -, hdiffers, -⟩
    exact not_onlyBehindNul (hserved row (by simp)) hnul hdiffers
  · intro row hrow
    exact not_onlyBehindNul (hserved row hrow) (nulFree_hexEncode _)

/-- The text of a key, and a row that publishes it under `id`. -/
def sampleKeyText : String := "11qYAYKxCrfVS/7TyWQHOg7hcvPapiMlrwIaaPcHURo="

def sampleRow (id : Bytes) : Json :=
  .obj [(ascii "id", .str id), (ascii "attributes",
    .obj [(ascii "algorithm", .str (ascii "Ed25519")), (ascii "publicKey", .str (ascii sampleKeyText))])]

/-- The document of that row; `id` is spelled as in JSON. -/
def sampleKeyDocument (id : String) : Bytes :=
  ascii ("\x7b\"data\":[\x7b\"id\":\"" ++ id ++
    "\",\"attributes\":\x7b\"algorithm\":\"Ed25519\",\"publicKey\":\"" ++ sampleKeyText ++
    "\"\x7d\x7d]\x7d")

/-- A payload that names the key `kid`. -/
def samplePayload (kid : Bytes) : Json := .obj [(ascii "meta", .obj [(ascii "kid", .str kid)])]

/-- The set it is loaded into. -/
def oneKeySet (id : Bytes) : KeySet := ⟨[⟨id, sampleKey⟩], 4⟩

/-- The document of one row under the id `k`, and a payload that names `k`. -/
theorem keyId_matching_sample :
    ExactResults sampleCrypto [⟨ascii "k", ascii sampleKeyText, sampleKey⟩] (ascii "k")
      (some sampleKey) .signatureInvalid 1 := by
  have hload : (keySetAddJson sampleCrypto halfLibc KeySet.empty
      (some (sampleKeyDocument "k"))).under (fun _ => true) =
        .ok (oneKeySet (ascii "k"), ⟨1, 0, 1⟩) := by
    decide +kernel
  obtain ⟨resources, rows, f, ⟨text, document, htext, hreads, hdata⟩, hrows, hf, -, hexact⟩ :=
    keyId_matching sampleCrypto halfLibc _ (samplePayload (ascii "k")) (ascii "k") _ _ _ hload rfl
  have hparse : (parse halfLibc (some (sampleKeyDocument "k"))).ok =
      .ok (.obj [(ascii "data", .arr [sampleRow (ascii "k")])]) := by
    decide +kernel
  obtain rfl := Option.some.inj htext
  obtain rfl := Except.ok.inj (hparse.symm.trans ((parse_eq_ok fun _ _ => rfl).2 hreads))
  obtain rfl := Json.arr.inj (Option.some.inj hdata)
  have hrow : rows = [⟨ascii "k", ascii sampleKeyText, sampleKey⟩] := by
    rw [hrows]
    decide +kernel
  have hlabel : Call.status (keySetLabelFailure (some (oneKeySet (ascii "k")))
      (.ok (samplePayload (ascii "k")))) = some .signatureInvalid := by
    decide +kernel
  rw [hf] at hlabel
  have hheld : keySetLookup (oneKeySet (ascii "k")) (cstr (ascii "k")) = some sampleKey := by
    decide +kernel
  have hresults := hexact (by decide) (by rw [hrow]; decide)
  rwa [hrow, hheld, Option.some.inj hlabel] at hresults

/-- A key that is served under `k`, U+0000, `x` is the key a payload names by `k`: the lookup returns
    it, and a file no key signed is called forged. Served under the two characters `kx`, it is not. -/
theorem keyId_matching_behindNul :
    (parse halfLibc (some (sampleKeyDocument "k\\u0000x"))).ok =
      .ok (.obj [(ascii "data", .arr [sampleRow (ascii "k\x00x")])]) ∧
    publishedKey (sampleRow (ascii "k\x00x")) =
      some ⟨ascii "k\x00x", ascii sampleKeyText, sampleKey⟩ ∧
    (keySetAddJson sampleCrypto halfLibc KeySet.empty (some (sampleKeyDocument "k\\u0000x"))).ok =
      .ok (oneKeySet (ascii "k"), ⟨1, 0, 1⟩) ∧
    keySetLookup (oneKeySet (ascii "k")) (cstr (ascii "k")) = some sampleKey ∧
    Call.status (keySetLabelFailure (some (oneKeySet (ascii "k")))
      (.ok (samplePayload (ascii "k")))) = some .signatureInvalid ∧
    Call.status (keySetLabelFailure (some (oneKeySet (ascii "kx")))
      (.ok (samplePayload (ascii "k")))) = some .unknownSigningKey := by
  decide +kernel

end Tamga
