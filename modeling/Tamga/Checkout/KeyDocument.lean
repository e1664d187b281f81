import Tamga.Checkout.KeySet

/-!
# `Checkout.KeyDocument` — loading a signing-key document, seen from the caller

`tamga_key_set_add_json` works on memory its caller owns: the set, and three counters any of which may
be NULL. `keySetAddJsonInto` carries that memory through the call, so that "a failed call leaves
everything as it was" is a statement about what it leaves, and not about what it returns.

What a successful call adds is said without the code's help: `Publishes` reads a row off the document,
and the new entries are the published rows, in order.
-/

namespace Tamga

open Alloc Base64 Json

variable {F : Prop} {C : Crypto} {L : Libc}

/-! ## The caller's memory -/

/-- The three counters of the caller; `none` is a NULL pointer. -/
structure OutCounts where
  added : Option Nat
  skipped : Option Nat
  mismatched : Option Nat

/-- The three guarded assignments at the end of `tamga_key_set_add_json`. -/
def OutCounts.write (out : OutCounts) (counts : AddedCounts) : OutCounts where
  added := out.added.map fun _ => counts.added
  skipped := out.skipped.map fun _ => counts.skipped
  mismatched := out.mismatched.map fun _ => counts.mismatched

/-- The loop that moves the staged entries, and the count after it. -/
def keySetMove (set : KeySet) (staged : List KeySetEntry) : KeySet :=
  staged.foldl (fun set entry => { set with entries := set.entries ++ [entry] }) set

/-- `tamga_key_set_add_json`: the set and the counters it leaves behind, and its status. -/
def keySetAddJsonInto (C : Crypto) (L : Libc) (set : KeySet) (json : Option Bytes)
    (out : OutCounts) : Alloc (KeySet × OutCounts × Except Failure Unit) :=
  let failed (f : Failure) := (set, out, Except.error f)
  match json with
  | none => pure (failed (errorSet .nullArgument (ascii "set and json are required")))
  | some json =>
      if json.length = 0 ∨ json.length > maxReasonableLen then
        pure (failed (errorSet .lengthInvalid
          (ascii "the key-set document's length is zero or exceeds the accepted maximum")))
      else do
        match ← (parseDocument L json "could not parse the key set"
            "the key set is malformed: ").run with
        | .error f => return failed f
        | .ok document =>
            match document.objectGet (ascii "data") with
            | some (.arr resources) =>
                match ← keySetCreate.run with
                | .error f => return failed f
                | .ok staged =>
                    match ← (resources.foldlM (keySetStageResource C) ⟨staged, 0, 0⟩).run with
                    | .error f => return failed f
                    | .ok staging =>
                        -- the only allocation of the merge, taken before anything moves
                        match ← (keySetReserve set staging.set.entries.length).run with
                        | .error f => return failed f
                        | .ok set =>
                            return (keySetMove set staging.set.entries,
                              out.write ⟨staging.set.entries.length, staging.skipped,
                                staging.mismatched⟩, .ok ())
            | _ =>
                return failed (errorSet .invalidJson (ascii
                  "a signing-key document is a JSON:API collection with a data array; this one has none"))

/-- What the caller's memory holds after a call that answered `r`. -/
def settleCounts (set : KeySet) (out : OutCounts) :
    Except Failure (KeySet × AddedCounts) → KeySet × OutCounts × Except Failure Unit
  | .error f => (set, out, .error f)
  | .ok (set', counts) => (set', out.write counts, .ok ())

theorem keySetMove_eq (set : KeySet) (staged : List KeySetEntry) :
    keySetMove set staged = { set with entries := set.entries ++ staged } := by
  induction staged generalizing set with
  | nil => simp [keySetMove]
  | cons entry staged ih =>
    show keySetMove { set with entries := set.entries ++ [entry] } staged = _
    rw [ih]
    simp

/-- Going on after a step: its failure is the call's, and nothing of the caller's has been touched. -/
theorem settleCounts_bind {α : Type} {set : KeySet} {out : OutCounts} {x : Call α}
    {f : α → Call (KeySet × AddedCounts)}
    {k : Except Failure α → Alloc (KeySet × OutCounts × Except Failure Unit)}
    (hfail : ∀ e, k (.error e) = pure (set, out, .error e))
    (hok : ∀ a, k (.ok a) = settleCounts set out <$> (f a).run) :
    x.run >>= k = settleCounts set out <$> (x >>= f).run := by
  rw [AllocE.run_bind, map_bind]
  refine bind_congr fun r => ?_
  cases r with
  | error e => exact hfail e
  | ok a => exact hok a

/-- The caller's memory is written at the end of a successful call and not before. -/
theorem keySetAddJsonInto_eq (set : KeySet) (json : Option Bytes) (out : OutCounts) :
    keySetAddJsonInto C L set json out =
      settleCounts set out <$> (keySetAddJson C L set json).run := by
  unfold keySetAddJsonInto keySetAddJson
  cases json with
  | none => rfl
  | some json =>
    dsimp only
    by_cases hlen : json.length = 0 ∨ json.length > maxReasonableLen
    · rw [if_pos hlen, if_pos hlen]
      rfl
    rw [if_neg hlen, if_neg hlen]
    refine settleCounts_bind (fun _ => rfl) fun document => ?_
    unfold keySetMerge
    dsimp only
    cases document.objectGet (ascii "data") with
    | none => rfl
    | some data =>
      cases data with
      | arr resources =>
        refine settleCounts_bind (fun _ => rfl) fun staged => ?_
        refine settleCounts_bind (fun _ => rfl) fun staging => ?_
        refine settleCounts_bind (fun _ => rfl) fun grown => ?_
        dsimp only
        rw [keySetMove_eq]
        rfl
      | _ => rfl

/-! ## The rows of a document -/

/-- A row that can be used: the id it is served under, the base64 text of its key, and the key. -/
structure PublishedKey where
  servedId : Bytes
  text : Bytes
  key : PublicKey
  deriving DecidableEq

namespace PublishedKey

/-- The entry a row is held as. Ids are C strings from here on. -/
def entry (row : PublishedKey) : KeySetEntry := ⟨cstr row.servedId, row.key⟩

/-- The id that goes with the row's own key text. -/
def computedId (C : Crypto) (row : PublishedKey) : Bytes := hexEncode ((C.sha256 row.text).take 8)

/-- The row is served under another id than the computed one. -/
def Mismatched (C : Crypto) (row : PublishedKey) : Prop := cstr row.servedId ≠ row.computedId C

instance (row : PublishedKey) : Decidable (row.Mismatched C) := inferInstanceAs (Decidable (_ ≠ _))

end PublishedKey

/-- `resource` is an object with a non-empty string `id` and, among its attributes, the algorithm
    `ed25519` in any case and a public key whose text is base64 of 32 bytes. -/
structure Publishes (resource : Json) (row : PublishedKey) : Prop where
  servedId : resource.objectGet (ascii "id") = some (.str row.servedId)
  nonempty : cstr row.servedId ≠ []
  attributes : ∃ attributes algorithm, resource.objectGet (ascii "attributes") = some attributes ∧
    attributes.objectGet (ascii "algorithm") = some (.str algorithm) ∧
    (cstr algorithm).map asciiLower = ascii "ed25519" ∧
    attributes.objectGet (ascii "publicKey") = some (.str row.text)
  decodes : Spells row.text row.key.val

/-- The row a resource publishes, if it publishes one. -/
def publishedKey (resource : Json) : Option PublishedKey := do
  let servedId ← stringField resource "id"
  let attributes ← resource.objectGet (ascii "attributes")
  let algorithm ← stringField attributes "algorithm"
  let text ← stringField attributes "publicKey"
  let bytes ← base64Decode text
  if h : (cstr servedId ≠ [] ∧ (cstr algorithm).map asciiLower = ascii "ed25519") ∧
      bytes.length = 32 then
    return ⟨servedId, text, bytes, h.2⟩
  else none

theorem publishedKey_eq_some {resource : Json} {row : PublishedKey} :
    publishedKey resource = some row ↔ Publishes resource row := by
  unfold publishedKey
  simp only [Option.bind_eq_bind, Option.bind_eq_some_iff, stringField_eq_some, base64Decode_eq_some]
  constructor
  · rintro ⟨servedId, hid, attributes, hattr, algorithm, halg, text, htext, bytes, hspells, h⟩
    split at h
    · rename_i hrow
      obtain rfl := Option.some.inj h
      exact ⟨hid, hrow.1.1, ⟨attributes, algorithm, hattr, halg, hrow.1.2, htext⟩, hspells⟩
    · cases h
  · rintro ⟨hid, hne, ⟨attributes, algorithm, hattr, halg, hlower, htext⟩, hspells⟩
    refine ⟨_, hid, attributes, hattr, algorithm, halg, _, htext, _, hspells, ?_⟩
    rw [dif_pos ⟨⟨hne, hlower⟩, row.key.property⟩]
    rfl

theorem asciiEqualsIgnoringCase_iff :
    ∀ {a b : Bytes}, asciiEqualsIgnoringCase a b = true ↔ a.map asciiLower = b.map asciiLower
  | [], [] => by simp [asciiEqualsIgnoringCase]
  | [], _ :: _ => by simp [asciiEqualsIgnoringCase]
  | _ :: _, [] => by simp [asciiEqualsIgnoringCase]
  | a :: as, b :: bs => by
    simp [asciiEqualsIgnoringCase, asciiEqualsIgnoringCase_iff (a := as) (b := bs)]

/-- The fields the code reads decide whether the row is published. -/
theorem publishedKey_of_fields {resource : Json} {servedId algorithm text : Bytes}
    (hid : stringField resource "id" = some servedId)
    (halg : (resource.objectGet (ascii "attributes")).bind (stringField · "algorithm") =
      some algorithm)
    (htext : (resource.objectGet (ascii "attributes")).bind (stringField · "publicKey") = some text) :
    publishedKey resource =
      if cstr servedId = [] ∨ asciiEqualsIgnoringCase (cstr algorithm) (ascii "ed25519") = false then
        none
      else match signingKeyOf ((base64Decode text).elim (.error .malformed) .ok) with
        | .ok key => some ⟨servedId, text, key⟩
        | .error _ => none := by
  obtain ⟨attributes, hattr, halg⟩ := Option.bind_eq_some_iff.mp halg
  obtain ⟨_, hattr', htext⟩ := Option.bind_eq_some_iff.mp htext
  obtain rfl := Option.some.inj (hattr.symm.trans hattr')
  have hlower : asciiEqualsIgnoringCase (cstr algorithm) (ascii "ed25519") = false ↔
      (cstr algorithm).map asciiLower ≠ ascii "ed25519" := by
    rw [← Bool.not_eq_true, asciiEqualsIgnoringCase_iff,
      show (ascii "ed25519").map asciiLower = ascii "ed25519" from by decide]
  unfold publishedKey
  rw [hid, hattr]
  simp only [Option.bind_eq_bind, Option.bind_some, halg, htext]
  by_cases hskip : cstr servedId = [] ∨
      asciiEqualsIgnoringCase (cstr algorithm) (ascii "ed25519") = false
  · rw [if_pos hskip]
    rw [hlower] at hskip
    cases base64Decode text with
    | none => rfl
    | some bytes => exact dif_neg fun h => hskip.elim h.1.1 fun hne => hne h.1.2
  · rw [if_neg hskip]
    rw [hlower, not_or, not_not] at hskip
    cases base64Decode text with
    | none => rfl
    | some bytes =>
      by_cases h32 : bytes.length = 32
      · simp [signingKeyOf, h32, hskip]
      · simp [signingKeyOf, h32]

/-! ## Staging -/

/-- What the code reads of a resource; a resource it cannot read publishes nothing. -/
theorem signingKeyFields_cases (resource : Json) :
    (signingKeyFields resource = none ∧ publishedKey resource = none) ∨
      ∃ servedId algorithm text,
        signingKeyFields resource = some (cstr servedId, cstr algorithm, text) ∧
        stringField resource "id" = some servedId ∧
        (resource.objectGet (ascii "attributes")).bind (stringField · "algorithm") = some algorithm ∧
        (resource.objectGet (ascii "attributes")).bind (stringField · "publicKey") = some text := by
  unfold signingKeyFields
  dsimp only
  split
  · rename_i servedId algorithm text hid halg htext
    exact Or.inr ⟨servedId, algorithm, text, rfl, hid, halg, htext⟩
  · rename_i hmissing
    refine Or.inl ⟨rfl, Option.eq_none_iff_forall_ne_some.mpr fun row hrow => ?_⟩
    obtain ⟨hid, -, ⟨attributes, algorithm, hattr, halg, -, htext⟩, -⟩ := publishedKey_eq_some.1 hrow
    refine hmissing _ algorithm row.text (stringField_eq_some.2 hid) ?_ ?_
    · rw [hattr]
      exact stringField_eq_some.2 halg
    · rw [hattr]
      exact stringField_eq_some.2 htext

/-- `staging'` is `staging` with `resource` accounted for. -/
def Staging.Accounts (C : Crypto) (resource : Json) (staging staging' : Staging) : Prop :=
  match publishedKey resource with
  | none => staging' = staging.skip
  | some row =>
      staging'.set.entries = staging.set.entries ++ [row.entry] ∧
        staging'.skipped = staging.skipped ∧
        staging'.mismatched = staging.mismatched + if row.Mismatched C then 1 else 0

/-- **One row.** It is added when it publishes a key and counted as skipped when it does not. -/
theorem keySetStageResource_accounts {staging staging' : Staging} {resource : Json}
    (hres : resource.Every Storable)
    (h : (keySetStageResource C staging resource).Can F (.ok staging')) :
    staging.Accounts C resource staging' := by
  unfold Staging.Accounts
  unfold keySetStageResource at h
  rcases signingKeyFields_cases resource with
    ⟨hfields, hrow⟩ | ⟨servedId, algorithm, text, hfields, hid, halg, htext⟩
  · rw [hfields] at h
    rw [hrow]
    exact (Except.ok.inj (AllocE.can_pure.1 h)).symm
  rw [hfields] at h
  rw [publishedKey_of_fields hid halg htext]
  dsimp only at h
  by_cases hskip : cstr servedId = [] ∨
      asciiEqualsIgnoringCase (cstr algorithm) (ascii "ed25519") = false
  · rw [if_pos hskip] at h ⊢
    exact (Except.ok.inj (AllocE.can_pure.1 h)).symm
  rw [if_neg hskip] at h ⊢
  obtain ⟨attributes, hattr, htext⟩ := Option.bind_eq_some_iff.mp htext
  have hlen : text.length ≤ maxReasonableLen :=
    ((hres.objectGet hattr).objectGet (stringField_eq_some.1 htext)).self
  -- a decoder that ran out of memory does not end in a staged row
  obtain ⟨decoded, hdecoded, h⟩ := AllocE.can_bind_lift.1 h
  obtain ⟨answer, hanswer, rfl⟩ := can_map.1 hdecoded
  rcases base64DecodeAllocWhy_can hlen hanswer with rfl | ⟨-, rfl⟩
  · cases hkey : signingKeyOf ((base64Decode text).elim (.error .malformed) .ok) with
    | error why =>
      rw [hkey] at h
      cases why with
      | outOfMemory => cases h
      | _ => exact (Except.ok.inj (AllocE.can_pure.1 h)).symm
    | ok key =>
      rw [hkey] at h
      obtain ⟨⟨set, status⟩, hset, h⟩ := AllocE.can_bind_lift.1 h
      rcases keySetAppend_can hset with ⟨hstatus, hentries⟩ | ⟨f, hstatus, -, -⟩
      · obtain rfl : status = .ok () := hstatus
        obtain rfl := Except.ok.inj (AllocE.can_pure.1 h)
        refine ⟨?_, rfl, ?_⟩
        · exact hentries.trans (by rw [cstr_of_nulFree (nulFree_cstr servedId)]; rfl)
        · show (if hexEncode ((C.sha256 text).take 8) = cstr servedId then staging.mismatched
            else staging.mismatched + 1) = staging.mismatched +
              if cstr servedId ≠ hexEncode ((C.sha256 text).take 8) then 1 else 0
          by_cases hsame : cstr servedId = hexEncode ((C.sha256 text).take 8)
          · rw [if_pos hsame.symm, if_neg (not_not.mpr hsame)]
            rfl
          · rw [if_neg (Ne.symm hsame), if_pos hsame]
      · obtain rfl : status = .error f := hstatus
        cases h
  · cases h

/-- **Every row.** The published rows are staged in order, and each row is counted once. -/
theorem foldlM_stage_accounts {resources : List Json}
    (hres : ∀ resource ∈ resources, resource.Every Storable) :
    ∀ {staging staging' : Staging},
      (resources.foldlM (keySetStageResource C) staging).Can F (.ok staging') →
        staging'.set.entries =
          staging.set.entries ++ (resources.filterMap publishedKey).map PublishedKey.entry ∧
        (resources.filterMap publishedKey).length + staging'.skipped =
          staging.skipped + resources.length ∧
        staging'.mismatched = staging.mismatched +
          (resources.filterMap publishedKey).countP fun row => decide (row.Mismatched C) := by
  induction resources with
  | nil =>
    intro staging staging' h
    obtain rfl := Except.ok.inj (AllocE.can_pure.1 h)
    simp
  | cons resource resources ih =>
    intro staging staging' h
    rw [List.foldlM_cons] at h
    obtain ⟨next, hnext, h⟩ := AllocE.can_bind_ok.1 h
    have hone := keySetStageResource_accounts (hres resource List.mem_cons_self) hnext
    obtain ⟨hentries, hcount, hmismatched⟩ :=
      ih (fun r hr => hres r (List.mem_cons_of_mem _ hr)) h
    unfold Staging.Accounts at hone
    cases hrow : publishedKey resource with
    | none =>
      rw [hrow] at hone
      obtain rfl : next = staging.skip := hone
      rw [List.filterMap_cons_none hrow]
      refine ⟨hentries, ?_, hmismatched⟩
      rw [hcount, List.length_cons]
      show staging.skipped + 1 + resources.length = _
      omega
    | some row =>
      rw [hrow] at hone
      obtain ⟨hadd, hskipped, hmis⟩ := hone
      rw [List.filterMap_cons_some hrow]
      refine ⟨?_, ?_, ?_⟩
      · rw [hentries, hadd, List.map_cons, List.append_assoc, List.singleton_append]
      · rw [List.length_cons, List.length_cons]
        omega
      · rw [hmismatched, hmis, List.countP_cons]
        simp only [decide_eq_true_eq]
        omega

/-! ## The whole call -/

/-- `json` is a signing-key document and `resources` is its `data` array. -/
def KeyDocument (L : Libc) (json : Option Bytes) (resources : List Json) : Prop :=
  ∃ text document, json = some text ∧ Reads L text document ∧
    document.objectGet (ascii "data") = some (.arr resources)

/-- The counts of a call that loaded `resources`. -/
structure AddedCounts.Account (C : Crypto) (resources : List Json) (counts : AddedCounts) :
    Prop where
  added : counts.added = (resources.filterMap publishedKey).length
  skipped : counts.added + counts.skipped = resources.length
  mismatched : counts.mismatched =
    (resources.filterMap publishedKey).countP fun row => decide (row.Mismatched C)

/-- **A successful call** loaded a document, row by row. -/
theorem keySetAddJson_loads {set set' : KeySet} {json : Option Bytes} {counts : AddedCounts}
    (h : (keySetAddJson C L set json).Can F (.ok (set', counts))) :
    ∃ resources, KeyDocument L json resources ∧
      set'.entries =
        set.entries ++ (resources.filterMap publishedKey).map PublishedKey.entry ∧
      counts.Account C resources := by
  unfold keySetAddJson at h
  cases json with
  | none => cases h
  | some text =>
    dsimp only at h
    by_cases hlen : text.length = 0 ∨ text.length > maxReasonableLen
    · rw [if_pos hlen] at h
      cases h
    rw [if_neg hlen] at h
    obtain ⟨document, hparse, h⟩ := AllocE.can_bind_ok.1 h
    have hreads := parseDocument_reads hparse
    unfold keySetMerge at h
    split at h
    · rename_i resources hdata
      obtain ⟨staged, hstaged, hrest⟩ := AllocE.can_bind_ok.1 h
      obtain ⟨staging, hstaging, hrest⟩ := AllocE.can_bind_ok.1 hrest
      obtain ⟨grown, hgrown, hdone⟩ := AllocE.can_bind_ok.1 hrest
      obtain rfl : staged = KeySet.empty := by
        obtain ⟨b, -, hb⟩ := can_bind.1 (Call.can_orFail_ok.1 hstaged)
        cases b with
        | true => exact (Option.some.inj (can_pure.1 hb)).symm
        | false => cases hb
      have hres : ∀ resource ∈ resources, resource.Every Storable :=
        (every_arr.1 (hreads.storable.objectGet hdata)).2
      obtain ⟨hentries, hcount, hmismatched⟩ := foldlM_stage_accounts hres hstaging
      have hset : grown.entries = set.entries := by
        rcases keySetReserve_can hgrown with ⟨_, ⟨⟩, hsame⟩ | ⟨f, hf, -⟩
        · exact hsame
        · cases hf
      obtain ⟨rfl, rfl⟩ := Prod.mk.inj (Except.ok.inj (AllocE.can_pure.1 hdone))
      rw [show KeySet.empty.entries = [] from rfl, List.nil_append] at hentries
      refine ⟨resources, ⟨text, document, rfl, hreads, hdata⟩, ?_, ?_, ?_, ?_⟩
      · show grown.entries ++ staging.set.entries = _
        rw [hset, hentries]
      · show staging.set.entries.length = _
        rw [hentries, List.length_map]
      · show staging.set.entries.length + staging.skipped = _
        rw [hentries, List.length_map, hcount, Nat.zero_add]
      · rw [hmismatched, Nat.zero_add]
    · cases h

/-- **Loading is atomic and accounted for**, whatever is refused. A failed call leaves the set and the
    counters as they were. A successful one has read a document: behind the old entries stand the rows
    it publishes, in order, each under its served id, and the counters say how many those are, that
    every other row was skipped, and how many of them are served under another id than the computed
    one. -/
theorem keySetAddJson_atomic (C : Crypto) (L : Libc) (set : KeySet) (json : Option Bytes)
    (out : OutCounts) (σ : Nat → Bool) :
    match (keySetAddJsonInto C L set json out).under σ with
    | (set', out', .error _) => set' = set ∧ out' = out
    | (set', out', .ok ()) =>
        ∃ resources counts, KeyDocument L json resources ∧
          set'.entries =
            set.entries ++ (resources.filterMap publishedKey).map PublishedKey.entry ∧
          out' = out.write counts ∧ counts.Account C resources := by
  obtain ⟨τ, hτ⟩ : ∃ τ, (keySetAddJsonInto C L set json out).under σ =
      settleCounts set out ((keySetAddJson C L set json).under τ) := by
    have hcan := can_under (keySetAddJsonInto C L set json out) σ
    rw [keySetAddJsonInto_eq] at hcan
    obtain ⟨r, hr, heq⟩ := can_map.1 hcan
    obtain ⟨τ, rfl⟩ := can_iff_under.1 hr
    exact ⟨τ, by rw [keySetAddJsonInto_eq]; exact heq.symm⟩
  rw [hτ]
  cases hrun : (keySetAddJson C L set json).under τ with
  | error f => exact ⟨rfl, rfl⟩
  | ok r =>
      obtain ⟨set', counts⟩ := r
      have hcan : (keySetAddJson C L set json).Can True (.ok (set', counts)) :=
        AllocE.can_iff_under.2 ⟨τ, hrun⟩
      obtain ⟨resources, hdoc, hentries, hcounts⟩ := keySetAddJson_loads hcan
      exact ⟨resources, counts, hdoc, hentries, rfl, hcounts⟩

end Tamga
