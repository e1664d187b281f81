import Tamga.Json.ParseSpec

/-!
# `Json.ParseMemory` — the parser when memory runs out

Three questions about refused requests.

* Is memory ever blamed without a refusal? No (`parse_blames`): the sizes that could overflow are
  bounded by the text.
* Can a refusal change a value, or turn a malformed text into a value? No; that is `parse_sound`.
* Can a refusal be **reported as something else**? Yes, in one place: a key that fills its buffer is
  detached with one more request, and if that is refused the key is called invalid
  (`parse_invalidKey`). The same message is the by-design answer to a NUL in a key, and one induction
  covers both (`BadKey`).

`parse_memory_iff` puts them together: exactly the texts of accepted documents with such a key have
a schedule on which the parser reports a malformed document instead of the tree.
-/

namespace Tamga

namespace Json

open Alloc AllocE

variable {F : Prop} {L : Libc}

/-! ## Memory is blamed only when it was refused -/

/-- **No false alarm.** Out of memory is reported only when a request was refused. -/
theorem parse_blames {text : Option Bytes} (h : (parse L text).Can F (.error .outOfMemory)) : F := by
  cases text with
  | none => cases h
  | some t =>
    by_cases hlen : t.length ≤ maxReasonableLen
    · obtain ⟨r, hr, h⟩ := (parse_can hlen).mp h
      cases r with
      | ok x =>
        unfold parseOutcome at h
        dsimp only at h
        split at h <;> cases h
      | error e =>
        refine (parseValue_reads hlen).blames hr ?_
        cases e with
        | none => exact Or.inl rfl
        | some e => injection h with h; exact Or.inr (by rw [h]; rfl)
    · rw [parse_too_long hlen] at h
      cases h

/-! ## The key that is called invalid -/

/-- A key whose detaching fails: it contains a NUL, or its terminator needs a block that is refused. -/
def BadKey (F : Prop) (key : Bytes) : Prop := ¬ NulFree key ∨ F ∧ Buf.needsGrowth key.length

/-- `Within`, keys apart. -/
structure Doc.Fits (depth : Nat) (doc : Doc) : Prop where
  depth_le : doc.depth ≤ depth
  tokens_le : ∀ t ∈ doc.tokens, t.length ≤ maxNumberChars

variable {doc : Doc} {d : Nat}

theorem Doc.Fits.within (h : doc.Fits d) (hnul : ∀ k ∈ doc.keys, NulFree k) :
    doc.Within d := ⟨h.depth_le, hnul, h.tokens_le⟩

theorem Doc.Fits.pos (h : doc.Fits d) : ∃ n, d = n + 1 := by
  have hpos : 1 ≤ doc.depth := by cases doc <;> simp [Doc.depth]
  exact ⟨d - 1, by have := h.depth_le; omega⟩

theorem Doc.Fits.item {items : List Doc} (h : (Doc.arr items).Fits (d + 1)) :
    ∀ doc ∈ items, doc.Fits d := fun doc hdoc =>
  ⟨Doc.itemsDepth_le.1 (Nat.le_of_succ_le_succ h.depth_le) doc hdoc,
    fun t ht => h.tokens_le t (Doc.mem_itemsTokens.2 ⟨doc, hdoc, ht⟩)⟩

theorem Doc.Fits.member {members : List (Bytes × Doc)}
    (h : (Doc.obj members).Fits (d + 1)) : ∀ m ∈ members, m.2.Fits d := fun m hm =>
  ⟨Doc.membersDepth_le.1 (Nat.le_of_succ_le_succ h.depth_le) m hm,
    fun t ht => h.tokens_le t (Doc.mem_membersTokens.2 ⟨m, hm, ht⟩)⟩

theorem not_badKey {key : Bytes} (h : ¬ BadKey F key) : NulFree key := by
  by_contra hnul
  exact h (Or.inl hnul)

theorem can_some {α : Type} {x : Alloc (Option α)} {a : α}
    (h : ∀ r, x.Can False r → r = some a ∨ False ∧ r = none) : x.Can F (some a) := by
  rcases h x.ok x.can_ok with h | ⟨h, -⟩
  · rw [← h]; exact x.can_ok
  · exact h.elim

theorem parseStringInto_runs {bytes t rest : Bytes} (ht : StringToken bytes t)
    (hlen : bytes.length ≤ Buf.maxGrowth) :
    ∃ buf, buf.failed = false ∧ buf.Filled False bytes ∧
      (parseStringInto (t ++ rest) Buf.init).Can F (.ok (buf, rest)) := by
  have hrun := AllocE.can_ok (F := False) (parseStringInto (t ++ rest) Buf.init)
  rcases parseStringInto_complete ht hlen hrun with ⟨buf, hok, hfill, heq⟩ | ⟨h, -⟩
  · exact ⟨buf, hok, hfill, by rw [← heq]; exact AllocE.can_ok _⟩
  · exact h.elim

theorem parseKey_invalid {key t rest : Bytes} (ht : StringToken key t) (hbad : BadKey F key)
    (hlen : key.length + 1 ≤ Buf.maxGrowth) :
    (parseKey (t ++ rest)).Can F (.error (some invalidKey)) := by
  obtain ⟨buf, hok, hfill, hrun⟩ := @parseStringInto_runs F key t rest ht (by omega)
  refine AllocE.can_bind.2 (Or.inr ⟨_, hrun, can_bind_lift.2 ⟨none, ?_, rfl⟩⟩)
  rcases hfill with ⟨-, h⟩ | ⟨-, rfl, htight⟩
  · exact h.elim
  rcases hbad with hnul | ⟨hF, hg⟩
  · unfold Buf.detachString Buf.detachImpl
    rw [if_neg (by simp [hok]), if_pos (by simp [hnul])]
    exact Alloc.can_pure.2 rfl
  · exact (Buf.detachString_refused hok htight hlen hg).mono fun _ => hF

/-- A round that fails on element `a`. -/
def Composite.RoundInvalid {α σ : Type} (F : Prop) (C : Composite α σ) (a : α) : Prop :=
  ∀ {b rest : Bytes} {node : Json}, C.text a b → NumberEnds rest → b.length ≤ maxReasonableLen →
    (C.round (b ++ rest) node).Can F (.error (some invalidKey))

/-- The loop reaches the first bad element: before it, every round succeeds if nothing is refused. -/
theorem Composite.loop_invalid {α σ : Type} {C : Composite α σ} {bad : α → Prop} {as : List α}
    {t : Bytes} (ht : Sep C.text as t)
    (hgood : ∀ a ∈ as, ¬ bad a → C.RoundYields False True a)
    (hbad : ∀ a ∈ as, bad a → C.RoundInvalid F a) :
    ∀ {st : σ} {fuel : Nat} {rest : Bytes}, as.length ≤ fuel → t.length ≤ maxReasonableLen →
      C.size st + as.length ≤ maxReasonableLen → (∃ a ∈ as, bad a) →
      (C.loop fuel (skipWs (t ++ C.close :: rest)) (C.node st)).Can F (.error (some invalidKey)) := by
  induction ht with
  | @one a before b after hbefore hb hafter =>
    intro st fuel rest hfuel hlen hcount ⟨a', ha', h⟩
    simp only [List.length_append, List.length_cons, List.length_nil] at hlen hfuel
    obtain ⟨fuel, rfl⟩ : ∃ n, fuel = n + 1 := ⟨fuel - 1, by omega⟩
    obtain rfl := List.mem_singleton.mp ha'
    rw [List.append_assoc, List.append_assoc, skip hbefore hb]
    exact AllocE.can_bind.2 (Or.inl ⟨_, hbad _ ha' h hb
      (NumberEnds.append hafter (C.close_ends rest)) (by omega), rfl⟩)
  | @cons a as before b after ts hbefore hb hafter hs ih =>
    intro st fuel rest hfuel hlen hcount hexists
    simp only [List.length_append, List.length_cons] at hlen hfuel hcount
    obtain ⟨fuel, rfl⟩ : ∃ n, fuel = n + 1 := ⟨fuel - 1, by omega⟩
    have hends : NumberEnds (after ++ comma :: (ts ++ C.close :: rest)) :=
      NumberEnds.append hafter (numberEnds_cons _ (by decide))
    simp only [List.append_assoc, List.cons_append]
    rw [skip hbefore hb]
    by_cases hhead : bad a
    · exact AllocE.can_bind.2 (Or.inl ⟨_, hbad a List.mem_cons_self hhead hb hends (by omega), rfl⟩)
    · -- this element is good: go on behind the comma
      have hrest : ∃ a ∈ as, bad a := by
        obtain ⟨a', ha', h⟩ := hexists
        rcases List.mem_cons.mp ha' with rfl | ha'
        · exact absurd h hhead
        · exact ⟨a', ha', h⟩
      have hgrow := C.size_push st a
      refine AllocE.can_bind.2 (Or.inr ⟨_, (hgood a List.mem_cons_self hhead hb hends (by omega)
        (by omega)).can_ok fun e he => he.1, ?_⟩)
      simp only [skipWs_append hafter, skipWs_cons (show isWs comma = false by decide), peek_cons,
        if_true, List.tail_cons]
      exact ih (fun a ha => hgood a (List.mem_cons_of_mem _ ha))
        (fun a ha => hbad a (List.mem_cons_of_mem _ ha)) (by omega) (by omega) (by omega) hrest

theorem Composite.parse_invalid {α σ : Type} {C : Composite α σ} (bad : α → Prop) {as : List α}
    {c : UInt8} {t rest : Bytes} (ht : Sep C.text as t)
    (hgood : ∀ a ∈ as, ¬ bad a → C.RoundYields False True a)
    (hbad : ∀ a ∈ as, bad a → C.RoundInvalid F a) (hlen : t.length ≤ maxReasonableLen)
    (hexists : ∃ a ∈ as, bad a) :
    (C.parse (c :: (t ++ C.close :: rest))).Can F (.error (some invalidKey)) := by
  have hcount := length_le ht
  refine can_bind_lift.2 ⟨_, can_some fun r hr => new_can hr, ?_⟩
  dsimp only [List.tail_cons]
  rw [if_neg (open_ne ht _)]
  exact loop_invalid ht hgood hbad (by simp; omega) hlen (by rw [C.size_empty]; omega) hexists

section Rounds

variable {item : Bytes → Parser (Json × Bytes)}

/-- The parser one level down on a child with a bad key. -/
def ItemInvalid (F : Prop) (item : Bytes → Parser (Json × Bytes)) (doc : Doc) : Prop :=
  ∀ {w b rest : Bytes}, Ws w → ValueText doc b → NumberEnds rest → b.length ≤ maxReasonableLen →
    (∃ k ∈ doc.keys, BadKey F k) → (item (w ++ b ++ rest)).Can F (.error (some invalidKey))

/-- A key of member `m` is bad: its own name, or one inside its value. -/
def BadMember (F : Prop) (m : Bytes × Doc) : Prop := BadKey F m.1 ∨ ∃ k ∈ m.2.keys, BadKey F k

theorem objects_invalid {m : Bytes × Doc} (hitem : ItemInvalid F item m.2) (hbad : BadMember F m) :
    (objects L item).RoundInvalid F m := by
  intro b rest object hb hrest hlen
  obtain @⟨key, doc, name, w, w', value, hname, hw, hw', hvalue⟩ := hb
  have hkeylen := hname.length_le
  have hbig : maxReasonableLen + 1 ≤ Buf.maxGrowth := by decide
  simp only [List.length_append, List.length_cons] at hlen
  rw [memberText_append]
  by_cases hkey : BadKey F key
  · exact AllocE.can_bind.2 (Or.inl ⟨_, parseKey_invalid hname hkey (by omega), rfl⟩)
  · have hinner : ∃ k ∈ doc.keys, BadKey F k := hbad.resolve_left hkey
    refine AllocE.can_bind.2 (Or.inr ⟨_, (parseKey_yields hname (not_badKey hkey)
      (by omega)).can_ok fun e he => he.1, ?_⟩)
    simp only [skipWs_colon hw, peek_cons, List.tail_cons]
    rw [if_neg (by simp)]
    exact AllocE.can_bind.2 (Or.inl ⟨_, hitem hw' hvalue hrest (by omega) hinner, rfl⟩)

end Rounds

theorem nullMeansOutOfMemory_can {α : Type} {x : Parser α} {e : Error}
    (h : x.Can F (.error (some e))) : (nullMeansOutOfMemory x).Can F (.error (some e)) :=
  Alloc.can_bind.2 ⟨_, h, rfl⟩

/-- Without refusals, a child whose keys are C strings is read. -/
theorem itemYields_of_fits (hL : ConsumesNumbers L) (hfits : doc.Fits d)
    (hnul : ∀ k ∈ doc.keys, NulFree k) : ItemYields False True L (parseValue L d) doc := by
  intro w b rest hw hb hrest hlen
  exact (parseValue_yields (hfits.within hnul) (fun t _ ht => Or.inr (hL t ht)) (fun _ => trivial)
    hw hb hrest hlen).mono fun e he => he.1

theorem parseValue_invalid (hL : ConsumesNumbers L) :
    ∀ {d : Nat} {doc : Doc}, doc.Fits d → ItemInvalid F (parseValue L d) doc := by
  intro d
  induction d with
  | zero => intro doc hd; obtain ⟨n, hn⟩ := hd.pos; omega
  | succ d ih =>
    intro doc hd w b rest hw hb hrest hlen hbad
    have hskip : skipWs (w ++ b ++ rest) = b ++ rest := by
      rw [List.append_assoc]
      exact Composite.skip (C := arrays L (parseValue L d)) hw hb
    refine nullMeansOutOfMemory_can ?_
    rw [hskip]
    -- only a composite has keys
    cases hb with
    | @arr items t h =>
      obtain ⟨k, hk, hbad⟩ := hbad
      obtain ⟨doc, hdoc, hk⟩ := Doc.mem_itemsKeys.1 hk
      simp only [List.length_append, List.length_cons, List.length_nil] at hlen
      simp only [List.cons_append, List.append_assoc, List.nil_append, parseToken_lbracket]
      rw [parseArray_eq (L := L)]
      refine Composite.parse_invalid (C := arrays L (parseValue L d))
        (fun doc => ∃ k ∈ doc.keys, BadKey F k) h (fun doc hdoc hgood => ?_)
        (fun doc hdoc hbad b rest node hb hrest hlen => ?_) (by omega) ⟨doc, hdoc, k, hk, hbad⟩
      · exact arrays_yields (itemYields_of_fits hL (hd.item doc hdoc)
          fun k hk => not_badKey fun h => hgood ⟨k, hk, h⟩)
      · exact AllocE.can_bind.2 (Or.inl ⟨_, ih (hd.item doc hdoc) ws_nil hb hrest hlen hbad, rfl⟩)
    | @obj members t h =>
      obtain ⟨k, hk, hbad⟩ := hbad
      obtain ⟨m, hm, hk⟩ := Doc.mem_membersKeys.1 hk
      have hbad : BadMember F m := by
        rcases hk with rfl | hk
        · exact Or.inl hbad
        · exact Or.inr ⟨k, hk, hbad⟩
      simp only [List.length_append, List.length_cons, List.length_nil] at hlen
      simp only [List.cons_append, List.append_assoc, List.nil_append, parseToken_lbrace]
      rw [parseObject_eq (L := L)]
      refine Composite.parse_invalid (C := objects L (parseValue L d)) (BadMember F) h
        (fun m hm hgood => ?_) (fun m hm hbad => objects_invalid (ih (hd.member m hm)) hbad)
        (by omega) ⟨m, hm, hbad⟩
      exact objects_yields (itemYields_of_fits hL (hd.member m hm)
        fun k hk => not_badKey fun h => hgood (Or.inr ⟨k, hk, h⟩))
        (not_badKey fun h => hgood (Or.inl h)) fun _ => trivial
    | _ => obtain ⟨k, hk, -⟩ := hbad; simp [Doc.keys, Doc.itemsKeys, Doc.membersKeys] at hk

/-- **The misreport.** A document with a bad key can be reported as having an invalid key: always, if
    the key contains a NUL; under a refusal, if the key fills its buffer. -/
theorem parse_invalidKey (hL : ConsumesNumbers L) {t : Bytes} (ht : Text doc t)
    (hfits : doc.Fits maxDepth) (hlen : t.length ≤ maxReasonableLen)
    (hbad : ∃ k ∈ doc.keys, BadKey F k) : (parse L (some t)).Can F (.error invalidKey) := by
  obtain ⟨w, b, w', hw, hb, hw', rfl⟩ := ht
  refine (parse_can hlen).mpr ⟨.error (some invalidKey), ?_, rfl⟩
  simp only [List.length_append] at hlen
  have hends : NumberEnds w' := by simpa using NumberEnds.append hw' numberEnds_nil
  exact parseValue_invalid hL hfits hw hb hends (by omega) hbad

/-! ## The verdict -/

/-- The same answer about the document: the same tree, or some complaint about it. -/
def SameVerdict (r r' : Except Error Json) : Prop :=
  r = r' ∨ ∃ message message', r = .error (.malformed message) ∧ r' = .error (.malformed message')

/-- `text` is a document the parser accepts that has a key with no room for its terminator. -/
def CriticalText (text : Option Bytes) : Prop :=
  ∃ t doc, text = some t ∧ t.length ≤ maxReasonableLen ∧ Text doc t ∧ doc.Accepted ∧ doc.Critical

/-- **Memory and the verdict.** Refused requests leave the verdict alone, or end in out of memory, on
    exactly the inputs that are not such a document. -/
theorem parse_memory_iff (hL : ConsumesNumbers L) (text : Option Bytes) :
    (∀ σ, SameVerdict ((parse L text).under σ) (parse L text).ok ∨
      (parse L text).under σ = .error .outOfMemory) ↔ ¬ CriticalText text := by
  constructor
  · rintro hsound ⟨t, doc, rfl, hlen, ht, hdoc, k, hk, hgrowth⟩
    -- a schedule on which the key is called invalid, against the tree of the failure-free run
    have hok := (parse_yields (F := False) hL ht hdoc hlen).ok_eq fun e he => he.1
    obtain ⟨σ, hσ⟩ := AllocE.can_iff_under.1 (parse_invalidKey (F := True) hL ht
      ⟨hdoc.depth_le, hdoc.tokens_le⟩ hlen ⟨k, hk, Or.inr ⟨trivial, hgrowth⟩⟩)
    rcases hsound σ with (h | ⟨_, _, -, h⟩) | h
    · rw [hσ, hok] at h; cases h
    · rw [hok] at h; cases h
    · rw [hσ] at h; cases h
  · intro hcrit σ
    have hrun : (parse L text).Can True ((parse L text).under σ) := AllocE.can_iff_under.2 ⟨σ, rfl⟩
    generalize (parse L text).under σ = r at hrun
    cases hok : (parse L text).ok with
    | ok v =>
      have hrun' := AllocE.can_false.2 hok
      obtain ⟨t, rfl, hlen⟩ := parse_some hrun'
      obtain ⟨doc, ht, hdoc, rfl⟩ := parse_sound hrun'
      rcases parse_yields hL ht hdoc hlen r hrun with rfl | ⟨e, ⟨-, rfl | ⟨hc, -⟩⟩, rfl⟩
      · exact Or.inl (Or.inl rfl)
      · exact Or.inr rfl
      · exact absurd ⟨t, doc, rfl, hlen, ht, hdoc, hc⟩ hcrit
    | error e =>
      cases e with
      | outOfMemory => exact (parse_blames (AllocE.can_false.2 hok)).elim
      | malformed message =>
        cases r with
        | ok v =>
          -- a value would have been returned by the failure-free run too
          obtain ⟨t, rfl, hlen⟩ := parse_some hrun
          rw [(parse_iff_denotes hL hlen v).mpr (parse_sound hrun)] at hok
          cases hok
        | error e =>
          cases e with
          | outOfMemory => exact Or.inr rfl
          | malformed message' => exact Or.inl (Or.inr ⟨_, _, rfl, rfl⟩)

end Json

end Tamga
