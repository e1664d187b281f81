import Tamga.Json.Composite

/-!
# `Json.ParseComplete` — every text of the grammar is parsed

On a text of an accepted document the parser returns the value the document denotes and stops right
behind the text; if requests may be refused, it may instead report that memory ran out — or, when
some object key needs one more block for its terminator, call the key invalid. `Excuse` lists those
errors, and every lemma here is an `AllocE.Yields` with it.

The induction is on the levels of nesting left; inside a level it follows the comma-separated list.
-/

namespace Tamga

namespace Json

open Alloc AllocE

/-- The message for a key that could not be detached. -/
def invalidKey : Error := .malformed "invalid object key"

/-- The errors a refused request can end in, `critical` saying whether there is a key whose
    terminator has to be paid for. `none` is `NULL` with no error set yet. -/
def Excuse (F critical : Prop) (e : Option Error) : Prop :=
  F ∧ (e = none ∨ e = some .outOfMemory ∨ critical ∧ e = some invalidKey)

/-- A key of `doc` fills its buffer exactly. -/
def Doc.Critical (doc : Doc) : Prop := ∃ k ∈ doc.keys, Buf.needsGrowth k.length

variable {F critical : Prop} {L : Libc}

theorem Excuse.mono {critical' : Prop} (h : critical → critical') {e : Option Error}
    (he : Excuse F critical e) : Excuse F critical' e :=
  ⟨he.1, he.2.imp id (Or.imp id (And.imp_left h))⟩

/-! ## Leaves -/

theorem orSilent_yields {α : Type} {x : Alloc (Option α)} {a : α}
    (hx : ∀ r, x.Can F r → r = some a ∨ F ∧ r = none) :
    Yields F (Excuse F critical) (orSilent x) a :=
  Yields.bind_option hx (fun hF => ⟨none, ⟨hF, Or.inl rfl⟩, rfl⟩) (Yields.pure a)

theorem parseLiteral_yields {literal rest : Bytes} {v : Json} :
    Yields F (Excuse F critical) (parseLiteral literal v (literal ++ rest)) (v, rest) := by
  have hmatch : matchLiteral literal (literal ++ rest) = some rest := by
    unfold matchLiteral
    rw [if_pos (by simp), List.drop_left]
  unfold parseLiteral
  rw [hmatch]
  exact (orSilent_yields fun r hr => new_can hr).bind (Yields.pure _)

theorem parseNumber_yields {token rest : Bytes} (ht : NumberToken token) (hread : TokenRead L token)
    (hrest : NumberEnds rest) (hlen : token.length ≤ maxNumberChars) :
    Yields F (Excuse F critical) (parseNumber L (token ++ rest)) (numberValue L token, rest) := by
  obtain ⟨isInteger, hscan⟩ := scanNumber_complete ht hrest
  obtain ⟨-, -, hkind⟩ := scanNumber_sound hscan
  obtain ⟨v, hv⟩ := readNumber_isSome hread hkind
  obtain rfl := readNumber_some hkind hv
  unfold parseNumber
  rw [hscan]
  dsimp only
  rw [if_neg (by omega), hv]
  exact (orSilent_yields fun r hr => new_can hr).bind (Yields.pure _)

theorem parseString_yields {bytes t rest : Bytes} (ht : StringToken bytes t)
    (hlen : bytes.length + 1 ≤ Buf.maxGrowth) :
    Yields F (Excuse F critical) (parseString (t ++ rest)) (.str bytes, rest) := by
  intro r hr
  unfold parseString at hr
  rcases AllocE.can_bind.1 hr with ⟨e, he, rfl⟩ | ⟨⟨buf, s⟩, hb, hnode⟩
  · rcases parseStringInto_complete ht (by omega) he with ⟨buf, -, -, h⟩ | ⟨hF, h⟩
    · cases h
    · injection h with h
      exact Or.inr ⟨e, ⟨hF, Or.inl h⟩, rfl⟩
  · rcases parseStringInto_complete ht (by omega) hb with ⟨buf', hok, hfill, h⟩ | ⟨-, h⟩
    · injection h with h; injection h with hbuf hs
      subst hbuf hs
      -- from here on only the block for the bytes and the two of the node are left
      have hdetach : ∀ r, buf.detach.Can F r → r = some bytes ∨ F ∧ r = none := by
        intro r hr
        exact (hfill.holds.detach id (by omega) hr).imp id And.comm.mp
      refine Yields.bind (orSilent_yields hdetach) ?_ r hnode
      exact Yields.bind (orSilent_yields fun r hr => newString_can hr) (Yields.pure _)
    · cases h

/-- A key: its string token, then the block for the terminator if the buffer is full. -/
theorem parseKey_yields {key t rest : Bytes} (ht : StringToken key t) (hnul : NulFree key)
    (hlen : key.length + 1 ≤ Buf.maxGrowth) :
    Yields F (Excuse F (Buf.needsGrowth key.length)) (parseKey (t ++ rest)) (key, rest) := by
  intro r hr
  unfold parseKey at hr
  rcases AllocE.can_bind.1 hr with ⟨e, he, rfl⟩ | ⟨⟨buf, s⟩, hb, hkey⟩
  · rcases parseStringInto_complete ht (by omega) he with ⟨buf, -, -, h⟩ | ⟨hF, h⟩
    · cases h
    · injection h with h
      exact Or.inr ⟨e, ⟨hF, Or.inl h⟩, rfl⟩
  · rcases parseStringInto_complete ht (by omega) hb with ⟨buf', hok, hfill, h⟩ | ⟨-, h⟩
    · injection h with h; injection h with hbuf hs
      subst hbuf hs
      rcases hfill with ⟨hfail, -⟩ | ⟨-, rfl, htight⟩
      · rw [hok] at hfail; cases hfail
      obtain ⟨k, hk, hkey⟩ := AllocE.can_bind_lift.1 hkey
      rcases htight.detachString hok hnul hlen hk with rfl | ⟨rfl, hF, hg⟩
      · exact Or.inl (AllocE.can_pure.1 hkey).symm
      · exact Or.inr ⟨_, ⟨hF, Or.inr (Or.inr ⟨hg, rfl⟩)⟩, (AllocE.can_throw.1 hkey).symm⟩
    · cases h

/-! ## Composites -/

namespace Composite

variable {α σ : Type} {C : Composite α σ}

/-- One round on the text of an element `a`. -/
def RoundYields (F critical : Prop) (C : Composite α σ) (a : α) : Prop :=
  ∀ {b rest : Bytes} {st : σ}, C.text a b → NumberEnds rest → b.length ≤ maxReasonableLen →
    C.size st ≤ maxReasonableLen →
    Yields F (Excuse F critical) (C.round (b ++ rest) (C.node st)) (C.node (C.push st a), rest)

theorem loop_yields {as : List α} {t : Bytes} (ht : Sep C.text as t)
    (hround : ∀ a ∈ as, C.RoundYields F critical a) :
    ∀ {st : σ} {fuel : Nat} {rest : Bytes}, as.length ≤ fuel → t.length ≤ maxReasonableLen →
      C.size st + as.length ≤ maxReasonableLen →
      Yields F (Excuse F critical) (C.loop fuel (skipWs (t ++ C.close :: rest)) (C.node st))
        (C.node (as.foldl C.push st), rest) := by
  induction ht with
  | @one a before b after hbefore hb hafter =>
    intro st fuel rest hfuel hlen hcount
    simp only [List.length_append, List.length_cons, List.length_nil] at hlen hfuel hcount
    obtain ⟨fuel, rfl⟩ : ∃ n, fuel = n + 1 := ⟨fuel - 1, by omega⟩
    rw [List.append_assoc, List.append_assoc, skip hbefore hb]
    refine (hround a List.mem_cons_self hb (NumberEnds.append hafter (C.close_ends rest)) (by omega)
      (by omega)).bind ?_
    simp only [skipWs_append hafter, skipWs_cons C.close_notWs, peek_cons, if_neg C.close_ne.1,
      if_true, List.tail_cons]
    exact Yields.pure _
  | @cons a as before b after ts hbefore hb hafter hs ih =>
    intro st fuel rest hfuel hlen hcount
    simp only [List.length_append, List.length_cons] at hlen hfuel hcount
    obtain ⟨fuel, rfl⟩ : ∃ n, fuel = n + 1 := ⟨fuel - 1, by omega⟩
    have hgrow := C.size_push st a
    simp only [List.append_assoc, List.cons_append]
    rw [skip hbefore hb]
    refine (hround a List.mem_cons_self hb
      (NumberEnds.append hafter (numberEnds_cons _ (by decide))) (by omega) (by omega)).bind ?_
    simp only [skipWs_append hafter, skipWs_cons (show isWs comma = false by decide), peek_cons,
      if_true, List.tail_cons]
    exact ih (fun a ha => hround a (List.mem_cons_of_mem _ ha)) (by omega) (by omega) (by omega)

theorem parse_yields {as : List α} {c : UInt8} {t rest : Bytes} (ht : C.Inside as t)
    (hround : ∀ a ∈ as, C.RoundYields F critical a) (hlen : t.length ≤ maxReasonableLen) :
    Yields F (Excuse F critical) (C.parse (c :: (t ++ C.close :: rest)))
      (C.node (as.foldl C.push C.empty), rest) := by
  refine Yields.bind_option (fun r hr => new_can hr)
    (fun hF => ⟨_, ⟨hF, Or.inr (Or.inl rfl)⟩, rfl⟩) ?_
  cases ht with
  | nil hw =>
    simp only [List.tail_cons, skipWs_append hw, skipWs_cons C.close_notWs, peek_cons, if_true]
    exact Yields.pure _
  | sep ht =>
    have hcount := length_le ht
    dsimp only [List.tail_cons]
    rw [if_neg (open_ne ht _)]
    exact loop_yields ht hround (by simp; omega) hlen (by rw [C.size_empty]; omega)

end Composite

section Rounds

variable {item : Bytes → Parser (Json × Bytes)}

/-- What a composite needs to know of the parser one level down, for a child `doc`. -/
def ItemYields (F critical : Prop) (L : Libc) (item : Bytes → Parser (Json × Bytes)) (doc : Doc) :
    Prop :=
  ∀ {w b rest : Bytes}, Ws w → ValueText doc b → NumberEnds rest → b.length ≤ maxReasonableLen →
    Yields F (Excuse F critical) (item (w ++ b ++ rest)) (doc.value L, rest)

theorem arrays_yields {doc : Doc} (hitem : ItemYields F critical L item doc) :
    (arrays L item).RoundYields F critical doc := by
  intro b rest done hb hrest hlen hcount
  refine (hitem ws_nil hb hrest hlen).bind ?_
  refine Yields.bind_option (fun r hr => arrayAppend_can hcount hr)
    (fun hF => ⟨_, ⟨hF, Or.inr (Or.inl rfl)⟩, rfl⟩) ?_
  exact Yields.pure _

/-- The text of a member, with its name in front. -/
theorem memberText_append {name w w' value s : Bytes} :
    name ++ w ++ colon :: (w' ++ value) ++ s = name ++ (w ++ colon :: (w' ++ value ++ s)) := by
  simp

theorem skipWs_colon {w s : Bytes} (hw : Ws w) : skipWs (w ++ colon :: s) = colon :: s := by
  rw [skipWs_append hw, skipWs_cons (by decide)]

theorem objects_yields {m : Bytes × Doc} (hitem : ItemYields F critical L item m.2)
    (hnul : NulFree m.1) (hcrit : Buf.needsGrowth m.1.length → critical) :
    (objects L item).RoundYields F critical m := by
  intro b rest done hb hrest hlen hcount
  obtain @⟨key, doc, name, w, w', value, hname, hw, hw', hvalue⟩ := hb
  have hkeylen := hname.length_le
  have hbig : maxReasonableLen + 1 ≤ Buf.maxGrowth := by decide
  simp only [List.length_append, List.length_cons] at hlen
  dsimp only at hnul hcrit
  rw [memberText_append]
  refine ((parseKey_yields hname hnul (by omega)).mono fun e => Excuse.mono hcrit).bind ?_
  simp only [skipWs_colon hw, peek_cons, List.tail_cons]
  rw [if_neg (by simp)]
  refine (hitem hw' hvalue hrest (by omega)).bind ?_
  refine Yields.bind_option (fun r hr => objectSet_can hcount (by omega) hnul hr)
    (fun hF => ⟨_, ⟨hF, Or.inr (Or.inl rfl)⟩, rfl⟩) ?_
  exact Yields.pure _

end Rounds

/-! ## Values -/

section Token

variable {item : Bytes → Parser (Json × Bytes)} {s : Bytes}

theorem parseToken_lbrace : parseToken L item (lbrace :: s) = parseObject item (lbrace :: s) := rfl

theorem parseToken_lbracket :
    parseToken L item (lbracket :: s) = parseArray item (lbracket :: s) := rfl

theorem parseToken_quote : parseToken L item (quote :: s) = parseString (quote :: s) := rfl

theorem parseToken_null :
    parseToken L item (ascii "null" ++ s) = parseLiteral (ascii "null") .null (ascii "null" ++ s) :=
  rfl

theorem parseToken_true :
    parseToken L item (ascii "true" ++ s) =
      parseLiteral (ascii "true") (.bool true) (ascii "true" ++ s) :=
  rfl

theorem parseToken_false :
    parseToken L item (ascii "false" ++ s) =
      parseLiteral (ascii "false") (.bool false) (ascii "false" ++ s) :=
  rfl

theorem parseToken_number {c : UInt8} (hc : c = 0x2D ∨ Decimal.isDigit c = true) :
    parseToken L item (c :: s) = parseNumber L (c :: s) := by
  have hrange : c.toNat = 0x2D ∨ 48 ≤ c.toNat ∧ c.toNat ≤ 57 :=
    hc.imp (fun h => by rw [h]; rfl) Decimal.isDigit_iff.1
  have hne : ∀ d : UInt8, (d.toNat < 0x2D ∨ 57 < d.toNat) → ¬ peek (c :: s) = d := by
    rintro d hd rfl
    rw [peek_cons] at hd
    omega
  unfold parseToken
  rw [if_neg (hne _ (by decide)), if_neg (hne _ (by decide)), if_neg (hne _ (by decide)),
    if_neg (hne _ (by decide)), if_neg (hne _ (by decide)), if_neg (hne _ (by decide))]
  exact if_pos hc

theorem parseToken_arr {items : List Doc} {t rest : Bytes} (ht : (arrays L item).Inside items t)
    (hitem : ∀ doc ∈ items, ItemYields F critical L item doc)
    (hlen : (lbracket :: t ++ [rbracket]).length ≤ maxReasonableLen) :
    Yields F (Excuse F critical) (parseToken L item (lbracket :: t ++ [rbracket] ++ rest))
      ((Doc.arr items).value L, rest) := by
  have hlen : t.length ≤ maxReasonableLen := by simp at hlen; omega
  simp only [List.cons_append, List.append_assoc, List.nil_append, parseToken_lbracket]
  rw [parseArray_eq (L := L), ← @arrays_node L item]
  exact Composite.parse_yields ht (fun doc hdoc => arrays_yields (hitem doc hdoc)) hlen

theorem parseToken_obj {members : List (Bytes × Doc)} {t rest : Bytes}
    (ht : (objects L item).Inside members t)
    (hitem : ∀ m ∈ members, ItemYields F critical L item m.2 ∧ NulFree m.1 ∧
      (Buf.needsGrowth m.1.length → critical))
    (hlen : (lbrace :: t ++ [rbrace]).length ≤ maxReasonableLen) :
    Yields F (Excuse F critical) (parseToken L item (lbrace :: t ++ [rbrace] ++ rest))
      ((Doc.obj members).value L, rest) := by
  have hlen : t.length ≤ maxReasonableLen := by simp at hlen; omega
  simp only [List.cons_append, List.append_assoc, List.nil_append, parseToken_lbrace]
  rw [parseObject_eq (L := L), ← @objects_node L item]
  refine Composite.parse_yields ht (fun m hm => ?_) hlen
  obtain ⟨hitem, hnul, hcrit⟩ := hitem m hm
  exact objects_yields hitem hnul hcrit

end Token

theorem nullMeansOutOfMemory_yields {α : Type} {x : Parser α} {a : α}
    (h : Yields F (Excuse F critical) x a) :
    Yields F (fun e => Excuse F critical e ∧ e ≠ none) (nullMeansOutOfMemory x) a := by
  intro r hr
  obtain ⟨r', hr', hr⟩ := Alloc.can_bind.1 hr
  obtain rfl := Alloc.can_pure.1 hr
  rcases h r' hr' with rfl | ⟨e, he, rfl⟩
  · exact Or.inl rfl
  · right
    cases e with
    | none => exact ⟨_, ⟨⟨he.1, Or.inr (Or.inl rfl)⟩, by simp⟩, rfl⟩
    | some e => exact ⟨_, ⟨he, by simp⟩, rfl⟩

/-- **Completeness.** On a text of `doc` the parser returns its value and the rest, or an error of a
    refused request, which by then is set. -/
theorem parseValue_yields :
    ∀ {d : Nat} {doc : Doc} {w b rest : Bytes}, doc.Within d →
      (∀ t ∈ doc.tokens, NumberToken t → TokenRead L t) → (doc.Critical → critical) → Ws w →
      ValueText doc b → NumberEnds rest → b.length ≤ maxReasonableLen →
      Yields F (fun e => Excuse F critical e ∧ e ≠ none) (parseValue L d (w ++ b ++ rest))
        (doc.value L, rest) := by
  intro d
  induction d with
  | zero => intro doc w b rest hd; obtain ⟨n, hn⟩ := hd.pos; omega
  | succ d ih =>
    intro doc w b rest hd hread hcrit hw hb hrest hlen
    refine nullMeansOutOfMemory_yields ?_
    -- what the children are known to do is more than a composite needs
    have ih : ∀ {doc : Doc}, doc.Within d → (∀ t ∈ doc.tokens, NumberToken t → TokenRead L t) →
        (doc.Critical → critical) → ItemYields F critical L (parseValue L d) doc :=
      fun hd hread hcrit _ _ _ hw hb hrest hlen =>
        (ih hd hread hcrit hw hb hrest hlen).mono fun e he => he.1
    have hskip : skipWs (w ++ b ++ rest) = b ++ rest := by
      rw [List.append_assoc, skipWs_append hw]
      obtain ⟨c, u, rfl, hc, -⟩ := hb.head
      exact skipWs_cons hc _
    rw [hskip]
    cases hb with
    | null => rw [parseToken_null]; exact parseLiteral_yields
    | litTrue => rw [parseToken_true]; exact parseLiteral_yields
    | litFalse => rw [parseToken_false]; exact parseLiteral_yields
    | num h =>
      have hparse := @parseNumber_yields F critical L b rest h
        (hread _ (by simp [Doc.tokens]) h) hrest (hd.tokens_le _ (by simp [Doc.tokens]))
      obtain ⟨c, u, rfl, hc⟩ := h.head
      rw [List.cons_append] at hparse ⊢
      rw [parseToken_number hc]
      exact hparse
    | @str bytes _ h =>
      have hlen' := h.length_le
      have hbig : maxReasonableLen ≤ Buf.maxGrowth := by decide
      have hparse := @parseString_yields F critical bytes b rest h (by omega)
      obtain ⟨-⟩ := h
      simp only [List.cons_append, parseToken_quote] at hparse ⊢
      exact hparse
    | arrNil h => exact parseToken_arr (.nil h) (by simp) hlen
    | @arr items t h =>
      have hwithin := Doc.within_arr.1 hd
      refine parseToken_arr (.sep h) (fun doc hdoc => ?_) hlen
      exact ih (hwithin doc hdoc)
        (fun t ht => hread t (Doc.mem_itemsTokens.2 ⟨doc, hdoc, ht⟩))
        fun ⟨k, hk, hg⟩ => hcrit ⟨k, Doc.mem_itemsKeys.2 ⟨doc, hdoc, hk⟩, hg⟩
    | objNil h => exact parseToken_obj (.nil h) (by simp) hlen
    | @obj members t h =>
      have hwithin := Doc.within_obj.1 hd
      refine parseToken_obj (.sep h) (fun m hm => ⟨?_, (hwithin m hm).1, fun hg => ?_⟩) hlen
      · exact ih (hwithin m hm).2
          (fun t ht => hread t (Doc.mem_membersTokens.2 ⟨m, hm, ht⟩))
          fun ⟨k, hk, hg⟩ => hcrit ⟨k, Doc.mem_membersKeys.2 ⟨m, hm, Or.inr hk⟩, hg⟩
      · exact hcrit ⟨m.1, Doc.mem_membersKeys.2 ⟨m, hm, Or.inl rfl⟩, hg⟩

end Json

end Tamga
