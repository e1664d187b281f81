import Tamga.Json.Composite

/-!
# `Json.ParseSound` — whatever is parsed is a text of the grammar

If the parser returns a value — **with any requests refused on the way** — then the bytes it read are
a text of an accepted document, and the value is the one that document denotes. No refusal can make
it accept something else: a failed buffer, table or node never turns into a value.

The same walk shows that memory is blamed only when it was refused: the sizes that could overflow are
bounded by the text. `Reads` holds both halves.
-/

namespace Tamga

namespace Json

open Alloc AllocE

variable {F : Prop} {L : Libc}

theorem skipWs_split (s : Bytes) : ∃ w, Ws w ∧ s = w ++ skipWs s :=
  ⟨s.takeWhile isWs, fun _ hc => List.mem_takeWhile_imp hc, List.takeWhile_append_dropWhile.symm⟩

theorem length_skipWs_le (s : Bytes) : (skipWs s).length ≤ s.length :=
  (List.dropWhile_sublist isWs).length_le

theorem Ws.append {w w' : Bytes} (hw : Ws w) (hw' : Ws w') : Ws (w ++ w') := by
  intro c hc
  rcases List.mem_append.mp hc with h | h
  · exact hw c h
  · exact hw' c h

theorem Sep.prepend {α : Type} {P : α → Bytes → Prop} {as : List α} {t w : Bytes} (hw : Ws w)
    (h : Sep P as t) : Sep P as (w ++ t) := by
  cases h with
  | one hbefore h hafter =>
    have := Sep.one (hw.append hbefore) h hafter
    simpa using this
  | cons hbefore h hafter hs =>
    have := Sep.cons (hw.append hbefore) h hafter hs
    simpa using this

/-! ## What a parser may answer -/

/-- The two errors that speak of memory; `none` is `NULL` with no error set yet. -/
def MemoryError (e : Option Error) : Prop := e = none ∨ e = some .outOfMemory

/-- What `x` returns satisfies `Q`, and it ends in a memory error only if a request may be refused. -/
structure Reads {α : Type} (F : Prop) (x : Parser α) (Q : α → Prop) : Prop where
  ok : ∀ {a}, x.Can F (.ok a) → Q a
  blames : ∀ {e}, x.Can F (.error e) → MemoryError e → F

section Reads

variable {α β γ : Type} {P Q : α → Prop} {R : β → Prop}

theorem Reads.pure {a : α} (h : Q a) : Reads F (pure a : Parser α) Q where
  ok h' := by injection AllocE.can_pure.1 h' with h'; rw [← h']; exact h
  blames h' := by cases h'

theorem Reads.fail (message : String) : Reads F (fail message : Parser α) Q where
  ok h := by cases h
  blames h he := by
    injection AllocE.can_throw.1 h with h
    subst h
    rcases he with he | he <;> cases he

theorem Reads.mono {x : Parser α} (hx : Reads F x P) (h : ∀ a, P a → Q a) : Reads F x Q where
  ok ha := h _ (hx.ok ha)
  blames := hx.blames

theorem Reads.bind {x : Parser α} {f : α → Parser β} (hx : Reads F x P)
    (hf : ∀ a, P a → Reads F (f a) R) : Reads F (x >>= f) R where
  ok h := by
    rcases AllocE.can_bind.1 h with ⟨e, -, h⟩ | ⟨a, ha, h⟩
    · cases h
    · exact (hf a (hx.ok ha)).ok h
  blames h he := by
    rcases AllocE.can_bind.1 h with ⟨e', hx', h⟩ | ⟨a, ha, h⟩
    · injection h with h
      subst h
      exact hx.blames hx' he
    · exact (hf a (hx.ok ha)).blames h he

theorem Reads.bind_lift {x : Alloc γ} {f : γ → Parser β}
    (hf : ∀ c, x.Can F c → Reads F (f c) R) : Reads F ((liftM x : Parser γ) >>= f) R where
  ok h := by
    obtain ⟨c, hc, h⟩ := can_bind_lift.1 h
    exact (hf c hc).ok h
  blames h he := by
    obtain ⟨c, hc, h⟩ := can_bind_lift.1 h
    exact (hf c hc).blames h he

/-- A request that is granted or refused, with an error for the refusal. -/
theorem Reads.bind_option {x : Alloc (Option γ)} {f : Option γ → Parser β} {c : γ}
    {e : Option Error} (hx : ∀ r, x.Can F r → r = some c ∨ F ∧ r = none) (he : f none = throw e)
    (hf : Reads F (f (some c)) R) : Reads F ((liftM x : Parser (Option γ)) >>= f) R := by
  refine .bind_lift fun r hr => ?_
  rcases hx r hr with rfl | ⟨hF, rfl⟩
  · exact hf
  · rw [he]
    exact ⟨fun h => (by cases h), fun _ _ => hF⟩

/-- Every outcome of `x` is one of a parser that is known to read. -/
theorem Reads.of_can {x : Parser α} (h : ∀ r, x.Can F r → ∃ y : Parser α, y.Can F r ∧ Reads F y Q) :
    Reads F x Q where
  ok ha := by
    obtain ⟨y, hy, hreads⟩ := h _ ha
    exact hreads.ok hy
  blames he := by
    obtain ⟨y, hy, hreads⟩ := h _ he
    exact hreads.blames hy

theorem Reads.orSilent {x : Alloc (Option α)} {a : α} {f : α → Parser β}
    (hx : ∀ r, x.Can F r → r = some a ∨ F ∧ r = none) (hf : Reads F (f a) R) :
    Reads F (Json.orSilent x >>= f) R := by
  have horSilent : Reads F (Json.orSilent x) (· = a) :=
    .bind_option hx rfl (.pure rfl)
  exact horSilent.bind fun b hb => by rw [hb]; exact hf

theorem Reads.nullMeansOutOfMemory {x : Parser α} (hx : Reads F x Q) :
    Reads F (nullMeansOutOfMemory x) Q where
  ok h := by
    obtain ⟨r, hr, h⟩ := Alloc.can_bind.1 h
    have h := Alloc.can_pure.1 h
    split at h
    · cases h
    · rw [h] at hr; exact hx.ok hr
  blames h he := by
    obtain ⟨r, hr, h⟩ := Alloc.can_bind.1 h
    have h := Alloc.can_pure.1 h
    split at h
    · exact hx.blames hr (Or.inl rfl)
    · rw [h] at hr; exact hx.blames hr he

end Reads

/-! ## Leaves -/

variable {s : Bytes}

theorem stringLoop_reads {fuel : Nat} :
    ∀ {s : Bytes} {out : Buf} {c : Bytes}, out.Filled F c → c.length + s.length ≤ Buf.maxGrowth →
      Reads F (stringLoop fuel s out) fun x => ∃ bytes body, StringBody bytes body ∧
        s = body ++ quote :: x.2 ∧ x.1.Filled F (c ++ bytes) := by
  induction fuel with
  | zero => exact fun _ _ => .fail _
  | succ fuel ih =>
    intro s out c hout hlen
    cases hr : stringRound s with
    | error message => unfold stringLoop; rw [hr]; exact .fail _
    | ok r =>
      rcases stringRound_sound hr with ⟨rest, rfl, rfl⟩ | ⟨b, t, rest, hp, rfl, hy⟩
      · refine .of_can fun x h => ?_
        rcases stringLoop_close hout h with ⟨-, rfl⟩ | ⟨hF, rfl⟩
        · exact ⟨pure (out, rest), rfl, .pure ⟨[], [], .nil, rfl, by rwa [List.append_nil]⟩⟩
        · exact ⟨failSilently, rfl, fun h => (by cases h), fun _ _ => hF⟩
      · -- the buffer never holds more than was read, so it never overflows
        have hle := hp.length_le
        rw [List.length_append] at hlen
        refine .of_can fun x h => ?_
        obtain ⟨out', hout', h⟩ := stringLoop_round hr hy hout
          (by rw [List.length_append]; omega) h
        refine ⟨_, h, (ih hout' (by rw [List.length_append]; omega)).mono ?_⟩
        rintro ⟨buf, rest⟩ ⟨bytes, body, hbody, rfl, hbuf⟩
        exact ⟨b ++ bytes, t ++ body, .cons hp hbody, by simp, by simpa using hbuf⟩

theorem parseStringInto_reads (hlen : s.length ≤ Buf.maxGrowth) :
    Reads F (parseStringInto s Buf.init) fun x => ∃ bytes t, StringToken bytes t ∧ s = t ++ x.2 ∧
      x.1.Filled F bytes := by
  unfold parseStringInto
  split
  · exact .fail _
  rename_i hquote
  obtain ⟨s, rfl⟩ : ∃ s', s = quote :: s' := ⟨_, eq_cons_of_peek (not_not.mp hquote) (by decide)⟩
  refine (stringLoop_reads Buf.filled_init (by simp at hlen ⊢; omega)).mono ?_
  rintro ⟨buf, rest⟩ ⟨bytes, body, hbody, hs, hbuf⟩
  rw [List.tail_cons] at hs
  subst hs
  exact ⟨bytes, _, ⟨hbody⟩, by simp, by simpa using hbuf⟩

theorem parseKey_reads (hlen : s.length < Buf.maxGrowth) :
    Reads F (parseKey s) fun x => NulFree x.1 ∧ ∃ t, StringToken x.1 t ∧ s = t ++ x.2 := by
  refine (parseStringInto_reads hlen.le).bind ?_
  rintro ⟨buf, rest⟩ ⟨bytes, t, ht, rfl, hfill⟩
  have hle := ht.length_le
  rw [List.length_append] at hlen
  refine .bind_lift fun key hkey => ?_
  rcases hfill.holds.detachString id (by omega) hkey with ⟨rfl, hnul⟩ | ⟨rfl, -⟩
  · exact .pure ⟨hnul, t, ht, rfl⟩
  · exact .fail _

theorem parseString_reads (hlen : s.length < Buf.maxGrowth) :
    Reads F (parseString s) fun x => ∃ bytes t, StringToken bytes t ∧ s = t ++ x.2 ∧
      x.1 = .str bytes := by
  refine (parseStringInto_reads hlen.le).bind ?_
  rintro ⟨buf, rest⟩ ⟨bytes, t, ht, rfl, hfill⟩
  have hle := ht.length_le
  rw [List.length_append] at hlen
  refine .orSilent (a := bytes) (fun r hr => ?_) (.orSilent (fun r hr => newString_can hr) ?_)
  · exact (hfill.holds.detach id (by omega) hr).imp id And.comm.mp
  · exact .pure ⟨bytes, t, ht, rfl, rfl⟩

theorem parseLiteral_reads {literal : Bytes} {v : Json} :
    Reads F (parseLiteral literal v s) fun x => x.1 = v ∧ s = literal ++ x.2 := by
  unfold parseLiteral matchLiteral
  by_cases hpre : literal.isPrefixOf s
  · rw [if_pos hpre]
    refine .orSilent (fun r hr => new_can hr) (.pure ⟨rfl, ?_⟩)
    exact (List.prefix_iff_eq_append.mp (List.isPrefixOf_iff_prefix.mp hpre)).symm
  · rw [if_neg hpre]
    exact .fail _

theorem parseNumber_reads : Reads F (parseNumber L s) fun x =>
    ∃ token, NumberToken token ∧ s = token ++ x.2 ∧ token.length ≤ maxNumberChars ∧
      TokenRead L token ∧ x.1 = numberValue L token := by
  unfold parseNumber
  split
  · exact .fail _
  rename_i token isInteger rest hscan
  obtain ⟨htoken, hs, hkind⟩ := scanNumber_sound hscan
  split
  · exact .fail _
  rename_i hlen
  split
  · exact .fail _
  rename_i v hread
  refine .orSilent (fun r hr => new_can hr) (.pure ⟨token, htoken, hs, by omega, ?_, ?_⟩)
  · exact tokenRead_of_some hkind hread
  · exact readNumber_some hkind hread

/-! ## Composites -/

/-- A document within the limits, every number of which was converted to its end. -/
structure Doc.Scanned (L : Libc) (depth : Nat) (doc : Doc) : Prop where
  within : doc.Within depth
  tokens_read : ∀ t ∈ doc.tokens, TokenRead L t

theorem Doc.scanned_arr {items : List Doc} {d : Nat} :
    (Doc.arr items).Scanned L (d + 1) ↔ ∀ doc ∈ items, doc.Scanned L d := by
  constructor
  · intro h doc hdoc
    exact ⟨within_arr.1 h.within doc hdoc,
      fun t ht => h.tokens_read t (mem_itemsTokens.2 ⟨doc, hdoc, ht⟩)⟩
  · intro h
    refine ⟨within_arr.2 fun doc hdoc => (h doc hdoc).within, fun t ht => ?_⟩
    obtain ⟨doc, hdoc, ht⟩ := mem_itemsTokens.1 ht
    exact (h doc hdoc).tokens_read t ht

theorem Doc.scanned_obj {members : List (Bytes × Doc)} {d : Nat} :
    (Doc.obj members).Scanned L (d + 1) ↔ ∀ m ∈ members, NulFree m.1 ∧ m.2.Scanned L d := by
  constructor
  · intro h m hm
    exact ⟨(within_obj.1 h.within m hm).1, (within_obj.1 h.within m hm).2,
      fun t ht => h.tokens_read t (mem_membersTokens.2 ⟨m, hm, ht⟩)⟩
  · intro h
    refine ⟨within_obj.2 fun m hm => ⟨(h m hm).1, (h m hm).2.within⟩, fun t ht => ?_⟩
    obtain ⟨m, hm, ht⟩ := mem_membersTokens.1 ht
    exact (h m hm).2.tokens_read t ht

/-- What a composite needs to know of the parser one level down. -/
def ItemReads (F : Prop) (L : Libc) (d : Nat) (item : Bytes → Parser (Json × Bytes)) : Prop :=
  ∀ {s : Bytes}, s.length ≤ maxReasonableLen → Reads F (item s) fun x =>
    ∃ (doc : Doc) (w b : Bytes), Ws w ∧ ValueText doc b ∧ s = w ++ b ++ x.2 ∧ doc.Scanned L d ∧
      x.1 = doc.value L

namespace Composite

variable {α σ : Type} {C : Composite α σ} {good : α → Prop}

/-- One round: an element, behind whitespace, is kept. -/
def RoundReads (F : Prop) (C : Composite α σ) (good : α → Prop) : Prop :=
  ∀ {s : Bytes} {st : σ}, C.size st + s.length ≤ maxReasonableLen →
    Reads F (C.round s (C.node st)) fun x => ∃ (a : α) (w b : Bytes), Ws w ∧ C.text a b ∧
      s = w ++ b ++ x.2 ∧ good a ∧ x.1 = C.node (C.push st a)

theorem loop_reads (hround : RoundReads F C good) {fuel : Nat} :
    ∀ {s : Bytes} {st : σ}, C.size st + s.length ≤ maxReasonableLen →
      Reads F (C.loop fuel s (C.node st)) fun x => ∃ as t, Sep C.text as t ∧
        s = t ++ C.close :: x.2 ∧ (∀ a ∈ as, good a) ∧ x.1 = C.node (as.foldl C.push st) := by
  induction fuel with
  | zero => exact fun _ => .fail _
  | succ fuel ih =>
    intro s st hlen
    refine (hround hlen).bind ?_
    rintro ⟨node, s1⟩ ⟨a, w, b, hw, hb, rfl, hgood, rfl⟩
    obtain ⟨after, hafter, hs1⟩ := skipWs_split s1
    dsimp only at hs1 ⊢
    split
    · -- a comma: the rest of the list comes from the remaining rounds
      rename_i hcomma
      obtain ⟨w', hw', hs2⟩ := skipWs_split (skipWs s1).tail
      refine (ih ?_).mono ?_
      · -- an element takes at least one byte, so the table stays shorter than the text
        have hgrow := C.size_push st a
        have hskip := length_skipWs_le s1
        have hskip' := length_skipWs_le (skipWs s1).tail
        obtain ⟨c, u, rfl, -⟩ := C.head a b hb
        simp only [List.length_append, List.length_cons, List.length_tail] at hlen hskip'
        omega
      · rintro ⟨v, rest⟩ ⟨as, t, hsep, hs3, hgoods, rfl⟩
        refine ⟨a :: as, _, Sep.cons hw hb hafter (hsep.prepend hw'), ?_,
          List.forall_mem_cons.mpr ⟨hgood, hgoods⟩, rfl⟩
        rw [hs1, eq_cons_of_peek hcomma (by decide), hs2, hs3]
        simp
    · split
      · rename_i hclose
        refine .pure ⟨[a], _, Sep.one hw hb hafter, ?_, by simpa using hgood, rfl⟩
        rw [eq_cons_of_peek hclose C.close_ne.2] at hs1
        simpa using hs1
      · exact .fail _

theorem parse_reads (hround : RoundReads F C good) {c : UInt8} {s : Bytes}
    (hlen : s.length ≤ maxReasonableLen) :
    Reads F (C.parse (c :: s)) fun x => ∃ as t, C.Inside as t ∧ s = t ++ C.close :: x.2 ∧
      (∀ a ∈ as, good a) ∧ x.1 = C.node (as.foldl C.push C.empty) := by
  refine .bind_option (fun r hr => new_can hr) rfl ?_
  obtain ⟨w, hw, hs⟩ := skipWs_split s
  dsimp only [List.tail_cons]
  split
  · rename_i hclose
    refine .pure ⟨[], w, .nil hw, ?_, by simp, rfl⟩
    rw [← eq_cons_of_peek hclose C.close_ne.2]
    exact hs
  · have hskip := length_skipWs_le s
    refine (loop_reads hround (by rw [C.size_empty]; omega)).mono ?_
    rintro ⟨v, rest⟩ ⟨as, t, hsep, ht, hgood, rfl⟩
    exact ⟨as, w ++ t, .sep (hsep.prepend hw), by rw [hs, ht]; simp, hgood, rfl⟩

end Composite

section Values

variable {item : Bytes → Parser (Json × Bytes)} {d : Nat}

theorem arrays_reads (hitem : ItemReads F L d item) :
    (arrays L item).RoundReads F (Doc.Scanned L d) := by
  intro s done hlen
  refine (hitem (by omega)).bind ?_
  rintro ⟨v, rest⟩ ⟨doc, w, b, hw, hb, rfl, hscanned, rfl⟩
  have hcount : done.length ≤ maxReasonableLen := le_trans (Nat.le_add_right _ _) hlen
  refine .bind_option (fun r hr => arrayAppend_can hcount hr) rfl ?_
  exact .pure ⟨doc, w, b, hw, hb, rfl, hscanned, rfl⟩

theorem objects_reads (hitem : ItemReads F L d item) :
    (objects L item).RoundReads F fun m => NulFree m.1 ∧ m.2.Scanned L d := by
  intro s done hlen
  have hbig : maxReasonableLen < Buf.maxGrowth := by decide
  have hcount : done.length ≤ maxReasonableLen := le_trans (Nat.le_add_right _ _) hlen
  refine (parseKey_reads (by omega)).bind ?_
  rintro ⟨key, s0⟩ ⟨hnul, name, hname, rfl⟩
  have hkeylen := hname.length_le
  obtain ⟨wk, hwk, hs0⟩ := skipWs_split s0
  dsimp only at hnul hname hkeylen hs0 hlen ⊢
  split
  · exact .fail _
  rename_i hcolon
  have hs1 : s0 = wk ++ colon :: (skipWs s0).tail := by
    rw [← eq_cons_of_peek (not_not.mp hcolon) (by decide)]
    exact hs0
  have htail := congrArg List.length hs1
  simp only [List.length_append, List.length_cons] at hlen htail
  refine (hitem (by omega)).bind ?_
  rintro ⟨v, rest⟩ ⟨doc, wv, b, hwv, hb, hs2, hscanned, rfl⟩
  refine .bind_option (fun r hr => objectSet_can hcount (by omega) hnul hr) rfl ?_
  refine .pure ⟨(key, doc), [], _, ws_nil, ⟨hname, hwk, hwv, hb⟩, ?_, ⟨hnul, hscanned⟩, rfl⟩
  rw [hs1, hs2]
  simp

theorem parseToken_reads (hitem : ItemReads F L d item) (hlen : s.length ≤ maxReasonableLen) :
    Reads F (parseToken L item s) fun x => ∃ (doc : Doc) (b : Bytes), ValueText doc b ∧
      s = b ++ x.2 ∧ doc.Scanned L (d + 1) ∧ x.1 = doc.value L := by
  have hbig : maxReasonableLen < Buf.maxGrowth := by decide
  -- a scalar is within any limit it meets itself
  have hleaf : ∀ doc : Doc, doc.depth = 1 → doc.keys = [] → doc.tokens = [] →
      doc.Scanned L (d + 1) := by
    intro doc hdepth hkeys htokens
    exact ⟨⟨by omega, by simp [hkeys], by simp [htokens]⟩, by simp [htokens]⟩
  unfold parseToken
  split
  · rename_i hc
    obtain ⟨s, rfl⟩ : ∃ s', s = lbrace :: s' := ⟨_, eq_cons_of_peek hc (by decide)⟩
    rw [parseObject_eq (L := L)]
    refine (Composite.parse_reads (objects_reads hitem) (by simp at hlen; omega)).mono ?_
    rintro ⟨v, rest⟩ ⟨members, t, ht, rfl, hmembers, rfl⟩
    exact ⟨.obj members, _, valueText_obj ht, by simp [objects], Doc.scanned_obj.2 hmembers,
      objects_node members⟩
  split
  · rename_i hc
    obtain ⟨s, rfl⟩ : ∃ s', s = lbracket :: s' := ⟨_, eq_cons_of_peek hc (by decide)⟩
    rw [parseArray_eq (L := L)]
    refine (Composite.parse_reads (arrays_reads hitem) (by simp at hlen; omega)).mono ?_
    rintro ⟨v, rest⟩ ⟨items, t, ht, rfl, hitems, rfl⟩
    exact ⟨.arr items, _, valueText_arr ht, by simp [arrays], Doc.scanned_arr.2 hitems,
      arrays_node items⟩
  split
  · refine (parseString_reads (by omega)).mono ?_
    rintro ⟨v, rest⟩ ⟨bytes, t, ht, hs, rfl⟩
    exact ⟨.str bytes, t, .str ht, hs, hleaf _ rfl rfl rfl, rfl⟩
  split
  · refine parseLiteral_reads.mono ?_
    rintro ⟨v, rest⟩ ⟨rfl, hs⟩
    exact ⟨.bool true, _, .litTrue, hs, hleaf _ rfl rfl rfl, rfl⟩
  split
  · refine parseLiteral_reads.mono ?_
    rintro ⟨v, rest⟩ ⟨rfl, hs⟩
    exact ⟨.bool false, _, .litFalse, hs, hleaf _ rfl rfl rfl, rfl⟩
  split
  · refine parseLiteral_reads.mono ?_
    rintro ⟨v, rest⟩ ⟨rfl, hs⟩
    exact ⟨.null, _, .null, hs, hleaf _ rfl rfl rfl, rfl⟩
  split
  · refine parseNumber_reads.mono ?_
    rintro ⟨v, rest⟩ ⟨token, ht, hs, hlen, hread, rfl⟩
    refine ⟨.num token, token, .num ht, hs, ⟨⟨by simp [Doc.depth], by simp [Doc.keys], ?_⟩, ?_⟩, rfl⟩
    · simpa [Doc.tokens] using hlen
    · simpa [Doc.tokens] using hread
  · exact .fail _

end Values

/-- **Soundness.** A value that is returned is the value of a document whose text was read, and out of
    memory means that a request was refused. -/
theorem parseValue_reads : ∀ {d : Nat}, ItemReads F L d (parseValue L d) := by
  intro d
  induction d with
  | zero => exact fun _ => .fail _
  | succ d ih =>
    intro s hlen
    obtain ⟨w, hw, hs⟩ := skipWs_split s
    refine ((parseToken_reads ih (le_trans (length_skipWs_le s) hlen)).mono ?_).nullMeansOutOfMemory
    rintro ⟨v, rest⟩ ⟨doc, b, hb, hs', hscanned, hv⟩
    exact ⟨doc, w, b, hw, hb, by rw [List.append_assoc, ← hs']; exact hs, hscanned, hv⟩

end Json

end Tamga
