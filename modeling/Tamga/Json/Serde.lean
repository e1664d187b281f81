import Tamga.Json.CanonicalForm
import Tamga.Json.ParseMemory

/-!
# `Json.Serde` — the bytes a server signs

The server serializes with serde_json: no whitespace, object keys in ascending byte order, its own
table of escapes, integers of its two 64-bit types in plain decimal. `emit` is that serializer on
document trees, and `SerdeDoc` says which trees it is given. What the SDK has to do with such a text is
parse it and write it out again **byte for byte**.

It does so exactly when every integer fits `int64_t` and no key contains U+0000 (`serde_fidelity`). A
larger integer is carried as a double, and what is written for a double is no integer literal; a key
that contains U+0000 is refused by the parser.
-/

namespace Tamga

namespace Json

/-! ## The server's serializer -/

/-- serde_json's escape table: five short escapes, the quote, the backslash, `\u00xx` for the rest of
    the control characters. -/
def serdeEscape (byte : UInt8) : Bytes :=
  if byte = 0x08 then ascii "\\b"
  else if byte = 0x09 then ascii "\\t"
  else if byte = 0x0A then ascii "\\n"
  else if byte = 0x0C then ascii "\\f"
  else if byte = 0x0D then ascii "\\r"
  else if byte = 0x22 then ascii "\\\x22"
  else if byte = 0x5C then ascii "\\\\"
  else if byte < 0x20 then
    ascii "\\u00" ++ [(ascii "0123456789abcdef").getD (byte.toNat / 16) 0,
      (ascii "0123456789abcdef").getD (byte.toNat % 16) 0]
  else [byte]

def serdeString (s : Bytes) : Bytes := quote :: (s.flatMap serdeEscape ++ [quote])

def serdeMember (m : Bytes × Bytes) : Bytes := serdeString m.1 ++ colon :: m.2

mutual

def emit : Doc → Bytes
  | .null => ascii "null"
  | .bool true => ascii "true"
  | .bool false => ascii "false"
  | .num token => token
  | .str s => serdeString s
  | .arr items => lbracket :: (joinComma (emitItems items) ++ [rbracket])
  | .obj members => lbrace :: (joinComma ((emitMembers members).map serdeMember) ++ [rbrace])

def emitItems : List Doc → List Bytes
  | [] => []
  | doc :: items => emit doc :: emitItems items

def emitMembers : List (Bytes × Doc) → List (Bytes × Bytes)
  | [] => []
  | (key, doc) :: members => (key, emit doc) :: emitMembers members

end

/-- The documents it is given: integers that are an `i64` or a `u64`, UTF-8 strings, and maps that list
    their keys in ascending order of bytes. -/
inductive SerdeDoc : Doc → Prop where
  | null : SerdeDoc .null
  | bool (b : Bool) : SerdeDoc (.bool b)
  | int (n : Int) (hlo : -2 ^ 63 ≤ n) (hhi : n < 2 ^ 64) : SerdeDoc (.num (printInt n))
  | str {s : Bytes} (h : Utf8.WellFormed s) : SerdeDoc (.str s)
  | arr {items : List Doc} (h : ∀ doc ∈ items, SerdeDoc doc) : SerdeDoc (.arr items)
  | obj {members : List (Bytes × Doc)} (h : ∀ m ∈ members, SerdeDoc m.2)
      (hkeys : ∀ m ∈ members, Utf8.WellFormed m.1)
      (hasc : (members.map Prod.fst).Pairwise (· < ·)) : SerdeDoc (.obj members)

theorem emitItems_eq (items : List Doc) : emitItems items = items.map emit := by
  induction items with
  | nil => rfl
  | cons doc items ih => rw [emitItems, ih, List.map_cons]

theorem emitMembers_eq (members : List (Bytes × Doc)) :
    emitMembers members = members.map fun m => (m.1, emit m.2) := by
  induction members with
  | nil => rfl
  | cons m members ih => rw [emitMembers, ih, List.map_cons]

/-! ## Its texts are JSON -/

theorem serdeEscape_eq (byte : UInt8) : serdeEscape byte = escapeByte byte := by
  exact forall_byte (P := fun byte => serdeEscape byte = escapeByte byte) (by decide +kernel) byte

theorem serdeString_eq (s : Bytes) : serdeString s = quoted s := by
  unfold serdeString quoted escape
  rw [List.flatMap_congr fun byte _ => serdeEscape_eq byte]

theorem SerdeDoc.valueText {doc : Doc} (h : SerdeDoc doc) : ValueText doc (emit doc) := by
  induction h with
  | null => exact .null
  | bool b =>
    cases b
    · exact .litFalse
    · exact .litTrue
  | int n => exact .num (numberToken_printInt n)
  | str h => rw [emit, serdeString_eq]; exact .str (stringToken_quoted h)
  | @arr items _ ih =>
    rw [emit, emitItems_eq]
    cases items with
    | nil => exact .arrNil ws_nil
    | cons doc items =>
      have hsep := @sep_joinComma _ _ ValueText emit id doc items ih
      rw [List.map_id] at hsep
      exact .arr hsep
  | @obj members _ hkeys _ ih =>
    rw [emit, emitMembers_eq, List.map_map]
    cases members with
    | nil => exact .objNil ws_nil
    | cons m members =>
      have hmembers : ∀ x ∈ m :: members,
          MemberText ValueText x ((serdeMember ∘ fun m => (m.1, emit m.2)) x) := by
        intro x hx
        have := MemberText.mk (stringToken_quoted (hkeys x hx)) ws_nil ws_nil (ih x hx)
        simpa [serdeMember, serdeString_eq] using this
      have hsep := @sep_joinComma _ _ (MemberText ValueText) _ id m members hmembers
      rw [List.map_id] at hsep
      exact .obj hsep

theorem SerdeDoc.tokens_le {doc : Doc} (h : SerdeDoc doc) :
    ∀ t ∈ doc.tokens, t.length ≤ maxNumberChars := by
  induction h with
  | null | bool | str => simp [Doc.tokens]
  | int n hlo hhi =>
    intro t ht
    obtain rfl := List.mem_singleton.mp ht
    have hlen : (Decimal.encode n.natAbs).length ≤ 20 :=
      Decimal.length_encode_le (by decide) (by omega)
    unfold printInt maxNumberChars
    split
    · rw [List.length_cons]; omega
    · omega
  | arr _ ih =>
    intro t ht
    obtain ⟨doc, hdoc, ht⟩ := Doc.mem_itemsTokens.1 ht
    exact ih doc hdoc t ht
  | obj _ _ _ ih =>
    intro t ht
    obtain ⟨m, hm, ht⟩ := Doc.mem_membersTokens.1 ht
    exact ih m hm t ht

/-! ## Writing the value writes the text -/

/-- Every integer of the document fits `int64_t`. -/
def FitsInt64 (doc : Doc) : Prop := ∀ n, printInt n ∈ doc.tokens → n < 2 ^ 63

theorem inOrder_of_ascending {α : Type} {members : List (Bytes × α)}
    (hasc : (members.map Prod.fst).Pairwise (· < ·)) (hnul : ∀ m ∈ members, NulFree m.1) :
    inOrder true members = members := by
  refine List.Perm.eq_of_pairwise (fun m m' _ _ h h' => absurd h' (List.lt_asymm h))
    (List.pairwise_map.mp (inOrder_ascending (nodup_of_ascending hasc) hnul)) (List.pairwise_map.mp hasc)
    (inOrder_perm true members)

theorem value_text_arr {L : Libc} (items : List Doc) : ((Doc.arr items).value L).text L true =
    lbracket :: (joinComma (items.map fun doc => (doc.value L).text L true) ++ [rbracket]) := by
  rw [Doc.value, Doc.itemsValue_eq, text, itemTexts_eq, List.map_map]
  rfl

theorem value_obj {L : Libc} {members : List (Bytes × Doc)}
    (hasc : (members.map Prod.fst).Pairwise (· < ·)) :
    (Doc.obj members).value L = .obj (members.map fun m => (m.1, m.2.value L)) := by
  rw [Doc.value, Doc.membersValue_eq, lastWins_of_nodup]
  rw [List.map_map]
  exact nodup_of_ascending hasc

/-- Members that are listed in order, under keys that are C strings, are written as they are listed. -/
theorem value_text_obj {L : Libc} {members : List (Bytes × Doc)}
    (hasc : (members.map Prod.fst).Pairwise (· < ·)) (hnul : ∀ m ∈ members, NulFree m.1) :
    ((Doc.obj members).value L).text L true = lbrace :: (joinComma
      (members.map fun m => serdeMember (m.1, (m.2.value L).text L true)) ++ [rbrace]) := by
  have hmember : ∀ m ∈ members, memberText (m.1, (m.2.value L).text L true) =
      serdeMember (m.1, (m.2.value L).text L true) := by
    intro m hm
    simp only [memberText, serdeMember, serdeString_eq, cstr_of_nulFree (hnul m hm)]
  rw [value_obj hasc, text, memberTexts_eq, inOrder_map, inOrder_map, inOrder_of_ascending hasc hnul,
    List.map_map, List.map_map]
  simp only [Function.comp_def]
  rw [List.map_congr_left hmember]

theorem emit_arr (items : List Doc) :
    emit (.arr items) = lbracket :: (joinComma (items.map emit) ++ [rbracket]) := by
  rw [emit, emitItems_eq]

theorem emit_obj (members : List (Bytes × Doc)) : emit (.obj members) =
    lbrace :: (joinComma (members.map fun m => serdeMember (m.1, emit m.2)) ++ [rbrace]) := by
  rw [emit, emitMembers_eq, List.map_map]
  rfl

theorem numberValue_serde {L : Libc} {n : Int} (hlo : -2 ^ 63 ≤ n) : numberValue L (printInt n) =
    if n < 2 ^ 63 then .int (Int64.ofInt n) else .double (L.strtod (printInt n)).1 := by
  unfold numberValue
  rw [literalInt_printInt]
  dsimp only
  by_cases hlt : n < 2 ^ 63
  · rw [if_pos hlt, if_pos ⟨hlo, hlt⟩]
  · rw [if_neg hlt, if_neg fun h => hlt h.2]

/-- **Fidelity.** The value of a document whose integers fit is written as the server wrote it. -/
theorem SerdeDoc.text_value {L : Libc} {doc : Doc} (h : SerdeDoc doc)
    (hnul : ∀ k ∈ doc.keys, NulFree k) (hfits : FitsInt64 doc) :
    (doc.value L).text L true = emit doc ∧ (doc.value L).Every NoDouble := by
  induction h with
  | null => exact ⟨rfl, by simp [Doc.value, NoDouble]⟩
  | bool b => cases b <;> exact ⟨rfl, by simp [Doc.value, NoDouble]⟩
  | int n hlo hhi =>
    have hlt : n < 2 ^ 63 := hfits n (by simp [Doc.tokens])
    have hback : (Int64.ofInt n).toInt = n := Int64.toInt_ofInt_of_le hlo hlt
    rw [Doc.value, numberValue_serde hlo, if_pos hlt, text, hback]
    exact ⟨rfl, by simp [NoDouble]⟩
  | str h =>
    rw [emit, serdeString_eq]
    exact ⟨rfl, by simp [Doc.value, NoDouble]⟩
  | @arr items _ ih =>
    have hitems := fun doc hdoc => ih doc hdoc
      (fun k hk => hnul k (Doc.mem_itemsKeys.2 ⟨doc, hdoc, hk⟩))
      (fun n hn => hfits n (Doc.mem_itemsTokens.2 ⟨doc, hdoc, hn⟩))
    refine ⟨?_, ?_⟩
    · rw [value_text_arr, emit_arr, List.map_congr_left fun doc hdoc => (hitems doc hdoc).1]
    · rw [Doc.value, Doc.itemsValue_eq, every_arr]
      refine ⟨trivial, fun v hv => ?_⟩
      obtain ⟨doc, hdoc, rfl⟩ := List.mem_map.mp hv
      exact (hitems doc hdoc).2
  | @obj members _ hkeys hasc ih =>
    have hmembers := fun m hm => ih m hm
      (fun k hk => hnul k (Doc.mem_membersKeys.2 ⟨m, hm, Or.inr hk⟩))
      (fun n hn => hfits n (Doc.mem_membersTokens.2 ⟨m, hm, hn⟩))
    have hnul' : ∀ m ∈ members, NulFree m.1 :=
      fun m hm => hnul m.1 (Doc.mem_membersKeys.2 ⟨m, hm, Or.inl rfl⟩)
    refine ⟨?_, ?_⟩
    · rw [value_text_obj hasc hnul', emit_obj,
        List.map_congr_left fun m hm => congrArg (fun t => serdeMember (m.1, t)) (hmembers m hm).1]
    · rw [value_obj hasc, every_obj]
      refine ⟨trivial, fun w hw => ?_⟩
      obtain ⟨m, hm, rfl⟩ := List.mem_map.mp hw
      exact (hmembers m hm).2

/-! ## What is written for a larger integer

A double's text has a point, an exponent or the word `null` in it, an integer's has none of them.
Everything else of a document is written as it was emitted, so counting those marks tells a text with a
double in it from the text the server emitted. -/

/-- A character of a double's text that no integer literal has. -/
def isMark (c : UInt8) : Bool := c = 0x2E || c = 0x65 || c = 0x6E

def marks (t : Bytes) : Nat := t.countP isMark

theorem marks_joinComma (ts : List Bytes) : marks (joinComma ts) = (ts.map marks).sum := by
  cases ts with
  | nil => rfl
  | cons t ts =>
    have hrest : marks (ts.flatMap fun t => comma :: t) = (ts.map marks).sum := by
      induction ts with
      | nil => rfl
      | cons t ts ih =>
        rw [List.flatMap_cons, List.map_cons, List.sum_cons, ← ih]
        exact List.countP_append
    rw [joinComma, List.map_cons, List.sum_cons, ← hrest]
    exact List.countP_append

theorem marks_bracketed {opening closing : UInt8} {ts : List Bytes} (hopening : isMark opening = false)
    (hclosing : isMark closing = false) :
    marks (opening :: (joinComma ts ++ [closing])) = (ts.map marks).sum := by
  rw [← marks_joinComma]
  simp [marks, hopening, hclosing]

theorem marks_serdeMember (key t : Bytes) :
    marks (serdeMember (key, t)) = marks (serdeString key) + marks t :=
  List.countP_append

theorem marks_doubleText (L : Libc) (d : Double) : 0 < marks (doubleText L d) := by
  have hmem : ∃ c ∈ doubleText L d, isMark c = true := by
    unfold doubleText
    split
    · exact ⟨0x6E, by decide, rfl⟩
    split
    · exact ⟨0x6E, by decide, rfl⟩
    · rename_i s _
      have hdigits : ∃ c ∈ digitsText s, isMark c = true := by
        unfold digitsText
        split
        · refine ⟨0x2E, ?_, rfl⟩
          split
          · exact List.mem_append_right _ (List.mem_append_right _ (by decide))
          · simp
        split
        · exact ⟨0x2E, List.mem_append_left _ (by decide), rfl⟩
        · exact ⟨0x65, by simp, rfl⟩
      obtain ⟨c, hc, hmark⟩ := hdigits
      exact ⟨c, List.mem_append_right _ hc, hmark⟩
  exact List.countP_pos_iff.mpr hmem

theorem marks_printInt (n : Int) : marks (printInt n) = 0 := by
  refine List.countP_eq_zero.mpr fun c hc hmark => ?_
  have hdigit : ∀ c ∈ Decimal.encode n.natAbs, isMark c = false := by
    intro c hc
    have hall : ∀ c, Decimal.isDigit c = true → isMark c = false := forall_byte (by decide +kernel)
    exact hall c ((Decimal.encode_plain n.natAbs).digits c hc)
  unfold printInt at hc
  split at hc
  · rcases List.mem_cons.mp hc with rfl | hc
    · cases hmark
    · rw [hdigit c hc] at hmark
      cases hmark
  · rw [hdigit c hc] at hmark
    cases hmark

/-- Sums that agree although no summand is smaller agree summand by summand. -/
theorem sum_squeeze {α : Type} {f g : α → Nat} {l : List α} (h : ∀ x ∈ l, f x ≤ g x) :
    (l.map f).sum ≤ (l.map g).sum ∧ ((l.map g).sum ≤ (l.map f).sum → ∀ x ∈ l, g x ≤ f x) := by
  induction l with
  | nil => simp
  | cons x l ih =>
    obtain ⟨hx, hl⟩ := List.forall_mem_cons.mp h
    obtain ⟨hle, heq⟩ := ih hl
    simp only [List.map_cons, List.sum_cons, List.forall_mem_cons]
    refine ⟨by omega, fun hsum => ⟨by omega, heq (by omega)⟩⟩

theorem printInt_injective {m n : Int} (h : printInt m = printInt n) : m = n := by
  have hliteral := literalInt_printInt m
  rw [h, literalInt_printInt] at hliteral
  exact (Option.some.inj hliteral).symm

/-- **The marks of a document's value** are those the server emitted and at least one more for each
    integer that does not fit. -/
theorem SerdeDoc.marks_value {L : Libc} {doc : Doc} (h : SerdeDoc doc)
    (hnul : ∀ k ∈ doc.keys, NulFree k) :
    marks (emit doc) ≤ marks ((doc.value L).text L true) ∧
      (marks ((doc.value L).text L true) ≤ marks (emit doc) → FitsInt64 doc) := by
  induction h with
  | null => exact ⟨le_refl _, fun _ n hn => absurd hn List.not_mem_nil⟩
  | bool b => cases b <;> exact ⟨le_refl _, fun _ n hn => absurd hn List.not_mem_nil⟩
  | int n hlo hhi =>
    rw [Doc.value, numberValue_serde hlo, emit, marks_printInt]
    refine ⟨Nat.zero_le _, fun hmarks m hm => ?_⟩
    rw [printInt_injective (List.mem_singleton.mp hm)]
    by_contra hlarge
    rw [if_neg hlarge] at hmarks
    exact absurd (marks_doubleText L _) (Nat.not_lt.mpr hmarks)
  | str h =>
    rw [emit, serdeString_eq]
    exact ⟨le_refl _, fun _ n hn => absurd hn List.not_mem_nil⟩
  | @arr items _ ih =>
    have hitems := fun doc hdoc => ih doc hdoc
      (fun k hk => hnul k (Doc.mem_itemsKeys.2 ⟨doc, hdoc, hk⟩))
    have hsums := sum_squeeze (f := fun doc => marks (emit doc))
      (g := fun doc : Doc => marks ((doc.value L).text L true)) fun doc hdoc => (hitems doc hdoc).1
    rw [emit_arr, value_text_arr, marks_bracketed rfl rfl, marks_bracketed rfl rfl, List.map_map,
      List.map_map]
    refine ⟨hsums.1, fun hle n hn => ?_⟩
    obtain ⟨doc, hdoc, hn⟩ := Doc.mem_itemsTokens.1 hn
    exact (hitems doc hdoc).2 (hsums.2 hle doc hdoc) n hn
  | @obj members _ hkeys hasc ih =>
    have hmembers := fun m hm => ih m hm
      (fun k hk => hnul k (Doc.mem_membersKeys.2 ⟨m, hm, Or.inr hk⟩))
    have hnul' : ∀ m ∈ members, NulFree m.1 :=
      fun m hm => hnul m.1 (Doc.mem_membersKeys.2 ⟨m, hm, Or.inl rfl⟩)
    have hsums := sum_squeeze (f := fun m : Bytes × Doc => marks (serdeMember (m.1, emit m.2)))
      (g := fun m => marks (serdeMember (m.1, (m.2.value L).text L true))) (l := members) (by
        intro m hm
        rw [marks_serdeMember, marks_serdeMember]
        exact Nat.add_le_add_left (hmembers m hm).1 _)
    rw [emit_obj, value_text_obj hasc hnul', marks_bracketed rfl rfl, marks_bracketed rfl rfl,
      List.map_map, List.map_map]
    refine ⟨hsums.1, fun hle n hn => ?_⟩
    obtain ⟨m, hm, hn⟩ := Doc.mem_membersTokens.1 hn
    have hmember := hsums.2 hle m hm
    rw [marks_serdeMember, marks_serdeMember] at hmember
    exact (hmembers m hm).2 (Nat.le_of_add_le_add_left hmember) n hn

/-! ## No text contains a NUL -/

/-! ## No text contains a NUL -/

theorem nulFree_joinComma {ts : List Bytes} (h : ∀ t ∈ ts, NulFree t) : NulFree (joinComma ts) := by
  cases ts with
  | nil => exact nulFree_nil
  | cons t ts =>
    refine nulFree_append.2 ⟨h t List.mem_cons_self, fun hmem => ?_⟩
    obtain ⟨u, hu, hmem⟩ := List.mem_flatMap.mp hmem
    rcases List.mem_cons.mp hmem with h0 | hmem
    · exact absurd h0 (by decide)
    · exact h u (List.mem_cons_of_mem _ hu) hmem

theorem nulFree_quoted (s : Bytes) : NulFree (quoted s) := by
  refine nulFree_cons.2 ⟨by decide, nulFree_append.2 ⟨fun hmem => ?_, by decide⟩⟩
  obtain ⟨c, -, hmem⟩ := List.mem_flatMap.mp hmem
  have hcase := escapeByte_cases c
  generalize escapeByte c = t at hcase hmem
  cases hcase with
  | raw hctl =>
    rw [← List.mem_singleton.mp hmem] at hctl
    exact absurd hctl (by decide)
  | short h =>
    have : ∀ p ∈ shortEscapes, NulFree [backslash, p.1] := by
      simp [shortEscapes, NulFree, quote, backslash]
    exact this _ h hmem
  | control _ hhi hlo =>
    have hne : ∀ {c : UInt8} {v : Nat}, HexDigit c v → c ≠ 0 := by
      rintro c v h rfl
      unfold HexDigit at h
      simp only [UInt8.toNat_zero] at h
      omega
    simp [(hne hhi).symm, (hne hlo).symm, backslash] at hmem

theorem nulFree_printInt (n : Int) : NulFree (printInt n) := by
  have hdigits : NulFree (Decimal.encode n.natAbs) := by
    intro h
    have := (Decimal.encode_plain n.natAbs).digits 0 h
    simp [Decimal.isDigit] at this
  unfold printInt
  split
  · exact nulFree_cons.2 ⟨by decide, hdigits⟩
  · exact hdigits

/-- The text of a tree has a NUL in it only if the text of a number has. -/
theorem nulFree_text_of_doubles {L : Libc} {canonical : Bool} {v : Json}
    (h : v.Every fun w => ∀ d, w = .double d → NulFree (doubleText L d)) :
    NulFree (v.text L canonical) := by
  induction v using Json.node_induction with
  | null => rw [text]; decide
  | bool b => cases b <;> rw [text] <;> decide
  | int n => exact nulFree_printInt _
  | double d => exact h.self d rfl
  | str s => exact nulFree_quoted s
  | arr items ih =>
    rw [text, itemTexts_eq]
    refine nulFree_cons.2 ⟨by decide, nulFree_append.2 ⟨nulFree_joinComma ?_, by decide⟩⟩
    intro t ht
    obtain ⟨v, hv, rfl⟩ := List.mem_map.mp ht
    exact ih v hv ((every_arr.1 h).2 v hv)
  | obj members ih =>
    rw [text, memberTexts_eq, inOrder_map, List.map_map]
    refine nulFree_cons.2 ⟨by decide, nulFree_append.2 ⟨nulFree_joinComma ?_, by decide⟩⟩
    intro t ht
    obtain ⟨m, hm, rfl⟩ := List.mem_map.mp ht
    have hm := (inOrder_perm canonical members).mem_iff.mp hm
    exact nulFree_append.2 ⟨nulFree_quoted _,
      nulFree_cons.2 ⟨by decide, ih m hm ((every_obj.1 h).2 m hm)⟩⟩

theorem nulFree_text {L : Libc} {canonical : Bool} {v : Json} (h : v.Every NoDouble) :
    NulFree (v.text L canonical) :=
  nulFree_text_of_doubles (h.mono fun _ hw _ hd => (hd ▸ hw : NoDouble (.double _)).elim)

/-- Without refused requests, a serializer returns a text that is not absurdly long. -/
theorem writeImpl_ok {L : Libc} {canonical : Bool} {v : Json} (h : v.Every NoDouble)
    (hlen : (v.text L canonical).length ≤ maxReasonableLen) :
    (writeImpl L canonical v).ok = some (v.text L canonical) := by
  have hbig : maxReasonableLen + 1 ≤ Buf.maxGrowth := by decide
  rcases writeImpl_can (F := False) ((writeImpl L canonical v).can_ok) with h' | ⟨-, h' | h' | h'⟩
  · exact h'
  · exact h'.elim
  · omega
  · exact absurd (nulFree_text h) h'

/-- **Canonical fidelity.** A text the server emits comes back byte for byte exactly when its integers
    fit `int64_t` and no key contains U+0000; with such a key the parser refuses it. -/
theorem serde_fidelity {L : Libc} (hL : ConsumesNumbers L) {doc : Doc} (h : SerdeDoc doc)
    (hdepth : doc.depth ≤ 64) (hlen : (emit doc).length ≤ 16 * 1024 * 1024) :
    ((∃ v, (parse L (some (emit doc))).ok = .ok v ∧ (writeCanonical L v).ok = some (emit doc)) ↔
      FitsInt64 doc ∧ ∀ k ∈ doc.keys, NulFree k) ∧
    ((∃ k ∈ doc.keys, ¬ NulFree k) → (parse L (some (emit doc))).ok = .error invalidKey) := by
  have htext : Text doc (emit doc) := ⟨[], emit doc, [], ws_nil, h.valueText, ws_nil, by simp⟩
  have hrefused : (∃ k ∈ doc.keys, ¬ NulFree k) →
      (parse L (some (emit doc))).ok = .error invalidKey := by
    rintro ⟨k, hk, hnul⟩
    exact AllocE.can_false.1
      (parse_invalidKey hL htext ⟨hdepth, h.tokens_le⟩ hlen ⟨k, hk, Or.inl hnul⟩)
  have hparse : (∀ k ∈ doc.keys, NulFree k) →
      (parse L (some (emit doc))).ok = .ok (doc.value L) := fun hnul =>
    (parse_iff_denotes hL hlen _).mpr ⟨doc, htext, ⟨hdepth, hnul, h.tokens_le⟩, rfl⟩
  refine ⟨⟨?_, ?_⟩, hrefused⟩
  · rintro ⟨v, hv, hwrite⟩
    have hnul : ∀ k ∈ doc.keys, NulFree k := by
      intro k hk
      by_contra hnul
      rw [hrefused ⟨k, hk, hnul⟩] at hv
      cases hv
    rw [hparse hnul] at hv
    obtain rfl := Except.ok.inj hv
    rcases writeImpl_can (Alloc.can_false.2 hwrite) with hsome | ⟨hnone, -⟩
    · refine ⟨(@SerdeDoc.marks_value L doc h hnul).2 ?_, hnul⟩
      rw [← Option.some.inj hsome]
    · cases hnone
  · rintro ⟨hfits, hnul⟩
    obtain ⟨hvalue, hdouble⟩ := @SerdeDoc.text_value L doc h hnul hfits
    refine ⟨doc.value L, hparse hnul, ?_⟩
    rw [← hvalue] at hlen ⊢
    exact writeImpl_ok hdouble hlen

/-! ### The two limits, on concrete texts -/

/-- `"%.*e"` of 2^64 at precisions 0 to 16, and the double nearest to each. -/
def twoTo64Digits : List (String × UInt64) :=
  [("2e+19", 0x43F158E460913D00), ("1.8e+19", 0x43EF399B1438A100), ("1.84e+19", 0x43EFEB3DD0676600),
    ("1.845e+19", 0x43F000B913F69F50), ("1.8447e+19", 0x43F0000E8C37BA18),
    ("1.84467e+19", 0x43EFFFFAFD494658), ("1.844674e+19", 0x43EFFFFF89707FA8),
    ("1.8446744e+19", 0x43EFFFFFFDDAD230), ("1.84467441e+19", 0x43F000000061F086),
    ("1.844674407e+19", 0x43EFFFFFFFE45C98), ("1.8446744074e+19", 0x43F00000000114FE),
    ("1.84467440737e+19", 0x43EFFFFFFFFFEDC8), ("1.844674407371e+19", 0x43F000000000006D),
    ("1.8446744073710e+19", 0x43F000000000006D), ("1.84467440737096e+19", 0x43F000000000000C),
    ("1.844674407370955e+19", 0x43EFFFFFFFFFFFFF), ("1.8446744073709552e+19", 0x43F0000000000000)]

/-- A correctly rounding C library, as far as the largest `u64` needs it. -/
def twoTo64Libc : Libc where
  strtod t :=
    let known := ("18446744073709551615", 0x43F0000000000000) :: twoTo64Digits
    (⟨((known.find? fun p => ascii p.1 = t).map Prod.snd).getD 0⟩, t.length)
  formatE precision _ := ascii ((twoTo64Digits.map Prod.fst).getD precision "")

/-- The largest `u64` is parsed as a double and written as one, and `{"\u0000":0}` is refused. -/
theorem serde_fidelity_limits :
    SerdeDoc (.num (printInt (2 ^ 64 - 1))) ∧
    emit (.num (printInt (2 ^ 64 - 1))) = ascii "18446744073709551615" ∧
    (∃ v, (parse twoTo64Libc (some (ascii "18446744073709551615"))).ok = .ok v ∧
      (writeCanonical twoTo64Libc v).ok = some (ascii "1.8446744073709552e+19")) ∧
    SerdeDoc (.obj [([0], .num (printInt 0))]) ∧
    (parse twoTo64Libc (some (emit (.obj [([0], .num (printInt 0))])))).ok = .error invalidKey := by
  refine ⟨.int _ (by decide) (by decide), by decide +kernel, ⟨_, rfl, by decide +kernel⟩, ?_, rfl⟩
  refine .obj (fun m hm => ?_) (fun m hm => ?_) (List.pairwise_singleton _ _)
  · obtain rfl := List.mem_singleton.mp hm
    exact .int 0 (by decide) (by decide)
  · obtain rfl := List.mem_singleton.mp hm
    exact .cons (Char.ofNat 0) .nil

/-- `{"a":-9223372036854775808,"b":["é"]}`. -/
def serdeSample : Doc :=
  .obj [(ascii "a", .num (printInt (-2 ^ 63))), (ascii "b", .arr [.str [0xC3, 0xA9]])]

theorem serdeSample_serde : SerdeDoc serdeSample := by
  refine .obj (fun m hm => ?_) (fun m hm => ?_) (by decide)
  · rcases List.mem_cons.mp hm with rfl | hm
    · exact .int _ (by decide) (by decide)
    · obtain rfl := List.mem_singleton.mp hm
      refine .arr fun doc hdoc => ?_
      obtain rfl := List.mem_singleton.mp hdoc
      exact .str (.cons (Char.ofNat 0xE9) .nil)
  · rcases List.mem_cons.mp hm with rfl | hm
    · exact .cons 'a' .nil
    · obtain rfl := List.mem_singleton.mp hm
      exact .cons 'b' .nil

theorem serde_fidelity_sample :
    ∃ v, (parse twoTo64Libc (some (emit serdeSample))).ok = .ok v ∧
      (writeCanonical twoTo64Libc v).ok = some (emit serdeSample) := by
  refine (serde_fidelity (fun _ _ => rfl) serdeSample_serde (by decide) (by decide +kernel)).1.2 ⟨?_, ?_⟩
  · intro n hn
    rw [printInt_injective (List.mem_singleton.mp hn)]
    decide
  · decide

end Json

end Tamga
