import Tamga.Json.Canonical
import Tamga.Json.ParseSpec

/-!
# `Json.RoundTrip` — what is written is parsed back

The plain text of a tree without doubles is a JSON text in the sense of `Json.Grammar`: `Doc.ofJson`
is the document it spells (`valueText_ofJson`), and that document denotes the tree
(`value_ofJson`). The parser returns what a text denotes, so the round trip follows; canonical output
is plain output of the arranged tree.
-/

namespace Tamga

open Decimal Utf8

namespace Json

/-! ## Strings -/

/-- How one byte of a string is written. -/
inductive EscapeCase (c : UInt8) : Bytes → Prop where
  | raw (hctl : 0x20 ≤ c.toNat) (hquote : c ≠ quote) (hbackslash : c ≠ backslash) : EscapeCase c [c]
  | short {letter : UInt8} (h : (letter, c) ∈ shortEscapes) : EscapeCase c [backslash, letter]
  | control {hi lo : UInt8} (hctl : c.toNat < 0x20) (hhi : HexDigit hi (c.toNat / 16))
      (hlo : HexDigit lo (c.toNat % 16)) : EscapeCase c [backslash, 0x75, 0x30, 0x30, hi, lo]

theorem hexDigit_hexChar : ∀ n < 0x20,
    HexDigit (hexChar (UInt8.ofNat n >>> 4 &&& 0x0F)) (n / 16) ∧
      HexDigit (hexChar (UInt8.ofNat n &&& 0x0F)) (n % 16) := by
  unfold HexDigit
  decide

theorem escapeByte_cases (c : UInt8) : EscapeCase c (escapeByte c) := by
  have hshort : ∀ letter, (letter, c) ∈ shortEscapes → EscapeCase c [backslash, letter] :=
    fun _ h => .short h
  unfold escapeByte
  split
  · subst_vars; exact hshort _ (by decide)
  rename_i hquote
  split
  · subst_vars; exact hshort _ (by decide)
  rename_i hbackslash
  split
  · subst_vars; exact hshort _ (by decide)
  split
  · subst_vars; exact hshort _ (by decide)
  split
  · subst_vars; exact hshort _ (by decide)
  split
  · subst_vars; exact hshort _ (by decide)
  split
  · subst_vars; exact hshort _ (by decide)
  split
  · rename_i hctl
    have hlt : c.toNat < 0x20 := hctl
    obtain ⟨hhi, hlo⟩ := hexDigit_hexChar c.toNat hlt
    rw [UInt8.ofNat_toNat] at hhi hlo
    exact .control hlt hhi hlo
  · rename_i hctl
    exact .raw (Nat.not_lt.mp hctl) hquote hbackslash

/-- An ASCII byte is written as a piece of the grammar. -/
theorem EscapeCase.piece {c : Char} (hc : c.val.toNat < 0x80) {t : Bytes}
    (h : EscapeCase (UInt8.ofNat c.val.toNat) t) : Piece (encodeChar c) t := by
  have hnat : (UInt8.ofNat c.val.toNat).toNat = c.val.toNat := toNat_ofNat_of_lt (by omega)
  cases h with
  | raw hctl hquote hbackslash =>
    rw [hnat] at hctl
    rw [← encodeChar_one hc]
    refine .raw c hctl ?_ ?_
    · intro h; exact hquote (by rw [h]; rfl)
    · intro h; exact hbackslash (by rw [h]; rfl)
  | short h =>
    rw [encodeChar_one hc]
    exact .short h
  | control hctl hhi hlo =>
    rw [hnat] at hctl hhi hlo
    refine .unicode c ⟨0x30, 0x30, _, _, 0, 0, _, _, rfl, ?_, ?_, hhi, hlo, by omega⟩
    · exact Or.inl ⟨by decide, by decide⟩
    · exact Or.inl ⟨by decide, by decide⟩

theorem escapeByte_of_ge {c : UInt8} (h : 0x80 ≤ c.toNat) : escapeByte c = [c] := by
  have hcases := escapeByte_cases c
  generalize ht : escapeByte c = t at hcases
  cases hcases with
  | raw => rfl
  | short hmem =>
    exfalso
    have : ∀ p ∈ shortEscapes, p.2.toNat < 0x80 := by
      simp [shortEscapes, quote, backslash]
    have : c.toNat < 0x80 := this _ hmem
    omega
  | control hctl => omega

theorem escape_encodeChar_piece (c : Char) : Piece (encodeChar c) (escape (encodeChar c)) := by
  by_cases hc : c.val.toNat < 0x80
  · have := (escapeByte_cases (UInt8.ofNat c.val.toNat)).piece hc
    rw [encodeChar_one hc] at this ⊢
    simpa [escape] using this
  · -- every byte of a longer sequence is written as it is
    have hbytes : ∀ b ∈ encodeChar c, escapeByte b = [b] :=
      fun b hb => escapeByte_of_ge (le_of_mem_encodeChar (by omega) hb)
    have hid : escape (encodeChar c) = encodeChar c := by
      unfold escape
      rw [List.flatMap_congr hbytes, List.flatMap_singleton']
    rw [hid]
    exact .raw c (by omega) (by omega) (by omega)

theorem stringBody_escape {s : Bytes} (h : Utf8.WellFormed s) : StringBody s (escape s) := by
  induction h with
  | nil => exact .nil
  | cons c _ ih =>
    have := StringBody.cons (escape_encodeChar_piece c) ih
    rwa [escape, escape, ← List.flatMap_append] at this

theorem stringToken_quoted {s : Bytes} (h : Utf8.WellFormed s) : StringToken s (quoted s) :=
  .mk (stringBody_escape h)

/-! ## Integers -/

theorem numberToken_printInt (n : Int) : NumberToken (printInt n) := by
  have hplain := encode_plain n.natAbs
  unfold printInt
  split
  · have := NumberToken.mk (Or.inr rfl) hplain (Or.inl rfl) (Or.inl rfl)
    simpa using this
  · have := NumberToken.mk (Or.inl rfl) hplain (Or.inl rfl) (Or.inl rfl)
    simpa using this

theorem literalInt_printInt (n : Int) : literalInt (printInt n) = some n := by
  have hplain := encode_plain n.natAbs
  have hall : (encode n.natAbs).all isDigit = true :=
    List.all_eq_true.mpr hplain.digits
  unfold printInt
  split
  · show (if (encode n.natAbs).all isDigit then
      some (-(value (encode n.natAbs) : Int)) else none) = some n
    rw [if_pos hall, value_encode]
    congr 1
    omega
  · -- a digit is not a minus sign
    unfold literalInt
    split
    · rename_i digits h
      have := hplain.digits 0x2D (by rw [h]; exact List.mem_cons_self)
      simp [isDigit] at this
    · rw [if_pos hall, value_encode]
      congr 1
      omega

theorem fitsInt64_toInt (n : Int64) : fitsInt64 n.toInt :=
  ⟨Int64.le_toInt n, Int64.toInt_lt n⟩

theorem numberValue_printInt (L : Libc) (n : Int64) : numberValue L (printInt n.toInt) = .int n := by
  unfold numberValue
  rw [literalInt_printInt]
  dsimp only
  rw [if_pos (fitsInt64_toInt n), Int64.ofInt_toInt]

theorem length_printInt_le (n : Int64) : (printInt n.toInt).length ≤ maxNumberChars := by
  have hfits := fitsInt64_toInt n
  have hlen : (encode n.toInt.natAbs).length ≤ 19 :=
    length_encode_le (by decide) (by unfold fitsInt64 at hfits; omega)
  unfold printInt maxNumberChars
  split
  · rw [List.length_cons]; omega
  · omega

/-! ## Documents -/

mutual

/-- The document the plain text of a tree without doubles spells. -/
def Doc.ofJson : Json → Doc
  | .null | .double _ => .null
  | .bool b => .bool b
  | .int n => .num (printInt n.toInt)
  | .str s => .str s
  | .arr items => .arr (Doc.ofItems items)
  | .obj members => .obj (Doc.ofMembers members)

def Doc.ofItems : List Json → List Doc
  | [] => []
  | v :: items => Doc.ofJson v :: Doc.ofItems items

def Doc.ofMembers : List (Bytes × Json) → List (Bytes × Doc)
  | [] => []
  | (key, v) :: members => (key, Doc.ofJson v) :: Doc.ofMembers members

end

theorem Doc.ofItems_eq (items : List Json) : Doc.ofItems items = items.map Doc.ofJson := by
  induction items with
  | nil => rfl
  | cons v items ih => rw [Doc.ofItems, ih, List.map_cons]

theorem Doc.ofMembers_eq (members : List (Bytes × Json)) :
    Doc.ofMembers members = members.map fun m => (m.1, Doc.ofJson m.2) := by
  induction members with
  | nil => rfl
  | cons m members ih => rw [Doc.ofMembers, ih, List.map_cons]

theorem lastWins_of_nodup {members : List (Bytes × Json)} (h : (members.map Prod.fst).Nodup) :
    lastWins members = members := by
  induction members using List.reverseRecOn with
  | nil => rfl
  | append_singleton members m ih =>
    rw [List.map_append, List.nodup_append] at h
    rw [lastWins_snoc, ih h.1, setMember_of_notMem]
    intro hmem
    exact h.2.2 m.1 hmem m.1 (by simp) rfl

variable {v : Json}

theorem value_ofJson {L : Libc} (hdouble : v.Every NoDouble)
    (hkeys : v.Every DistinctKeys) : (Doc.ofJson v).value L = v := by
  induction v using Json.node_induction with
  | null => rfl
  | bool b => rfl
  | int n => exact numberValue_printInt L n
  | double d => exact hdouble.self.elim
  | str s => rfl
  | arr items ih =>
    rw [Doc.ofJson, Doc.value, Doc.itemsValue_eq, Doc.ofItems_eq, List.map_map]
    congr 1
    refine (List.map_congr_left fun v hv => ?_).trans (List.map_id _)
    exact ih v hv ((every_arr.1 hdouble).2 v hv) ((every_arr.1 hkeys).2 v hv)
  | obj members ih =>
    have hmembers : (members.map fun m => (m.1, (Doc.ofJson m.2).value L)) = members := by
      refine (List.map_congr_left fun m hm => ?_).trans (List.map_id _)
      rw [ih m hm ((every_obj.1 hdouble).2 m hm) ((every_obj.1 hkeys).2 m hm)]
      rfl
    rw [Doc.ofJson, Doc.value, Doc.membersValue_eq, Doc.ofMembers_eq, List.map_map,
      Function.comp_def, hmembers, lastWins_of_nodup hkeys.self.1]

theorem itemsDepth_le {items : List Json} {d : Nat} :
    itemsDepth items ≤ d ↔ ∀ v ∈ items, v.depth ≤ d := by
  induction items with
  | nil => simp [itemsDepth]
  | cons v items ih => rw [itemsDepth, max_le_iff, ih, List.forall_mem_cons]

theorem membersDepth_le {members : List (Bytes × Json)} {d : Nat} :
    membersDepth members ≤ d ↔ ∀ m ∈ members, m.2.depth ≤ d := by
  induction members with
  | nil => simp [membersDepth]
  | cons m members ih => rw [membersDepth, max_le_iff, ih, List.forall_mem_cons]

theorem within_ofJson (hkeys : v.Every DistinctKeys) :
    ∀ {d : Nat}, v.depth ≤ d → (Doc.ofJson v).Within d := by
  induction v using Json.node_induction with
  | null | bool | double | str =>
    intro d hd
    exact ⟨hd, by simp [Doc.ofJson, Doc.keys], by simp [Doc.ofJson, Doc.tokens]⟩
  | int n =>
    intro d hd
    exact ⟨hd, by simp [Doc.ofJson, Doc.keys],
      by simpa [Doc.ofJson, Doc.tokens] using length_printInt_le n⟩
  | arr items ih =>
    intro d hd
    obtain ⟨d, rfl⟩ : ∃ e, d = e + 1 := ⟨d - 1, by rw [depth] at hd; omega⟩
    rw [Doc.ofJson, Doc.ofItems_eq, Doc.within_arr]
    intro doc hdoc
    obtain ⟨v, hv, rfl⟩ := List.mem_map.mp hdoc
    exact ih v hv ((every_arr.1 hkeys).2 v hv) (itemsDepth_le.1 (Nat.le_of_succ_le_succ hd) v hv)
  | obj members ih =>
    intro d hd
    obtain ⟨d, rfl⟩ : ∃ e, d = e + 1 := ⟨d - 1, by rw [depth] at hd; omega⟩
    rw [Doc.ofJson, Doc.ofMembers_eq, Doc.within_obj]
    intro m' hm'
    obtain ⟨m, hm, rfl⟩ := List.mem_map.mp hm'
    exact ⟨hkeys.self.2 m hm, ih m hm ((every_obj.1 hkeys).2 m hm)
      (membersDepth_le.1 (Nat.le_of_succ_le_succ hd) m hm)⟩

/-! ## Texts -/

/-- Strings and keys are well-formed UTF-8. -/
def Utf8Text : Json → Prop
  | .str s => Utf8.WellFormed s
  | .obj members => ∀ m ∈ members, Utf8.WellFormed m.1
  | _ => True

/-- Texts joined by commas, with no whitespace anywhere. -/
theorem sep_joinComma {α β : Type} {P : β → Bytes → Prop} {f : α → Bytes} {g : α → β} {a : α} :
    ∀ {as : List α}, (∀ x ∈ a :: as, P (g x) (f x)) →
      Sep P ((a :: as).map g) (joinComma ((a :: as).map f)) := by
  intro as
  induction as generalizing a with
  | nil =>
    intro h
    have := Sep.one ws_nil (h a List.mem_cons_self) ws_nil
    simpa [joinComma] using this
  | cons b as ih =>
    intro h
    have hrest := ih fun x hx => h x (List.mem_cons_of_mem _ hx)
    have := Sep.cons ws_nil (h a List.mem_cons_self) ws_nil hrest
    simpa [joinComma] using this

theorem valueText_ofJson {L : Libc} (hdouble : v.Every NoDouble)
    (hkeys : v.Every DistinctKeys) (hutf8 : v.Every Utf8Text) :
    ValueText (Doc.ofJson v) (v.text L false) := by
  induction v using Json.node_induction with
  | null => exact .null
  | bool b =>
    cases b
    · exact .litFalse
    · exact .litTrue
  | int n => exact .num (numberToken_printInt _)
  | double d => exact hdouble.self.elim
  | str s => exact .str (stringToken_quoted hutf8.self)
  | arr items ih =>
    rw [Doc.ofJson, Doc.ofItems_eq, text, itemTexts_eq]
    cases items with
    | nil => exact .arrNil ws_nil
    | cons v items =>
      have hitems : ∀ w ∈ v :: items, ValueText (Doc.ofJson w) (w.text L false) := fun w hw =>
        ih w hw ((every_arr.1 hdouble).2 w hw) ((every_arr.1 hkeys).2 w hw)
          ((every_arr.1 hutf8).2 w hw)
      exact .arr (sep_joinComma hitems)
  | obj members ih =>
    rw [Doc.ofJson, Doc.ofMembers_eq, text, memberTexts_eq]
    rw [inOrder_false, List.map_map]
    cases members with
    | nil => exact .objNil ws_nil
    | cons m members =>
      have hmembers : ∀ w ∈ m :: members, MemberText ValueText (w.1, Doc.ofJson w.2)
          (memberText (w.1, w.2.text L false)) := by
        intro w hw
        have hvalue := ih w hw ((every_obj.1 hdouble).2 w hw) ((every_obj.1 hkeys).2 w hw)
          ((every_obj.1 hutf8).2 w hw)
        have := MemberText.mk (stringToken_quoted (hutf8.self w hw)) ws_nil ws_nil hvalue
        simpa [memberText, cstr_of_nulFree (hkeys.self.2 w hw)] using this
      exact .obj (sep_joinComma hmembers)

/-! ## The round trip -/

theorem depth_arrange_le : ∀ {d : Nat}, v.depth ≤ d → v.arrange.depth ≤ d := by
  induction v using Json.node_induction with
  | null | bool | int | double | str => exact fun hd => hd
  | arr items ih =>
    intro d hd
    obtain ⟨d, rfl⟩ : ∃ e, d = e + 1 := ⟨d - 1, by rw [depth] at hd; omega⟩
    have hitems := itemsDepth_le.1 (Nat.le_of_succ_le_succ hd)
    rw [arrange_arr, depth]
    refine Nat.succ_le_succ (itemsDepth_le.2 fun w hw => ?_)
    obtain ⟨v, hv, rfl⟩ := List.mem_map.mp hw
    exact ih v hv (hitems v hv)
  | obj members ih =>
    intro d hd
    obtain ⟨d, rfl⟩ : ∃ e, d = e + 1 := ⟨d - 1, by rw [depth] at hd; omega⟩
    have hmembers := membersDepth_le.1 (Nat.le_of_succ_le_succ hd)
    rw [arrange_obj, depth]
    refine Nat.succ_le_succ (membersDepth_le.2 fun w hw => ?_)
    obtain ⟨m, hm, rfl⟩ := List.mem_map.mp hw
    have hm := (inOrder_perm true members).mem_iff.mp hm
    exact ih m hm (hmembers m hm)

theorem utf8Text_arrange (hv : v.Every Utf8Text) : v.arrange.Every Utf8Text := by
  refine every_arrange (fun _ _ _ _ => trivial) (fun members members' hperm h m hm => ?_) hv
  obtain ⟨m', hm', hkey⟩ := List.mem_map.mp (hperm.mem_iff.mp (List.mem_map_of_mem hm))
  rw [← hkey]
  exact h m' hm'

/-- The numbers of a tree's document are integers of the tree, so none of them is read by `strtod`. -/
theorem tokens_ofJson {t : Bytes} (h : t ∈ (Doc.ofJson v).tokens) : ∃ n : Int64, t = printInt n.toInt := by
  induction v using Json.node_induction with
  | null | bool | double | str => simp [Doc.ofJson, Doc.tokens] at h
  | int n =>
    rw [Doc.ofJson] at h
    exact ⟨n, List.mem_singleton.mp h⟩
  | arr items ih =>
    rw [Doc.ofJson, Doc.ofItems_eq] at h
    obtain ⟨doc, hdoc, ht⟩ := Doc.mem_itemsTokens.1 h
    obtain ⟨v, hv, rfl⟩ := List.mem_map.mp hdoc
    exact ih v hv ht
  | obj members ih =>
    rw [Doc.ofJson, Doc.ofMembers_eq] at h
    obtain ⟨m', hm', ht⟩ := Doc.mem_membersTokens.1 h
    obtain ⟨m, hm, rfl⟩ := List.mem_map.mp hm'
    exact ih m hm ht

/-- Parsing the plain text of a tree gives the tree. -/
theorem parse_text {L : Libc} (hdouble : v.Every NoDouble)
    (hkeys : v.Every DistinctKeys) (hutf8 : v.Every Utf8Text) (hdepth : v.depth ≤ maxDepth)
    (hlen : (v.text L false).length ≤ maxReasonableLen) :
    (parse L (some (v.text L false))).ok = .ok v := by
  have htext : Text (Doc.ofJson v) (v.text L false) :=
    ⟨[], v.text L false, [], ws_nil, valueText_ofJson hdouble hkeys hutf8, ws_nil, by simp⟩
  have hread : ∀ t ∈ (Doc.ofJson v).tokens, NumberToken t → TokenRead L t := by
    intro t ht _
    obtain ⟨n, rfl⟩ := tokens_ofJson ht
    exact Or.inl ⟨_, literalInt_printInt _, fitsInt64_toInt n⟩
  have hyields := parse_yields_of_read (F := False) htext (within_ofJson hkeys hdepth) hread hlen
  rw [value_ofJson hdouble hkeys] at hyields
  exact hyields.ok_eq fun e he => he.1

theorem write_text {L : Libc} {canonical : Bool} {σ : Nat → Bool} {t : Bytes}
    (h : (writeImpl L canonical v).under σ = some t) : t = v.text L canonical := by
  have hcan := (writeImpl L canonical v).can_under σ
  rw [h] at hcan
  rcases writeImpl_can hcan with ht | ⟨ht, -⟩
  · injection ht
  · cases ht

/-- **Round trip.** Whatever the serializer's allocations did, if it returned a text then parsing the
    text gives the tree back: exactly, or for canonical output up to the order of members. -/
theorem write_parse_round_trip {L : Libc} {v : Json}
    (hdouble : v.Every NoDouble) (hkeys : v.Every DistinctKeys) (hutf8 : v.Every Utf8Text)
    (hdepth : v.depth ≤ 64) :
    (∀ σ t, (write L v).under σ = some t → t.length ≤ 16 * 1024 * 1024 →
      (parse L (some t)).ok = .ok v) ∧
    (∀ σ t, (writeCanonical L v).under σ = some t → t.length ≤ 16 * 1024 * 1024 →
      ∃ w, (parse L (some t)).ok = .ok w ∧ EqUpToOrder v w) := by
  constructor
  · intro σ t ht hlen
    obtain rfl := write_text ht
    exact parse_text hdouble hkeys hutf8 hdepth hlen
  · intro σ t ht hlen
    obtain rfl := write_text ht
    rw [text_arrange] at hlen ⊢
    exact ⟨v.arrange, parse_text (noDouble_arrange hdouble) (distinctKeys_arrange hkeys)
      (utf8Text_arrange hutf8) (depth_arrange_le hdepth) hlen, eqUpToOrder_arrange v⟩

/-- A NUL and a two-byte character in a string, and members out of order. -/
def roundTripTree : Json :=
  .obj [(ascii "b", .str [0x00, 0xC3, 0xA9]), (ascii "a", .arr [.int (-5), .null])]

theorem roundTripTree_utf8 : roundTripTree.Every Utf8Text := by
  have hstr : Utf8.WellFormed [0x00, 0xC3, 0xA9] := .cons (Char.ofNat 0) (.cons (Char.ofNat 0xE9) .nil)
  have hb : Utf8.WellFormed (ascii "b") := .cons 'b' .nil
  have ha : Utf8.WellFormed (ascii "a") := .cons 'a' .nil
  simp [roundTripTree, Utf8Text, hstr, hb, ha]

/-- `{"a":[-5,null],"b":"\u0000é"}`. -/
def roundTripText : Bytes :=
  ascii "\x7b\x22a\x22:[-5,null],\x22b\x22:\x22\\u0000" ++ [0xC3, 0xA9] ++ ascii "\x22\x7d"

theorem write_parse_round_trip_tree :
    (writeCanonical halfLibc roundTripTree).under (fun _ => true) = some roundTripText ∧
      ∃ w, (parse halfLibc (some roundTripText)).ok = .ok w ∧ EqUpToOrder roundTripTree w := by
  have hwrite : (writeCanonical halfLibc roundTripTree).under (fun _ => true) =
      some roundTripText := by decide +kernel
  have hround := write_parse_round_trip (L := halfLibc) (v := roundTripTree)
    (by simp [roundTripTree, NoDouble]) (by simp [roundTripTree, DistinctKeys]; decide)
    roundTripTree_utf8 (by decide)
  exact ⟨hwrite, hround.2 _ _ hwrite (by decide)⟩

end Json

end Tamga
