import Tamga.Json.RoundTrip

/-!
# `Json.CanonicalForm` — equal bytes mean equal trees

Plain text is **readable**: put anything that cannot continue a value (`Stops`) behind the texts of two
trees, and if the results are equal then so are the trees and what was put behind them
(`text_readable`). No string has to be valid UTF-8 for this. With one arranged tree for each class of
trees equal up to member order, canonical output is a canonical form.
-/

namespace Tamga

namespace Json

/-- What may stand behind a value. -/
def Stops (x : Bytes) : Prop := x = [] ∨ ∃ c s, x = c :: s ∧ (c = comma ∨ c = rbracket ∨ c = rbrace)

theorem Stops.numberEnds {x : Bytes} (h : Stops x) : NumberEnds x := by
  rcases h with rfl | ⟨c, s, rfl, rfl | rfl | rfl⟩
  · exact numberEnds_nil
  all_goals exact ⟨by rw [peek_cons]; decide, by rw [peek_cons]; decide, by rw [peek_cons]; decide,
    by rw [peek_cons]; decide⟩

/-! ## Strings -/

theorem HexDigit.unique {c : UInt8} {v w : Nat} (hv : HexDigit c v) (hw : HexDigit c w) : v = w := by
  unfold HexDigit at hv hw
  omega

theorem shortEscapes_unique {letter c d : UInt8} (hc : (letter, c) ∈ shortEscapes)
    (hd : (letter, d) ∈ shortEscapes) : c = d := by
  rw [← shortEscape_iff] at hc hd
  rw [hc] at hd
  injection hd

theorem shortEscapes_ne_u {c : UInt8} : (0x75, c) ∉ shortEscapes := by
  rw [← shortEscape_iff, show shortEscape 0x75 = none by decide]
  exact nofun

/-- No escape is a proper beginning of another. -/
theorem EscapeCase.readable {c d : UInt8} {t u x y : Bytes} (hc : EscapeCase c t)
    (hd : EscapeCase d u) (h : t ++ x = u ++ y) : c = d ∧ x = y := by
  cases hc with
  | raw _ _ hc =>
    cases hd with
    | raw => injection h with h h'; exact ⟨h, h'⟩
    | short => injection h with h; exact absurd h hc
    | control => injection h with h; exact absurd h hc
  | short hc =>
    cases hd with
    | raw _ _ hd => injection h with h; exact absurd h.symm hd
    | short hd =>
      injection h with _ h
      injection h with hletter h
      subst hletter
      exact ⟨shortEscapes_unique hc hd, h⟩
    | control =>
      injection h with _ h
      injection h with hletter
      subst hletter
      exact absurd hc shortEscapes_ne_u
  | control _ hhi hlo =>
    cases hd with
    | raw _ _ hd => injection h with h; exact absurd h.symm hd
    | short hd =>
      injection h with _ h
      injection h with hletter
      subst hletter
      exact absurd hd shortEscapes_ne_u
    | control _ hhi' hlo' =>
      simp only [List.cons_append, List.nil_append, List.cons.injEq, true_and] at h
      obtain ⟨rfl, rfl, h⟩ := h
      have := hhi.unique hhi'
      have := hlo.unique hlo'
      exact ⟨UInt8.toNat_inj.mp (by omega), h⟩

theorem EscapeCase.head_ne_quote {c : UInt8} {t x y : Bytes} (hc : EscapeCase c t) :
    t ++ x ≠ quote :: y := by
  intro h
  cases hc with
  | raw _ hquote _ => injection h with h; exact hquote h
  | short => injection h with h; exact absurd h (by decide)
  | control => injection h with h; exact absurd h (by decide)

theorem quoted_readable {a b x y : Bytes} (h : quoted a ++ x = quoted b ++ y) : a = b ∧ x = y := by
  have hbody : escape a ++ quote :: x = escape b ++ quote :: y := by
    unfold quoted at h
    injection h with _ h
    simpa using h
  clear h
  induction a generalizing b with
  | nil =>
    cases b with
    | nil => injection hbody with _ h; exact ⟨rfl, h⟩
    | cons d b =>
      rw [escape, escape, List.flatMap_cons, List.append_assoc] at hbody
      exact absurd hbody.symm (escapeByte_cases d).head_ne_quote
  | cons c a ih =>
    rw [escape, List.flatMap_cons, List.append_assoc] at hbody
    cases b with
    | nil => exact absurd hbody (escapeByte_cases c).head_ne_quote
    | cons d b =>
      rw [escape, List.flatMap_cons, List.append_assoc] at hbody
      obtain ⟨rfl, hrest⟩ := (escapeByte_cases c).readable (escapeByte_cases d) hbody
      obtain ⟨rfl, rfl⟩ := ih hrest
      exact ⟨rfl, rfl⟩

/-! ## Numbers -/

/-- A number is told from any other by where it ends. -/
theorem number_readable {t u x y : Bytes} (ht : NumberToken t) (hu : NumberToken u)
    (hx : NumberEnds x) (hy : NumberEnds y) (h : t ++ x = u ++ y) : t = u ∧ x = y := by
  obtain ⟨_, hn⟩ := scanNumber_complete ht hx
  obtain ⟨_, hm⟩ := scanNumber_complete hu hy
  rw [h, hm] at hn
  injection hn with hn
  injection hn with htoken _ hrest
  exact ⟨htoken.symm, hrest.symm⟩

theorem printInt_inj {n m : Int} (h : printInt n = printInt m) : n = m := by
  have := literalInt_printInt m
  rw [← h, literalInt_printInt n] at this
  injection this

/-! ## Lists -/

section Lists

variable {α : Type} {f : α → Bytes} {P : α → Prop} {close : UInt8}

/-- `f a` can be told from any `f b` in front of what stops it. -/
def Readable (f : α → Bytes) (P : α → Prop) (a : α) : Prop :=
  ∀ b, P b → ∀ x y, Stops x → Stops y → f a ++ x = f b ++ y → a = b ∧ x = y

theorem stops_more (hclose : close = rbracket ∨ close = rbrace) (ts : List Bytes) (x : Bytes) :
    Stops ((ts.flatMap fun t => comma :: t) ++ close :: x) := by
  cases ts with
  | nil => exact Or.inr ⟨close, x, rfl, Or.inr hclose⟩
  | cons t ts => exact Or.inr ⟨comma, _, rfl, Or.inl rfl⟩

theorem more_readable (hclose : close = rbracket ∨ close = rbrace) :
    ∀ {as bs : List α}, (∀ a ∈ as, Readable f P a) → (∀ b ∈ bs, P b) → ∀ x y,
      ((as.map f).flatMap fun t => comma :: t) ++ close :: x =
        ((bs.map f).flatMap fun t => comma :: t) ++ close :: y → as = bs ∧ x = y := by
  have hne : close ≠ comma := by rcases hclose with rfl | rfl <;> decide
  intro as
  induction as with
  | nil =>
    intro bs _ _ x y h
    cases bs with
    | nil => injection h with _ h; exact ⟨rfl, h⟩
    | cons b bs => injection h with h; exact absurd h hne
  | cons a as ih =>
    intro bs hread hP x y h
    cases bs with
    | nil => injection h with h; exact absurd h.symm hne
    | cons b bs =>
      simp only [List.map_cons, List.flatMap_cons, List.cons_append, List.append_assoc,
        List.cons.injEq, true_and] at h
      obtain ⟨rfl, hrest⟩ := hread a List.mem_cons_self b (hP b List.mem_cons_self) _ _
        (stops_more hclose _ _) (stops_more hclose _ _) h
      obtain ⟨rfl, rfl⟩ := ih (fun a' ha' => hread a' (List.mem_cons_of_mem _ ha'))
        (fun b' hb' => hP b' (List.mem_cons_of_mem _ hb')) x y hrest
      exact ⟨rfl, rfl⟩

theorem joinComma_readable (hclose : close = rbracket ∨ close = rbrace) {as bs : List α}
    (hread : ∀ a ∈ as, Readable f P a) (hPa : ∀ a ∈ as, P a) (hPb : ∀ b ∈ bs, P b)
    (hhead : ∀ a, P a → ∀ x y, f a ++ x ≠ close :: y) {x y : Bytes}
    (h : joinComma (as.map f) ++ close :: x = joinComma (bs.map f) ++ close :: y) :
    as = bs ∧ x = y := by
  cases as with
  | nil =>
    cases bs with
    | nil => injection h with _ h; exact ⟨rfl, h⟩
    | cons b bs =>
      rw [List.map_cons, joinComma, List.append_assoc] at h
      exact absurd h.symm (hhead b (hPb b List.mem_cons_self) _ _)
  | cons a as =>
    rw [List.map_cons, joinComma, List.append_assoc] at h
    cases bs with
    | nil => exact absurd h (hhead a (hPa a List.mem_cons_self) _ _)
    | cons b bs =>
      rw [List.map_cons, joinComma, List.append_assoc] at h
      obtain ⟨rfl, hrest⟩ := hread a List.mem_cons_self b (hPb b List.mem_cons_self) _ _
        (stops_more hclose _ _) (stops_more hclose _ _) h
      obtain ⟨rfl, rfl⟩ := more_readable hclose
        (fun a' ha' => hread a' (List.mem_cons_of_mem _ ha'))
        (fun b' hb' => hPb b' (List.mem_cons_of_mem _ hb')) x y hrest
      exact ⟨rfl, rfl⟩

end Lists

/-! ## Values -/

/-- The seven ways a value can begin. -/
inductive Kind where
  | null
  | litTrue
  | litFalse
  | number
  | string
  | array
  | object
  deriving DecidableEq

def kind : Json → Kind
  | .null => .null
  | .bool true => .litTrue
  | .bool false => .litFalse
  | .int _ | .double _ => .number
  | .str _ => .string
  | .arr _ => .array
  | .obj _ => .object

/-- The kind a first byte announces. -/
def kindOfByte (c : UInt8) : Option Kind :=
  if c = 0x6E then some .null
  else if c = 0x74 then some .litTrue
  else if c = 0x66 then some .litFalse
  else if c = quote then some .string
  else if c = lbracket then some .array
  else if c = lbrace then some .object
  else if c = 0x2D ∨ Decimal.isDigit c then some .number
  else none

theorem kindOfByte_digit {c : UInt8} (h : Decimal.isDigit c = true) : kindOfByte c = some .number := by
  have hlt := Decimal.isDigit_iff.1 h
  have hne : ∀ d : UInt8, d.toNat < 48 ∨ 57 < d.toNat → c ≠ d := by
    rintro d hd rfl
    omega
  unfold kindOfByte
  rw [if_neg (hne _ (by decide)), if_neg (hne _ (by decide)), if_neg (hne _ (by decide)),
    if_neg (hne _ (by decide)), if_neg (hne _ (by decide)), if_neg (hne _ (by decide)),
    if_pos (Or.inr h)]

theorem NumberToken.kindOfByte {t : Bytes} (h : NumberToken t) :
    ∃ c s, t = c :: s ∧ kindOfByte c = some .number := by
  obtain ⟨c, s, rfl, rfl | hc⟩ := h.head
  · exact ⟨_, _, rfl, rfl⟩
  · exact ⟨c, s, rfl, kindOfByte_digit hc⟩

/-- A number that its text identifies: a double is written with a fraction or an exponent, and
    `strtod` reads it back as it was. -/
def Recoverable (L : Libc) : Json → Prop
  | .double d => NumberToken (doubleText L d) ∧ literalInt (doubleText L d) = none ∧
      (L.strtod (doubleText L d)).1 = d
  | _ => True

variable {L : Libc}

theorem text_head {v : Json} (hv : Recoverable L v) :
    ∃ c t, v.text L false = c :: t ∧ kindOfByte c = some v.kind := by
  cases v with
  | null => exact ⟨_, _, rfl, rfl⟩
  | bool b => cases b <;> exact ⟨_, _, rfl, rfl⟩
  | int n => exact (numberToken_printInt n.toInt).kindOfByte
  | double d => exact hv.1.kindOfByte
  | str s => exact ⟨_, _, rfl, rfl⟩
  | arr items => exact ⟨_, _, rfl, rfl⟩
  | obj members => exact ⟨_, _, rfl, rfl⟩

/-- What the serializer can be read back from. -/
def Legible (v : Json) : Prop := v.Every NoDouble ∧ v.Every DistinctKeys

/-- The same with the doubles a text identifies. -/
def Identified (L : Libc) (v : Json) : Prop := v.Every (Recoverable L) ∧ v.Every DistinctKeys

theorem Legible.identified {v : Json} (h : Legible v) : Identified L v :=
  ⟨h.1.mono fun w hw => by
    cases w with
    | double d => exact hw.elim
    | _ => trivial, h.2⟩

theorem kind_eq_of_text {a b : Json} (ha : Recoverable L a) (hb : Recoverable L b) {x y : Bytes}
    (h : a.text L false ++ x = b.text L false ++ y) : a.kind = b.kind := by
  obtain ⟨c, t, hc, hkind⟩ := @text_head L a ha
  obtain ⟨d, u, hd, hkind'⟩ := @text_head L b hb
  rw [hc, hd] at h
  injection h with h
  rw [h, hkind'] at hkind
  injection hkind with hkind
  exact hkind.symm

theorem text_ne_close {v : Json} (hv : Recoverable L v) {close : UInt8}
    (hclose : kindOfByte close = none) {x y : Bytes} : v.text L false ++ x ≠ close :: y := by
  obtain ⟨c, t, hc, hkind⟩ := @text_head L v hv
  rw [hc]
  intro h
  injection h with h
  rw [h, hclose] at hkind
  cases hkind

theorem identified_item {items : List Json} (h : Identified L (.arr items)) :
    ∀ v ∈ items, Identified L v :=
  fun v hv => ⟨(every_arr.1 h.1).2 v hv, (every_arr.1 h.2).2 v hv⟩

theorem identified_member {members : List (Bytes × Json)}
    (h : Identified L (.obj members)) : ∀ m ∈ members, NulFree m.1 ∧ Identified L m.2 :=
  fun m hm => ⟨h.2.self.2 m hm, (every_obj.1 h.1).2 m hm, (every_obj.1 h.2).2 m hm⟩

theorem member_readable {m : Bytes × Json} (hkey : NulFree m.1)
    (h : Readable (text L false) (Identified L) m.2) :
    Readable (fun m => memberText (m.1, m.2.text L false)) (fun m => NulFree m.1 ∧ Identified L m.2) m := by
  intro m' hm' x y hx hy heq
  simp only [memberText, cstr_of_nulFree hkey, cstr_of_nulFree hm'.1, List.append_assoc,
    List.cons_append] at heq
  obtain ⟨hkeys, hrest⟩ := quoted_readable heq
  injection hrest with _ hrest
  obtain ⟨hvalues, hxy⟩ := h m'.2 hm'.2 x y hx hy hrest
  exact ⟨Prod.ext hkeys hvalues, hxy⟩

/-- **Readability.** The text of a tree determines the tree, whatever follows it. -/
theorem text_readable (L : Libc) {a : Json} (ha : Identified L a) :
    Readable (text L false) (Identified L) a := by
  induction a using Json.node_induction with
  | null =>
    intro b hb x y _ _ h
    have hkind := kind_eq_of_text ha.1.self hb.1.self h
    cases b with
    | null => exact ⟨rfl, List.append_cancel_left h⟩
    | bool w => cases w <;> cases hkind
    | _ => cases hkind
  | bool v =>
    intro b hb x y _ _ h
    have hkind := kind_eq_of_text ha.1.self hb.1.self h
    cases b with
    | bool w =>
      have hvw : v = w := by cases v <;> cases w <;> first | rfl | cases hkind
      subst hvw
      exact ⟨rfl, List.append_cancel_left h⟩
    | _ => cases v <;> cases hkind
  | int n =>
    intro b hb x y hx hy h
    have hkind := kind_eq_of_text ha.1.self hb.1.self h
    cases b with
    | bool w => cases w <;> cases hkind
    | int m =>
      obtain ⟨hnm, hxy⟩ := number_readable (numberToken_printInt _) (numberToken_printInt _)
        hx.numberEnds hy.numberEnds h
      exact ⟨by rw [Int64.toInt_inj.mp (printInt_inj hnm)], hxy⟩
    | double d =>
      -- only the integer is spelled without fraction and exponent
      obtain ⟨htoken, hliteral, -⟩ := hb.1.self
      obtain ⟨heq, -⟩ := number_readable (numberToken_printInt _) htoken hx.numberEnds
        hy.numberEnds h
      rw [← heq, literalInt_printInt] at hliteral
      cases hliteral
    | _ => cases hkind
  | double d =>
    intro b hb x y hx hy h
    have hkind := kind_eq_of_text ha.1.self hb.1.self h
    obtain ⟨htoken, hliteral, hread⟩ := ha.1.self
    cases b with
    | bool w => cases w <;> cases hkind
    | int m =>
      obtain ⟨heq, -⟩ := number_readable htoken (numberToken_printInt _) hx.numberEnds
        hy.numberEnds h
      rw [heq, literalInt_printInt] at hliteral
      cases hliteral
    | double d' =>
      obtain ⟨htoken', -, hread'⟩ := hb.1.self
      obtain ⟨heq, hxy⟩ := number_readable htoken htoken' hx.numberEnds hy.numberEnds h
      rw [heq, hread'] at hread
      exact ⟨by rw [hread], hxy⟩
    | _ => cases hkind
  | str s =>
    intro b hb x y _ _ h
    have hkind := kind_eq_of_text ha.1.self hb.1.self h
    cases b with
    | bool w => cases w <;> cases hkind
    | str s' =>
      obtain ⟨rfl, hxy⟩ := quoted_readable h
      exact ⟨rfl, hxy⟩
    | _ => cases hkind
  | arr items ih =>
    intro b hb x y _ _ h
    have hkind := kind_eq_of_text ha.1.self hb.1.self h
    cases b with
    | bool w => cases w <;> cases hkind
    | arr items' =>
      simp only [text, itemTexts_eq, List.cons_append, List.append_assoc, List.nil_append,
        List.cons.injEq, true_and] at h
      obtain ⟨rfl, hxy⟩ := joinComma_readable (Or.inl rfl)
        (fun v hv => ih v hv (identified_item ha v hv)) (identified_item ha) (identified_item hb)
        (fun v hv _ _ => text_ne_close hv.1.self rfl) h
      exact ⟨rfl, hxy⟩
    | _ => cases hkind
  | obj members ih =>
    intro b hb x y _ _ h
    have hkind := kind_eq_of_text ha.1.self hb.1.self h
    cases b with
    | bool w => cases w <;> cases hkind
    | obj members' =>
      simp only [text, memberTexts_eq, inOrder_false, List.map_map, Function.comp_def, List.cons_append,
        List.append_assoc, List.nil_append, List.cons.injEq, true_and] at h
      -- a member begins with a quote, not with a closing brace
      obtain ⟨rfl, hxy⟩ := joinComma_readable (Or.inr rfl)
        (fun m hm => member_readable (identified_member ha m hm).1
          (ih m hm (identified_member ha m hm).2)) (identified_member ha) (identified_member hb)
        (fun m _ _ _ heq => by injection heq with heq; exact absurd heq (by decide)) h
      exact ⟨rfl, hxy⟩
    | _ => cases hkind

theorem text_injective {a b : Json} (ha : Identified L a) (hb : Identified L b)
    (h : a.text L false = b.text L false) : a = b :=
  (text_readable L ha b hb [] [] (Or.inl rfl) (Or.inl rfl) (by rw [h])).1

/-! ## Canonical output -/

theorem Legible.arrange {v : Json} (h : Legible v) : Legible v.arrange :=
  ⟨noDouble_arrange h.1, distinctKeys_arrange h.2⟩

/-- **A canonical form.** Two trees that are serialized at all are serialized alike iff they are equal
    up to the order of members; and the output is the plain text of a tree whose objects all list
    their keys in strictly ascending order of their bytes. -/
theorem writeCanonical_canonical {L : Libc} {a b : Json} (hdouble : a.Every NoDouble)
    (hkeys : a.Every DistinctKeys) (hdouble' : b.Every NoDouble) (hkeys' : b.Every DistinctKeys)
    {σ σ' : Nat → Bool} {ta tb : Bytes} (ha : (writeCanonical L a).under σ = some ta)
    (hb : (writeCanonical L b).under σ' = some tb) :
    (ta = tb ↔ EqUpToOrder a b) ∧
      ∃ w, EqUpToOrder a w ∧ w.Every Ascending ∧ ta = w.text L false := by
  obtain rfl := write_text ha
  obtain rfl := write_text hb
  have hla : Legible a := ⟨hdouble, hkeys⟩
  have hlb : Legible b := ⟨hdouble', hkeys'⟩
  refine ⟨?_, a.arrange, eqUpToOrder_arrange a, arrange_ascending hkeys, text_arrange L a⟩
  rw [text_arrange, text_arrange, eqUpToOrder_iff hkeys]
  constructor
  · exact text_injective hla.arrange.identified hlb.arrange.identified
  · intro h; rw [h]

/-- `{"a":"…","b":1}`, the string not even UTF-8. -/
def reorderedText : Bytes := ascii "\x7b\x22a\x22:\x22" ++ [0xFF] ++ ascii "\x22,\x22b\x22:1\x7d"

theorem writeCanonical_canonical_reordered :
    (writeCanonical halfLibc (.obj [(ascii "b", .int 1), (ascii "a", .str [0xFF])])).under
        (fun _ => true) = some reorderedText ∧
      (writeCanonical halfLibc (.obj [(ascii "a", .str [0xFF]), (ascii "b", .int 1)])).under
        (fun _ => true) = some reorderedText ∧
      EqUpToOrder (.obj [(ascii "b", .int 1), (ascii "a", .str [0xFF])])
        (.obj [(ascii "a", .str [0xFF]), (ascii "b", .int 1)]) := by
  have hkeys : NulFree (ascii "a") ∧ NulFree (ascii "b") ∧ ascii "a" ≠ ascii "b" := by decide
  have hfirst : (writeCanonical halfLibc (.obj [(ascii "b", .int 1), (ascii "a", .str [0xFF])])).under
      (fun _ => true) = some reorderedText := by decide +kernel
  have hsecond : (writeCanonical halfLibc (.obj [(ascii "a", .str [0xFF]), (ascii "b", .int 1)])).under
      (fun _ => true) = some reorderedText := by decide +kernel
  refine ⟨hfirst, hsecond, (writeCanonical_canonical ?_ ?_ ?_ ?_ hfirst hsecond).1.mp rfl⟩
  · simp [NoDouble]
  · simp [DistinctKeys, hkeys, hkeys.2.2.symm]
  · simp [NoDouble]
  · simp [DistinctKeys, hkeys]

end Json

end Tamga
