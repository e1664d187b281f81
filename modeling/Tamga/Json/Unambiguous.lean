import Tamga.Json.CanonicalForm
import Tamga.Json.Floating
import Tamga.Json.ParseMemory

/-!
# `Json.Unambiguous` — a text has one document

Two documents with one text are the same (`text_unique`). The induction carries what stands behind
the value: a value is recognised by its first byte and ends where its own closing byte, or a byte
that cannot continue a number, says so.
-/

namespace Tamga

namespace Json

/-! ## Whitespace and strings -/

/-- Whitespace ends where something else begins. -/
theorem ws_split {w w' s s' : Bytes} (hw : Ws w) (hw' : Ws w')
    (hs : ∃ c u, s = c :: u ∧ isWs c = false) (hs' : ∃ c u, s' = c :: u ∧ isWs c = false)
    (h : w ++ s = w' ++ s') : s = s' := by
  have := congrArg skipWs h
  rwa [skipWs_append hw, skipWs_append hw', skipWs_of_notWs hs, skipWs_of_notWs hs'] at this

theorem stringBody_unique {bytes body : Bytes} (h : StringBody bytes body) :
    ∀ {bytes' body' x y : Bytes}, StringBody bytes' body' →
      body ++ quote :: x = body' ++ quote :: y → bytes = bytes' ∧ x = y := by
  -- no round of the string loop is both a character and the closing quote
  have hclose : ∀ {b t rest x : Bytes}, Piece b t → t ++ rest ≠ quote :: x := by
    intro b t rest x hp heq
    obtain ⟨r, hr, hy⟩ := stringRound_complete hp rest
    rw [heq, stringRound_quote] at hr
    injection hr with hr
    rw [← hr] at hy
    cases hy
  induction h with
  | nil =>
    intro bytes' body' x y h' heq
    cases h' with
    | nil => injection heq with _ heq; exact ⟨rfl, heq⟩
    | cons hp _ =>
      rw [List.append_assoc] at heq
      exact absurd heq.symm (hclose hp)
  | @cons b t bs ts hp _ ih =>
    intro bytes' body' x y h' heq
    rw [List.append_assoc] at heq
    cases h' with
    | nil => exact absurd heq (hclose hp)
    | @cons b' t' bs' ts' hp' hbody' =>
      rw [List.append_assoc] at heq
      obtain ⟨r, hr, hy⟩ := stringRound_complete hp (ts ++ quote :: x)
      obtain ⟨r', hr', hy'⟩ := stringRound_complete hp' (ts' ++ quote :: y)
      rw [heq, hr'] at hr
      injection hr with hr
      rw [← hr, hy'] at hy
      injection hy with hy
      injection hy with hb hrest
      obtain ⟨rfl, hxy⟩ := ih hbody' hrest.symm
      exact ⟨by rw [hb], hxy⟩

theorem stringToken_unique {bytes bytes' t u x y : Bytes} (h : StringToken bytes t)
    (h' : StringToken bytes' u) (heq : t ++ x = u ++ y) : bytes = bytes' ∧ x = y := by
  obtain ⟨hbody⟩ := h
  obtain ⟨hbody'⟩ := h'
  simp only [List.cons_append, List.append_assoc, List.nil_append, List.cons.injEq, true_and] at heq
  exact stringBody_unique hbody hbody' heq

/-! ## Lists -/

section Lists

variable {α : Type} {P : α → Bytes → Prop} {close : UInt8}

/-- `a` is the only one with its text, whatever ends a number standing behind it. -/
def UniqueText (P : α → Bytes → Prop) (a : α) : Prop :=
  ∀ b t u x y, P a t → P b u → NumberEnds x → NumberEnds y → t ++ x = u ++ y → a = b ∧ x = y

/-- A byte that closes a list or separates its elements. -/
def EndsElement (c : UInt8) : Prop := c = comma ∨ c = rbracket ∨ c = rbrace

theorem EndsElement.notWs {c : UInt8} (h : EndsElement c) : isWs c = false := by
  rcases h with rfl | rfl | rfl <;> decide

theorem EndsElement.numberEnds {c : UInt8} (h : EndsElement c) (x : Bytes) : NumberEnds (c :: x) := by
  rcases h with rfl | rfl | rfl <;> exact numberEnds_cons x (by decide)

/-- One element with the whitespace around it, and the byte after it. -/
theorem element_unique {a b : α} {before before' t u after after' x y : Bytes} {c c' : UInt8}
    (hhead : ∀ a t, P a t → ∃ c u, t = c :: u ∧ isWs c = false) (hP : UniqueText P a) (ha : P a t)
    (hb : P b u) (hbefore : Ws before) (hbefore' : Ws before') (hafter : Ws after)
    (hafter' : Ws after') (hc : EndsElement c) (hc' : EndsElement c')
    (heq : before ++ (t ++ (after ++ c :: x)) = before' ++ (u ++ (after' ++ c' :: y))) :
    a = b ∧ c = c' ∧ x = y := by
  have hfront : ∀ {a t}, P a t → ∀ x, ∃ c u, t ++ x = c :: u ∧ isWs c = false := by
    intro a t ha x
    obtain ⟨c, u, rfl, hc⟩ := hhead a t ha
    exact ⟨c, _, rfl, hc⟩
  have helement := ws_split hbefore hbefore' (hfront ha _) (hfront hb _) heq
  obtain ⟨rfl, hrest⟩ := hP b t u _ _ ha hb (NumberEnds.append hafter (hc.numberEnds x))
    (NumberEnds.append hafter' (hc'.numberEnds y)) helement
  have hend := ws_split hafter hafter' ⟨_, _, rfl, hc.notWs⟩ ⟨_, _, rfl, hc'.notWs⟩ hrest
  injection hend with hcc hxy
  exact ⟨rfl, hcc, hxy⟩

variable {t : Bytes}

theorem sep_unique (hclose : EndsElement close) (hne : close ≠ comma)
    (hhead : ∀ a t, P a t → ∃ c u, t = c :: u ∧ isWs c = false) {as : List α}
    (h : Sep P as t) (hP : ∀ a ∈ as, UniqueText P a) :
    ∀ {bs : List α} {u x y : Bytes}, Sep P bs u → t ++ close :: x = u ++ close :: y →
      as = bs ∧ x = y := by
  have hcomma : EndsElement comma := Or.inl rfl
  induction h with
  | one hbefore ha hafter =>
    intro bs u x y h' heq
    have hunique := hP _ List.mem_cons_self
    cases h' with
    | one hbefore' hb hafter' =>
      simp only [List.append_assoc] at heq
      obtain ⟨rfl, -, rfl⟩ := element_unique hhead hunique ha hb hbefore hbefore' hafter hafter'
        hclose hclose heq
      exact ⟨rfl, rfl⟩
    | cons hbefore' hb hafter' =>
      simp only [List.append_assoc, List.cons_append] at heq
      obtain ⟨-, hbad, -⟩ := element_unique hhead hunique ha hb hbefore hbefore' hafter hafter'
        hclose hcomma heq
      exact absurd hbad hne
  | cons hbefore ha hafter _ ih =>
    intro bs u x y h' heq
    have hunique := hP _ List.mem_cons_self
    cases h' with
    | one hbefore' hb hafter' =>
      simp only [List.append_assoc, List.cons_append] at heq
      obtain ⟨-, hbad, -⟩ := element_unique hhead hunique ha hb hbefore hbefore' hafter hafter'
        hcomma hclose heq
      exact absurd hbad.symm hne
    | cons hbefore' hb hafter' hrest =>
      simp only [List.append_assoc, List.cons_append] at heq
      obtain ⟨rfl, -, hmore⟩ := element_unique hhead hunique ha hb hbefore hbefore' hafter hafter'
        hcomma hcomma heq
      obtain ⟨rfl, rfl⟩ := ih (fun a' ha' => hP a' (List.mem_cons_of_mem _ ha')) hrest hmore
      exact ⟨rfl, rfl⟩

/-- What stands between the brackets: whitespace, or elements. -/
def Inside (P : α → Bytes → Prop) (as : List α) (t : Bytes) : Prop := as = [] ∧ Ws t ∨ Sep P as t

theorem inside_unique (hclose : EndsElement close) (hne : close ≠ comma)
    (hhead : ∀ a t, P a t → ∃ c u, t = c :: u ∧ isWs c = false ∧ c ≠ close) {as bs : List α}
    {t u x y : Bytes} (h : Inside P as t) (h' : Inside P bs u) (hP : ∀ a ∈ as, UniqueText P a)
    (heq : t ++ close :: x = u ++ close :: y) : as = bs ∧ x = y := by
  -- elements show a first byte that is neither whitespace nor the closing byte
  have hmixed : ∀ {as : List α} {t w x y : Bytes}, Sep P as t → Ws w → t ++ x ≠ w ++ close :: y := by
    intro as t w x y hsep hw heq
    have hpeek := hsep.head (Q := (· ≠ close)) hhead x
    rw [heq, skipWs_append hw, skipWs_cons hclose.notWs] at hpeek
    exact hpeek rfl
  rcases h with ⟨rfl, hw⟩ | hsep
  · rcases h' with ⟨rfl, hw'⟩ | hsep'
    · have := ws_split hw hw' ⟨_, _, rfl, hclose.notWs⟩ ⟨_, _, rfl, hclose.notWs⟩ heq
      injection this with _ hxy
      exact ⟨rfl, hxy⟩
    · exact absurd heq.symm (hmixed hsep' hw)
  · rcases h' with ⟨rfl, hw'⟩ | hsep'
    · exact absurd heq (hmixed hsep hw')
    · exact sep_unique hclose hne (fun a t ha => by
        obtain ⟨c, u, ht, hc, -⟩ := hhead a t ha
        exact ⟨c, u, ht, hc⟩) hsep hP hsep' heq

end Lists

/-! ## Values -/

theorem ValueText.of_arr {items : List Doc} (h : ValueText (.arr items) t) :
    ∃ inside, Inside ValueText items inside ∧ t = lbracket :: inside ++ [rbracket] := by
  cases h with
  | arrNil hw => exact ⟨_, Or.inl ⟨rfl, hw⟩, rfl⟩
  | arr hsep => exact ⟨_, Or.inr hsep, rfl⟩

theorem ValueText.of_obj {members : List (Bytes × Doc)} (h : ValueText (.obj members) t) :
    ∃ inside, Inside (MemberText ValueText) members inside ∧ t = lbrace :: inside ++ [rbrace] := by
  cases h with
  | objNil hw => exact ⟨_, Or.inl ⟨rfl, hw⟩, rfl⟩
  | obj hsep => exact ⟨_, Or.inr hsep, rfl⟩

def Doc.kind : Doc → Kind
  | .null => .null
  | .bool true => .litTrue
  | .bool false => .litFalse
  | .num _ => .number
  | .str _ => .string
  | .arr _ => .array
  | .obj _ => .object

theorem ValueText.kindOfByte {doc : Doc} (h : ValueText doc t) :
    ∃ c s, t = c :: s ∧ kindOfByte c = some doc.kind := by
  cases h with
  | num h => exact h.kindOfByte
  | str h => obtain ⟨-⟩ := h; exact ⟨_, _, rfl, rfl⟩
  | _ => exact ⟨_, _, rfl, rfl⟩

theorem kind_eq_of_valueText {doc doc' : Doc} {t u x y : Bytes} (h : ValueText doc t)
    (h' : ValueText doc' u) (heq : t ++ x = u ++ y) : doc.kind = doc'.kind := by
  obtain ⟨c, s, rfl, hc⟩ := h.kindOfByte
  obtain ⟨d, s', rfl, hd⟩ := h'.kindOfByte
  injection heq with hcd
  rw [hcd, hd] at hc
  injection hc with hc
  exact hc.symm

theorem ValueText.front {doc : Doc} (h : ValueText doc t) (x : Bytes) :
    ∃ c u, t ++ x = c :: u ∧ isWs c = false := by
  obtain ⟨c, u, rfl, hc, -⟩ := h.head
  exact ⟨c, _, rfl, hc⟩

theorem memberText_unique {m : Bytes × Doc} (h : UniqueText ValueText m.2) :
    UniqueText (MemberText ValueText) m := by
  intro m' t u x y hm hm' hx hy heq
  obtain @⟨key, doc, name, w, w', value, hname, hw, hw', hvalue⟩ := hm
  obtain @⟨key', doc', name', v, v', value', hname', hv, hv', hvalue'⟩ := hm'
  simp only [List.append_assoc, List.cons_append] at heq
  obtain ⟨rfl, heq⟩ := stringToken_unique hname hname' heq
  have hcolon : isWs colon = false := by decide
  have heq := ws_split hw hv ⟨_, _, rfl, hcolon⟩ ⟨_, _, rfl, hcolon⟩ heq
  injection heq with _ heq
  have heq := ws_split hw' hv' (hvalue.front _) (hvalue'.front _) heq
  obtain ⟨rfl, rfl⟩ := h doc' value value' x y hvalue hvalue' hx hy heq
  exact ⟨rfl, rfl⟩

/-- **One document.** -/
theorem valueText_unique (doc : Doc) : UniqueText ValueText doc := by
  induction doc using Doc.node_induction with
  | null =>
    intro doc' t u x y h h' _ _ heq
    have hkind := kind_eq_of_valueText h h' heq
    cases h; cases h' <;> first | exact ⟨rfl, List.append_cancel_left heq⟩ | cases hkind
  | bool b =>
    intro doc' t u x y h h' _ _ heq
    have hkind := kind_eq_of_valueText h h' heq
    cases h <;> cases h' <;> first | exact ⟨rfl, List.append_cancel_left heq⟩ | cases hkind
  | num token =>
    intro doc' t u x y h h' hx hy heq
    have hkind := kind_eq_of_valueText h h' heq
    cases h with
    | num ht =>
      cases h' with
      | num hu =>
        obtain ⟨rfl, hxy⟩ := number_readable ht hu hx hy heq
        exact ⟨rfl, hxy⟩
      | _ => cases hkind
  | str s =>
    intro doc' t u x y h h' hx hy heq
    have hkind := kind_eq_of_valueText h h' heq
    cases h with
    | str ht =>
      cases h' with
      | str hu =>
        obtain ⟨rfl, hxy⟩ := stringToken_unique ht hu heq
        exact ⟨rfl, hxy⟩
      | _ => cases hkind
  | arr items ih =>
    intro doc' t u x y h h' hx hy heq
    have hkind := kind_eq_of_valueText h h' heq
    match doc', hkind with
    | .arr items', _ =>
      obtain ⟨inside, hinside, rfl⟩ := h.of_arr
      obtain ⟨inside', hinside', rfl⟩ := h'.of_arr
      simp only [List.cons_append, List.append_assoc, List.cons.injEq, true_and] at heq
      obtain ⟨rfl, hxy⟩ := inside_unique (Or.inr (Or.inl rfl)) (by decide)
        (fun _ _ h => h.head) hinside hinside' ih heq
      exact ⟨rfl, hxy⟩
  | obj members ih =>
    intro doc' t u x y h h' hx hy heq
    have hkind := kind_eq_of_valueText h h' heq
    match doc', hkind with
    | .obj members', _ =>
      obtain ⟨inside, hinside, rfl⟩ := h.of_obj
      obtain ⟨inside', hinside', rfl⟩ := h'.of_obj
      simp only [List.cons_append, List.append_assoc, List.cons.injEq, true_and] at heq
      obtain ⟨rfl, hxy⟩ := inside_unique (Or.inr (Or.inr rfl)) (by decide)
        (fun _ _ h => h.head) hinside hinside' (fun m hm => memberText_unique (ih m hm)) heq
      exact ⟨rfl, hxy⟩

/-- **The grammar is unambiguous.** -/
theorem text_unique {doc doc' : Doc} (h : Text doc t) (h' : Text doc' t) : doc = doc' := by
  obtain ⟨before, body, after, hbefore, hbody, hafter, rfl⟩ := h
  obtain ⟨before', body', after', hbefore', hbody', hafter', heq⟩ := h'
  have hends : ∀ {w : Bytes}, Ws w → NumberEnds w := fun hw => by
    simpa using NumberEnds.append hw numberEnds_nil
  simp only [List.append_assoc] at heq
  have heq := ws_split hbefore hbefore' (hbody.front _) (hbody'.front _) heq
  exact (valueText_unique doc doc' body body' after after' hbody hbody' (hends hafter) (hends hafter')
    heq).1

end Json

end Tamga
