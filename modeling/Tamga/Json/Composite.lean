import Tamga.Json.Document
import Tamga.Json.StringToken
import Tamga.Json.NumberToken

/-!
# `Json.Composite` — arrays and objects as one loop

`tamga_json_parse_array` and `tamga_json_parse_object` are the same loop around two different rounds:
a value is appended, or a named value is set. `Composite` holds what a round reads and where it keeps
it; `arrays` and `objects` are the two of them, and `parseArray_eq`, `parseObject_eq` say that the
parser's own loops are this one. What the loop does with any round is then proved once.
-/

namespace Tamga

namespace Json

variable {L : Libc}

/-! ## Whitespace -/

theorem ws_nil : Ws [] := fun _ hc => absurd hc List.not_mem_nil

theorem skipWs_append {w : Bytes} (hw : Ws w) (s : Bytes) : skipWs (w ++ s) = skipWs s :=
  List.dropWhile_append_of_pos hw

theorem skipWs_cons {c : UInt8} (hc : isWs c = false) (s : Bytes) : skipWs (c :: s) = c :: s := by
  simp [skipWs, hc]

theorem skipWs_of_notWs {s : Bytes} (h : ∃ c t, s = c :: t ∧ isWs c = false) : skipWs s = s := by
  obtain ⟨c, t, rfl, hc⟩ := h
  exact skipWs_cons hc t

theorem isWs_cases {c : UInt8} (h : isWs c = true) :
    c = 0x20 ∨ c = 0x09 ∨ c = 0x0A ∨ c = 0x0D := by
  simpa [isWs, or_assoc] using h

theorem numberEnds_cons {c : UInt8} (s : Bytes)
    (h : Decimal.isDigit c = false ∧ c ≠ 0x2E ∧ c ≠ 0x65 ∧ c ≠ 0x45) : NumberEnds (c :: s) := h

/-- Whitespace ends a number, and so does what may come after whitespace. -/
theorem NumberEnds.append {w rest : Bytes} (hw : Ws w) (h : NumberEnds rest) :
    NumberEnds (w ++ rest) := by
  cases w with
  | nil => exact h
  | cons d w =>
    rcases isWs_cases (hw d List.mem_cons_self) with rfl | rfl | rfl | rfl <;>
      exact numberEnds_cons _ (by decide)

theorem numberEnds_nil : NumberEnds [] := ⟨rfl, by decide, by decide, by decide⟩

/-- The first byte of a value is no whitespace and no closing bracket. -/
theorem ValueText.head {doc : Doc} {b : Bytes} (h : ValueText doc b) :
    ∃ c u, b = c :: u ∧ isWs c = false ∧ c ≠ rbracket := by
  have hdigit : ∀ {c : UInt8}, Decimal.isDigit c = true → isWs c = false ∧ c ≠ rbracket := by
    intro c hc
    rw [Decimal.isDigit_iff] at hc
    refine ⟨?_, by rintro rfl; simp [rbracket] at hc⟩
    cases hw : isWs c with
    | false => rfl
    | true => rcases isWs_cases hw with rfl | rfl | rfl | rfl <;> simp at hc
  cases h with
  | null => exact ⟨_, _, rfl, rfl, by decide⟩
  | litTrue => exact ⟨_, _, rfl, rfl, by decide⟩
  | litFalse => exact ⟨_, _, rfl, rfl, by decide⟩
  | num h =>
    obtain @⟨minus, integer, fraction, exponent, hminus, hinteger, -, -⟩ := h
    obtain ⟨c, t, rfl⟩ := List.exists_cons_of_ne_nil hinteger.ne_nil
    rcases hminus with rfl | rfl
    · exact ⟨c, _, rfl, hdigit (hinteger.digits c List.mem_cons_self)⟩
    · exact ⟨_, _, rfl, rfl, by decide⟩
  | str h => obtain ⟨-⟩ := h; exact ⟨_, _, rfl, rfl, by decide⟩
  | arrNil => exact ⟨_, _, rfl, rfl, by decide⟩
  | arr => exact ⟨_, _, rfl, rfl, by decide⟩
  | objNil => exact ⟨_, _, rfl, rfl, by decide⟩
  | obj => exact ⟨_, _, rfl, rfl, by decide⟩

theorem NumberToken.head {t : Bytes} (h : NumberToken t) :
    ∃ c u, t = c :: u ∧ (c = 0x2D ∨ Decimal.isDigit c = true) := by
  obtain @⟨minus, integer, fraction, exponent, hminus, hinteger, -, -⟩ := h
  obtain ⟨c, u, rfl⟩ := List.exists_cons_of_ne_nil hinteger.ne_nil
  rcases hminus with rfl | rfl
  · exact ⟨c, _, rfl, Or.inr (hinteger.digits c List.mem_cons_self)⟩
  · exact ⟨_, _, rfl, Or.inl rfl⟩

theorem ValueText.length_pos {doc : Doc} {b : Bytes} (h : ValueText doc b) : 0 < b.length := by
  obtain ⟨c, t, rfl, -⟩ := h.head
  simp

/-- A list shows the first byte of its first element, whitespace skipped. -/
theorem Sep.head {α : Type} {P : α → Bytes → Prop} {as : List α} {t : Bytes} {Q : UInt8 → Prop}
    (h : Sep P as t) (hP : ∀ a b, P a b → ∃ c u, b = c :: u ∧ isWs c = false ∧ Q c) (s : Bytes) :
    Q (peek (skipWs (t ++ s))) := by
  cases h with
  | one hbefore h _ =>
    obtain ⟨c, u, rfl, hc, hQ⟩ := hP _ _ h
    rw [List.append_assoc, List.append_assoc, skipWs_append hbefore, List.cons_append,
      skipWs_cons hc]
    exact hQ
  | cons hbefore h _ _ =>
    obtain ⟨c, u, rfl, hc, hQ⟩ := hP _ _ h
    simp only [List.append_assoc, List.cons_append]
    rw [skipWs_append hbefore, skipWs_cons hc]
    exact hQ

theorem Sep.length_le {α : Type} {P : α → Bytes → Prop} {as : List α} {t : Bytes} (h : Sep P as t)
    (hpos : ∀ a b, P a b → 0 < b.length) : as.length ≤ t.length := by
  induction h with
  | one _ h _ =>
    have := hpos _ _ h
    simp; omega
  | cons _ h _ _ ih =>
    simp; omega

theorem MemberText.head {m : Bytes × Doc} {b : Bytes} (h : MemberText ValueText m b) :
    ∃ c u, b = c :: u ∧ isWs c = false ∧ c ≠ rbrace := by
  obtain ⟨hname, -, -, -⟩ := h
  obtain ⟨-⟩ := hname
  exact ⟨quote, _, rfl, by decide, by decide⟩

/-! ## The loop -/

/-- A comma-separated list up to a closing bracket: how an element is spelled and read, and how the
    elements read so far are kept. -/
structure Composite (α σ : Type) where
  close : UInt8
  message : String
  round : Bytes → Json → Parser (Json × Bytes)
  text : α → Bytes → Prop
  empty : σ
  push : σ → α → σ
  size : σ → Nat
  node : σ → Json
  close_notWs : isWs close = false
  close_ne : close ≠ comma ∧ close ≠ 0
  close_ends : ∀ s, NumberEnds (close :: s)
  head : ∀ a b, text a b → ∃ c u, b = c :: u ∧ isWs c = false ∧ c ≠ close
  size_empty : size empty = 0
  size_push : ∀ st a, size (push st a) ≤ size st + 1

namespace Composite

variable {α σ : Type} (C : Composite α σ)

def loop : (fuel : Nat) → Bytes → Json → Parser (Json × Bytes)
  | 0, _, _ => fail "malformed JSON"
  | fuel + 1, s, node => do
      let (node, s) ← C.round s node
      let s := skipWs s
      if peek s = comma then loop fuel (skipWs s.tail) node
      else if peek s = C.close then return (node, s.tail)
      else fail C.message

/-- At the opening bracket. -/
def parse (s : Bytes) : Parser (Json × Bytes) := do
  match ← (liftM (new (C.node C.empty)) : Parser (Option Json)) with
  | none => failOutOfMemory
  | some node =>
      let rest := skipWs s.tail
      if peek rest = C.close then return (node, rest.tail)
      C.loop s.length rest node

/-- `t` stands between the brackets: the elements, or nothing but whitespace. -/
inductive Inside : List α → Bytes → Prop where
  | nil {w : Bytes} (h : Ws w) : Inside [] w
  | sep {as : List α} {t : Bytes} (h : Sep C.text as t) : Inside as t

variable {C}

theorem skip {a : α} {before b s : Bytes} (hbefore : Ws before) (hb : C.text a b) :
    skipWs (before ++ (b ++ s)) = b ++ s := by
  obtain ⟨c, u, rfl, hc, -⟩ := C.head _ _ hb
  rw [skipWs_append hbefore, List.cons_append, skipWs_cons hc]

theorem open_ne {as : List α} {t : Bytes} (h : Sep C.text as t) (s : Bytes) :
    peek (skipWs (t ++ s)) ≠ C.close :=
  h.head C.head s

theorem length_le {as : List α} {t : Bytes} (h : Sep C.text as t) : as.length ≤ t.length :=
  h.length_le fun a b hb => by
    obtain ⟨c, u, rfl, -⟩ := C.head a b hb
    simp

end Composite

/-! ## Its two uses -/

section Uses

variable (L) (item : Bytes → Parser (Json × Bytes))

def arrays : Composite Doc (List Json) where
  close := rbracket
  message := "expected a comma or a closing bracket in array"
  round s array := do
    let (v, s) ← item s
    match ← (liftM (arrayAppend array (some v)) : Parser (Option Json)) with
    | none => failOutOfMemory
    | some array => return (array, s)
  text := ValueText
  empty := []
  push done doc := done ++ [doc.value L]
  size := List.length
  node := .arr
  close_notWs := by decide
  close_ne := by decide
  close_ends s := numberEnds_cons s (by decide)
  head _ _ h := h.head
  size_empty := rfl
  size_push _ _ := by simp

def objects : Composite (Bytes × Doc) (List (Bytes × Json)) where
  close := rbrace
  message := "expected a comma or a closing brace in object"
  round s object := do
    let (key, s) ← parseKey s
    let s := skipWs s
    if peek s ≠ colon then fail "expected a colon after the object key" else
    let (v, s) ← item s.tail
    match ← (liftM (objectSet object key (some v)) : Parser (Option Json)) with
    | none => failOutOfMemory
    | some object => return (object, s)
  text := MemberText ValueText
  empty := []
  push done m := setMember done m.1 (m.2.value L)
  size := List.length
  node := .obj
  close_notWs := by decide
  close_ne := by decide
  close_ends s := numberEnds_cons s (by decide)
  head _ _ h := h.head
  size_empty := rfl
  size_push _ _ := length_setMember_le

variable {L item}

theorem arrayLoop_eq (fuel : Nat) :
    ∀ s array, arrayLoop item fuel s array = (arrays L item).loop fuel s array := by
  induction fuel with
  | zero => exact fun _ _ => rfl
  | succ fuel ih =>
    intro s array
    simp only [arrayLoop, Composite.loop, ih]
    dsimp only [arrays]
    rw [bind_assoc]
    refine bind_congr fun read => ?_
    rw [bind_assoc]
    refine bind_congr fun grown => ?_
    cases grown <;> rfl

theorem parseArray_eq (s : Bytes) : parseArray item s = (arrays L item).parse s := by
  unfold parseArray Composite.parse
  refine bind_congr fun node => ?_
  cases node with
  | none => rfl
  | some node => simp only [arrayLoop_eq (L := L)]; rfl

theorem objectLoop_eq (fuel : Nat) :
    ∀ s object, objectLoop item fuel s object = (objects L item).loop fuel s object := by
  induction fuel with
  | zero => exact fun _ _ => rfl
  | succ fuel ih =>
    intro s object
    simp only [objectLoop, Composite.loop, ih]
    dsimp only [objects]
    rw [bind_assoc]
    refine bind_congr fun read => ?_
    split
    · rfl
    rw [bind_assoc]
    refine bind_congr fun read => ?_
    rw [bind_assoc]
    refine bind_congr fun grown => ?_
    cases grown <;> rfl

theorem parseObject_eq (s : Bytes) : parseObject item s = (objects L item).parse s := by
  unfold parseObject Composite.parse
  refine bind_congr fun node => ?_
  cases node with
  | none => rfl
  | some node => simp only [objectLoop_eq (L := L)]; rfl

theorem arrays_node (items : List Doc) :
    (arrays L item).node (items.foldl (arrays L item).push (arrays L item).empty) =
      (Doc.arr items).value L := by
  have hfold : ∀ done : List Json, items.foldl (fun done doc => done ++ [doc.value L]) done =
      done ++ items.map (Doc.value L) := by
    induction items with
    | nil => simp
    | cons doc items ih => intro done; rw [List.foldl_cons, ih]; simp
  rw [Doc.value, Doc.itemsValue_eq]
  exact congrArg Json.arr (hfold [])

theorem objects_node (members : List (Bytes × Doc)) :
    (objects L item).node (members.foldl (objects L item).push (objects L item).empty) =
      (Doc.obj members).value L := by
  rw [Doc.value, ← setMembers_nil, Doc.membersValue_eq, setMembers, List.foldl_map]
  rfl

/-- The two constructors for an array, and the two for an object, as one. -/
theorem valueText_arr {items : List Doc} {t : Bytes} (h : (arrays L item).Inside items t) :
    ValueText (.arr items) (lbracket :: t ++ [rbracket]) := by
  cases h with
  | nil h => exact .arrNil h
  | sep h => exact .arr h

theorem valueText_obj {members : List (Bytes × Doc)} {t : Bytes}
    (h : (objects L item).Inside members t) : ValueText (.obj members) (lbrace :: t ++ [rbrace]) := by
  cases h with
  | nil h => exact .objNil h
  | sep h => exact .obj h

end Uses

end Json

end Tamga
