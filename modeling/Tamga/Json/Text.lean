import Tamga.Json.Write

/-!
# `Json.Text` — the text a serializer writes

`text` is the serialized form as a function of the tree alone. Every writer of `Json.Write` appends
exactly its text to a buffer that does not fail (`Writes`), whatever is refused on the way, so a
serializer returns that text or nothing (`writeImpl_can`).
-/

namespace Tamga

namespace Json

open Alloc

/-! ## Texts -/

def escape (bytes : Bytes) : Bytes := bytes.flatMap escapeByte

def quoted (bytes : Bytes) : Bytes := quote :: (escape bytes ++ [quote])

def digitsText (s : Scientific) : Bytes :=
  if 0 < s.kk ∧ s.kk ≤ 16 then
    if s.digits.length ≤ s.kk.toNat then
      s.digits ++ (List.replicate (s.kk.toNat - s.digits.length) 0x30 ++ ascii ".0")
    else s.digits.take s.kk.toNat ++ 0x2E :: s.digits.drop s.kk.toNat
  else if -5 < s.kk ∧ s.kk ≤ 0 then
    ascii "0." ++ (List.replicate (-s.kk).toNat 0x30 ++ s.digits)
  else s.digits.take 1 ++ ((if 1 < s.digits.length then 0x2E :: s.digits.drop 1 else []) ++
    0x65 :: printSigned (s.kk - 1))

def scientificText (s : Scientific) : Bytes :=
  (if s.negative then [0x2D] else []) ++ digitsText s

def doubleText (L : Libc) (value : Double) : Bytes :=
  if ¬ value.isFinite then ascii "null" else
  match (searchPrecision L value 18 0).bind splitScientific with
  | none => ascii "null"
  | some s => scientificText s

def joinComma : List Bytes → Bytes
  | [] => []
  | t :: ts => t ++ ts.flatMap fun t => comma :: t

def memberText (m : Bytes × Bytes) : Bytes := quoted (cstr m.1) ++ colon :: m.2

/-- The members in the order they are written. -/
def inOrder {α : Type} (canonical : Bool) (members : List (Bytes × α)) : List (Bytes × α) :=
  if canonical && decide (1 < members.length) then sortMembers members else members

@[simp] theorem inOrder_false {α : Type} (members : List (Bytes × α)) :
    inOrder false members = members := rfl

mutual

def text (L : Libc) (canonical : Bool) : Json → Bytes
  | .null => ascii "null"
  | .bool true => ascii "true"
  | .bool false => ascii "false"
  | .int n => printInt n.toInt
  | .double d => doubleText L d
  | .str bytes => quoted bytes
  | .arr items => lbracket :: (joinComma (itemTexts L canonical items) ++ [rbracket])
  | .obj members =>
      lbrace :: (joinComma ((inOrder canonical (memberTexts L canonical members)).map memberText) ++
        [rbrace])

def itemTexts (L : Libc) (canonical : Bool) : List Json → List Bytes
  | [] => []
  | v :: items => v.text L canonical :: itemTexts L canonical items

def memberTexts (L : Libc) (canonical : Bool) : List (Bytes × Json) → List (Bytes × Bytes)
  | [] => []
  | (key, v) :: members => (key, v.text L canonical) :: memberTexts L canonical members

end

/-! ## Writers -/

open Buf (Writes)

theorem writes_escaped (bytes : Bytes) : Writes (writeEscaped bytes) (quoted bytes) :=
  (Buf.Writes.append [quote]).seq
    ((Buf.Writes.foldlM (fun c => Buf.Writes.append (escapeByte c)) bytes).seq (Buf.Writes.append [quote]))

theorem writes_zeros (n : Nat) : Writes (writeZeros n) (List.replicate n 0x30) := by
  have := Buf.Writes.foldlM (fun c : UInt8 => Buf.Writes.append [c]) (List.replicate n 0x30)
  rwa [List.flatMap_singleton'] at this

theorem writes_sign (negative : Bool) :
    Writes (writeSign negative) (if negative then [0x2D] else []) := by
  cases negative
  · exact Buf.Writes.nil
  · exact Buf.Writes.append [0x2D]

theorem writes_tail (digits : Bytes) :
    Writes (writeTail digits) (if 1 < digits.length then 0x2E :: digits.drop 1 else []) := by
  unfold writeTail
  by_cases hlen : 1 < digits.length
  · simp only [if_pos hlen]
    exact (Buf.Writes.append [0x2E]).seq (Buf.Writes.append _)
  · simp only [if_neg hlen]
    exact Buf.Writes.nil

theorem writes_digits (s : Scientific) : Writes (writeDigits s) (digitsText s) := by
  unfold writeDigits digitsText
  by_cases hdec : 0 < s.kk ∧ s.kk ≤ 16
  · simp only [if_pos hdec]
    by_cases hlen : s.digits.length ≤ s.kk.toNat
    · simp only [if_pos hlen]
      exact (Buf.Writes.append _).seq ((writes_zeros _).seq (Buf.Writes.append _))
    · simp only [if_neg hlen]
      exact (Buf.Writes.append _).seq ((Buf.Writes.append [0x2E]).seq (Buf.Writes.append _))
  · simp only [if_neg hdec]
    by_cases hsmall : -5 < s.kk ∧ s.kk ≤ 0
    · simp only [if_pos hsmall]
      exact (Buf.Writes.append _).seq ((writes_zeros _).seq (Buf.Writes.append _))
    · simp only [if_neg hsmall]
      exact (Buf.Writes.append _).seq ((writes_tail _).seq (Buf.Writes.appendFmt _))

theorem writes_scientific (s : Scientific) : Writes (writeScientific s) (scientificText s) :=
  (writes_sign s.negative).seq (writes_digits s)

theorem double_writes (L : Libc) (d : Double) : Writes (writeDouble L d) (doubleText L d) := by
  unfold writeDouble doubleText
  by_cases hfin : ¬ d.isFinite
  · simp only [if_pos hfin]
    exact Buf.Writes.append _
  · simp only [if_neg hfin]
    cases (searchPrecision L d 18 0).bind splitScientific with
    | none => exact Buf.Writes.append _
    | some s => exact writes_scientific s

/-- One run of it, with everything it is about in sight. -/
theorem writes_double (L : Libc) (d : Double) (F E : Prop) (buf buf' : Buf) (c : Bytes)
    (hb : buf.Holds E c) (hF : F → E) (hlen : Buf.maxGrowth < (c ++ doubleText L d).length + 1 → E)
    (h : (writeDouble L d buf).Can F buf') : buf'.Holds E (c ++ doubleText L d) :=
  (double_writes L d).holds hb hF hlen h

/-! ## Sorting members -/

section Sorting

variable {α β : Type}

theorem sortOrder_perm (keys : List Bytes) : (sortOrder keys).Perm (List.range keys.length) :=
  MergeSort.sort_perm _

theorem filterMap_getElem?_range (l : List α) :
    ((List.range l.length).filterMap fun i => l[i]?) = l := by
  induction l using List.reverseRecOn with
  | nil => rfl
  | append_singleton l a ih =>
    rw [List.length_append, List.length_singleton, List.range_succ, List.filterMap_append]
    congr 1
    · conv_rhs => rw [← ih]
      refine List.filterMap_congr fun i hi => ?_
      rw [List.getElem?_append_left (List.mem_range.mp hi)]
    · simp

/-- **Sorting permutes.** -/
theorem sortMembers_perm (members : List (Bytes × α)) : (sortMembers members).Perm members := by
  have h := (sortOrder_perm (members.map Prod.fst)).filterMap fun i => members[i]?
  rw [List.length_map, filterMap_getElem?_range] at h
  exact h

/-- The order depends on the keys alone. -/
theorem sortMembers_map (f : α → β) (members : List (Bytes × α)) :
    sortMembers (members.map fun m => (m.1, f m.2)) =
      (sortMembers members).map fun m => (m.1, f m.2) := by
  unfold sortMembers
  rw [List.map_map, List.map_filterMap]
  congr 1
  funext i
  rw [List.getElem?_map]

theorem inOrder_perm (canonical : Bool) (members : List (Bytes × α)) :
    (inOrder canonical members).Perm members := by
  unfold inOrder
  split
  · exact sortMembers_perm members
  · exact List.Perm.refl members

theorem inOrder_map (canonical : Bool) (f : α → β) (members : List (Bytes × α)) :
    inOrder canonical (members.map fun m => (m.1, f m.2)) =
      (inOrder canonical members).map fun m => (m.1, f m.2) := by
  unfold inOrder
  rw [List.length_map]
  split
  · exact sortMembers_map f members
  · rfl

end Sorting

theorem itemTexts_eq (L : Libc) (canonical : Bool) (items : List Json) :
    itemTexts L canonical items = items.map (text L canonical) := by
  induction items with
  | nil => rfl
  | cons v items ih => rw [itemTexts, ih, List.map_cons]

theorem memberTexts_eq (L : Libc) (canonical : Bool) (members : List (Bytes × Json)) :
    memberTexts L canonical members = members.map fun m => (m.1, m.2.text L canonical) := by
  induction members with
  | nil => rfl
  | cons m members ih => rw [memberTexts, ih, List.map_cons]

theorem itemWriters_eq (L : Libc) (canonical : Bool) (items : List Json) :
    itemWriters L canonical items = items.map (writeValue L canonical) := by
  induction items with
  | nil => rfl
  | cons v items ih => rw [itemWriters, ih, List.map_cons]

theorem memberWriters_eq (L : Libc) (canonical : Bool) (members : List (Bytes × Json)) :
    memberWriters L canonical members = members.map fun m => (m.1, writeValue L canonical m.2) := by
  induction members with
  | nil => rfl
  | cons m members ih => rw [memberWriters, ih, List.map_cons]

/-! ## Composites -/

section Composites

variable {α : Type} {w : α → Buf → Alloc Buf} {f : α → Bytes}

theorem writes_all_more {as : List α} (h : ∀ a ∈ as, Writes (w a) (f a)) :
    Writes (writeAll false (as.map w)) ((as.map f).flatMap fun t => comma :: t) := by
  induction as with
  | nil => exact Buf.Writes.nil
  | cons a as ih =>
    have hhead := h a List.mem_cons_self
    have hrest := ih fun b hb => h b (List.mem_cons_of_mem _ hb)
    exact (Buf.Writes.append [comma]).seq (hhead.seq hrest)

theorem writes_all {as : List α} (h : ∀ a ∈ as, Writes (w a) (f a)) :
    Writes (writeAll true (as.map w)) (joinComma (as.map f)) := by
  cases as with
  | nil => exact Buf.Writes.nil
  | cons a as =>
    exact (h a List.mem_cons_self).seq
      (writes_all_more fun b hb => h b (List.mem_cons_of_mem _ hb))

theorem writes_member {key t : Bytes} {w : Buf → Alloc Buf} (h : Writes w t) :
    Writes (writeMember (key, w)) (memberText (key, t)) :=
  (writes_escaped _).seq ((Buf.Writes.append [colon]).seq h)

/-- Each member takes at least its quotes, its colon and a separator. -/
theorem length_joinComma_memberText (members : List (Bytes × Bytes)) :
    4 * members.length ≤ (joinComma (members.map memberText)).length + 1 := by
  have hone : ∀ m, 3 ≤ (memberText m).length := by
    intro m
    simp only [memberText, quoted, List.length_append, List.length_cons, List.length_nil]
    omega
  cases members with
  | nil => exact Nat.zero_le _
  | cons m members =>
    have hrest : 4 * members.length ≤
        ((members.map memberText).flatMap fun t => comma :: t).length := by
      induction members with
      | nil => exact Nat.zero_le _
      | cons m' members ih =>
        have := hone m'
        simp only [List.map_cons, List.flatMap_cons, List.length_cons,
          List.length_append] at ih ⊢
        omega
    have := hone m
    simp only [List.map_cons, joinComma, List.length_cons, List.length_append]
    omega

theorem sortKeys_can {F : Prop} {members : List (Bytes × α)} {r : Option (List (Bytes × α))}
    (h : (sortKeys members).Can F r) :
    r = some (sortMembers members) ∨ r = none ∧ (F ∨ sizeMax < members.length * 8) := by
  unfold sortKeys at h
  split at h
  · rename_i hmul
    refine Or.inr ⟨(can_pure.1 h).symm, Or.inr ?_⟩
    by_contra hfit
    rw [checkedMul_of_le (Nat.not_lt.mp hfit)] at hmul
    cases hmul
  · rcases malloc_can h with h | ⟨hF, h⟩
    · rcases malloc_can h with h | ⟨hF, h⟩
      · exact Or.inl (can_pure.1 h).symm
      · exact Or.inr ⟨(can_pure.1 h).symm, Or.inl hF⟩
    · exact Or.inr ⟨(can_pure.1 h).symm, Or.inl hF⟩

theorem writeOrder_can {F : Prop} {canonical : Bool} {members : List (Bytes × α)}
    {r : Option (List (Bytes × α))} (h : (writeOrder canonical members).Can F r) :
    r = some (inOrder canonical members) ∨ r = none ∧ (F ∨ sizeMax < members.length * 8) := by
  unfold writeOrder at h
  unfold inOrder
  split at h
  · rename_i hsort
    rw [if_pos hsort]
    exact sortKeys_can h
  · rename_i hsort
    rw [if_neg hsort]
    exact Or.inl (can_pure.1 h).symm

theorem writeOrder_sound (canonical : Bool) (members : List (Bytes × α)) :
    (writeOrder canonical members).Sound (· = none) := by
  unfold writeOrder
  split
  · unfold sortKeys
    split
    · exact Sound.pure _
    · refine Sound.bind sound_request ?_ (Sound.bind sound_request ?_ (Sound.pure _))
      · rintro _ rfl r hr
        exact (can_pure.1 hr).symm
      · rintro _ rfl r hr
        exact (can_pure.1 hr).symm
  · exact Sound.pure _

/-- **Objects.** The members follow in the order of the sort; if the sort gets no memory the buffer
    fails, as it does when the text is too long for any buffer. -/
theorem writes_object {canonical : Bool} {members : List (Bytes × α)}
    (h : ∀ m ∈ members, Writes (w m.2) (f m.2)) :
    Writes (writeObject canonical (members.map fun m => (m.1, w m.2)))
      (lbrace :: (joinComma ((inOrder canonical (members.map fun m => (m.1, f m.2))).map memberText) ++
        [rbrace])) := by
  have hmembers : ∀ m ∈ inOrder canonical members,
      Writes (writeMember (m.1, w m.2)) (memberText (m.1, f m.2)) :=
    fun m hm => writes_member (h m ((inOrder_perm canonical members).mem_iff.mp hm))
  have hbody : Writes (fun out =>
      writeAll true ((inOrder canonical (members.map fun m => (m.1, w m.2))).map writeMember) out >>=
        (Buf.appendByte · rbrace))
      (joinComma ((inOrder canonical (members.map fun m => (m.1, f m.2))).map memberText) ++ [rbrace]) := by
    rw [inOrder_map, inOrder_map, List.map_map, List.map_map]
    exact (writes_all hmembers).seq (Buf.Writes.append [rbrace])
  unfold writeObject
  show Writes _ ([lbrace] ++ (joinComma _ ++ [rbrace]))
  refine (Buf.Writes.append [lbrace]).seq ?_
  constructor
  · intro F E buf buf' c hb hF hlen hrun
    obtain ⟨order, horder, hrun⟩ := can_bind.1 hrun
    rcases writeOrder_can horder with rfl | ⟨rfl, hwhy⟩
    · exact hbody.holds hb hF hlen hrun
    · obtain rfl := can_pure.1 hrun
      refine Or.inl ⟨rfl, hwhy.elim hF fun hbig => hlen ?_⟩
      have htext := length_joinComma_memberText (inOrder canonical (members.map fun m => (m.1, f m.2)))
      rw [(inOrder_perm canonical _).length_eq, List.length_map] at htext
      rw [List.length_map] at hbig
      simp only [List.length_append, List.length_singleton]
      unfold sizeMax at hbig
      unfold Buf.maxGrowth
      omega
  · intro buf
    refine Sound.bind (writeOrder_sound canonical _) ?_ ?_
    · rintro _ rfl b hb
      rw [← can_pure.1 hb]; rfl
    · rcases writeOrder_can (F := False) (writeOrder canonical _).can_ok with hok | ⟨hok, -⟩
      · rw [hok]; exact hbody.sound buf
      · rw [hok]; exact Sound.pure _
  · intro F buf buf' hb hrun
    obtain ⟨order, horder, hrun⟩ := can_bind.1 hrun
    rcases writeOrder_can horder with rfl | ⟨rfl, -⟩
    · exact hbody.sized hb hrun
    · rw [← can_pure.1 hrun]
      exact nofun

end Composites

/-- **Values.** Writing a tree appends its text. -/
theorem writes_value (L : Libc) (canonical : Bool) (v : Json) :
    Writes (writeValue L canonical v) (v.text L canonical) := by
  induction v using Json.node_induction with
  | null => exact Buf.Writes.append _
  | bool b =>
    cases b
    · exact Buf.Writes.append _
    · exact Buf.Writes.append _
  | int n => exact Buf.Writes.appendFmt _
  | double d => exact double_writes L d
  | str s => exact writes_escaped s
  | arr items ih =>
    have hitems := writes_all ih
    rw [← itemTexts_eq, ← itemWriters_eq] at hitems
    exact (Buf.Writes.append [lbracket]).seq (hitems.seq (Buf.Writes.append [rbracket]))
  | obj members ih =>
    have hmembers := @writes_object _ (writeValue L canonical) (text L canonical) canonical members ih
    rw [← memberTexts_eq, ← memberWriters_eq] at hmembers
    exact hmembers

/-- **Serialize.** A serializer returns the text of the tree, or nothing: because a request was
    refused, the text is too long for any buffer, or it contains a NUL byte. -/
theorem writeImpl_can {F : Prop} {L : Libc} {canonical : Bool} {v : Json} {r : Option Bytes}
    (h : (writeImpl L canonical v).Can F r) :
    r = some (v.text L canonical) ∨
      r = none ∧ (F ∨ Buf.maxGrowth < (v.text L canonical).length + 1 ∨
        ¬ NulFree (v.text L canonical)) :=
  (writes_value L canonical v).detachString_can h

/-- A serializer returns what it returns without refusals, or nothing. -/
theorem writeImpl_sound (L : Libc) (canonical : Bool) (v : Json) :
    (writeImpl L canonical v).Sound (· = none) :=
  (writes_value L canonical v).detachString_sound Buf.init

/-- Without refused requests, a serializer returns the text of the tree, unless that is longer than
    any block or has a NUL in it. -/
theorem writeImpl_ok_eq (L : Libc) (canonical : Bool) (v : Json) :
    (writeImpl L canonical v).ok =
      if NulFree (v.text L canonical) ∧ (v.text L canonical).length < Buf.maxGrowth then
        some (v.text L canonical) else none :=
  (writes_value L canonical v).detachString_ok_eq

end Json

end Tamga
