import Tamga.Json.Text

/-!
# `Util.Block` — the buffer as the block of memory it is (`util/buf.c`)

`Util.Buf` knows what a buffer holds. Here the buffer is what the source has: a pointer, a length and a
capacity, a block whose bytes behind the length are whatever was there, and growth by copying into a
new block. `view` forgets the block; every operation on blocks is the operation of `Util.Buf` on the
views (`view_append` and its like), so what is proved there holds of the memory.

## Contents
- `BlockBuf` and its operations, with the NULL arguments the source checks for.
- `BlockBuf.Valid` — the block has the size the capacity says, and the length fits.
- `buffers_never_partial` — after any calls and refusals, all that was appended is handed out or nothing.
-/

namespace Tamga

open Alloc

/-- `TamgaBuf`. -/
structure BlockBuf where
  data : Option Bytes
  len : Nat
  cap : Nat
  failed : Bool

namespace BlockBuf

/-- `tamga_buf_init`. -/
def init : BlockBuf := ⟨none, 0, 0, false⟩

/-- What `data` points to. -/
def block (buf : BlockBuf) : Bytes := buf.data.getD []

/-- `tamga_buf_mark_failed`. -/
def markFailed (buf : BlockBuf) : BlockBuf := { buf with failed := true }

section Program

-- A new block holds whatever the allocator left in it.
variable (fresh : Nat → UInt8)

/-- `tamga_buf_reserve`; its `bool` result is `!failed` of the buffer it leaves. -/
def reserve (buf : BlockBuf) (extra : Nat) : Alloc BlockBuf :=
  if buf.failed then pure buf else
  match checkedAdd buf.len extra with
  | none => pure buf.markFailed
  | some needed =>
      if needed ≤ buf.cap then pure buf else
      match Buf.doubleUntil needed 64 (if buf.cap < Buf.minCap then Buf.minCap else buf.cap) with
      | none => pure buf.markFailed
      | some newCap => do
          if ← malloc then
            let grown := (List.range newCap).map fresh
            let grown :=
              if 0 < buf.len ∧ buf.data.isSome then overwrite grown 0 (buf.block.take buf.len)
              else grown
            return { buf with data := some grown, cap := newCap }
          else return buf.markFailed

/-- `memcpy(&buf->data[buf->len], bytes, …)`. -/
def store (buf : BlockBuf) (bytes : Bytes) : BlockBuf :=
  { buf with data := buf.data.map (overwrite · buf.len bytes) }

/-- `tamga_buf_append`. -/
def append (buf : BlockBuf) (data : Option Bytes) (len : Nat) : Alloc BlockBuf :=
  if buf.failed then pure buf else
  if len = 0 then pure buf else
  match data with
  | none => pure buf.markFailed
  | some bytes => do
      let buf ← buf.reserve fresh len
      if buf.failed then return buf
      return { buf.store (bytes.take len) with len := buf.len + len }

/-- `tamga_buf_append_byte`. -/
def appendByte (buf : BlockBuf) (byte : UInt8) : Alloc BlockBuf := buf.append fresh (some [byte]) 1

/-- `tamga_buf_append_str`. -/
def appendStr (buf : BlockBuf) : (str : Option Bytes) → Alloc BlockBuf
  | none => pure buf.markFailed
  | some str => buf.append fresh (some str) str.length

/-- `tamga_buf_append_fmt`, given the text the format produces; `none` for no format, and for a
    negative result of `vsnprintf`. The second `vsnprintf` writes the text and a terminator. -/
def appendFmt (buf : BlockBuf) (text : Option Bytes) : Alloc BlockBuf :=
  if buf.failed then pure buf else
  match text with
  | none => pure buf.markFailed
  | some text => do
      let buf ← buf.reserve fresh (text.length + 1)
      if buf.failed then return buf
      return { buf.store (text ++ [0]) with len := buf.len + text.length }

/-- `tamga_buf_detach_impl`: the block, terminated, and the length. -/
def detachImpl (buf : BlockBuf) (allowInteriorNul : Bool) : Alloc (Option (Bytes × Nat)) :=
  if buf.failed then pure none else
  if !allowInteriorNul && buf.data.isSome && decide (¬ NulFree (buf.block.take buf.len)) then
    pure none
  else do
    let buf ← buf.reserve fresh 1
    if buf.failed then return none
    return some ((buf.store [0]).block, buf.len)

/-- `tamga_buf_detach_terminated`. -/
def detachTerminated (buf : BlockBuf) : Alloc (Option (Bytes × Nat)) := buf.detachImpl fresh true

/-- `tamga_buf_detach_string`. -/
def detachString (buf : BlockBuf) : Alloc (Option (Bytes × Nat)) := buf.detachImpl fresh false

/-- `tamga_buf_detach`, told whether `out_len` is there. -/
def detach (buf : BlockBuf) (outLen : Bool) : Alloc (Option (Bytes × Nat)) :=
  if buf.failed || !outLen then pure none else
  if buf.data.isNone then do
    let buf ← buf.reserve fresh 1
    if buf.failed then return none
    return some (buf.block, buf.len)
  else pure (some (buf.block, buf.len))

end Program

/-- A call on a buffer. -/
inductive Op where
  | append (bytes : Bytes)
  | appendNull (len : Nat)
  | appendByte (byte : UInt8)
  | appendStr (str : Option Bytes)
  | appendFmt (text : Option Bytes)
  | reserve (extra : Nat)
  | markFailed

/-- A call, and what the block holds that it may be given. -/
structure Event where
  op : Op
  fresh : Nat → UInt8

def step (buf : BlockBuf) (e : Event) : Alloc BlockBuf :=
  match e.op with
  | .append bytes => buf.append e.fresh (some bytes) bytes.length
  | .appendNull len => buf.append e.fresh none len
  | .appendByte byte => buf.appendByte e.fresh byte
  | .appendStr str => buf.appendStr e.fresh str
  | .appendFmt text => buf.appendFmt e.fresh text
  | .reserve extra => buf.reserve e.fresh extra
  | .markFailed => pure buf.markFailed

/-- Calls one after the other, on a buffer that was just initialised. -/
def run (events : List Event) : Alloc BlockBuf := events.foldlM step init

/-- What a call is given to append. -/
def Op.content : Op → Bytes
  | .append bytes => bytes
  | .appendByte byte => [byte]
  | .appendStr str => str.getD []
  | .appendFmt text => text.getD []
  | .appendNull _ | .reserve _ | .markFailed => []

/-! ## The block -/

/-- The block has the size the capacity says, there is one unless that is zero, and the length fits. -/
structure Valid (buf : BlockBuf) : Prop where
  size : buf.block.length = buf.cap
  fits : buf.len ≤ buf.cap
  isNone : buf.data.isNone = true ↔ buf.cap = 0

/-- What the buffer holds, without the block. -/
def view (buf : BlockBuf) : Buf := ⟨buf.block.take buf.len, buf.cap, buf.failed⟩

variable {F : Prop} {fresh : Nat → UInt8} {buf buf' : BlockBuf} {extra : Nat}

theorem valid_init : init.Valid := ⟨rfl, le_refl 0, by simp [init]⟩

theorem Valid.markFailed (hv : buf.Valid) : buf.markFailed.Valid := ⟨hv.size, hv.fits, hv.isNone⟩

theorem Valid.length_view (hv : buf.Valid) : buf.view.data.length = buf.len := by
  show (buf.block.take buf.len).length = buf.len
  rw [List.length_take, hv.size, Nat.min_eq_left hv.fits]

theorem le_of_doubleUntil {needed r : Nat} :
    ∀ {fuel newCap : Nat}, Buf.doubleUntil needed fuel newCap = some r → needed ≤ r := by
  intro fuel
  induction fuel with
  | zero => intro newCap h; cases h
  | succ fuel ih =>
    intro newCap h
    unfold Buf.doubleUntil at h
    split at h
    · split at h
      · cases h
      · exact ih h
    · injection h with h
      omega

/-- The new block starts with what the old one held. -/
theorem copied_eq (fresh : Nat → UInt8) (hv : buf.Valid) {newCap : Nat} (hcap : buf.len ≤ newCap) :
    (if 0 < buf.len ∧ buf.data.isSome then
        overwrite ((List.range newCap).map fresh) 0 (buf.block.take buf.len)
      else (List.range newCap).map fresh).length = newCap ∧
    (if 0 < buf.len ∧ buf.data.isSome then
        overwrite ((List.range newCap).map fresh) 0 (buf.block.take buf.len)
      else (List.range newCap).map fresh).take buf.len = buf.block.take buf.len := by
  have hlen : ((List.range newCap).map fresh).length = newCap := by simp
  have htaken : (buf.block.take buf.len).length = buf.len := hv.length_view
  by_cases hcopy : 0 < buf.len ∧ buf.data.isSome
  · rw [if_pos hcopy]
    constructor
    · rw [length_overwrite (by omega), hlen]
    · have h := take_overwrite_zero ((List.range newCap).map fresh) (buf.block.take buf.len)
      rwa [htaken] at h
  · -- nothing to copy: a buffer with bytes in it has a block
    rw [if_neg hcopy]
    refine ⟨hlen, ?_⟩
    have hzero : buf.len = 0 := by
      by_contra hpos
      have hnone : buf.data.isNone = true := by
        rw [← Option.not_isSome, Bool.not_eq_true', ← Bool.not_eq_true]
        exact fun hsome => hcopy ⟨by omega, hsome⟩
      have := hv.isNone.mp hnone
      have := hv.fits
      omega
    rw [hzero, List.take_zero, List.take_zero]

/-- **Reserve.** The bytes stay, and there is room for `extra` more unless the buffer failed. -/
theorem reserve_can (hv : buf.Valid) (h : (buf.reserve fresh extra).Can F buf') :
    buf'.Valid ∧ buf'.view.data = buf.view.data ∧ buf'.len = buf.len ∧
      (buf'.failed = false → buf.len + extra ≤ buf'.cap) := by
  have hfailed : buf.markFailed.Valid ∧ buf.markFailed.view.data = buf.view.data ∧
      buf.markFailed.len = buf.len ∧
      (buf.markFailed.failed = false → buf.len + extra ≤ buf.markFailed.cap) :=
    ⟨hv.markFailed, rfl, rfl, nofun⟩
  unfold reserve at h
  split at h
  · next hf =>
      obtain rfl := can_pure.1 h
      refine ⟨hv, rfl, rfl, fun hok => ?_⟩
      rw [hok] at hf
      cases hf
  split at h
  · obtain rfl := can_pure.1 h
    exact hfailed
  next needed hadd =>
  obtain rfl := checkedAdd_eq_some hadd
  by_cases hfit : buf.len + extra ≤ buf.cap
  · rw [if_pos hfit] at h
    obtain rfl := can_pure.1 h
    exact ⟨hv, rfl, rfl, fun _ => hfit⟩
  rw [if_neg hfit] at h
  split at h
  · obtain rfl := can_pure.1 h
    exact hfailed
  next newCap hdbl =>
  have hneeded := le_of_doubleUntil hdbl
  rcases malloc_can h with h | ⟨-, h⟩
  · obtain rfl := can_pure.1 h
    obtain ⟨hlen, htake⟩ := copied_eq fresh hv (show buf.len ≤ newCap by omega)
    refine ⟨⟨hlen, by dsimp only; omega, ?_⟩, htake, rfl, fun _ => hneeded⟩
    constructor
    · intro h
      cases h
    · intro h
      dsimp only at h
      omega
  · obtain rfl := can_pure.1 h
    exact hfailed

/-- Growing the block is growing the buffer. -/
theorem view_reserve (hv : buf.Valid) (fresh : Nat → UInt8) (extra : Nat) :
    view <$> buf.reserve fresh extra = buf.view.reserve extra := by
  have hcap : buf.view.cap = buf.cap := rfl
  have hfailed : buf.view.failed = buf.failed := rfl
  unfold reserve Buf.reserve
  rw [hv.length_view, hcap, hfailed]
  by_cases hf : buf.failed = true
  · rw [if_pos hf, if_pos hf]
    rfl
  rw [if_neg hf, if_neg hf]
  cases hadd : checkedAdd buf.len extra with
  | none => rfl
  | some needed =>
    dsimp only
    by_cases hfit : needed ≤ buf.cap
    · rw [if_pos hfit, if_pos hfit]
      rfl
    rw [if_neg hfit, if_neg hfit]
    cases hdbl : Buf.doubleUntil needed 64 (if buf.cap < Buf.minCap then Buf.minCap else buf.cap) with
    | none => rfl
    | some newCap =>
      obtain ⟨-, htake⟩ := copied_eq fresh hv (show buf.len ≤ newCap by
        have := le_of_doubleUntil hdbl
        have := checkedAdd_eq_some hadd
        omega)
      dsimp only
      rw [map_bind]
      refine congrArg (malloc >>= ·) (funext fun given => ?_)
      cases given with
      | false => rfl
      | true => exact congrArg (fun data => (pure ⟨data, newCap, buf.failed⟩ : Alloc Buf)) htake

/-! ## What a call does to the block -/

/-- Bytes stored behind the length, where there is room for them. -/
theorem block_store (hv : buf.Valid) {bytes : Bytes} (hfit : buf.len + bytes.length ≤ buf.cap)
    (hpos : 0 < bytes.length) :
    (buf.store bytes).block.length = buf.cap ∧ (buf.store bytes).data.isNone = false ∧
      (buf.store bytes).block.take (buf.len + bytes.length) = buf.view.data ++ bytes := by
  cases hblock : buf.data with
  | none =>
    have := hv.isNone.mp (by rw [hblock]; rfl)
    omega
  | some block =>
    have hsize : block.length = buf.cap := by
      rw [← hv.size, BlockBuf.block, hblock, Option.getD_some]
    have hstore : (buf.store bytes).data = some (overwrite block buf.len bytes) := by
      rw [store, hblock, Option.map_some]
    rw [BlockBuf.block, hstore, Option.getD_some, length_overwrite (by omega),
      take_overwrite bytes (by omega)]
    refine ⟨hsize, rfl, ?_⟩
    show block.take buf.len ++ bytes = (buf.data.getD []).take buf.len ++ bytes
    rw [hblock, Option.getD_some]

/-- Room is made, and bytes go there; `pad` is what stands behind them without being counted. -/
def reserveStore (fresh : Nat → UInt8) (buf : BlockBuf) (extra : Nat) (bytes pad : Bytes) :
    Alloc BlockBuf := do
  let buf ← buf.reserve fresh extra
  if buf.failed then return buf
  return { buf.store (bytes ++ pad) with len := buf.len + bytes.length }

section ReserveStore

variable {bytes pad : Bytes}

/-- The buffer the bytes were stored into. -/
theorem stored_spec (hv : buf.Valid) (hfit : buf.len + (bytes ++ pad).length ≤ buf.cap)
    (hpos : 0 < (bytes ++ pad).length) :
    Valid { buf.store (bytes ++ pad) with len := buf.len + bytes.length } ∧
      view { buf.store (bytes ++ pad) with len := buf.len + bytes.length } =
        { buf.view with data := buf.view.data ++ bytes } := by
  obtain ⟨hsize, hnone, htake⟩ := block_store hv hfit hpos
  rw [List.length_append] at hfit htake hpos
  refine ⟨⟨hsize, ?_, ?_⟩, ?_⟩
  · show buf.len + bytes.length ≤ buf.cap
    omega
  · show (buf.store (bytes ++ pad)).data.isNone = true ↔ buf.cap = 0
    rw [hnone]
    constructor
    · intro h
      cases h
    · intro h
      omega
  · have hdata : (buf.store (bytes ++ pad)).block.take (buf.len + bytes.length) =
        buf.view.data ++ bytes := by
      have h := congrArg (List.take (buf.len + bytes.length)) htake
      rw [List.take_take, Nat.min_eq_left (by omega), ← List.append_assoc,
        List.take_left' (by rw [List.length_append, hv.length_view])] at h
      exact h
    exact congrArg (fun data => (⟨data, buf.cap, buf.failed⟩ : Buf)) hdata

theorem reserveStore_valid (hv : buf.Valid) (hextra : (bytes ++ pad).length ≤ extra)
    (hpos : 0 < (bytes ++ pad).length) (h : (reserveStore fresh buf extra bytes pad).Can F buf') :
    buf'.Valid := by
  obtain ⟨b, hb, h⟩ := can_bind.1 h
  obtain ⟨hvalid, -, hlen, hroom⟩ := reserve_can hv hb
  split at h
  · exact can_pure.1 h ▸ hvalid
  · next hok =>
      have hroom := hroom (Bool.eq_false_of_not_eq_true hok)
      exact can_pure.1 h ▸ (stored_spec hvalid (by omega) hpos).1

theorem view_reserveStore (hv : buf.Valid) (hextra : (bytes ++ pad).length ≤ extra)
    (hpos : 0 < (bytes ++ pad).length) :
    view <$> reserveStore fresh buf extra bytes pad = (do
      let b ← buf.view.reserve extra
      if b.failed then return b
      return { b with data := b.data ++ bytes }) := by
  rw [← view_reserve hv fresh extra, reserveStore, map_bind, bind_map_left]
  refine bind_congr_of_can fun b hb => ?_
  obtain ⟨hvalid, -, hlen, hroom⟩ := reserve_can hv hb
  show view <$> (if b.failed = true then _ else _) = if b.failed = true then _ else _
  by_cases hf : b.failed = true
  · rw [if_pos hf, if_pos hf]
    rfl
  · rw [if_neg hf, if_neg hf]
    have hroom := hroom (Bool.eq_false_of_not_eq_true hf)
    exact congrArg (pure : Buf → Alloc Buf) (stored_spec hvalid (by omega) hpos).2

end ReserveStore

/-- What is appended in the model of `Util.Buf`. -/
def Op.onBuf : Op → Buf → Alloc Buf
  | .append bytes, buf => buf.append bytes
  | .appendNull len, buf => pure (if buf.failed = false ∧ len ≠ 0 then buf.markFailed else buf)
  | .appendByte byte, buf => buf.appendByte byte
  | .appendStr none, buf | .appendFmt none, buf | .markFailed, buf => pure buf.markFailed
  | .appendStr (some str), buf => buf.appendStr str
  | .appendFmt (some text), buf => buf.appendFmt text
  | .reserve extra, buf => buf.reserve extra

theorem append_eq {bytes : Bytes} : buf.append fresh (some bytes) bytes.length =
    if buf.failed then pure buf else
    if bytes.length = 0 then pure buf else reserveStore fresh buf bytes.length bytes [] := by
  unfold append reserveStore
  dsimp only
  rw [List.take_length, List.append_nil]

theorem append_valid {bytes : Bytes} (hv : buf.Valid)
    (h : (buf.append fresh (some bytes) bytes.length).Can F buf') : buf'.Valid := by
  rw [append_eq] at h
  split at h
  · exact can_pure.1 h ▸ hv
  split at h
  · exact can_pure.1 h ▸ hv
  · next hne =>
      refine reserveStore_valid hv ?_ ?_ h
      · rw [List.append_nil]
      · rw [List.append_nil]
        omega

theorem view_append (hv : buf.Valid) (fresh : Nat → UInt8) (bytes : Bytes) :
    view <$> buf.append fresh (some bytes) bytes.length = buf.view.append bytes := by
  rw [append_eq, Buf.append]
  show view <$> _ = if buf.failed then _ else _
  by_cases hf : buf.failed = true
  · rw [if_pos hf, if_pos hf]
    rfl
  rw [if_neg hf, if_neg hf]
  by_cases hne : bytes.length = 0
  · rw [if_pos hne, if_pos hne]
    rfl
  rw [if_neg hne, if_neg hne]
  apply view_reserveStore hv
  · rw [List.append_nil]
  · rw [List.append_nil]
    omega

theorem step_valid {e : Event} (hv : buf.Valid) (h : (buf.step e).Can F buf') : buf'.Valid := by
  obtain ⟨op, fresh⟩ := e
  cases op with
  | append bytes => exact append_valid hv h
  | appendByte byte =>
    replace h : (buf.append fresh (some [byte]) [byte].length).Can F buf' := h
    exact append_valid hv h
  | appendNull len =>
    replace h : (buf.append fresh none len).Can F buf' := h
    unfold append at h
    split at h
    · exact can_pure.1 h ▸ hv
    split at h
    · exact can_pure.1 h ▸ hv
    · exact can_pure.1 h ▸ hv.markFailed
  | appendStr str =>
    cases str with
    | none => exact can_pure.1 h ▸ hv.markFailed
    | some str => exact append_valid hv h
  | appendFmt text =>
    replace h : (buf.appendFmt fresh text).Can F buf' := h
    unfold appendFmt at h
    split at h
    · exact can_pure.1 h ▸ hv
    cases text with
    | none => exact can_pure.1 h ▸ hv.markFailed
    | some text =>
      refine reserveStore_valid hv ?_ ?_ h
      · rw [List.length_append, List.length_singleton]
      · rw [List.length_append, List.length_singleton]
        omega
  | reserve extra => exact (reserve_can hv h).1
  | markFailed => exact can_pure.1 h ▸ hv.markFailed

/-- **A call on the block is the call on what it holds.** -/
theorem view_step (hv : buf.Valid) (e : Event) : view <$> buf.step e = e.op.onBuf buf.view := by
  obtain ⟨op, fresh⟩ := e
  cases op with
  | append bytes => exact view_append hv fresh bytes
  | appendByte byte => exact view_append hv fresh [byte]
  | appendNull len =>
    show view <$> buf.append fresh none len =
      pure (if buf.failed = false ∧ len ≠ 0 then buf.view.markFailed else buf.view)
    unfold append
    by_cases hf : buf.failed = true
    · rw [if_pos hf, if_neg (by simp [hf])]
      rfl
    rw [if_neg hf]
    by_cases hlen : len = 0
    · rw [if_pos hlen, if_neg (by simp [hlen])]
      rfl
    · rw [if_neg hlen, if_pos ⟨Bool.eq_false_of_not_eq_true hf, hlen⟩]
      rfl
  | appendStr str =>
    cases str with
    | none => rfl
    | some str => exact view_append hv fresh str
  | appendFmt text =>
    cases text with
    | none =>
      show view <$> buf.appendFmt fresh none = pure buf.view.markFailed
      unfold appendFmt
      by_cases hf : buf.failed = true
      · rw [if_pos hf]
        exact congrArg (fun failed => (pure ⟨buf.view.data, buf.cap, failed⟩ : Alloc Buf)) hf
      · rw [if_neg hf]
        rfl
    | some text =>
      show view <$> buf.appendFmt fresh (some text) = buf.view.appendFmt text
      unfold appendFmt Buf.appendFmt
      show view <$> _ = if buf.failed then _ else _
      by_cases hf : buf.failed = true
      · rw [if_pos hf, if_pos hf]
        rfl
      rw [if_neg hf, if_neg hf]
      show view <$> reserveStore fresh buf (text.length + 1) text [0] = _
      apply view_reserveStore hv
      · rw [List.length_append, List.length_singleton]
      · rw [List.length_append, List.length_singleton]
        omega
  | reserve extra => exact view_reserve hv fresh extra
  | markFailed => rfl

/-! ## What is handed out -/

theorem holds_onBuf {op : Op} {b b' : Buf} {c : Bytes} (hb : b.Holds True c)
    (h : (op.onBuf b).Can F b') : b'.Holds True (c ++ op.content) := by
  have hfailed : b.markFailed.Holds True (c ++ []) := Or.inl ⟨rfl, trivial⟩
  have htrue : F → True := fun _ => trivial
  cases op with
  | append bytes => exact hb.append htrue (fun _ => trivial) h
  | appendByte byte => exact hb.append htrue (fun _ => trivial) h
  | appendNull len =>
    obtain rfl := can_pure.1 h
    split
    · exact hfailed
    · exact (List.append_nil c).symm ▸ hb
  | appendStr str =>
    cases str with
    | none => exact can_pure.1 h ▸ hfailed
    | some str => exact hb.append htrue (fun _ => trivial) h
  | appendFmt text =>
    cases text with
    | none => exact can_pure.1 h ▸ hfailed
    | some text => exact (Buf.Writes.appendFmt text).holds hb htrue (fun _ => trivial) h
  | reserve extra =>
    rw [Op.content, List.append_nil]
    exact hb.reserve htrue (fun _ => trivial) h
  | markFailed => exact can_pure.1 h ▸ hfailed

/-- After any calls the block holds all that was appended, or the buffer failed. -/
theorem run_holds {events : List Event} (h : (run events).Can F buf) :
    buf.Valid ∧ buf.view.Holds True (events.flatMap (·.op.content)) := by
  have hfold : ∀ (events : List Event) {start : BlockBuf} {c : Bytes}, start.Valid →
      start.view.Holds True c → (events.foldlM step start).Can F buf →
      buf.Valid ∧ buf.view.Holds True (c ++ events.flatMap (·.op.content)) := by
    intro events
    induction events with
    | nil =>
      intro start c hv hc h
      obtain rfl := can_pure.1 h
      rw [List.flatMap_nil, List.append_nil]
      exact ⟨hv, hc⟩
    | cons e events ih =>
      intro start c hv hc h
      rw [List.foldlM_cons] at h
      obtain ⟨b, hb, h⟩ := can_bind.1 h
      have hview : (e.op.onBuf start.view).Can F b.view := by
        rw [← view_step hv e]
        exact can_map.2 ⟨b, hb, rfl⟩
      rw [List.flatMap_cons, ← List.append_assoc]
      exact ih (step_valid hv hb) (holds_onBuf hc hview) h
  exact hfold events valid_init Buf.holds_init h

/-- What is handed out is NULL, or a block that starts with exactly `c`, and the length of `c`. -/
def HandsOut (r : Option (Bytes × Nat)) (c : Bytes) : Prop :=
  ∀ block len, r = some (block, len) → len = c.length ∧ block.take len = c

/-- The same, with a terminator behind it. -/
def HandsOutTerminated (r : Option (Bytes × Nat)) (c : Bytes) : Prop :=
  ∀ block len, r = some (block, len) → len = c.length ∧ block.take (len + 1) = c ++ [0]

section Detach

variable {c : Bytes} (hv : buf.Valid) (hc : buf.view.Holds True c)

include hv hc

theorem content_of_not_failed (hf : ¬ buf.failed = true) :
    buf.len = c.length ∧ buf.view.data = c := by
  rcases hc with ⟨hfail, -⟩ | ⟨-, hdata⟩
  · exact absurd hfail hf
  · rw [← hdata, hv.length_view]
    exact ⟨rfl, rfl⟩

theorem detach_handsOut {outLen : Bool} {r : Option (Bytes × Nat)}
    (h : (buf.detach fresh outLen).Can F r) : HandsOut r c := by
  rintro block len rfl
  unfold detach at h
  split at h
  · cases h
  next hguard =>
  rw [Bool.or_eq_true, not_or] at hguard
  obtain ⟨hlen, hdata⟩ := content_of_not_failed hv hc hguard.1
  split at h
  · obtain ⟨b, hb, h⟩ := can_bind.1 h
    obtain ⟨-, hview, hsame, -⟩ := reserve_can hv hb
    split at h
    · cases h
    · injection can_pure.1 h with h
      injection h with hblock hlen'
      subst hblock hlen'
      exact ⟨hsame.trans hlen, hview.trans hdata⟩
  · injection can_pure.1 h with h
    injection h with hblock hlen'
    subst hblock hlen'
    exact ⟨hlen, hdata⟩

theorem detachImpl_handsOut {allowInteriorNul : Bool} {r : Option (Bytes × Nat)}
    (h : (buf.detachImpl fresh allowInteriorNul).Can F r) : HandsOutTerminated r c := by
  rintro block len rfl
  unfold detachImpl at h
  split at h
  · cases h
  next hf =>
  obtain ⟨hlen, hdata⟩ := content_of_not_failed hv hc hf
  split at h
  · cases h
  obtain ⟨b, hb, h⟩ := can_bind.1 h
  obtain ⟨hvalid, hview, hsame, hroom⟩ := reserve_can hv hb
  split at h
  · cases h
  next hfb =>
  injection can_pure.1 h with h
  injection h with hblock hlen'
  subst hblock hlen'
  have hroom := hroom (Bool.eq_false_of_not_eq_true hfb)
  have hfit : b.len + [(0 : UInt8)].length ≤ b.cap := by
    rw [hsame]
    exact hroom
  obtain ⟨-, -, htake⟩ := block_store hvalid hfit (by decide)
  rw [hview, hdata] at htake
  exact ⟨hsame.trans hlen, htake⟩

end Detach

end BlockBuf

open BlockBuf in
/-- **No partial output.** Whatever calls are made on a buffer, whatever a new block holds and whichever
    requests are refused, the detach functions hand out NULL or all that was appended. So the two
    serializers hand out NULL or what they write when nothing is refused. -/
theorem buffers_never_partial :
    (∀ (events : List Event) (fresh : Nat → UInt8) (σ : Nat → Bool),
      (∀ outLen, HandsOut ((run events >>= fun buf => buf.detach fresh outLen).under σ)
        (events.flatMap (·.op.content))) ∧
      HandsOutTerminated ((run events >>= fun buf => buf.detachTerminated fresh).under σ)
        (events.flatMap (·.op.content)) ∧
      HandsOutTerminated ((run events >>= fun buf => buf.detachString fresh).under σ)
        (events.flatMap (·.op.content))) ∧
    ∀ (L : Libc) (v : Json) (σ : Nat → Bool),
      ((Json.write L v).under σ = (Json.write L v).ok ∨ (Json.write L v).under σ = none) ∧
      ((Json.writeCanonical L v).under σ = (Json.writeCanonical L v).ok ∨
        (Json.writeCanonical L v).under σ = none) := by
  constructor
  · intro events fresh σ
    refine ⟨fun outLen => ?_, ?_, ?_⟩
    · obtain ⟨buf, hbuf, h⟩ := can_bind.1 (can_under (run events >>= fun buf => buf.detach fresh outLen) σ)
      obtain ⟨hv, hc⟩ := run_holds hbuf
      exact detach_handsOut hv hc h
    · obtain ⟨buf, hbuf, h⟩ := can_bind.1 (can_under (run events >>= fun buf => buf.detachTerminated fresh) σ)
      obtain ⟨hv, hc⟩ := run_holds hbuf
      exact detachImpl_handsOut hv hc h
    · obtain ⟨buf, hbuf, h⟩ := can_bind.1 (can_under (run events >>= fun buf => buf.detachString fresh) σ)
      obtain ⟨hv, hc⟩ := run_holds hbuf
      exact detachImpl_handsOut hv hc h
  · intro L v σ
    exact ⟨sound_iff_under.1 (Json.writeImpl_sound L false v) σ,
      sound_iff_under.1 (Json.writeImpl_sound L true v) σ⟩

open BlockBuf in
/-- Two appends and a terminator; the rest of the block is what was in it. -/
example :
    ((run [⟨.append [1, 2], fun _ => 7⟩, ⟨.appendByte 3, fun _ => 8⟩] >>=
      fun buf => buf.detachString fun _ => 9).ok).map (fun r => (r.1.take 5, r.2)) =
      some ([1, 2, 3, 0, 7], 3) := by decide

end Tamga
