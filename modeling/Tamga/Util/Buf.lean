import Tamga.Mem

/-!
# `Util.Buf` — the growable byte buffer (`util/buf.c`)

A `TamgaBuf` grows by doubling and **fails stickily**: the first refused request (or a `size_t`
overflow) sets `failed`, every later append is a no-op, and the detach functions hand out nothing.

## Contents
- `Buf.reserve`, the appends and the three detach functions, as the source has them.
- `Holds E b c` — `b` contains exactly `c`, or it failed and `E` excuses it; kept by every append.
- `Writes w t` — `w` appends `t`, with or without refused requests; kept by composition.
- `TightCap` — what the capacity is after appends alone: the least `64 · 2^k` that fits. It decides
  when `detach` needs one more block for the terminator (`needsGrowth`): exactly when the content is
  empty or fills the capacity.
-/

namespace Tamga

open Alloc

structure Buf where
  data : Bytes
  cap : Nat
  failed : Bool
  deriving DecidableEq, Repr

namespace Buf

/-- `TAMGA_BUF_MIN_CAP`. -/
def minCap : Nat := 64

/-- `tamga_buf_init`. -/
def init : Buf := ⟨[], 0, false⟩

/-- The `while (new_cap < needed)` loop. From `minCap` on, 58 doublings overflow `size_t`, so a
    `fuel` of 64 never runs out. -/
def doubleUntil (needed : Nat) : (fuel : Nat) → (newCap : Nat) → Option Nat
  | 0, _ => none
  | fuel + 1, newCap =>
      if newCap < needed then
        match checkedMul newCap 2 with
        | none => none
        | some doubled => doubleUntil needed fuel doubled
      else some newCap

/-- `tamga_buf_reserve`; its `bool` result is `!failed` of the buffer it leaves. -/
def reserve (buf : Buf) (extra : Nat) : Alloc Buf :=
  if buf.failed then pure buf else
  match checkedAdd buf.data.length extra with
  | none => pure { buf with failed := true }
  | some needed =>
      if needed ≤ buf.cap then pure buf else
      match doubleUntil needed 64 (if buf.cap < minCap then minCap else buf.cap) with
      | none => pure { buf with failed := true }
      | some newCap => do
          if ← malloc then return { buf with cap := newCap }
          else return { buf with failed := true }

/-- `tamga_buf_append` of a non-NULL block. -/
def append (buf : Buf) (data : Bytes) : Alloc Buf :=
  if buf.failed then pure buf else
  if data.length = 0 then pure buf else do
    let buf ← buf.reserve data.length
    if buf.failed then return buf
    return { buf with data := buf.data ++ data }

/-- `tamga_buf_append_byte`. -/
def appendByte (buf : Buf) (byte : UInt8) : Alloc Buf := buf.append [byte]

/-- `tamga_buf_append_str` of a C string. -/
def appendStr (buf : Buf) (str : Bytes) : Alloc Buf := buf.append str

/-- `tamga_buf_append_fmt`, given the text the format produces: it reserves one byte more than it
    appends, for the terminator `vsnprintf` writes. -/
def appendFmt (buf : Buf) (text : Bytes) : Alloc Buf :=
  if buf.failed then pure buf else do
    let buf ← buf.reserve (text.length + 1)
    if buf.failed then return buf
    return { buf with data := buf.data ++ text }

/-- `tamga_buf_mark_failed`. -/
def markFailed (buf : Buf) : Buf := { buf with failed := true }

/-- `tamga_buf_detach_impl`: room for the terminator, then the block changes hands. -/
def detachImpl (buf : Buf) (allowInteriorNul : Bool) : Alloc (Option Bytes) :=
  if buf.failed then pure none else
  if !allowInteriorNul && decide (¬ NulFree buf.data) then pure none else do
    let buf ← buf.reserve 1
    if buf.failed then return none
    return some buf.data

/-- `tamga_buf_detach_terminated`. -/
def detachTerminated (buf : Buf) : Alloc (Option Bytes) := buf.detachImpl true

/-- `tamga_buf_detach_string`. -/
def detachString (buf : Buf) : Alloc (Option Bytes) := buf.detachImpl false

/-- `tamga_buf_detach`: raw bytes, a block even when there are none. `data == NULL` is `cap = 0`. -/
def detach (buf : Buf) : Alloc (Option Bytes) :=
  if buf.failed then pure none else
  if buf.cap = 0 then do
    let buf ← buf.reserve 1
    if buf.failed then return none
    return some buf.data
  else pure (some buf.data)

variable {F E : Prop} {buf buf' : Buf} {c d : Bytes}

/-! ## Growth -/

/-- A length up to this bound is reached by doubling without overflowing `size_t`. -/
def maxGrowth : Nat := 2 ^ 63

theorem doubleUntil_isSome {needed : Nat} (hn : needed ≤ maxGrowth) :
    ∀ (fuel newCap : Nat), 0 < fuel → needed ≤ newCap * 2 ^ (fuel - 1) →
      ∃ r, doubleUntil needed fuel newCap = some r := by
  intro fuel
  induction fuel with
  | zero => intro newCap h; omega
  | succ fuel ih =>
    intro newCap _ hfit
    unfold doubleUntil
    by_cases hlt : newCap < needed
    · have hmul : newCap * 2 ≤ sizeMax := by
        unfold maxGrowth at hn; unfold sizeMax; omega
      rw [if_pos hlt, checkedMul_of_le hmul]
      simp only [Nat.add_sub_cancel] at hfit
      cases fuel with
      | zero => simp at hfit; omega
      | succ fuel =>
        refine ih (newCap * 2) (Nat.succ_pos _) (le_trans hfit (le_of_eq ?_))
        rw [Nat.add_sub_cancel, pow_succ]; ring
    · exact ⟨newCap, by rw [if_neg hlt]⟩

theorem doubleUntil_eq_none {needed newCap : Nat} (hcap : minCap ≤ newCap)
    (h : doubleUntil needed 64 newCap = none) : maxGrowth < needed := by
  by_contra hle
  have hfit : needed ≤ newCap * 2 ^ (64 - 1) :=
    calc needed ≤ maxGrowth := by omega
      _ ≤ minCap * 2 ^ (64 - 1) := by decide
      _ ≤ newCap * 2 ^ (64 - 1) := Nat.mul_le_mul_right _ hcap
  obtain ⟨r, hr⟩ := doubleUntil_isSome (by omega) 64 newCap (by decide) hfit
  rw [hr] at h
  cases h

/-- The loop ends at the first of `64 · 2^k, 64 · 2^(k+1), …` that fits. -/
theorem doubleUntil_eq_some {needed r : Nat} :
    ∀ {fuel k : Nat}, doubleUntil needed fuel (64 * 2 ^ k) = some r →
      ∃ j, r = 64 * 2 ^ j ∧ needed ≤ r ∧ k ≤ j ∧ (j = k ∨ 32 * 2 ^ j < needed) := by
  intro fuel
  induction fuel with
  | zero => intro k h; cases h
  | succ fuel ih =>
    intro k h
    unfold doubleUntil at h
    split at h
    · rename_i hlt
      split at h
      · cases h
      · rename_i doubled hd
        have hk : doubled = 64 * 2 ^ (k + 1) := by
          rw [checkedMul_eq_some hd, pow_succ]; ring
        rw [hk] at h
        obtain ⟨j, hr, hfit, hkj, hmin⟩ := ih h
        refine ⟨j, hr, hfit, by omega, Or.inr ?_⟩
        rcases hmin with rfl | hmin
        · rw [pow_succ]; omega
        · exact hmin
    · injection h with h
      exact ⟨k, h.symm, by omega, le_refl k, Or.inl rfl⟩

/-- The capacity `cap` of a buffer that came to hold `len` bytes by appends alone. -/
def TightCap (cap len : Nat) : Prop :=
  (cap = 0 ∧ len = 0) ∨
    ∃ k, cap = 64 * 2 ^ k ∧ 0 < len ∧ len ≤ cap ∧ (k = 0 ∨ 32 * 2 ^ k < len)

/-- The lengths at which a tight buffer has no room left for a terminator. -/
def needsGrowth (len : Nat) : Prop := len = 0 ∨ ∃ k, len = 64 * 2 ^ k

theorem TightCap.le {cap len : Nat} (h : TightCap cap len) : len ≤ cap := by
  rcases h with ⟨rfl, rfl⟩ | ⟨k, -, -, h, -⟩
  · exact le_refl 0
  · exact h

theorem TightCap.full_iff {cap len : Nat} (h : TightCap cap len) :
    cap < len + 1 ↔ needsGrowth len := by
  rcases h with ⟨rfl, rfl⟩ | ⟨k, rfl, hpos, hle, hmin⟩
  · simp [needsGrowth]
  constructor
  · intro hfull
    exact Or.inr ⟨k, by omega⟩
  · rintro (h0 | ⟨j, hj⟩)
    · omega
    · -- two powers of two less than a factor of two apart are the same
      have hkj : k ≤ j := by
        rcases hmin with rfl | hmin
        · exact Nat.zero_le j
        · by_contra hlt
          have hpow : 2 ^ (j + 1) ≤ 2 ^ k := Nat.pow_le_pow_right (by decide) (by omega)
          rw [pow_succ] at hpow
          omega
      have hpow : 2 ^ k ≤ 2 ^ j := Nat.pow_le_pow_right (by decide) hkj
      omega

/-! ## What a reservation can do -/

variable {extra : Nat}

/-- **Reserve.** Either the buffer failed — before, by a refused request, or because the length is
    out of reach — or it is the old one with room for `extra` more bytes. -/
theorem reserve_can (h : (buf.reserve extra).Can F buf') :
    (buf'.failed = true ∧ (buf.failed = true ∨ F ∨ maxGrowth < buf.data.length + extra)) ∨
      (buf.failed = false ∧ buf'.failed = false ∧ buf'.data = buf.data ∧
        (buf'.cap = buf.cap ∧ buf.data.length + extra ≤ buf.cap ∨
          buf.cap < buf.data.length + extra ∧ doubleUntil (buf.data.length + extra) 64
            (if buf.cap < minCap then minCap else buf.cap) = some buf'.cap)) := by
  unfold reserve at h
  cases hf : buf.failed with
  | true =>
    rw [if_pos hf] at h
    obtain rfl := can_pure.1 h
    exact Or.inl ⟨hf, Or.inl rfl⟩
  | false =>
    rw [if_neg (by simp [hf])] at h
    split at h
    · -- len + extra overflows
      rename_i hadd
      obtain rfl := can_pure.1 h
      have := checkedAdd_eq_none hadd
      exact Or.inl ⟨rfl, Or.inr (Or.inr (by unfold sizeMax at this; unfold maxGrowth; omega))⟩
    · rename_i needed hadd
      obtain rfl := checkedAdd_eq_some hadd
      by_cases hfit : buf.data.length + extra ≤ buf.cap
      · rw [if_pos hfit] at h
        obtain rfl := can_pure.1 h
        exact Or.inr ⟨rfl, hf, rfl, Or.inl ⟨rfl, hfit⟩⟩
      rw [if_neg hfit] at h
      split at h
      · -- the doubling overflows
        rename_i hdbl
        obtain rfl := can_pure.1 h
        have hmin : minCap ≤ if buf.cap < minCap then minCap else buf.cap := by split <;> omega
        exact Or.inl ⟨rfl, Or.inr (Or.inr (doubleUntil_eq_none hmin hdbl))⟩
      · rename_i newCap hdbl
        rcases malloc_can h with h | ⟨hF, h⟩
        · obtain rfl := can_pure.1 h
          exact Or.inr ⟨rfl, hf, rfl, Or.inr ⟨by omega, hdbl⟩⟩
        · obtain rfl := can_pure.1 h
          exact Or.inl ⟨rfl, Or.inr (Or.inl hF)⟩

theorem TightCap.reserve (htight : TightCap buf.cap buf.data.length)
    (hextra : 0 < extra) (h : (buf.reserve extra).Can F buf') (hok : buf'.failed = false) :
    TightCap buf'.cap (buf.data.length + extra) := by
  rcases reserve_can h with ⟨hfail, -⟩ | ⟨-, -, -, ⟨hcap, hfit⟩ | ⟨hlt, hdbl⟩⟩
  · rw [hok] at hfail; cases hfail
  · rw [hcap]
    rcases htight with ⟨h0, -⟩ | ⟨k, hk, -, -, hmin⟩
    · omega
    · exact Or.inr ⟨k, hk, by omega, hfit, hmin.imp id (by omega)⟩
  · -- the doubling starts at the old capacity, or at `minCap` when there was none
    rcases htight with ⟨h0, -⟩ | ⟨k, hk, -, -, -⟩
    · rw [h0, if_pos (by decide)] at hdbl
      obtain ⟨j, hr, hfit, -, hmin⟩ := doubleUntil_eq_some (k := 0) (by simpa [minCap] using hdbl)
      exact Or.inr ⟨j, hr, by omega, hfit, hmin⟩
    · have hcap : ¬ buf.cap < minCap := by
        have := Nat.one_le_two_pow (n := k)
        unfold minCap; omega
      rw [if_neg hcap, hk] at hdbl
      obtain ⟨j, hr, hfit, -, hmin⟩ := doubleUntil_eq_some hdbl
      refine Or.inr ⟨j, hr, by omega, hfit, Or.inr ?_⟩
      rcases hmin with rfl | hmin
      · omega
      · exact hmin

/-! ## Contents -/

/-- `buf` contains exactly `c`, or it failed and `E` excuses that. -/
def Holds (E : Prop) (buf : Buf) (c : Bytes) : Prop :=
  buf.failed = true ∧ E ∨ buf.failed = false ∧ buf.data = c

theorem holds_init : init.Holds E [] := Or.inr ⟨rfl, rfl⟩

theorem Holds.reserve (hb : buf.Holds E c) (hF : F → E)
    (hlen : maxGrowth < c.length + extra → E) (h : (buf.reserve extra).Can F buf') :
    buf'.Holds E c := by
  rcases reserve_can h with ⟨hfail, hwhy⟩ | ⟨hok, hok', hdata, -⟩
  · rcases hb with ⟨-, hE⟩ | ⟨hok, rfl⟩
    · exact Or.inl ⟨hfail, hE⟩
    · rcases hwhy with h' | h' | h'
      · rw [hok] at h'; cases h'
      · exact Or.inl ⟨hfail, hF h'⟩
      · exact Or.inl ⟨hfail, hlen h'⟩
  · rcases hb with ⟨hfail, -⟩ | ⟨-, rfl⟩
    · rw [hok] at hfail; cases hfail
    · exact Or.inr ⟨hok', hdata⟩

/-- A failed buffer holds anything. -/
theorem Holds.of_failed (hb : buf.Holds E c) (hf : buf.failed = true) : buf.Holds E d := by
  rcases hb with ⟨-, hE⟩ | ⟨hok, -⟩
  · exact Or.inl ⟨hf, hE⟩
  · rw [hf] at hok; cases hok

/-- A reservation, and what is stored into the room it made: what the appends end in. -/
def store (buf : Buf) (extra : Nat) (d : Bytes) : Alloc Buf := do
  let buf ← buf.reserve extra
  if buf.failed then return buf
  return { buf with data := buf.data ++ d }

theorem Holds.store (hb : buf.Holds E c) (hF : F → E) (hlen : maxGrowth < c.length + extra → E)
    (h : (buf.store extra d).Can F buf') : buf'.Holds E (c ++ d) := by
  obtain ⟨b, hb', h⟩ := can_bind.1 h
  rcases hb.reserve hF hlen hb' with ⟨hfail, hE⟩ | ⟨hok, hdata⟩
  · rw [if_pos hfail] at h
    obtain rfl := can_pure.1 h
    exact Or.inl ⟨hfail, hE⟩
  · rw [if_neg (by simp [hok])] at h
    obtain rfl := can_pure.1 h
    exact Or.inr ⟨hok, by rw [hdata]⟩

/-- **Append.** The new bytes come after the old ones. -/
theorem Holds.append (hb : buf.Holds E c) (hF : F → E) (hlen : maxGrowth < (c ++ d).length → E)
    (h : (buf.append d).Can F buf') : buf'.Holds E (c ++ d) := by
  unfold Buf.append at h
  split at h
  · rename_i hf
    exact can_pure.1 h ▸ hb.of_failed hf
  split at h
  · rename_i hd
    rw [List.eq_nil_of_length_eq_zero hd, List.append_nil]
    exact can_pure.1 h ▸ hb
  · rw [List.length_append] at hlen
    exact hb.store hF hlen h

/-- Appends keep the capacity tight. -/
theorem TightCap.append (htight : buf.failed = false → TightCap buf.cap buf.data.length)
    (h : (buf.append d).Can F buf') (hok : buf'.failed = false) :
    TightCap buf'.cap buf'.data.length := by
  unfold Buf.append at h
  cases hf : buf.failed with
  | true =>
    rw [if_pos hf] at h
    obtain rfl := can_pure.1 h
    rw [hok] at hf; cases hf
  | false =>
    rw [if_neg (by simp [hf])] at h
    by_cases hd : d.length = 0
    · rw [if_pos hd] at h
      obtain rfl := can_pure.1 h
      exact htight hf
    rw [if_neg hd] at h
    obtain ⟨b, hb', h⟩ := can_bind.1 h
    cases hfb : b.failed with
    | true =>
      rw [if_pos hfb] at h
      obtain rfl := can_pure.1 h
      rw [hok] at hfb; cases hfb
    | false =>
      rw [if_neg (by simp [hfb])] at h
      obtain rfl := can_pure.1 h
      rcases reserve_can hb' with ⟨hfail, -⟩ | ⟨-, -, hdata, -⟩
      · rw [hfb] at hfail; cases hfail
      · have ht := (htight hf).reserve (by omega) hb' hfb
        show TightCap b.cap (b.data ++ d).length
        rw [List.length_append, hdata]
        exact ht

/-- As `Holds`, with the capacity that appends alone lead to. -/
def Filled (E : Prop) (buf : Buf) (c : Bytes) : Prop :=
  buf.failed = true ∧ E ∨ buf.failed = false ∧ buf.data = c ∧ TightCap buf.cap buf.data.length

theorem filled_init : init.Filled E [] := Or.inr ⟨rfl, rfl, Or.inl ⟨rfl, rfl⟩⟩

theorem Filled.holds (hb : buf.Filled E c) : buf.Holds E c :=
  hb.imp id fun h => ⟨h.1, h.2.1⟩

theorem Filled.append (hb : buf.Filled E c) (hF : F → E) (hlen : maxGrowth < (c ++ d).length → E)
    (h : (buf.append d).Can F buf') : buf'.Filled E (c ++ d) := by
  rcases hb.holds.append hF hlen h with hfail | ⟨hok, hdata⟩
  · exact Or.inl hfail
  · refine Or.inr ⟨hok, hdata, TightCap.append (fun hbuf => ?_) h hok⟩
    rcases hb with ⟨hfail, -⟩ | ⟨-, -, htight⟩
    · rw [hbuf] at hfail; cases hfail
    · exact htight

/-- Appending byte by byte. -/
theorem Filled.appendBytes (hF : F → E) :
    ∀ {d c : Bytes} {buf : Buf}, buf.Filled E c → (maxGrowth < (c ++ d).length → E) →
      (d.foldlM appendByte buf).Can F buf' → buf'.Filled E (c ++ d) := by
  intro d
  induction d with
  | nil =>
    intro c buf hb _ h
    obtain rfl := can_pure.1 h
    rw [List.append_nil]; exact hb
  | cons byte d ih =>
    intro c buf hb hlen h
    rw [List.foldlM_cons] at h
    obtain ⟨b, hb', h⟩ := can_bind.1 h
    have hstep : b.Filled E (c ++ [byte]) := by
      refine hb.append hF (fun hbig => hlen ?_) hb'
      simp only [List.length_append, List.length_cons, List.length_nil] at hbig ⊢
      omega
    have := ih hstep (by simpa using hlen) h
    simpa using this

/-! ## Handing the contents over -/

variable {r : Option Bytes}

/-- A reservation for the terminator, then the block: what both detach functions end in. -/
theorem Holds.reserve_one (hb : buf.Holds E c) (hF : F → E) (hlen : maxGrowth < c.length + 1 → E)
    (h : (buf.reserve 1 >>= fun b =>
      if b.failed then (pure none : Alloc (Option Bytes)) else pure (some b.data)).Can F r) :
    r = some c ∨ r = none ∧ E := by
  obtain ⟨b, hb', h⟩ := can_bind.1 h
  rcases hb.reserve hF hlen hb' with ⟨hfail, hE⟩ | ⟨hok, hdata⟩
  · rw [if_pos hfail] at h
    exact Or.inr ⟨(can_pure.1 h).symm, hE⟩
  · rw [if_neg (by simp [hok])] at h
    exact Or.inl (by rw [← can_pure.1 h, hdata])

theorem Holds.detach (hb : buf.Holds E c) (hF : F → E)
    (hlen : maxGrowth < c.length + 1 → E) (h : buf.detach.Can F r) :
    r = some c ∨ r = none ∧ E := by
  unfold Buf.detach at h
  rcases hb with ⟨hfail, hE⟩ | ⟨hok, rfl⟩
  · rw [if_pos hfail] at h
    exact Or.inr ⟨(can_pure.1 h).symm, hE⟩
  rw [if_neg (by simp [hok])] at h
  split at h
  · exact Holds.reserve_one (Or.inr ⟨hok, rfl⟩) hF hlen h
  · exact Or.inl (can_pure.1 h).symm

theorem Holds.detachString (hb : buf.Holds E c) (hF : F → E)
    (hlen : maxGrowth < c.length + 1 → E) (h : buf.detachString.Can F r) :
    r = some c ∧ NulFree c ∨ r = none ∧ (E ∨ ¬ NulFree c) := by
  unfold Buf.detachString detachImpl at h
  rcases hb with ⟨hfail, hE⟩ | ⟨hok, rfl⟩
  · rw [if_pos hfail] at h
    exact Or.inr ⟨(can_pure.1 h).symm, Or.inl hE⟩
  rw [if_neg (by simp [hok])] at h
  by_cases hnul : NulFree buf.data
  · rw [if_neg (by simp [hnul])] at h
    rcases Holds.reserve_one (Or.inr ⟨hok, rfl⟩) hF hlen h with hr | ⟨hr, hE⟩
    · exact Or.inl ⟨hr, hnul⟩
    · exact Or.inr ⟨hr, Or.inl hE⟩
  · rw [if_pos (by simp [hnul])] at h
    exact Or.inr ⟨(can_pure.1 h).symm, Or.inr hnul⟩

/-- A string that is handed over is what the buffer held. -/
theorem Holds.detachString_some {text : Bytes} (hb : buf.Holds True c)
    (h : buf.detachString.Can F (some text)) : text = c ∧ NulFree c := by
  rcases hb.detachString (fun _ => trivial) (fun _ => trivial) h with ⟨hr, hnul⟩ | ⟨hr, -⟩
  · injection hr with hr
    exact ⟨hr, hnul⟩
  · cases hr

/-- **Detaching a tight buffer.** The terminator costs a request exactly at the lengths
    `needsGrowth`, so only there can a good string be refused. -/
theorem TightCap.detachString (hok : buf.failed = false)
    (htight : TightCap buf.cap buf.data.length) (hnul : NulFree buf.data)
    (hlen : buf.data.length + 1 ≤ maxGrowth) (h : buf.detachString.Can F r) :
    r = some buf.data ∨ r = none ∧ F ∧ needsGrowth buf.data.length := by
  have hb : buf.Holds (F ∧ needsGrowth buf.data.length) buf.data := Or.inr ⟨hok, rfl⟩
  by_cases hg : needsGrowth buf.data.length
  · rcases hb.detachString (fun hF => ⟨hF, hg⟩) (by omega) h with ⟨hr, -⟩ | ⟨hr, hE | hE⟩
    · exact Or.inl hr
    · exact Or.inr ⟨hr, hE⟩
    · exact absurd hnul hE
  · -- there is room, so nothing is requested
    have hfit : buf.data.length + 1 ≤ buf.cap := by
      have := mt htight.full_iff.1 hg
      omega
    unfold Buf.detachString detachImpl Buf.reserve at h
    rw [checkedAdd_of_le (by unfold maxGrowth at hlen; unfold sizeMax; omega)] at h
    simp [hok, hnul, hfit] at h
    exact Or.inl h.symm

theorem detachString_refused (hok : buf.failed = false)
    (htight : TightCap buf.cap buf.data.length) (hlen : buf.data.length + 1 ≤ maxGrowth)
    (hg : needsGrowth buf.data.length) : buf.detachString.Can True none := by
  have hfull : ¬ buf.data.length + 1 ≤ buf.cap := by
    have := htight.full_iff.2 hg
    omega
  unfold Buf.detachString detachImpl
  rw [if_neg (by simp [hok])]
  split
  · exact can_pure.2 rfl
  refine can_bind.2 ⟨buf.markFailed, ?_, can_pure.2 rfl⟩
  unfold Buf.reserve
  rw [if_neg (by simp [hok]), checkedAdd_of_le (by unfold maxGrowth at hlen; unfold sizeMax; omega)]
  simp only [if_neg hfull]
  split
  · exact can_pure.2 rfl
  · exact can_bind.2 ⟨false, can_request.2 (Or.inr ⟨trivial, rfl⟩), can_pure.2 rfl⟩

/-! ## Blocks -/

theorem doubleUntil_le {needed r : Nat} :
    ∀ {fuel newCap : Nat}, newCap ≤ sizeMax → doubleUntil needed fuel newCap = some r →
      r ≤ sizeMax := by
  intro fuel
  induction fuel with
  | zero => intro newCap _ h; cases h
  | succ fuel ih =>
    intro newCap hcap h
    unfold doubleUntil at h
    split at h
    · split at h
      · cases h
      · rename_i doubled hd
        exact ih (checkedMul_le hd) h
    · injection h with h
      exact h ▸ hcap

theorem reserve_cap_le (h : (buf.reserve extra).Can F buf')
    (hok : buf'.failed = false) (hcap : buf.cap ≤ sizeMax) : buf'.cap ≤ sizeMax := by
  rcases reserve_can h with ⟨hfail, -⟩ | ⟨-, -, -, ⟨hsame, -⟩ | ⟨-, hdbl⟩⟩
  · rw [hok] at hfail; cases hfail
  · rw [hsame]; exact hcap
  · refine doubleUntil_le ?_ hdbl
    split
    · decide
    · exact hcap

/-- The buffer's block: large enough, of a size `size_t` can hold, and a power of two. -/
def Sized (buf : Buf) : Prop :=
  buf.failed = false → buf.data.length ≤ buf.cap ∧ buf.cap ≤ sizeMax ∧
    (buf.cap = 0 ∨ ∃ k, buf.cap = 64 * 2 ^ k)

theorem sized_init : init.Sized := fun _ => ⟨le_refl 0, Nat.zero_le _, Or.inl rfl⟩

theorem Sized.reserve (hb : buf.Sized) (h : (buf.reserve extra).Can F buf') :
    buf'.Sized ∧ (buf'.failed = false →
      buf'.data = buf.data ∧ buf.data.length + extra ≤ buf'.cap) := by
  rcases reserve_can h with ⟨hfail, -⟩ | ⟨hf, hok, hdata, ⟨hcap, hfit⟩ | ⟨hlt, hdbl⟩⟩
  · refine ⟨fun hok => ?_, fun hok => ?_⟩ <;> rw [hok] at hfail <;> cases hfail
  · obtain ⟨-, hmax, hpow⟩ := hb hf
    refine ⟨fun _ => ⟨?_, by omega, hcap ▸ hpow⟩, fun _ => ⟨hdata, by omega⟩⟩
    rw [hdata]
    omega
  · obtain ⟨-, hmax, hpow⟩ := hb hf
    -- the doubling starts at a power of two
    obtain ⟨j, hj, hfit⟩ : ∃ j, buf'.cap = 64 * 2 ^ j ∧ buf.data.length + extra ≤ buf'.cap := by
      rcases hpow with h0 | ⟨k, hk⟩
      · rw [h0, if_pos (by decide)] at hdbl
        obtain ⟨j, hj, hfit, -⟩ := doubleUntil_eq_some (k := 0) (by simpa [minCap] using hdbl)
        exact ⟨j, hj, hfit⟩
      · have hcap : ¬ buf.cap < minCap := by
          have := Nat.one_le_two_pow (n := k)
          unfold minCap
          omega
        rw [if_neg hcap, hk] at hdbl
        obtain ⟨j, hj, hfit, -⟩ := doubleUntil_eq_some hdbl
        exact ⟨j, hj, hfit⟩
    refine ⟨fun _ => ⟨?_, reserve_cap_le h hok hmax, Or.inr ⟨j, hj⟩⟩, fun _ => ⟨hdata, hfit⟩⟩
    rw [hdata]
    omega

/-- A power of two below `2 ^ 64` is at most `2 ^ 63`. -/
theorem Sized.cap_le (hb : buf.Sized) (hok : buf.failed = false) : buf.cap ≤ maxGrowth := by
  obtain ⟨-, hmax, h0 | ⟨k, hk⟩⟩ := hb hok
  · rw [h0]
    exact Nat.zero_le _
  · have hk57 : k ≤ 57 := by
      by_contra hlt
      have : 2 ^ 58 ≤ 2 ^ k := Nat.pow_le_pow_right (by decide) (by omega)
      unfold sizeMax at hmax
      omega
    have : 2 ^ k ≤ 2 ^ 57 := Nat.pow_le_pow_right (by decide) hk57
    unfold maxGrowth
    omega

/-- A text that was handed over is one byte shorter than the largest block at most. -/
theorem Sized.detachString_length (hb : buf.Sized) (h : buf.detachString.Can F (some c)) :
    c.length < maxGrowth := by
  unfold Buf.detachString detachImpl at h
  split at h
  · cases h
  split at h
  · cases h
  obtain ⟨b, hb', h⟩ := can_bind.1 h
  split at h
  · cases h
  rename_i hokb
  simp only [Bool.not_eq_true] at hokb
  injection can_pure.1 h with h
  subst h
  obtain ⟨hsized, hroom⟩ := hb.reserve hb'
  obtain ⟨hdata, hfit⟩ := hroom hokb
  have := hsized.cap_le hokb
  rw [hdata]
  omega

theorem reserve_sound (buf : Buf) (extra : Nat) :
    (buf.reserve extra).Sound fun b => b.failed = true := by
  unfold reserve
  split
  · exact Sound.pure _
  split
  · exact Sound.pure _
  split
  · exact Sound.pure _
  split
  · exact Sound.pure _
  · refine Sound.bind sound_request ?_ (Sound.pure _)
    rintro _ rfl b hb
    rw [← can_pure.1 hb]

theorem store_sound (buf : Buf) (extra : Nat) (d : Bytes) :
    (buf.store extra d).Sound fun b => b.failed = true := by
  refine Sound.bind (reserve_sound buf extra) ?_ ?_
  · intro b hb b' hb'
    rw [if_pos hb] at hb'
    exact can_pure.1 hb' ▸ hb
  · split
    · exact Sound.pure _
    · exact Sound.pure _

theorem Sized.store (hd : d.length ≤ extra) (hb : buf.Sized) (h : (buf.store extra d).Can F buf') :
    buf'.Sized := by
  obtain ⟨b, hb', h⟩ := can_bind.1 h
  obtain ⟨hsized, hroom⟩ := hb.reserve hb'
  split at h
  · exact can_pure.1 h ▸ hsized
  · rename_i hok
    simp only [Bool.not_eq_true] at hok
    obtain rfl := can_pure.1 h
    obtain ⟨hdata, hfit⟩ := hroom hok
    obtain ⟨-, hcap⟩ := hsized hok
    refine fun _ => ⟨?_, hcap⟩
    show (b.data ++ d).length ≤ b.cap
    rw [List.length_append, hdata]
    omega

theorem detachString_sound (buf : Buf) : buf.detachString.Sound (· = none) := by
  unfold detachString detachImpl
  split
  · exact Sound.pure _
  split
  · exact Sound.pure _
  refine Sound.bind (reserve_sound buf 1) ?_ ?_
  · intro b hb r hr
    rw [if_pos hb] at hr
    exact (can_pure.1 hr).symm
  · split
    · exact Sound.pure _
    · exact Sound.pure _

theorem detachString_failed (hb : buf.failed = true) (h : buf.detachString.Can F r) : r = none := by
  unfold Buf.detachString detachImpl at h
  rw [if_pos hb] at h
  exact (can_pure.1 h).symm

/-! ## Writers -/

/-- `w` appends `t`: the buffer holds it afterwards, or failed for a reason `E` excuses. It owns up to every
    refused request by failing the buffer, and leaves the block as the buffer's own operations do. -/
structure Writes (w : Buf → Alloc Buf) (t : Bytes) : Prop where
  holds : ∀ {F E : Prop} {buf buf' : Buf} {c : Bytes}, buf.Holds E c → (F → E) →
    (maxGrowth < (c ++ t).length + 1 → E) → (w buf).Can F buf' → buf'.Holds E (c ++ t)
  sound : ∀ buf : Buf, (w buf).Sound fun b => b.failed = true
  sized : ∀ {F : Prop} {buf buf' : Buf}, buf.Sized → (w buf).Can F buf' → buf'.Sized

namespace Writes

variable {w w' : Buf → Alloc Buf} {t t' : Bytes}

/-- A failed buffer stays so: it would have to end in `t` behind every text. -/
theorem failed (h : Writes w t) (hf : buf.failed = true) (hrun : (w buf).Can F buf') :
    buf'.failed = true := by
  have hholds : ∀ c, buf'.Holds True (c ++ t) := fun c =>
    h.holds (Or.inl ⟨hf, trivial⟩) (fun _ => trivial) (fun _ => trivial) hrun
  rcases hholds [], hholds [0] with ⟨⟨hfailed, -⟩ | ⟨-, hdata⟩, ⟨hfailed, -⟩ | ⟨-, hdata'⟩⟩
  · exact hfailed
  · exact hfailed
  · exact hfailed
  · have := congrArg List.length (hdata.symm.trans hdata')
    simp at this

theorem nil : Writes (fun buf => pure buf) [] where
  holds hb _ _ h := by
    rw [List.append_nil]
    exact can_pure.1 h ▸ hb
  sound buf := Sound.pure buf
  sized hb h := can_pure.1 h ▸ hb

theorem seq (h : Writes w t) (h' : Writes w' t') : Writes (fun buf => w buf >>= w') (t ++ t') where
  holds hb hF hlen hrun := by
    obtain ⟨b, hb', hrun⟩ := can_bind.1 hrun
    rw [← List.append_assoc] at hlen ⊢
    refine h'.holds (h.holds hb hF (fun hbig => hlen ?_) hb') hF hlen hrun
    rw [List.length_append]
    omega
  sound buf := Sound.bind (h.sound buf) (fun _ hb _ hb' => h'.failed hb hb') (h'.sound _)
  sized hb hrun := by
    obtain ⟨b, hb', hrun⟩ := can_bind.1 hrun
    exact h'.sized (h.sized hb hb') hrun

theorem ite {p : Prop} [Decidable p] (h : Writes w t) :
    Writes (fun buf => if p then w buf else pure buf) (if p then t else []) := by
  split
  · exact h
  · exact nil

theorem foldlM {α : Type} {w : Buf → α → Alloc Buf} {f : α → Bytes}
    (h : ∀ a, Writes (fun buf => w buf a) (f a)) :
    ∀ as : List α, Writes (fun buf => as.foldlM w buf) (as.flatMap f) := by
  intro as
  induction as with
  | nil => exact nil
  | cons a as ih => exact (h a).seq ih

/-- The guard every append begins with. -/
theorem unlessFailed (h : Writes w t) :
    Writes (fun buf => if buf.failed then pure buf else w buf) t := by
  constructor
  · intro F E buf buf' c hb hF hlen hrun
    split at hrun
    · rename_i hf
      exact can_pure.1 hrun ▸ hb.of_failed hf
    · exact h.holds hb hF hlen hrun
  · intro buf
    split
    · exact Sound.pure buf
    · exact h.sound buf
  · intro F buf buf' hb hrun
    split at hrun
    · exact can_pure.1 hrun ▸ hb
    · exact h.sized hb hrun

theorem store (hd : d.length ≤ extra) (hextra : extra ≤ d.length + 1) :
    Writes (fun buf => buf.store extra d) d where
  holds hb hF hlen h := hb.store hF (fun hbig => hlen (by rw [List.length_append]; omega)) h
  sound buf := store_sound buf extra d
  sized hb h := hb.store hd h

theorem append (d : Bytes) : Writes (fun buf => buf.append d) d := by
  refine unlessFailed (w := fun buf => if d.length = 0 then pure buf else buf.store d.length d) ?_
  by_cases hd : d.length = 0
  · obtain rfl := List.eq_nil_of_length_eq_zero hd
    exact nil
  · simp only [if_neg hd]
    exact store (le_refl _) (Nat.le_succ _)

theorem appendFmt (d : Bytes) : Writes (fun buf => buf.appendFmt d) d :=
  (store (Nat.le_succ _) (le_refl _)).unlessFailed

theorem pieces (parts : List Bytes) :
    Writes (fun buf => parts.foldlM Buf.append buf) parts.flatten := by
  rw [← List.flatMap_id]
  exact foldlM append parts

/-! ### What is handed over -/

theorem detachString_sound (h : Writes w t) (buf : Buf) :
    (w buf >>= Buf.detachString).Sound (· = none) :=
  Sound.bind (h.sound buf) (fun _ hb _ hr => detachString_failed hb hr) (Buf.detachString_sound _)

/-- The text is handed over, or nothing: because a request was refused, the text is too long for any
    block, or it contains a NUL byte. -/
theorem detachString_can (h : Writes w t) (hrun : (w init >>= Buf.detachString).Can F r) :
    r = some t ∨ r = none ∧ (F ∨ maxGrowth < t.length + 1 ∨ ¬ NulFree t) := by
  obtain ⟨buf, hbuf, hrun⟩ := can_bind.1 hrun
  have hholds : buf.Holds (F ∨ maxGrowth < t.length + 1) t := h.holds (c := []) holds_init Or.inl Or.inr hbuf
  rcases hholds.detachString Or.inl Or.inr hrun with ⟨hr, -⟩ | ⟨hr, hE | hnul⟩
  · exact Or.inl hr
  · exact Or.inr ⟨hr, hE.imp id Or.inl⟩
  · exact Or.inr ⟨hr, Or.inr (Or.inr hnul)⟩

theorem detachString_some (h : Writes w t) (hrun : (w init >>= Buf.detachString).Can F (some c)) :
    c = t ∧ NulFree c ∧ c.length < maxGrowth := by
  obtain ⟨buf, hbuf, hrun⟩ := can_bind.1 hrun
  have hholds : buf.Holds True t := h.holds (c := []) holds_init (fun _ => trivial) (fun _ => trivial) hbuf
  obtain ⟨rfl, hnul⟩ := hholds.detachString_some hrun
  exact ⟨rfl, hnul, (h.sized sized_init hbuf).detachString_length hrun⟩

/-- Without refused requests the text is handed over, unless it holds a NUL or is longer than any block. -/
theorem detachString_ok (h : Writes w t) : (w init >>= Buf.detachString).ok = some c ↔
    c = t ∧ NulFree c ∧ c.length < maxGrowth := by
  constructor
  · intro hok
    exact h.detachString_some (can_false.2 hok)
  · rintro ⟨rfl, hnul, hlen⟩
    rcases h.detachString_can (can_ok _) with hr | ⟨-, hbad⟩
    · exact hr
    · exact (hbad.elim id fun hbad => hbad.elim (by omega) fun hbad => hbad hnul).elim

theorem detachString_ok_eq (h : Writes w t) : (w init >>= Buf.detachString).ok =
    if NulFree t ∧ t.length < maxGrowth then some t else none := by
  split
  · rename_i hfit
    exact h.detachString_ok.2 ⟨rfl, hfit⟩
  · rename_i hfit
    refine Option.eq_none_iff_forall_ne_some.mpr fun c hc => hfit ?_
    obtain ⟨rfl, hc⟩ := h.detachString_ok.1 hc
    exact hc

end Writes

end Buf

end Tamga
