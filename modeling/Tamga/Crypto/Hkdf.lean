import Tamga.Crypto
import Tamga.Crypto.Sha2
import Tamga.Lib.KeyDerivation

/-!
# `Crypto.Hkdf` — the keyed hash and the key derivation (`crypto/hmac_sha256.c`, `crypto/hkdf.c`)

HMAC is fed in pieces, on top of the pieces of SHA-256; HKDF restarts it for every block of its
output. `HmacCtx.Holds` says which key and which message a context has seen, and everything else
follows from `KeyDerivation`.
-/

namespace Tamga.Hash

open MerkleDamgard KeyDerivation

/-! ## HMAC -/

/-- `TamgaHmacSha256`. -/
structure HmacCtx where
  inner : Ctx (Words 32)
  outerPad : Bytes

/-- `block_key`: the key, or its digest, at the front of a block of zeros. -/
def hmacBlockKey (key : Bytes) : Bytes :=
  let zeros := List.replicate 64 0
  if key.length > 64 then overwrite zeros 0 (sha256 key)
  else if key.length > 0 then overwrite zeros 0 key
  else zeros

/-- `tamga_hmac_sha256_init`. -/
def hmacSha256Init (key : Bytes) : HmacCtx where
  inner := sha256Update sha256Init ((hmacBlockKey key).map (· ^^^ 0x36))
  outerPad := (hmacBlockKey key).map (· ^^^ 0x5C)

/-- `tamga_hmac_sha256_update`. -/
def hmacSha256Update (ctx : HmacCtx) (data : Bytes) : HmacCtx :=
  { ctx with inner := sha256Update ctx.inner data }

/-- `tamga_hmac_sha256_final`. -/
def hmacSha256Final (ctx : HmacCtx) : Bytes :=
  let innerDigest := sha256Final ctx.inner
  let outer := sha256Update sha256Init ctx.outerPad
  sha256Final (sha256Update outer innerDigest)

/-- `tamga_hmac_sha256`. -/
def hmacSha256 (key data : Bytes) : Bytes :=
  hmacSha256Final (hmacSha256Update (hmacSha256Init key) data)

/-- The context was started with `key` and has seen `m`. -/
structure HmacCtx.Holds (ctx : HmacCtx) (key m : Bytes) : Prop where
  inner : ctx.inner.Holds sha256Design ((keyBlock sha256 64 key).map (· ^^^ 0x36) ++ m)
  outerPad : ctx.outerPad = (keyBlock sha256 64 key).map (· ^^^ 0x5C)

theorem hmacBlockKey_eq (key : Bytes) : hmacBlockKey key = keyBlock sha256 64 key := by
  have hfront : ∀ bytes : Bytes, overwrite (List.replicate 64 0) 0 bytes =
      bytes ++ List.replicate (64 - bytes.length) 0 := by
    intro bytes
    unfold overwrite
    rw [List.take_zero, List.nil_append, Nat.zero_add, List.drop_replicate]
  unfold hmacBlockKey keyBlock
  dsimp only
  by_cases hlong : key.length > 64
  · rw [if_pos hlong, if_pos hlong, hfront]
  · rw [if_neg hlong, if_neg hlong]
    by_cases hempty : key.length > 0
    · rw [if_pos hempty, hfront]
    · have hnil : key = [] := List.length_eq_zero_iff.mp (by omega)
      rw [if_neg hempty, hnil, List.nil_append, List.length_nil, Nat.sub_zero]

theorem hmacSha256Init_holds (key : Bytes) : (hmacSha256Init key).Holds key [] := by
  unfold hmacSha256Init
  rw [hmacBlockKey_eq]
  refine ⟨?_, rfl⟩
  rw [List.append_nil]
  exact update_holds (init_holds sha256Design) _

theorem HmacCtx.Holds.update {ctx : HmacCtx} {key m : Bytes} (h : ctx.Holds key m) (data : Bytes) :
    (hmacSha256Update ctx data).Holds key (m ++ data) := by
  refine ⟨?_, h.outerPad⟩
  rw [← List.append_assoc]
  exact update_holds h.inner data

/-- A context that has seen a message is the digest of that message. -/
theorem sha256Final_of_holds {ctx : Ctx (Words 32)} {m : Bytes} (h : ctx.Holds sha256Design m) :
    sha256Final ctx = sha256 m := by
  rw [sha256, hash_eq_digest (by decide) (Or.inl rfl)]
  exact final_eq_digest h (by decide) (Or.inl rfl)

/-- **The keyed hash of what was seen.** -/
theorem HmacCtx.Holds.final {ctx : HmacCtx} {key m : Bytes} (h : ctx.Holds key m) :
    hmacSha256Final ctx = hmac sha256 64 key m := by
  unfold hmacSha256Final hmac
  dsimp only
  rw [sha256Final_of_holds h.inner, h.outerPad]
  apply sha256Final_of_holds
  exact update_holds (update_holds (init_holds sha256Design) _) _

theorem hmacSha256_eq (key data : Bytes) : hmacSha256 key data = hmac sha256 64 key data :=
  ((hmacSha256Init_holds key).update data).final

theorem length_hmacSha256 (key data : Bytes) : (hmacSha256 key data).length = 32 := by
  rw [hmacSha256_eq]
  exact length_sha256 _

/-! ## HKDF -/

/-- A pointer with a length. NULL may come with any. -/
inductive Span : Type where
  | null (len : Nat)
  | bytes (b : Bytes)

namespace Span

/-- `p == NULL && len > 0`. -/
def Dangling : Span → Prop
  | null len => len > 0
  | bytes _ => False

instance : DecidablePred Dangling
  | null len => inferInstanceAs (Decidable (len > 0))
  | bytes _ => inferInstanceAs (Decidable False)

/-- The bytes the code reads; none behind NULL. -/
def given : Span → Bytes
  | null _ => []
  | bytes b => b

end Span

/-- One round of the expand loop: `T(counter)` from the block before it. -/
def hkdfRound (prk info : Bytes) (counter : Nat) (block : Bytes) : Bytes :=
  let hmac := hmacSha256Init prk
  let hmac := if counter > 1 then hmacSha256Update hmac block else hmac
  let hmac := if info.length > 0 then hmacSha256Update hmac info else hmac
  hmacSha256Final (hmacSha256Update hmac [UInt8.ofNat counter])

/-- The expand loop, `out` being what was produced; `fuel` bounds the rounds. -/
def hkdfExpandLoop (prk info : Bytes) (outLen : Nat) :
    (fuel : Nat) → (out : Bytes) → (counter : Nat) → (block : Bytes) → Bytes
  | 0, out, _, _ => out
  | fuel + 1, out, counter, block =>
      if out.length < outLen then
        let block := hkdfRound prk info counter block
        let take := if outLen - out.length > 32 then 32 else outLen - out.length
        hkdfExpandLoop prk info outLen fuel (out ++ block.take take) (counter + 1) block
      else out

/-- The extract and the expand step, once the arguments are admitted. -/
def hkdfDerive (salt ikm info : Bytes) (outLen : Nat) : Bytes :=
  let prk := if salt.length = 0 then hmacSha256 (List.replicate 32 0) ikm else hmacSha256 salt ikm
  hkdfExpandLoop prk info outLen outLen [] 1 []

/-- `tamga_hkdf_sha256`; `out` says whether there is room for the output. -/
def hkdfSha256 (salt : Span) (ikm : Bytes) (info : Span) (out : Bool) (outLen : Nat) : Option Bytes :=
  if out = false ∨ outLen = 0 then none
  else if salt.Dangling ∨ info.Dangling then none
  else if outLen > 255 * 32 then none
  else some (hkdfDerive salt.given ikm info.given outLen)

section Loop

variable (prk info : Bytes)

/-- The pieces of a round are one message. -/
theorem hkdfRound_eq_hmac (counter : Nat) (last : Bytes) :
    hkdfRound prk info counter last =
      hmacSha256 prk ((if 1 < counter then last else []) ++ info ++ [UInt8.ofNat counter]) := by
  have hstart := hmacSha256Init_holds prk
  have hchained : (if counter > 1 then hmacSha256Update (hmacSha256Init prk) last
      else hmacSha256Init prk).Holds prk (if 1 < counter then last else []) := by
    by_cases hfirst : 1 < counter
    · have hupdate := hstart.update last
      rw [List.nil_append] at hupdate
      rw [if_pos hfirst, if_pos hfirst]
      exact hupdate
    · rw [if_neg hfirst, if_neg hfirst]
      exact hstart
  unfold hkdfRound
  dsimp only
  generalize (if counter > 1 then hmacSha256Update (hmacSha256Init prk) last
      else hmacSha256Init prk) = ctx at hchained
  have hinfo : (if info.length > 0 then hmacSha256Update ctx info else ctx).Holds prk
      ((if 1 < counter then last else []) ++ info) := by
    by_cases hempty : info.length > 0
    · rw [if_pos hempty]
      exact hchained.update info
    · have hnil : info = [] := List.length_eq_zero_iff.mp (by omega)
      subst hnil
      rw [if_neg hempty, List.append_nil]
      exact hchained
  rw [hmacSha256_eq]
  exact (hinfo.update [UInt8.ofNat counter]).final

/-- A round computes the next block. -/
theorem hkdfRound_eq (n : Nat) :
    hkdfRound prk info (n + 1) (block (hmac sha256 64) prk info n) =
      block (hmac sha256 64) prk info (n + 1) := by
  rw [hkdfRound_eq_hmac, hmacSha256_eq, block_succ]
  cases n with
  | zero => rw [block_zero, ite_self]
  | succ n => rw [if_pos (by omega)]

theorem length_hmac_sha256 (key message : Bytes) : (hmac sha256 64 key message).length = 32 :=
  length_sha256 _

/-- The loop behind `n` complete blocks. -/
theorem hkdfExpandLoop_eq (outLen fuel n : Nat) (hn : n * 32 ≤ outLen)
    (hfuel : outLen ≤ (n + fuel) * 32) :
    hkdfExpandLoop prk info outLen fuel (expansion (hmac sha256 64) prk info n) (n + 1)
        (block (hmac sha256 64) prk info n) =
      (expansion (hmac sha256 64) prk info (n + fuel)).take outLen := by
  have hlen := length_expansion prk info length_hmac_sha256
  have hblock : ∀ k, (block (hmac sha256 64) prk info (k + 1)).length = 32 := by
    intro k
    rw [block_succ]
    exact length_hmac_sha256 _ _
  induction fuel generalizing n with
  | zero =>
    rw [hkdfExpandLoop, Nat.add_zero, List.take_of_length_le (by rw [hlen]; omega)]
  | succ fuel ih =>
    unfold hkdfExpandLoop
    rw [hlen]
    by_cases hmore : n * 32 < outLen
    · rw [if_pos hmore, hkdfRound_eq]
      dsimp only
      by_cases hfull : outLen - n * 32 > 32
      · -- a complete block is copied
        rw [if_pos hfull, List.take_of_length_le (by rw [hblock]), ← expansion_succ,
          ih (n + 1) (by omega) (by omega), show n + 1 + fuel = n + (fuel + 1) by omega]
      · -- the last block is cut, and the loop ends
        rw [if_neg hfull]
        have hcut : expansion (hmac sha256 64) prk info n ++
            (block (hmac sha256 64) prk info (n + 1)).take (outLen - n * 32) =
            (expansion (hmac sha256 64) prk info (n + 1)).take outLen := by
          rw [expansion_succ, List.take_append, hlen,
            List.take_of_length_le (l := expansion (hmac sha256 64) prk info n)
              (by rw [hlen]; omega)]
        have hstop : ∀ (fuel counter : Nat) (last : Bytes),
            hkdfExpandLoop prk info outLen fuel
              ((expansion (hmac sha256 64) prk info (n + 1)).take outLen) counter last =
            (expansion (hmac sha256 64) prk info (n + 1)).take outLen := by
          intro fuel counter last
          cases fuel with
          | zero => rfl
          | succ fuel =>
            unfold hkdfExpandLoop
            rw [if_neg (by rw [List.length_take, hlen]; omega)]
        rw [hcut, hstop]
        exact take_expansion prk info length_hmac_sha256 (by omega) (by omega)
    · rw [if_neg hmore]
      have hall : outLen = (expansion (hmac sha256 64) prk info n).length := by
        rw [hlen]
        omega
      obtain ⟨rest, hrest⟩ :=
        expansion_prefix (hmac sha256 64) prk info (Nat.le_add_right n (fuel + 1))
      rw [← hrest, hall, List.take_left]

end Loop

/-- The loop computes the expansion. -/
theorem hkdfDerive_eq (salt ikm info : Bytes) (outLen : Nat) :
    hkdfDerive salt ikm info outLen = hkdf (hmac sha256 64) 32 salt ikm info outLen := by
  have hprk : (if salt.length = 0 then hmacSha256 (List.replicate 32 0) ikm else hmacSha256 salt ikm) =
      hmac sha256 64 (if salt = [] then List.replicate 32 0 else salt) ikm := by
    rw [hmacSha256_eq, hmacSha256_eq]
    by_cases hnil : salt = []
    · rw [if_pos hnil, if_pos (List.length_eq_zero_iff.mpr hnil)]
    · rw [if_neg hnil, if_neg (fun h => hnil (List.length_eq_zero_iff.mp h))]
  unfold hkdfDerive hkdf
  dsimp only
  rw [hprk]
  generalize hmac sha256 64 (if salt = [] then List.replicate 32 0 else salt) ikm = prk
  have hloop := hkdfExpandLoop_eq prk info outLen outLen 0
    (by omega) (by omega)
  exact hloop.trans (take_expansion prk info length_hmac_sha256 (by omega) (by omega))

/-- Admitted arguments. -/
theorem hkdfSha256_eq_some {salt info : Span} {ikm : Bytes} {n : Nat} (hsalt : ¬ salt.Dangling)
    (hinfo : ¬ info.Dangling) (hpos : 1 ≤ n) (hmax : n ≤ 8160) :
    hkdfSha256 salt ikm info true n =
      some (hkdf (hmac sha256 64) 32 salt.given ikm info.given n) := by
  unfold hkdfSha256
  rw [if_neg (by simp; omega), if_neg (not_or.mpr ⟨hsalt, hinfo⟩), if_neg (by omega), hkdfDerive_eq]

/-- The derivation that the checkout code calls, over this keyed hash. -/
theorem hkdfSha256_crypto {C : Crypto} (hC : C.hmacSha256 = hmacSha256) (salt ikm info : Bytes)
    (n : Nat) :
    Tamga.hkdfSha256 C salt ikm info n = hkdfSha256 (.bytes salt) ikm (.bytes info) true n := by
  have hloop : ∀ (prk : Bytes) (fuel : Nat) (out : Bytes) (counter : Nat) (last : Bytes),
      hkdfExpandLoop prk info n fuel out counter last =
        out ++ hkdfExpand C prk info fuel (n - out.length) counter last := by
    intro prk fuel
    induction fuel with
    | zero =>
      intro out counter last
      rw [hkdfExpandLoop, hkdfExpand, List.append_nil]
    | succ fuel ih =>
      intro out counter last
      rw [hkdfExpandLoop, hkdfExpand]
      by_cases hmore : out.length < n
      · have htake : (if n - out.length > 32 then 32 else n - out.length) =
            min (n - out.length) 32 := by
          by_cases hbig : n - out.length > 32
          · rw [if_pos hbig, Nat.min_eq_right (Nat.le_of_lt hbig)]
          · rw [if_neg hbig, Nat.min_eq_left (Nat.le_of_not_lt hbig)]
        rw [if_pos hmore, if_neg (show ¬ n - out.length = 0 by omega), hC, ← hkdfRound_eq_hmac]
        dsimp only
        have hlen : (hkdfRound prk info counter last).length = 32 := by
          rw [hkdfRound_eq_hmac]
          exact length_hmacSha256 _ _
        rw [htake, ih, List.append_assoc, List.length_append, List.length_take, hlen,
          Nat.min_eq_left (Nat.min_le_right _ 32), Nat.sub_add_eq]
      · rw [if_neg hmore, if_pos (show n - out.length = 0 by omega), List.append_nil]
  have hgiven : ¬ ((Span.bytes salt).Dangling ∨ (Span.bytes info).Dangling) := by
    rintro (h | h) <;> exact h
  unfold Tamga.hkdfSha256 hkdfSha256
  by_cases hzero : n = 0
  · rw [if_pos hzero, if_pos (Or.inr hzero)]
  · rw [if_neg hzero, if_neg (show ¬ (true = false ∨ n = 0) by simp [hzero]), if_neg hgiven]
    by_cases hbig : n > 255 * 32
    · rw [if_pos hbig, if_pos hbig]
    · rw [if_neg hbig, if_neg hbig, hC]
      unfold hkdfDerive Span.given
      dsimp only
      rw [hloop, List.nil_append, List.length_nil, Nat.sub_zero, ← apply_ite (hmacSha256 · ikm)]

/-- **HMAC and HKDF.** The keyed hash is that of RFC 2104 for every key. The derivation gives the
    first bytes of the expansion of RFC 5869 for every length from 1 to `255 * 32`, so shorter keys are
    the fronts of longer ones, and refuses every other length. -/
theorem hkdf_matches :
    (∀ key data, hmacSha256 key data = hmac sha256 64 key data) ∧
    (∀ (salt info : Span) (ikm : Bytes) (n : Nat), ¬ salt.Dangling → ¬ info.Dangling → 1 ≤ n →
      n ≤ 8160 → ∃ key, hkdfSha256 salt ikm info true n = some key ∧ key.length = n ∧
        key = hkdf (hmac sha256 64) 32 salt.given ikm info.given n ∧
        ∀ k longer, n < k → hkdfSha256 salt ikm info true k = some longer → longer.take n = key) ∧
    ∀ (salt info : Span) (ikm : Bytes) (out : Bool) (n : Nat), n = 0 ∨ 8160 < n →
      hkdfSha256 salt ikm info out n = none := by
  have h32 : (0 : Nat) < 32 := by decide
  refine ⟨hmacSha256_eq, ?_, ?_⟩
  · intro salt info ikm n hsalt hinfo hpos hmax
    refine ⟨_, hkdfSha256_eq_some hsalt hinfo hpos hmax, ?_, rfl, ?_⟩
    · exact length_hkdf h32 length_hmac_sha256 _ _ _ _
    · intro k longer hk hlonger
      have hkmax : k ≤ 8160 := by
        by_contra hbig
        rw [hkdfSha256, if_neg (by simp; omega), if_neg (not_or.mpr ⟨hsalt, hinfo⟩),
          if_pos (by omega)] at hlonger
        cases hlonger
      rw [hkdfSha256_eq_some hsalt hinfo (by omega) hkmax, Option.some.injEq] at hlonger
      rw [← hlonger]
      exact take_hkdf h32 length_hmac_sha256 _ _ _ (Nat.le_of_lt hk)
  · intro salt info ikm out n hn
    unfold hkdfSha256
    rcases hn with rfl | hbig
    · rw [if_pos (Or.inr rfl)]
    · split
      · rfl
      · exact ite_self _

/-- A key of two blocks, without salt and info. -/
theorem hkdf_matches_absent :
    (1 ≤ 42 ∧ 42 ≤ 8160) ∧ ∃ key, hkdfSha256 (.null 0) [0x0B] (.null 0) true 42 = some key ∧
      key.length = 42 := by
  obtain ⟨key, hkey, hlen, -⟩ :=
    hkdf_matches.2.1 (.null 0) (.null 0) [0x0B] 42 (by decide) (by decide) (by decide) (by decide)
  exact ⟨by decide, key, hkey, hlen⟩

end Tamga.Hash
