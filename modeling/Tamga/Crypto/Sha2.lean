import Mathlib.Data.List.Basic
import Tamga.Lib.MerkleDamgard
import Tamga.Mem

/-!
# `Crypto.Sha2` — SHA-256 and SHA-512 in pieces (`crypto/sha256.c`, `crypto/sha512.c`)

The two files are one program over two word sizes: a context with the chaining state, the number of
bytes seen and a partly filled block, `update` that completes the block, compresses what is complete in
the input and keeps the rest, and `final` that pads in the block. The program is written once over a
`MerkleDamgard.Design`; the two compression functions are one function of a `Variant`.

`Ctx.Holds D ctx m` is the invariant: the context has seen exactly the message `m`.
-/

namespace Tamga.Hash

open MerkleDamgard

/-! ## The compression functions -/

/-- Eight words: the chaining state, and the working variables of a compression. -/
structure Words (w : Nat) where
  a : BitVec w
  b : BitVec w
  c : BitVec w
  d : BitVec w
  e : BitVec w
  f : BitVec w
  g : BitVec w
  h : BitVec w
  deriving DecidableEq

variable {w : Nat}

/-- `tamga_rotr32` and `tamga_rotr64`. -/
def rotr (value : BitVec w) (bits : Nat) : BitVec w := (value >>> bits) ||| (value <<< (w - bits))

/-- What the two compression functions differ in. -/
structure Variant (w : Nat) where
  /-- Bytes of a word. -/
  wordLen : Nat
  /-- One constant a round. -/
  k : List (BitVec w)
  scheduleS0 : BitVec w → BitVec w
  scheduleS1 : BitVec w → BitVec w
  roundS0 : BitVec w → BitVec w
  roundS1 : BitVec w → BitVec w

namespace Variant

variable (V : Variant w)

/-- `w[i]` of the first loop: a big-endian word of the block. -/
def loadWord (block : Bytes) (i : Nat) : BitVec w :=
  (List.range V.wordLen).foldl
    (fun word j => word |||
      ((block.getD (i * V.wordLen + j) 0).toBitVec.setWidth w <<< (8 * (V.wordLen - 1 - j)))) 0

/-- The array `w` after both loops, one word a round. -/
def schedule (block : Bytes) : List (BitVec w) :=
  (List.range' 16 (V.k.length - 16)).foldl
    (fun ws i => ws ++ [ws.getD (i - 16) 0 + V.scheduleS0 (ws.getD (i - 15) 0) + ws.getD (i - 7) 0 +
      V.scheduleS1 (ws.getD (i - 2) 0)])
    ((List.range 16).map (V.loadWord block))

/-- One round, with its constant and its word of the schedule. -/
def round (s : Words w) (kw : BitVec w × BitVec w) : Words w :=
  let ch := (s.e &&& s.f) ^^^ (~~~s.e &&& s.g)
  let temp1 := s.h + V.roundS1 s.e + ch + kw.1 + kw.2
  let maj := (s.a &&& s.b) ^^^ (s.a &&& s.c) ^^^ (s.b &&& s.c)
  let temp2 := V.roundS0 s.a + maj
  ⟨temp1 + temp2, s.a, s.b, s.c, s.d + temp1, s.e, s.f, s.g⟩

/-- `tamga_sha256_compress` and `tamga_sha512_compress`. -/
def compress (s : Words w) (block : Bytes) : Words w :=
  let r := (V.k.zip (V.schedule block)).foldl V.round s
  ⟨s.a + r.a, s.b + r.b, s.c + r.c, s.d + r.d, s.e + r.e, s.f + r.f, s.g + r.g, s.h + r.h⟩

/-- The bytes of a word of the digest, the most significant first. -/
def storeWord (word : BitVec w) : Bytes :=
  (List.range V.wordLen).map fun j =>
    UInt8.ofBitVec ((word >>> (8 * (V.wordLen - 1 - j))).setWidth 8)

def output (s : Words w) : Bytes :=
  [s.a, s.b, s.c, s.d, s.e, s.f, s.g, s.h].flatMap V.storeWord

theorem length_output (s : Words w) : (V.output s).length = 8 * V.wordLen := by
  simp [output, storeWord]
  omega

end Variant

/-- `TAMGA_SHA256_K` and the shifts of `tamga_sha256_compress`. -/
def sha256Variant : Variant 32 where
  wordLen := 4
  k := [0x428a2f98, 0x71374491, 0xb5c0fbcf, 0xe9b5dba5, 0x3956c25b, 0x59f111f1, 0x923f82a4,
    0xab1c5ed5, 0xd807aa98, 0x12835b01, 0x243185be, 0x550c7dc3, 0x72be5d74, 0x80deb1fe, 0x9bdc06a7,
    0xc19bf174, 0xe49b69c1, 0xefbe4786, 0x0fc19dc6, 0x240ca1cc, 0x2de92c6f, 0x4a7484aa, 0x5cb0a9dc,
    0x76f988da, 0x983e5152, 0xa831c66d, 0xb00327c8, 0xbf597fc7, 0xc6e00bf3, 0xd5a79147, 0x06ca6351,
    0x14292967, 0x27b70a85, 0x2e1b2138, 0x4d2c6dfc, 0x53380d13, 0x650a7354, 0x766a0abb, 0x81c2c92e,
    0x92722c85, 0xa2bfe8a1, 0xa81a664b, 0xc24b8b70, 0xc76c51a3, 0xd192e819, 0xd6990624, 0xf40e3585,
    0x106aa070, 0x19a4c116, 0x1e376c08, 0x2748774c, 0x34b0bcb5, 0x391c0cb3, 0x4ed8aa4a, 0x5b9cca4f,
    0x682e6ff3, 0x748f82ee, 0x78a5636f, 0x84c87814, 0x8cc70208, 0x90befffa, 0xa4506ceb, 0xbef9a3f7,
    0xc67178f2]
  scheduleS0 x := rotr x 7 ^^^ rotr x 18 ^^^ (x >>> 3)
  scheduleS1 x := rotr x 17 ^^^ rotr x 19 ^^^ (x >>> 10)
  roundS0 a := rotr a 2 ^^^ rotr a 13 ^^^ rotr a 22
  roundS1 e := rotr e 6 ^^^ rotr e 11 ^^^ rotr e 25

/-- `TAMGA_SHA512_K` and the shifts of `tamga_sha512_compress`. -/
def sha512Variant : Variant 64 where
  wordLen := 8
  k := [0x428a2f98d728ae22, 0x7137449123ef65cd, 0xb5c0fbcfec4d3b2f, 0xe9b5dba58189dbbc,
    0x3956c25bf348b538, 0x59f111f1b605d019, 0x923f82a4af194f9b, 0xab1c5ed5da6d8118,
    0xd807aa98a3030242, 0x12835b0145706fbe, 0x243185be4ee4b28c, 0x550c7dc3d5ffb4e2,
    0x72be5d74f27b896f, 0x80deb1fe3b1696b1, 0x9bdc06a725c71235, 0xc19bf174cf692694,
    0xe49b69c19ef14ad2, 0xefbe4786384f25e3, 0x0fc19dc68b8cd5b5, 0x240ca1cc77ac9c65,
    0x2de92c6f592b0275, 0x4a7484aa6ea6e483, 0x5cb0a9dcbd41fbd4, 0x76f988da831153b5,
    0x983e5152ee66dfab, 0xa831c66d2db43210, 0xb00327c898fb213f, 0xbf597fc7beef0ee4,
    0xc6e00bf33da88fc2, 0xd5a79147930aa725, 0x06ca6351e003826f, 0x142929670a0e6e70,
    0x27b70a8546d22ffc, 0x2e1b21385c26c926, 0x4d2c6dfc5ac42aed, 0x53380d139d95b3df,
    0x650a73548baf63de, 0x766a0abb3c77b2a8, 0x81c2c92e47edaee6, 0x92722c851482353b,
    0xa2bfe8a14cf10364, 0xa81a664bbc423001, 0xc24b8b70d0f89791, 0xc76c51a30654be30,
    0xd192e819d6ef5218, 0xd69906245565a910, 0xf40e35855771202a, 0x106aa07032bbd1b8,
    0x19a4c116b8d2d0c8, 0x1e376c085141ab53, 0x2748774cdf8eeb99, 0x34b0bcb5e19b48a8,
    0x391c0cb3c5c95a63, 0x4ed8aa4ae3418acb, 0x5b9cca4f7763e373, 0x682e6ff3d6b2b8a3,
    0x748f82ee5defb2fc, 0x78a5636f43172f60, 0x84c87814a1f0ab72, 0x8cc702081a6439ec,
    0x90befffa23631e28, 0xa4506cebde82bde9, 0xbef9a3f7b2c67915, 0xc67178f2e372532b,
    0xca273eceea26619c, 0xd186b8c721c0c207, 0xeada7dd6cde0eb1e, 0xf57d4f7fee6ed178,
    0x06f067aa72176fba, 0x0a637dc5a2c898a6, 0x113f9804bef90dae, 0x1b710b35131c471b,
    0x28db77f523047d84, 0x32caab7b40c72493, 0x3c9ebe0a15c9bebc, 0x431d67c49c100d4c,
    0x4cc5d4becb3e42b6, 0x597f299cfc657e2a, 0x5fcb6fab3ad6faec, 0x6c44198c4a475817]
  scheduleS0 x := rotr x 1 ^^^ rotr x 8 ^^^ (x >>> 7)
  scheduleS1 x := rotr x 19 ^^^ rotr x 61 ^^^ (x >>> 6)
  roundS0 a := rotr a 28 ^^^ rotr a 34 ^^^ rotr a 39
  roundS1 e := rotr e 14 ^^^ rotr e 18 ^^^ rotr e 41

/-! ## The context -/

variable {σ : Type}

/-- `TamgaSha256` and `TamgaSha512`. -/
structure Ctx (σ : Type) where
  state : σ
  totalLen : UInt64
  block : Bytes
  blockLen : Nat

section Program

variable (D : Design σ)

/-- `tamga_sha256_init` and `tamga_sha512_init`. -/
def init : Ctx σ := ⟨D.init, 0, List.replicate D.blockLen 0, 0⟩

/-- The loop over the complete blocks of the input: the state behind it, and the rest of the input.
    `fuel` bounds the rounds. -/
def absorb : (fuel : Nat) → σ → Bytes → σ × Bytes
  | 0, state, bytes => (state, bytes)
  | fuel + 1, state, bytes =>
      if D.blockLen ≤ bytes.length then
        absorb fuel (D.compress state (bytes.take D.blockLen)) (bytes.drop D.blockLen)
      else (state, bytes)

/-- The end of an update, when no partial block is left over from before. -/
def updateBlocks (ctx : Ctx σ) (bytes : Bytes) : Ctx σ :=
  let (state, rest) := absorb D bytes.length ctx.state bytes
  if 0 < rest.length then
    { ctx with state := state, block := overwrite ctx.block 0 rest, blockLen := rest.length }
  else { ctx with state := state }

/-- `tamga_sha256_update` and `tamga_sha512_update`. -/
def update (ctx : Ctx σ) (bytes : Bytes) : Ctx σ :=
  let ctx := { ctx with totalLen := ctx.totalLen + UInt64.ofNat bytes.length }
  if 0 < ctx.blockLen then
    let needed := D.blockLen - ctx.blockLen
    let take := if bytes.length < needed then bytes.length else needed
    let block := overwrite ctx.block ctx.blockLen (bytes.take take)
    let blockLen := ctx.blockLen + take
    if blockLen < D.blockLen then { ctx with block := block, blockLen := blockLen }
    else
      updateBlocks D
        { ctx with state := D.compress ctx.state block, block := block, blockLen := 0 }
        (bytes.drop take)
  else updateBlocks D ctx bytes

/-- The loop that writes the length into the last eight bytes of the block. -/
def storeLength (block : Bytes) (bitLen : UInt64) : Bytes :=
  (List.range 8).foldl
    (fun block i => block.set (D.blockLen - 1 - i) (bitLen >>> UInt64.ofNat (8 * i)).toUInt8) block

/-- `tamga_sha256_final` and `tamga_sha512_final`. -/
def final (ctx : Ctx σ) : Bytes :=
  let bitLen := ctx.totalLen * 8
  let block := overwrite ctx.block ctx.blockLen [0x80]
  let blockLen := ctx.blockLen + 1
  let (state, block, blockLen) :=
    -- no room for the length: it goes into a block of its own
    if D.blockLen - D.lengthLen < blockLen then
      let block := overwrite block blockLen (List.replicate (D.blockLen - blockLen) 0)
      (D.compress ctx.state block, block, 0)
    else (ctx.state, block, blockLen)
  let block := overwrite block blockLen (List.replicate (D.blockLen - 8 - blockLen) 0)
  D.output (D.compress state (storeLength D block bitLen))

/-- `tamga_sha256` and `tamga_sha512`. -/
def hash (bytes : Bytes) : Bytes := final D (update D (init D) bytes)

end Program

/-! ## SHA-256 and SHA-512 -/

/-- The constants of `sha256.c`: a block is 64 bytes and its last 8 are the length. -/
def sha256Design : Design (Words 32) where
  blockLen := 64
  lengthLen := 8
  init := ⟨0x6a09e667, 0xbb67ae85, 0x3c6ef372, 0xa54ff53a, 0x510e527f, 0x9b05688c, 0x1f83d9ab,
    0x5be0cd19⟩
  compress := sha256Variant.compress
  output := sha256Variant.output
  lengthLen_lt := by decide

/-- The constants of `sha512.c`: a block is 128 bytes and its last 16 are the length. -/
def sha512Design : Design (Words 64) where
  blockLen := 128
  lengthLen := 16
  init := ⟨0x6a09e667f3bcc908, 0xbb67ae8584caa73b, 0x3c6ef372fe94f82b, 0xa54ff53a5f1d36f1,
    0x510e527fade682d1, 0x9b05688c2b3e6c1f, 0x1f83d9abfb41bd6b, 0x5be0cd19137e2179⟩
  compress := sha512Variant.compress
  output := sha512Variant.output
  lengthLen_lt := by decide

def sha256Init : Ctx (Words 32) := init sha256Design
def sha256Update (ctx : Ctx (Words 32)) (data : Bytes) : Ctx (Words 32) := update sha256Design ctx data
def sha256Final (ctx : Ctx (Words 32)) : Bytes := final sha256Design ctx
def sha256 (data : Bytes) : Bytes := hash sha256Design data

def sha512Init : Ctx (Words 64) := init sha512Design
def sha512Update (ctx : Ctx (Words 64)) (data : Bytes) : Ctx (Words 64) := update sha512Design ctx data
def sha512Final (ctx : Ctx (Words 64)) : Bytes := final sha512Design ctx
def sha512 (data : Bytes) : Bytes := hash sha512Design data

/-! ## The invariant -/

section Invariant

variable {D : Design σ} {ctx : Ctx σ} {m bytes : Bytes}

/-- The context has seen the message `m`: its complete blocks are in the state, the rest is at the
    front of the block. What stands behind it in the block is left over from earlier blocks. -/
structure Ctx.Holds (D : Design σ) (ctx : Ctx σ) (m : Bytes) : Prop where
  size : ctx.block.length = D.blockLen
  blockLen_lt : ctx.blockLen < D.blockLen
  totalLen : ctx.totalLen = UInt64.ofNat m.length
  blocks : ∃ k done, done.length = k * D.blockLen ∧ m = done ++ ctx.block.take ctx.blockLen ∧
    ctx.state = D.iterate D.init done

theorem init_holds (D : Design σ) : (init D).Holds D [] where
  size := List.length_replicate
  blockLen_lt := D.blockLen_pos
  totalLen := rfl
  blocks := ⟨0, [], (Nat.zero_mul _).symm, rfl, (D.iterate_nil).symm⟩

/-- The loop compresses the complete blocks and leaves less than one. -/
theorem absorb_spec {fuel : Nat} (hfuel : bytes.length ≤ fuel) (s : σ) :
    ∃ k front, front.length = k * D.blockLen ∧ bytes = front ++ (absorb D fuel s bytes).2 ∧
      (absorb D fuel s bytes).2.length < D.blockLen ∧
      (absorb D fuel s bytes).1 = D.iterate s front := by
  have hpos := D.blockLen_pos
  induction fuel generalizing s bytes with
  | zero =>
    have hnil : bytes = [] := List.length_eq_zero_iff.mp (Nat.le_zero.mp hfuel)
    subst hnil
    exact ⟨0, [], (Nat.zero_mul _).symm, rfl, hpos, (D.iterate_nil).symm⟩
  | succ fuel ih =>
    unfold absorb
    by_cases hle : D.blockLen ≤ bytes.length
    · rw [if_pos hle]
      have hfirst : (bytes.take D.blockLen).length = D.blockLen := by
        rw [List.length_take, Nat.min_eq_left hle]
      have hrest : (bytes.drop D.blockLen).length ≤ fuel := by
        rw [List.length_drop]
        omega
      obtain ⟨k, front, hlen, hbytes, hlt, hstate⟩ :=
        ih hrest (D.compress s (bytes.take D.blockLen))
      refine ⟨k + 1, bytes.take D.blockLen ++ front, ?_, ?_, hlt, ?_⟩
      · rw [List.length_append, hfirst, hlen, Nat.succ_mul, Nat.add_comm]
      · rw [List.append_assoc, ← hbytes, List.take_append_drop]
      · rw [hstate, D.iterate_block hfirst]
    · rw [if_neg hle]
      exact ⟨0, [], (Nat.zero_mul _).symm, rfl, Nat.lt_of_not_le hle, (D.iterate_nil).symm⟩

/-- An update at the start of a block. -/
theorem updateBlocks_holds {k : Nat} (hm : m.length = k * D.blockLen)
    (hsize : ctx.block.length = D.blockLen) (hzero : ctx.blockLen = 0)
    (htotal : ctx.totalLen = UInt64.ofNat (m ++ bytes).length)
    (hstate : ctx.state = D.iterate D.init m) : (updateBlocks D ctx bytes).Holds D (m ++ bytes) := by
  obtain ⟨j, front, hfront, hbytes, hlt, habsorbed⟩ :=
    absorb_spec (D := D) (Nat.le_refl bytes.length) ctx.state
  unfold updateBlocks
  generalize absorb D bytes.length ctx.state bytes = result at hbytes hlt habsorbed
  obtain ⟨state, rest⟩ := result
  dsimp only at hbytes hlt habsorbed ⊢
  have hdone : (m ++ front).length = (k + j) * D.blockLen := by
    rw [List.length_append, hm, hfront, Nat.add_mul]
  have hiterate : state = D.iterate D.init (m ++ front) := by
    rw [habsorbed, hstate, D.iterate_append hm]
  split
  · -- the rest goes to the front of the block
    refine ⟨?_, hlt, htotal, k + j, m ++ front, hdone, ?_, hiterate⟩
    · rw [← hsize]
      exact length_overwrite (by omega)
    · have htake := take_overwrite rest (Nat.zero_le ctx.block.length)
      rw [Nat.zero_add, List.take_zero, List.nil_append] at htake
      rw [hbytes, htake, List.append_assoc]
  · have hnil : rest = [] := List.length_eq_zero_iff.mp (by omega)
    subst hnil
    refine ⟨hsize, by rw [hzero]; exact D.blockLen_pos, htotal, k + j, m ++ front, hdone, ?_,
      hiterate⟩
    rw [hzero, List.take_zero, hbytes, List.append_nil, List.append_nil]

/-- **One update.** Whatever the block holds and however long the input is. -/
theorem update_holds (h : ctx.Holds D m) (bytes : Bytes) :
    (update D ctx bytes).Holds D (m ++ bytes) := by
  obtain ⟨k, done, hdone, hm, hstate⟩ := h.blocks
  have hlt := h.blockLen_lt
  have hsize := h.size
  have htotal : ctx.totalLen + UInt64.ofNat bytes.length = UInt64.ofNat (m ++ bytes).length := by
    rw [h.totalLen, List.length_append, UInt64.ofNat_add]
  unfold update
  dsimp only
  by_cases hpartial : 0 < ctx.blockLen
  · rw [if_pos hpartial]
    by_cases hfew : bytes.length < D.blockLen - ctx.blockLen
    · -- the block stays incomplete
      rw [if_pos hfew, if_pos (by omega), List.take_length]
      refine ⟨(length_overwrite (by omega)).trans hsize, by dsimp only; omega, htotal, k, done, hdone,
        ?_, hstate⟩
      dsimp only
      rw [take_overwrite bytes (by omega), hm, List.append_assoc]
    · -- the block is completed and compressed
      rw [if_neg hfew, if_neg (by omega)]
      have htaken : (bytes.take (D.blockLen - ctx.blockLen)).length = D.blockLen - ctx.blockLen := by
        rw [List.length_take]
        omega
      have hblock := overwrite_to_end (bytes.take (D.blockLen - ctx.blockLen))
        (show ctx.blockLen + _ = ctx.block.length by omega)
      have hfull : (ctx.block.take ctx.blockLen ++
          bytes.take (D.blockLen - ctx.blockLen)).length = D.blockLen := by
        rw [List.length_append, List.length_take]
        omega
      have hsplit : m ++ bytes = (done ++ (ctx.block.take ctx.blockLen ++
          bytes.take (D.blockLen - ctx.blockLen))) ++ bytes.drop (D.blockLen - ctx.blockLen) := by
        conv_lhs => rw [hm, ← List.take_append_drop (D.blockLen - ctx.blockLen) bytes]
        simp only [List.append_assoc]
      rw [hsplit] at htotal ⊢
      rw [hblock]
      apply updateBlocks_holds (k := k + 1)
      · rw [List.length_append, hdone, hfull, Nat.succ_mul]
      · exact hfull
      · rfl
      · exact htotal
      · dsimp only
        rw [D.iterate_append hdone, D.iterate_single hfull, hstate]
  · rw [if_neg hpartial]
    have hzero : ctx.blockLen = 0 := by omega
    rw [hzero, List.take_zero, List.append_nil] at hm
    subst hm
    exact updateBlocks_holds hdone hsize hzero htotal hstate

/-- **A run of updates.** -/
theorem foldl_update_holds (h : ctx.Holds D m) (chunks : List Bytes) :
    (chunks.foldl (update D) ctx).Holds D (m ++ chunks.flatten) := by
  induction chunks generalizing ctx m with
  | nil => rw [List.flatten_nil, List.append_nil]; exact h
  | cons chunk chunks ih =>
    rw [List.foldl_cons, List.flatten_cons, ← List.append_assoc]
    exact ih (update_holds h chunk)

/-! ### The last block -/

/-- Bytes written one by one from the end of a list to its front. -/
theorem foldl_set_reverse {α : Type} (f : Nat → α) (front : List α) :
    ∀ tail : List α, (List.range tail.length).foldl
        (fun l i => l.set (front.length + tail.length - 1 - i) (f i)) (front ++ tail) =
      front ++ ((List.range tail.length).map f).reverse := by
  intro tail
  induction tail generalizing front with
  | nil => rfl
  | cons x tail ih =>
    -- all but the last write go behind `x`
    have hshift : ∀ (l : List α) (i : Nat),
        l.set (front.length + (x :: tail).length - 1 - i) (f i) =
          l.set ((front ++ [x]).length + tail.length - 1 - i) (f i) := by
      intro l i
      rw [List.length_append, List.length_cons, List.length_singleton]
      congr 1
      omega
    simp only [hshift]
    rw [List.length_cons, List.range_succ, List.foldl_append, List.foldl_cons, List.foldl_nil,
      List.append_cons front x tail, ih (front ++ [x]), List.map_append, List.reverse_append,
        List.map_singleton,
      List.reverse_singleton, List.append_assoc]
    have hlast : (front ++ [x]).length + tail.length - 1 - tail.length = front.length := by
      rw [List.length_append, List.length_singleton]
      omega
    rw [hlast, List.set_append_right _ _ (Nat.le_refl _), Nat.sub_self]
    rfl

/-- The eight bytes of the length; only the length modulo `2 ^ 64` is in them. -/
theorem reverse_lengthBytes (n : Nat) :
    ((List.range 8).map fun i =>
        ((UInt64.ofNat n * 8) >>> UInt64.ofNat (8 * i)).toUInt8).reverse = bigEndian 8 (8 * n) := by
  have hbyte : ∀ i < 8, ((UInt64.ofNat n * 8) >>> UInt64.ofNat (8 * i)).toUInt8 =
      UInt8.ofNat (8 * n / 256 ^ i) := by
    intro i hi
    have hshift : ((UInt64.ofNat n * 8) >>> UInt64.ofNat (8 * i)).toNat = 8 * n % 2 ^ 64 / 256 ^ i := by
      rw [UInt64.toNat_shiftRight, UInt64.toNat_mul, UInt64.toNat_ofNat', UInt64.toNat_ofNat',
        Nat.shiftRight_eq_div_pow, Nat.mod_eq_of_lt (show 8 * i < 2 ^ 64 by omega),
        Nat.mod_eq_of_lt (show 8 * i < 64 by omega), Nat.pow_mul, show (8 : UInt64).toNat = 8 from rfl,
        Nat.mod_mul_mod, Nat.mul_comm n 8]
    have hdvd : 256 ^ i * 256 ∣ 2 ^ 64 := by
      rw [← Nat.pow_succ, show (2 : Nat) ^ 64 = 256 ^ 8 from rfl]
      exact Nat.pow_dvd_pow 256 hi
    apply UInt8.toNat_inj.mp
    rw [UInt64.toNat_toUInt8, hshift, UInt8.toNat_ofNat', show (2 : Nat) ^ 8 = 256 from rfl,
      ← Nat.mod_mul_right_div_self, Nat.mod_mod_of_dvd _ hdvd, Nat.mod_mul_right_div_self]
  rw [List.map_congr_left fun i hi => hbyte i (List.mem_range.mp hi)]
  rfl

theorem storeLength_append {front tail : Bytes} (hlen : front.length + 8 = D.blockLen)
    (htail : tail.length = 8) (n : Nat) :
    storeLength D (front ++ tail) (UInt64.ofNat n * 8) = front ++ bigEndian 8 (8 * n) := by
  have h := foldl_set_reverse
    (fun i => ((UInt64.ofNat n * 8) >>> UInt64.ofNat (8 * i)).toUInt8) front tail
  rw [htail, hlen, reverse_lengthBytes] at h
  exact h

/-- A length field of more than eight bytes starts with zeros. -/
theorem bigEndian_add {k n : Nat} (hn : n < 2 ^ 64) :
    bigEndian (k + 8) n = List.replicate k 0 ++ bigEndian 8 n := by
  unfold bigEndian
  rw [List.range_add, List.map_append, List.map_map]
  congr 1
  · rw [List.eq_replicate_iff]
    refine ⟨by rw [List.length_map, List.length_range], ?_⟩
    intro byte hbyte
    obtain ⟨i, hi, rfl⟩ := List.mem_map.mp hbyte
    rw [List.mem_range] at hi
    have hpow : 2 ^ 64 ≤ 256 ^ (k + 8 - 1 - i) :=
      calc 2 ^ 64 = 256 ^ 8 := rfl
        _ ≤ 256 ^ (k + 8 - 1 - i) := Nat.pow_le_pow_right (by decide) (by omega)
    rw [Nat.div_eq_of_lt (Nat.lt_of_lt_of_le hn hpow)]
    rfl
  · apply List.map_congr_left
    intro i hi
    rw [List.mem_range] at hi
    show UInt8.ofNat (n / 256 ^ (k + 8 - 1 - (k + i))) = UInt8.ofNat (n / 256 ^ (8 - 1 - i))
    rw [show k + 8 - 1 - (k + i) = 8 - 1 - i by omega]

/-- The zeros behind `n` bytes of the last block, with those in front of a long length field. -/
theorem zeros_eq {k n : Nat} (hn : n < D.blockLen) :
    D.zeros (k * D.blockLen + n) =
      if n + 1 + D.lengthLen ≤ D.blockLen then D.blockLen - (n + 1 + D.lengthLen)
      else 2 * D.blockLen - (n + 1 + D.lengthLen) := by
  have hlt := D.lengthLen_lt
  have hmod : (k * D.blockLen + n + 1 + D.lengthLen) % D.blockLen =
      (n + 1 + D.lengthLen) % D.blockLen := by
    rw [Nat.add_assoc, Nat.add_assoc, Nat.add_comm (k * D.blockLen), Nat.add_mul_mod_self_right,
      ← Nat.add_assoc]
  unfold Design.zeros
  rw [hmod]
  generalize hpos : n + 1 + D.lengthLen = t
  by_cases hle : t ≤ D.blockLen
  · rw [if_pos hle]
    rcases Nat.lt_or_eq_of_le hle with hlt' | rfl
    · rw [Nat.mod_eq_of_lt hlt', Nat.mod_eq_of_lt (by omega)]
    · rw [Nat.mod_self, Nat.sub_zero, Nat.mod_self, Nat.sub_self]
  · have hwrap : t % D.blockLen = t - D.blockLen := by
      rw [Nat.mod_eq_sub_mod (by omega), Nat.mod_eq_of_lt (by omega)]
    rw [if_neg hle, hwrap, Nat.mod_eq_of_lt (by omega)]
    omega

/-- The padded message from its last incomplete block on. -/
theorem pad_eq {done rest : Bytes} (hm : m = done ++ rest) (hfield : 8 ≤ D.lengthLen)
    (hlen : D.lengthLen = 8 ∨ 8 * m.length < 2 ^ 64) :
    D.pad m = done ++ (rest ++ [0x80] ++
      List.replicate (D.zeros m.length + (D.lengthLen - 8)) 0 ++ bigEndian 8 (8 * m.length)) := by
  have hbytes : bigEndian D.lengthLen (8 * m.length) =
      List.replicate (D.lengthLen - 8) 0 ++ bigEndian 8 (8 * m.length) := by
    rcases hlen with h8 | hlt
    · rw [h8]
      rfl
    · rw [← bigEndian_add hlt, Nat.sub_add_cancel hfield]
  unfold Design.pad
  rw [hbytes, ← List.replicate_append_replicate]
  generalize D.zeros m.length = z
  rw [hm]
  simp only [List.append_assoc]

/-- **The digest of what was seen.** The length field takes eight bytes of the length, which are all
    of it unless the field is wider and the message longer than `2 ^ 61` bytes. -/
theorem final_eq_digest (h : ctx.Holds D m) (hfield : 8 ≤ D.lengthLen)
    (hlen : D.lengthLen = 8 ∨ 8 * m.length < 2 ^ 64) : final D ctx = D.digest m := by
  obtain ⟨k, done, hdone, hm, hstate⟩ := h.blocks
  have hlt := h.blockLen_lt
  have hfieldlt := D.lengthLen_lt
  have hrest : (ctx.block.take ctx.blockLen).length = ctx.blockLen := by
    rw [List.length_take, h.size, Nat.min_eq_left (Nat.le_of_lt hlt)]
  have hsize : (overwrite ctx.block ctx.blockLen [0x80]).length = D.blockLen := by
    rw [length_overwrite (by rw [h.size]; exact hlt), h.size]
  have hmarked : (overwrite ctx.block ctx.blockLen [0x80]).take (ctx.blockLen + 1) =
      ctx.block.take ctx.blockLen ++ [0x80] :=
    take_overwrite [0x80] (by rw [h.size]; exact Nat.le_of_lt hlt)
  have hzeros : D.zeros m.length = if ctx.blockLen + 1 + D.lengthLen ≤ D.blockLen then
      D.blockLen - (ctx.blockLen + 1 + D.lengthLen)
      else 2 * D.blockLen - (ctx.blockLen + 1 + D.lengthLen) := by
    rw [hm, List.length_append, hdone, hrest, zeros_eq hlt]
  have hpad := pad_eq hm hfield hlen
  unfold final Design.digest
  dsimp only
  rw [h.totalLen, hpad, D.iterate_append hdone, ← hstate]
  generalize overwrite ctx.block ctx.blockLen [0x80] = marked at hsize hmarked
  generalize ctx.block.take ctx.blockLen = rest at hrest hmarked
  by_cases hroom : D.blockLen - D.lengthLen < ctx.blockLen + 1
  · -- two blocks: the length is in one of its own
    rw [if_pos hroom]
    rw [if_neg (by omega)] at hzeros
    dsimp only
    have hfirst := overwrite_to_end (List.replicate (D.blockLen - (ctx.blockLen + 1)) 0)
      (show ctx.blockLen + 1 + _ = marked.length by rw [List.length_replicate, hsize]; omega)
    rw [hmarked] at hfirst
    have hfull : (rest ++ [0x80] ++
        List.replicate (D.blockLen - (ctx.blockLen + 1)) 0).length = D.blockLen := by
      rw [List.length_append, List.length_append, hrest, List.length_singleton, List.length_replicate]
      omega
    have hsplit : rest ++ [0x80] ++ List.replicate (D.zeros m.length + (D.lengthLen - 8)) 0 ++
        bigEndian 8 (8 * m.length) =
        (rest ++ [0x80] ++ List.replicate (D.blockLen - (ctx.blockLen + 1)) 0) ++
          (List.replicate (D.blockLen - 8) 0 ++ bigEndian 8 (8 * m.length)) := by
      rw [show D.zeros m.length + (D.lengthLen - 8) =
        (D.blockLen - (ctx.blockLen + 1)) + (D.blockLen - 8) by omega,
        ← List.replicate_append_replicate]
      simp only [List.append_assoc]
    have hlast : (List.replicate (D.blockLen - 8) (0 : UInt8) ++
        bigEndian 8 (8 * m.length)).length = D.blockLen := by
      rw [List.length_append, List.length_replicate, length_bigEndian]
      omega
    rw [hfirst, hsplit, D.iterate_block hfull, D.iterate_single hlast]
    unfold overwrite
    rw [List.take_zero, List.nil_append, Nat.sub_zero, storeLength_append]
    · rw [List.length_replicate]
      omega
    · rw [List.length_drop, hfull, List.length_replicate]
      omega
  · -- one block
    rw [if_neg hroom]
    rw [if_pos (by omega)] at hzeros
    dsimp only
    have hcount : D.zeros m.length + (D.lengthLen - 8) = D.blockLen - 8 - (ctx.blockLen + 1) := by
      omega
    have hlast : (rest ++ [0x80] ++ List.replicate (D.blockLen - 8 - (ctx.blockLen + 1)) 0 ++
        bigEndian 8 (8 * m.length)).length = D.blockLen := by
      rw [List.length_append, List.length_append, List.length_append, hrest, List.length_singleton,
        List.length_replicate, length_bigEndian]
      omega
    rw [hcount, D.iterate_single hlast]
    unfold overwrite
    rw [hmarked, storeLength_append]
    · rw [List.length_append, List.length_append, hrest, List.length_singleton,
        List.length_replicate]
      omega
    · rw [List.length_drop, hsize, List.length_replicate]
      omega

end Invariant

/-! ## Hashing in pieces -/

/-- **Pieces and the whole.** Over any design with such a length field, the pieces of a message give
    its digest, and so does the message at once. -/
theorem final_foldl_update {D : Design σ} (hfield : 8 ≤ D.lengthLen) (chunks : List Bytes)
    (hlen : D.lengthLen = 8 ∨ 8 * chunks.flatten.length < 2 ^ 64) :
    final D (chunks.foldl (update D) (init D)) = D.digest chunks.flatten :=
  final_eq_digest (foldl_update_holds (init_holds D) chunks) hfield hlen

theorem hash_eq_digest {D : Design σ} (hfield : 8 ≤ D.lengthLen) {m : Bytes}
    (hlen : D.lengthLen = 8 ∨ 8 * m.length < 2 ^ 64) : hash D m = D.digest m :=
  final_eq_digest (update_holds (init_holds D) m) hfield hlen

theorem length_sha256 (m : Bytes) : (sha256 m).length = 32 := by
  rw [sha256, hash_eq_digest (by decide) (Or.inl rfl)]
  exact sha256Variant.length_output _

/-- **Incremental hashing is one-shot hashing**, and both are the iteration of the compression function
    over the padded message. -/
theorem sha2_incremental (chunks : List Bytes) (h : chunks.flatten.length < 2 ^ 61) :
    (sha256Final (chunks.foldl sha256Update sha256Init) = sha256Design.digest chunks.flatten ∧
      sha256 chunks.flatten = sha256Design.digest chunks.flatten ∧
      64 ∣ (sha256Design.pad chunks.flatten).length) ∧
    sha512Final (chunks.foldl sha512Update sha512Init) = sha512Design.digest chunks.flatten ∧
      sha512 chunks.flatten = sha512Design.digest chunks.flatten ∧
      128 ∣ (sha512Design.pad chunks.flatten).length := by
  have hlen : 8 * chunks.flatten.length < 2 ^ 64 := by omega
  refine ⟨⟨?_, ?_, sha256Design.blockLen_dvd_length_pad _⟩, ?_, ?_,
    sha512Design.blockLen_dvd_length_pad _⟩
  · exact final_foldl_update (by decide) chunks (Or.inr hlen)
  · exact hash_eq_digest (by decide) (Or.inr hlen)
  · exact final_foldl_update (by decide) chunks (Or.inr hlen)
  · exact hash_eq_digest (by decide) (Or.inr hlen)

/-- "abc" as an empty piece and two others. -/
theorem sha2_incremental_abc :
    [[], ascii "a", ascii "bc"].flatten.length < 2 ^ 61 ∧
      sha256Final ([[], ascii "a", ascii "bc"].foldl sha256Update sha256Init) =
        sha256Design.digest (ascii "abc") :=
  ⟨by decide, (sha2_incremental [[], ascii "a", ascii "bc"] (by decide)).1.1⟩

/-- The digest of "abc" in FIPS 180-4. -/
example : sha256 (ascii "abc") =
    [0xba, 0x78, 0x16, 0xbf, 0x8f, 0x01, 0xcf, 0xea, 0x41, 0x41, 0x40, 0xde, 0x5d, 0xae, 0x22, 0x23,
      0xb0, 0x03, 0x61, 0xa3, 0x96, 0x17, 0x7a, 0x9c, 0xb4, 0x10, 0xff, 0x61, 0xf2, 0x00, 0x15,
      0xad] := by
  decide +kernel

end Tamga.Hash
