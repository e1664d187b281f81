import Tamga.Crypto.Aes
import Tamga.Crypto.Hkdf

/-!
# `Crypto.Gcm` — sealing and opening (`crypto/gcm.c`)

One walk over the input XORs it with a keystream that depends on the key, the nonce and the length
alone; the tag is a function of the ciphertext, which is the input when opening and the output when
sealing. So walking twice gives the input back (`ctr_ctr`), and a text opens exactly when it was sealed
(`gcm_open_iff_seal`).
-/

namespace Tamga.Gcm

open Aes Hash

/-! ## The program -/

/-- The loop of `tamga_gcm_gf_mul` on one bit of `x`: the sum so far, and the shifted multiple. -/
def gfMulStep (x : Bytes) (zv : Bytes × Bytes) (bit : Nat) : Bytes × Bytes :=
  let (z, v) := zv
  let xBit := (x.getD (bit / 8) 0 >>> UInt8.ofNat (7 - bit % 8)) &&& 1
  let mask := (0 : UInt8) - xBit
  let z := List.zipWith (fun z v => z ^^^ (v &&& mask)) z v
  let lsb := v.getD 15 0 &&& 1
  -- every byte takes the low bit of the byte before it; the first takes nothing
  let v := List.zipWith (fun v before : UInt8 => (v >>> 1) ||| ((before &&& 1) <<< 7)) v (0 :: v)
  let reduce := (0 : UInt8) - lsb
  (z, v.set 0 (v.getD 0 0 ^^^ (0xE1 &&& reduce)))

/-- `tamga_gcm_gf_mul`. -/
def gfMul (x y : Bytes) : Bytes := ((List.range 128).foldl (gfMulStep x) (List.replicate 16 0, y)).1

def xorBytes (a b : Bytes) : Bytes := List.zipWith (· ^^^ ·) a b

/-- `tamga_ghash_update`; `fuel` bounds the rounds. -/
def ghashUpdate (h : Bytes) : (fuel : Nat) → (acc data : Bytes) → Bytes
  | 0, acc, _ => acc
  | fuel + 1, acc, data =>
      if data.length = 0 then acc
      else
        let block := overwrite (List.replicate 16 0) 0 (data.take 16)
        ghashUpdate h fuel (gfMul (xorBytes acc block) h) (data.drop 16)

/-- `tamga_gcm_put_u64_be`. -/
def putU64Be (value : UInt64) : Bytes :=
  (List.range 8).map fun i => (value >>> UInt64.ofNat (56 - 8 * i)).toUInt8

/-- The loop of `tamga_gcm_inc32` over the last four bytes: it stops where nothing is carried. -/
def inc32Loop : List Nat → Bytes → Bytes
  | [], counter => counter
  | i :: rest, counter =>
      let byte := counter.getD i 0 + 1
      let counter := counter.set i byte
      if byte ≠ 0 then counter else inc32Loop rest counter

/-- `tamga_gcm_inc32`. -/
def inc32 (counter : Bytes) : Bytes := inc32Loop [15, 14, 13, 12] counter

/-- The walk over the input; `fuel` bounds the rounds. -/
def ctr (words : Bytes) : (fuel : Nat) → (counter input : Bytes) → Bytes
  | 0, _, _ => []
  | fuel + 1, counter, input =>
      if input.length = 0 then []
      else
        let counter := inc32 counter
        let keystream := aes256EncryptBlock words counter
        xorBytes (input.take 16) keystream ++ ctr words fuel counter (input.drop 16)

/-- `J0`: the nonce, and a counter of one. -/
def startBlock (nonce : Bytes) : Bytes := (overwrite (List.replicate 16 0) 0 nonce).set 15 1

/-- The output of `tamga_gcm_core`. -/
def crypt (key nonce input : Bytes) : Bytes :=
  ctr (aes256Init key) input.length (startBlock nonce) input

/-- The tag of `tamga_gcm_core`. -/
def tag (key nonce aad ciphertext : Bytes) : Bytes :=
  let words := aes256Init key
  let h := aes256EncryptBlock words (List.replicate 16 0)
  let acc := ghashUpdate h aad.length (List.replicate 16 0) aad
  let acc := ghashUpdate h ciphertext.length acc ciphertext
  let lengthBlock := putU64Be (UInt64.ofNat aad.length * 8) ++
    putU64Be (UInt64.ofNat ciphertext.length * 8)
  let acc := gfMul (xorBytes acc lengthBlock) h
  xorBytes acc (aes256EncryptBlock words (startBlock nonce))

/-- Which buffer `tamga_gcm_core` is told to hash. -/
inductive Hashed where
  | input
  | output

/-- `tamga_gcm_core`: the output and the tag. -/
def gcmCore (key nonce aad input : Bytes) (hashed : Hashed) : Bytes × Bytes :=
  let output := crypt key nonce input
  match hashed with
  | .input => (output, tag key nonce aad input)
  | .output => (output, tag key nonce aad output)

/-- `tamga_ct_memeq` on bytes of one length. -/
def ctMemeq (a b : Bytes) : Bool :=
  (List.zipWith (· ^^^ ·) a b).foldl (· ||| ·) 0 == 0

/-- What the caller passes to be written: `out_len` and `out`, either of which may be NULL. -/
structure Buffers where
  outLen : Option Nat
  out : Option Bytes

/-- `tamga_gcm_open`. -/
def gcmOpen (key nonce : Option Bytes) (aad : Span) (ciphertextAndTag : Option Bytes)
    (buffers : Buffers) : Bool × Buffers :=
  if buffers.outLen.isNone then (false, buffers)
  else
    let cleared := { buffers with outLen := some 0 }
    match key, nonce, ciphertextAndTag with
    | some key, some nonce, some text =>
        if aad.Dangling then (false, cleared)
        else if text.length < 16 then (false, cleared)
        else
          let ciphertextLen := text.length - 16
          if ciphertextLen > 0 ∧ buffers.out.isNone then (false, cleared)
          else
            let ciphertext := text.take ciphertextLen
            let (output, computedTag) := gcmCore key nonce aad.given ciphertext .input
            if ctMemeq computedTag (text.drop ciphertextLen) then
              (true, ⟨some ciphertextLen, buffers.out.map (overwrite · 0 output)⟩)
            else
              (false, ⟨some 0, buffers.out.map
                (fun out => overwrite (overwrite out 0 output) 0 (List.replicate ciphertextLen 0))⟩)
    | _, _, _ => (false, cleared)

/-- `tamga_gcm_seal`; NULL for an empty plaintext is an empty one. -/
def gcmSeal (key nonce : Option Bytes) (aad : Span) (plaintext : Span) (buffers : Buffers) :
    Bool × Buffers :=
  if buffers.outLen.isNone then (false, buffers)
  else
    let cleared := { buffers with outLen := some 0 }
    match key, nonce, buffers.out with
    | some key, some nonce, some out =>
        if plaintext.Dangling then (false, cleared)
        else if aad.Dangling then (false, cleared)
        else
          let (output, tag) := gcmCore key nonce aad.given plaintext.given .output
          (true, ⟨some (plaintext.given.length + 16),
            some (overwrite (overwrite out 0 output) plaintext.given.length tag)⟩)
    | _, _, _ => (false, cleared)

/-! ## The keystream -/

theorem xorBytes_xorBytes {a k : Bytes} (h : a.length ≤ k.length) : xorBytes (xorBytes a k) k = a := by
  induction a generalizing k with
  | nil => rfl
  | cons x a ih =>
    cases k with
    | nil => exact absurd h (by simp)
    | cons y k =>
      show (x ^^^ y ^^^ y) :: xorBytes (xorBytes a k) k = x :: a
      rw [ih (Nat.le_of_succ_le_succ h), UInt8.xor_assoc, UInt8.xor_self, UInt8.xor_zero]

theorem length_xorBytes {a k : Bytes} (h : a.length ≤ k.length) : (xorBytes a k).length = a.length := by
  unfold xorBytes
  rw [List.length_zipWith, Nat.min_eq_left h]

theorem length_inc32 (counter : Bytes) : (inc32 counter).length = counter.length := by
  have hloop : ∀ (is : List Nat) (counter : Bytes),
      (inc32Loop is counter).length = counter.length := by
    intro is
    induction is with
    | nil => exact fun _ => rfl
    | cons i is ih =>
      intro counter
      unfold inc32Loop
      dsimp only
      split
      · exact List.length_set
      · rw [ih, List.length_set]
  exact hloop _ counter

theorem length_encryptBlock {words block : Bytes} (hwords : words.length = 240)
    (hblock : block.length = 16) : (aes256EncryptBlock words block).length = 16 := by
  have hown : ∀ n, n < 60 → toWord words n = toWord words n := fun _ _ => rfl
  exact (toState_encryptBlock hwords hown hblock).1

section Ctr

variable {words : Bytes} (hwords : words.length = 240)

theorem ctr_nil (words : Bytes) (fuel : Nat) (counter : Bytes) : ctr words fuel counter [] = [] := by
  cases fuel <;> rfl

include hwords

variable {counter input : Bytes}

/-- One round of the walk: sixteen bytes, or what is left. -/
theorem ctr_round (fuel : Nat) (hcounter : counter.length = 16) (hpos : input.length ≠ 0) :
    (ctr words (fuel + 1) counter input).take 16 =
        xorBytes (input.take 16) (aes256EncryptBlock words (inc32 counter)) ∧
      (ctr words (fuel + 1) counter input).drop 16 =
        ctr words fuel (inc32 counter) (input.drop 16) := by
  have hstream : (aes256EncryptBlock words (inc32 counter)).length = 16 :=
    length_encryptBlock hwords ((length_inc32 counter).trans hcounter)
  have hunfold : ctr words (fuel + 1) counter input =
      xorBytes (input.take 16) (aes256EncryptBlock words (inc32 counter)) ++
        ctr words fuel (inc32 counter) (input.drop 16) := by
    rw [ctr]
    exact if_neg hpos
  rw [hunfold]
  generalize aes256EncryptBlock words (inc32 counter) = keystream at hstream
  have htake : (input.take 16).length ≤ keystream.length := by
    rw [List.length_take, hstream]
    exact Nat.min_le_left ..
  have hlen := (length_xorBytes htake).trans List.length_take
  by_cases hfull : 16 ≤ input.length
  · have hlen : (xorBytes (input.take 16) keystream).length = 16 := by omega
    exact ⟨List.take_left' hlen, List.drop_left' hlen⟩
  · -- a partial block is the last one
    have hrest : input.drop 16 = [] := List.drop_eq_nil_of_le (by omega)
    rw [hrest, ctr_nil, List.append_nil]
    exact ⟨List.take_of_length_le (by omega), List.drop_eq_nil_of_le (by omega)⟩

theorem length_ctr {fuel : Nat} (hcounter : counter.length = 16)
    (hfuel : input.length ≤ fuel) : (ctr words fuel counter input).length = input.length := by
  induction fuel generalizing counter input with
  | zero =>
    rw [List.length_eq_zero_iff.mp (Nat.le_zero.mp hfuel)]
    rfl
  | succ fuel ih =>
    by_cases hpos : input.length = 0
    · rw [List.length_eq_zero_iff.mp hpos, ctr_nil]
    · obtain ⟨htake, hdrop⟩ := ctr_round hwords fuel hcounter hpos
      have hinc := (length_inc32 counter).trans hcounter
      rw [← List.take_append_drop 16 (ctr words (fuel + 1) counter input), htake, hdrop,
        List.length_append, ih hinc (by rw [List.length_drop]; omega), length_xorBytes,
        List.length_take, List.length_drop]
      · omega
      · rw [length_encryptBlock hwords hinc, List.length_take]
        exact Nat.min_le_left ..

/-- Walking twice from one counter, wrapped or not, gives the input back. -/
theorem ctr_ctr {fuel : Nat} (hcounter : counter.length = 16) (hfuel : input.length ≤ fuel) :
    ctr words fuel counter (ctr words fuel counter input) = input := by
  induction fuel generalizing counter input with
  | zero => exact (List.length_eq_zero_iff.mp (Nat.le_zero.mp hfuel)).symm
  | succ fuel ih =>
    by_cases hpos : input.length = 0
    · rw [List.length_eq_zero_iff.mp hpos, ctr_nil, ctr_nil]
    · have hinc := (length_inc32 counter).trans hcounter
      have hlen := length_ctr hwords hcounter hfuel
      obtain ⟨htake, hdrop⟩ := ctr_round hwords fuel hcounter hpos
      obtain ⟨htake', hdrop'⟩ := ctr_round hwords fuel hcounter (hlen ▸ hpos)
      rw [← List.take_append_drop 16 (ctr words (fuel + 1) counter (ctr ..)), htake', hdrop',
        htake, hdrop, ih hinc (by rw [List.length_drop]; omega), xorBytes_xorBytes,
        List.take_append_drop]
      rw [length_encryptBlock hwords hinc, List.length_take]
      exact Nat.min_le_left ..

end Ctr

section Crypt

variable {key nonce : Bytes} (hkey : key.length = 32) (hnonce : nonce.length = 12)

include hnonce in
theorem length_startBlock : (startBlock nonce).length = 16 := by
  unfold startBlock
  rw [List.length_set, length_overwrite]
  · exact List.length_replicate
  · rw [hnonce, List.length_replicate]
    decide

include hkey hnonce

theorem length_crypt (input : Bytes) : (crypt key nonce input).length = input.length :=
  length_ctr (length_aes256Init hkey) (length_startBlock hnonce) le_rfl

/-- The keystream is an involution. -/
theorem crypt_crypt (input : Bytes) : crypt key nonce (crypt key nonce input) = input := by
  unfold crypt
  rw [length_ctr (length_aes256Init hkey) (length_startBlock hnonce) le_rfl]
  exact ctr_ctr (length_aes256Init hkey) (length_startBlock hnonce) le_rfl

theorem crypt_eq_iff {a b : Bytes} : crypt key nonce a = b ↔ crypt key nonce b = a := by
  constructor
  · intro h
    rw [← h, crypt_crypt hkey hnonce]
  · intro h
    rw [← h, crypt_crypt hkey hnonce]

end Crypt

/-! ## The tag -/

theorem length_gfMul {y : Bytes} (x : Bytes) (hy : y.length = 16) : (gfMul x y).length = 16 := by
  have hfold : ∀ (bits : List Nat) (zv : Bytes × Bytes), zv.1.length = 16 → zv.2.length = 16 →
      (bits.foldl (gfMulStep x) zv).1.length = 16 := by
    intro bits
    induction bits with
    | nil => exact fun _ hz _ => hz
    | cons bit bits ih =>
      intro zv hz hv
      apply ih
      · show (List.zipWith _ zv.1 zv.2).length = 16
        rw [List.length_zipWith, hz, hv]
        exact Nat.min_self 16
      · show (List.set (List.zipWith _ zv.2 (0 :: zv.2)) 0 _).length = 16
        rw [List.length_set, List.length_zipWith, List.length_cons, hv]
        rfl
  exact hfold _ _ List.length_replicate hy

theorem length_tag {key nonce : Bytes} (hkey : key.length = 32) (hnonce : nonce.length = 12)
    (aad ciphertext : Bytes) : (tag key nonce aad ciphertext).length = 16 := by
  have hwords := length_aes256Init hkey
  have hh : (aes256EncryptBlock (aes256Init key) (List.replicate 16 0)).length = 16 :=
    length_encryptBlock hwords List.length_replicate
  have hj : (aes256EncryptBlock (aes256Init key) (startBlock nonce)).length = 16 :=
    length_encryptBlock hwords (length_startBlock hnonce)
  unfold tag
  dsimp only
  rw [length_xorBytes]
  · exact length_gfMul _ hh
  · rw [length_gfMul _ hh, hj]

/-- On bytes of one length the comparison without branches is equality. -/
theorem ctMemeq_iff {a b : Bytes} (h : a.length = b.length) : ctMemeq a b = true ↔ a = b := by
  have hfold : ∀ (bytes : Bytes) (acc : UInt8),
      bytes.foldl (· ||| ·) acc = 0 ↔ acc = 0 ∧ ∀ byte ∈ bytes, byte = 0 := by
    intro bytes
    induction bytes with
    | nil => simp
    | cons byte bytes ih =>
      intro acc
      rw [List.foldl_cons, ih, UInt8.or_eq_zero_iff, List.forall_mem_cons, and_assoc]
  unfold ctMemeq
  rw [beq_iff_eq, hfold]
  constructor
  · intro hzero
    induction a generalizing b with
    | nil => exact (List.length_eq_zero_iff.mp h.symm).symm
    | cons x a ih =>
      cases b with
      | nil => exact absurd h (by simp)
      | cons y b =>
        rw [List.zipWith_cons_cons, List.forall_mem_cons] at hzero
        rw [UInt8.xor_eq_zero_iff.mp hzero.2.1, ih (Nat.succ.inj h) ⟨rfl, hzero.2.2⟩]
  · rintro rfl
    refine ⟨rfl, fun byte hbyte => ?_⟩
    rw [List.zipWith_self, List.mem_map] at hbyte
    obtain ⟨x, -, rfl⟩ := hbyte
    exact UInt8.xor_self

/-! ## Opening and sealing -/

/-- What a successful call leaves behind: a length, and that many bytes. -/
def Buffers.Hold (buffers : Buffers) (bytes : Bytes) : Prop :=
  buffers.outLen = some bytes.length ∧ (buffers.out.getD []).take bytes.length = bytes

/-- What the caller owes: somewhere for the length, and as many bytes as are written. -/
def Buffers.Room (buffers : Buffers) (n : Nat) : Prop :=
  buffers.outLen.isSome ∧ n ≤ (buffers.out.getD []).length

/-- The pointers that have to be there before a tag is computed. -/
def Checked (key nonce : Option Bytes) (aad : Span) : Prop :=
  key.isSome ∧ nonce.isSome ∧ ¬ aad.Dangling

theorem hold_overwrite {out bytes p : Bytes} {n : Nat} (hn : n = bytes.length) :
    Buffers.Hold ⟨some n, some (overwrite out 0 bytes)⟩ p ↔ bytes = p := by
  have htake := take_overwrite_zero out bytes
  unfold Buffers.Hold
  simp only [Option.some.injEq, Option.getD_some, hn]
  constructor
  · rintro ⟨hlen, h⟩
    rwa [← hlen, htake] at h
  · rintro rfl
    exact ⟨rfl, htake⟩

variable {buffers : Buffers} {text : Bytes}

/-- Arguments the guards turn away: only the length is touched. -/
theorem gcmOpen_of_refused {key nonce : Option Bytes} {aad : Span} (hsome : buffers.outLen.isSome)
    (h : ¬ Checked key nonce aad ∨ text.length < 16) :
    gcmOpen key nonce aad (some text) buffers = (false, ⟨some 0, buffers.out⟩) := by
  unfold gcmOpen
  rw [if_neg (by simpa using Option.isSome_iff_ne_none.mp hsome)]
  cases key with
  | none => rfl
  | some key =>
    cases nonce with
    | none => rfl
    | some nonce =>
      dsimp only
      by_cases haad : aad.Dangling
      · rw [if_pos haad]
      · rw [if_neg haad, if_pos (h.resolve_left (not_not_intro ⟨rfl, rfl, haad⟩))]

theorem gcmSeal_of_refused {key nonce : Option Bytes} {aad plaintext : Span}
    (h : ¬ Checked key nonce aad) : (gcmSeal key nonce aad plaintext buffers).1 = false := by
  unfold gcmSeal
  split
  · rfl
  · dsimp only
    split
    · next hkey hnonce hout =>
        split
        · rfl
        · rw [if_pos (by_contra fun haad => h ⟨rfl, rfl, haad⟩)]
    · rfl

section Inverse

variable {key nonce : Bytes} (hkey : key.length = 32) (hnonce : nonce.length = 12)
variable {aad : Span} (haad : ¬ aad.Dangling) {buffers : Buffers}

include hkey hnonce haad

/-- Once the arguments are in order the answer is the comparison's. -/
theorem gcmOpen_eq (hlen : 16 ≤ text.length) (hroom : buffers.Room (text.length - 16)) :
    gcmOpen (some key) (some nonce) aad (some text) buffers =
      if tag key nonce aad.given (text.take (text.length - 16)) = text.drop (text.length - 16) then
        (true, ⟨some (text.length - 16), buffers.out.map
          (overwrite · 0 (crypt key nonce (text.take (text.length - 16))))⟩)
      else
        (false, ⟨some 0, buffers.out.map fun out =>
          overwrite (overwrite out 0 (crypt key nonce (text.take (text.length - 16)))) 0
            (List.replicate (text.length - 16) 0)⟩) := by
  obtain ⟨hsome, hout⟩ := hroom
  have hnull : ¬ (text.length - 16 > 0 ∧ buffers.out.isNone = true) := by
    rintro ⟨hpos, hnone⟩
    rw [Option.isNone_iff_eq_none.mp hnone] at hout
    exact Nat.not_le_of_gt hpos hout
  have heq := ctMemeq_iff (a := tag key nonce aad.given (text.take (text.length - 16)))
    (b := text.drop (text.length - 16))
    (by rw [length_tag hkey hnonce, List.length_drop]; omega)
  unfold gcmOpen gcmCore
  dsimp only
  rw [if_neg (by simpa using Option.isSome_iff_ne_none.mp hsome), if_neg haad,
    if_neg (Nat.not_lt.mpr hlen), if_neg hnull]
  simp only [heq]

/-- A text opens to `p` when it ends in its own tag and decrypts to `p`. -/
theorem gcmOpen_iff {text p : Bytes} (hlen : 16 ≤ text.length)
    (hroom : buffers.Room (text.length - 16)) :
    ((gcmOpen (some key) (some nonce) aad (some text) buffers).1 = true ∧
      (gcmOpen (some key) (some nonce) aad (some text) buffers).2.Hold p) ↔
    tag key nonce aad.given (text.take (text.length - 16)) = text.drop (text.length - 16) ∧
      crypt key nonce (text.take (text.length - 16)) = p := by
  have hcrypt := length_crypt hkey hnonce (text.take (text.length - 16))
  rw [List.length_take, Nat.min_eq_left (Nat.sub_le ..)] at hcrypt
  rw [gcmOpen_eq hkey hnonce haad hlen hroom]
  split
  · next htag =>
      rw [eq_self, true_and, eq_true htag, true_and]
      dsimp only
      cases hout : buffers.out with
      | some out => exact hold_overwrite hcrypt.symm
      | none =>
        -- without an output buffer there is nothing to decrypt
        have hzero : text.length - 16 = 0 := by
          have := hroom.2
          rw [hout] at this
          exact Nat.le_zero.mp this
        have hnil := List.length_eq_zero_iff.mp (hcrypt.trans hzero)
        rw [hnil, hzero]
        constructor
        · intro h
          exact (List.length_eq_zero_iff.mp (Option.some.inj h.1).symm).symm
        · rintro rfl
          exact ⟨rfl, rfl⟩
  · next htag => simp [htag]

/-- A text whose tag does not compare equal is decrypted and then erased. -/
theorem gcmOpen_of_false (hlen : 16 ≤ text.length) (hroom : buffers.Room (text.length - 16))
    (hfalse : (gcmOpen (some key) (some nonce) aad (some text) buffers).1 = false) :
    (gcmOpen (some key) (some nonce) aad (some text) buffers).2 =
      ⟨some 0, buffers.out.map fun out =>
        overwrite (overwrite out 0 (crypt key nonce (text.take (text.length - 16)))) 0
          (List.replicate (text.length - 16) 0)⟩ := by
  rw [gcmOpen_eq hkey hnonce haad hlen hroom] at hfalse ⊢
  split at hfalse
  · exact absurd hfalse (by simp)
  · next htag => rw [if_neg htag]

/-- What `tamga_gcm_seal` writes: the ciphertext, and the tag of the ciphertext. -/
theorem gcmSeal_iff {plaintext : Span} (hplain : ¬ plaintext.Dangling)
    (hroom : buffers.Room (plaintext.given.length + 16)) :
    ((gcmSeal (some key) (some nonce) aad plaintext buffers).1 = true ∧
      (gcmSeal (some key) (some nonce) aad plaintext buffers).2.Hold text) ↔
    crypt key nonce plaintext.given ++
      tag key nonce aad.given (crypt key nonce plaintext.given) = text := by
  obtain ⟨hsome, hout⟩ := hroom
  obtain ⟨outLen, out⟩ := buffers
  cases out with
  | none => exact absurd hout (by simp)
  | some out =>
    have hseal : gcmSeal (some key) (some nonce) aad plaintext ⟨outLen, some out⟩ =
        (true, ⟨some (plaintext.given.length + 16), some (overwrite
          (overwrite out 0 (crypt key nonce plaintext.given)) plaintext.given.length
          (tag key nonce aad.given (crypt key nonce plaintext.given)))⟩) := by
      unfold gcmSeal gcmCore
      dsimp only
      rw [if_neg (by simpa using Option.isSome_iff_ne_none.mp hsome), if_neg hplain, if_neg haad]
    have hcrypt := length_crypt hkey hnonce plaintext.given
    have htag := length_tag hkey hnonce aad.given (crypt key nonce plaintext.given)
    rw [hseal, eq_self, true_and]
    dsimp only
    rw [← hcrypt, overwrite_overwrite]
    apply hold_overwrite
    rw [List.length_append, htag]

/-- Opening undoes sealing, and nothing else opens. -/
theorem gcmOpen_iff_gcmSeal {plaintext : Span} {opened sealed : Buffers} (hplain : ¬ plaintext.Dangling)
    (hopened : opened.Room (text.length - 16)) (hsealed : sealed.Room (plaintext.given.length + 16)) :
    ((gcmOpen (some key) (some nonce) aad (some text) opened).1 = true ∧
        (gcmOpen (some key) (some nonce) aad (some text) opened).2.Hold plaintext.given) ↔
      ((gcmSeal (some key) (some nonce) aad plaintext sealed).1 = true ∧
        (gcmSeal (some key) (some nonce) aad plaintext sealed).2.Hold text) := by
  rw [gcmSeal_iff hkey hnonce haad hplain hsealed]
  by_cases hlen : 16 ≤ text.length
  · rw [gcmOpen_iff hkey hnonce haad hlen hopened]
    constructor
    · rintro ⟨htag, hp⟩
      rw [(crypt_eq_iff hkey hnonce).mp hp, htag, List.take_append_drop]
    · rintro rfl
      have hsplit : (crypt key nonce plaintext.given ++ tag key nonce aad.given
          (crypt key nonce plaintext.given)).length - 16 =
          (crypt key nonce plaintext.given).length := by
        rw [List.length_append, length_tag hkey hnonce, Nat.add_sub_cancel]
      rw [hsplit, List.take_left, List.drop_left]
      exact ⟨rfl, crypt_crypt hkey hnonce _⟩
  · rw [gcmOpen_of_refused hopened.1 (.inr (Nat.lt_of_not_le hlen))]
    constructor
    · rintro ⟨h, -⟩
      exact absurd h Bool.false_ne_true
    · rintro rfl
      rw [List.length_append, length_tag hkey hnonce] at hlen
      exact absurd (Nat.le_add_left ..) hlen

end Inverse

/-- `tamga_gcm_open` and `tamga_gcm_seal` on buffers that do not overlap their inputs: a text opens to
`p` exactly when it is what sealing `p` writes, and a text that does not open leaves no plaintext. -/
theorem gcm_open_iff_seal {key nonce : Option Bytes} (hkey : ∀ k ∈ key, k.length = 32)
    (hnonce : ∀ n ∈ nonce, n.length = 12) (aad : Span) {plaintext : Span}
    (hplain : ¬ plaintext.Dangling) (text : Bytes) {opened sealed : Buffers}
    (hopened : opened.Room (text.length - 16))
    (hsealed : sealed.Room (plaintext.given.length + 16)) :
    (((gcmOpen key nonce aad (some text) opened).1 = true ∧
        (gcmOpen key nonce aad (some text) opened).2.Hold plaintext.given) ↔
      ((gcmSeal key nonce aad plaintext sealed).1 = true ∧
        (gcmSeal key nonce aad plaintext sealed).2.Hold text)) ∧
    (∀ n, text.length = n + 16 → opened.out.isSome →
      (gcmOpen key nonce aad (some text) opened).1 = false →
        (gcmOpen key nonce aad (some text) opened).2.outLen = some 0 ∧
        (Checked key nonce aad →
          (gcmOpen key nonce aad (some text) opened).2.out.map (·.take n) =
            some (List.replicate n 0))) := by
  by_cases hchecked : Checked key nonce aad
  · obtain ⟨hk, hn, haad⟩ := hchecked
    obtain ⟨key, rfl⟩ := Option.isSome_iff_exists.mp hk
    obtain ⟨nonce, rfl⟩ := Option.isSome_iff_exists.mp hn
    have hkey := hkey key rfl
    have hnonce := hnonce nonce rfl
    refine ⟨gcmOpen_iff_gcmSeal hkey hnonce haad hplain hopened hsealed, ?_⟩
    intro n hn hout hfalse
    obtain rfl : text.length - 16 = n := by omega
    rw [gcmOpen_of_false hkey hnonce haad (by omega) hopened hfalse]
    refine ⟨rfl, fun _ => ?_⟩
    obtain ⟨out, hout⟩ := Option.isSome_iff_exists.mp hout
    rw [hout, Option.map_some, Option.map_some]
    have htake := take_overwrite_zero (overwrite out 0
      (crypt key nonce (text.take (text.length - 16)))) (List.replicate (text.length - 16) 0)
    rw [List.length_replicate] at htake
    rw [htake]
  · rw [gcmOpen_of_refused hopened.1 (.inl hchecked), gcmSeal_of_refused hchecked]
    refine ⟨by simp, fun n _ _ _ => ⟨rfl, fun h => absurd h hchecked⟩⟩

theorem gcm_open_iff_seal_four :
    (⟨some 0, some (List.replicate 4 9)⟩ : Buffers).Room 4 ∧
    (((gcmOpen (some (List.replicate 32 1)) (some (List.replicate 12 2)) (.null 0)
          (some (List.replicate 20 3)) ⟨some 0, some (List.replicate 4 9)⟩).1 = true ∧
        (gcmOpen (some (List.replicate 32 1)) (some (List.replicate 12 2)) (.null 0)
          (some (List.replicate 20 3)) ⟨some 0, some (List.replicate 4 9)⟩).2.Hold [1, 2, 3, 4]) ↔
      ((gcmSeal (some (List.replicate 32 1)) (some (List.replicate 12 2)) (.null 0)
          (.bytes [1, 2, 3, 4]) ⟨some 0, some (List.replicate 20 9)⟩).1 = true ∧
        (gcmSeal (some (List.replicate 32 1)) (some (List.replicate 12 2)) (.null 0)
          (.bytes [1, 2, 3, 4]) ⟨some 0, some (List.replicate 20 9)⟩).2.Hold
            (List.replicate 20 3))) := by
  have hkey : ∀ k ∈ some (List.replicate 32 (1 : UInt8)), k.length = 32 := by
    rintro k ⟨⟩
    exact List.length_replicate
  have hnonce : ∀ n ∈ some (List.replicate 12 (2 : UInt8)), n.length = 12 := by
    rintro n ⟨⟩
    exact List.length_replicate
  have hopened : (⟨some 0, some (List.replicate 4 9)⟩ : Buffers).Room 4 :=
    ⟨rfl, List.length_replicate.ge⟩
  have hsealed : (⟨some 0, some (List.replicate 20 9)⟩ : Buffers).Room 20 :=
    ⟨rfl, List.length_replicate.ge⟩
  have hplain : ¬ (Span.bytes [1, 2, 3, 4]).Dangling := fun h => h
  exact ⟨hopened, (gcm_open_iff_seal hkey hnonce (.null 0) hplain (List.replicate 20 3)
    hopened hsealed).1⟩

/-- The opening the check-out code is modelled over, with this cipher for its primitive. -/
theorem gcmOpen_crypto (C : Crypto) (hcrypt : C.gcmCrypt = crypt) (htag : C.gcmTag = tag)
    {key nonce aad text : Bytes} (hkey : key.length = 32) (hnonce : nonce.length = 12)
    (hroom : buffers.Room (text.length - 16)) (p : Bytes) :
    Tamga.gcmOpen C key nonce aad text = some p ↔
      (gcmOpen (some key) (some nonce) (.bytes aad) (some text) buffers).1 = true ∧
        (gcmOpen (some key) (some nonce) (.bytes aad) (some text) buffers).2.Hold p := by
  have haad : ¬ (Span.bytes aad).Dangling := fun h => h
  unfold Tamga.gcmOpen gcmTagLen
  rw [hcrypt, htag]
  by_cases hlen : 16 ≤ text.length
  · rw [gcmOpen_iff hkey hnonce haad hlen hroom, if_neg (Nat.not_lt.mpr hlen)]
    dsimp only [Span.given]
    split
    · next h => rw [Option.some.injEq, eq_true h, true_and]
    · next h => simp [h]
  · rw [if_pos (Nat.lt_of_not_le hlen), gcmOpen_of_refused hroom.1 (.inr (Nat.lt_of_not_le hlen))]
    simp

end Tamga.Gcm
