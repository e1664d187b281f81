import Mathlib.Data.List.GetD
import Tamga.Crypto.Sha2
import Tamga.Lib.Rijndael

/-!
# `Crypto.Aes` — one block of AES-256 (`crypto/aes.c`)

The source works on sixteen bytes in a row, column by column, with a table for the substitution and
sums and doublings for the mixing. `toState` is the matrix those bytes are; each step on the bytes is the
step of `Rijndael` on the matrix, and the expanded key is that of `Rijndael.expandedKey`.
-/

namespace Tamga.Aes

open GF256 Rijndael Hash

/-! ## The program -/

/-- `TAMGA_AES_SBOX`. -/
def sboxTable : Bytes :=
  [0x63, 0x7c, 0x77, 0x7b, 0xf2, 0x6b, 0x6f, 0xc5, 0x30, 0x01, 0x67, 0x2b, 0xfe, 0xd7, 0xab, 0x76,
    0xca, 0x82, 0xc9, 0x7d, 0xfa, 0x59, 0x47, 0xf0, 0xad, 0xd4, 0xa2, 0xaf, 0x9c, 0xa4, 0x72, 0xc0,
    0xb7, 0xfd, 0x93, 0x26, 0x36, 0x3f, 0xf7, 0xcc, 0x34, 0xa5, 0xe5, 0xf1, 0x71, 0xd8, 0x31, 0x15,
    0x04, 0xc7, 0x23, 0xc3, 0x18, 0x96, 0x05, 0x9a, 0x07, 0x12, 0x80, 0xe2, 0xeb, 0x27, 0xb2, 0x75,
    0x09, 0x83, 0x2c, 0x1a, 0x1b, 0x6e, 0x5a, 0xa0, 0x52, 0x3b, 0xd6, 0xb3, 0x29, 0xe3, 0x2f, 0x84,
    0x53, 0xd1, 0x00, 0xed, 0x20, 0xfc, 0xb1, 0x5b, 0x6a, 0xcb, 0xbe, 0x39, 0x4a, 0x4c, 0x58, 0xcf,
    0xd0, 0xef, 0xaa, 0xfb, 0x43, 0x4d, 0x33, 0x85, 0x45, 0xf9, 0x02, 0x7f, 0x50, 0x3c, 0x9f, 0xa8,
    0x51, 0xa3, 0x40, 0x8f, 0x92, 0x9d, 0x38, 0xf5, 0xbc, 0xb6, 0xda, 0x21, 0x10, 0xff, 0xf3, 0xd2,
    0xcd, 0x0c, 0x13, 0xec, 0x5f, 0x97, 0x44, 0x17, 0xc4, 0xa7, 0x7e, 0x3d, 0x64, 0x5d, 0x19, 0x73,
    0x60, 0x81, 0x4f, 0xdc, 0x22, 0x2a, 0x90, 0x88, 0x46, 0xee, 0xb8, 0x14, 0xde, 0x5e, 0x0b, 0xdb,
    0xe0, 0x32, 0x3a, 0x0a, 0x49, 0x06, 0x24, 0x5c, 0xc2, 0xd3, 0xac, 0x62, 0x91, 0x95, 0xe4, 0x79,
    0xe7, 0xc8, 0x37, 0x6d, 0x8d, 0xd5, 0x4e, 0xa9, 0x6c, 0x56, 0xf4, 0xea, 0x65, 0x7a, 0xae, 0x08,
    0xba, 0x78, 0x25, 0x2e, 0x1c, 0xa6, 0xb4, 0xc6, 0xe8, 0xdd, 0x74, 0x1f, 0x4b, 0xbd, 0x8b, 0x8a,
    0x70, 0x3e, 0xb5, 0x66, 0x48, 0x03, 0xf6, 0x0e, 0x61, 0x35, 0x57, 0xb9, 0x86, 0xc1, 0x1d, 0x9e,
    0xe1, 0xf8, 0x98, 0x11, 0x69, 0xd9, 0x8e, 0x94, 0x9b, 0x1e, 0x87, 0xe9, 0xce, 0x55, 0x28, 0xdf,
    0x8c, 0xa1, 0x89, 0x0d, 0xbf, 0xe6, 0x42, 0x68, 0x41, 0x99, 0x2d, 0x0f, 0xb0, 0x54, 0xbb, 0x16]

def sbox (b : UInt8) : UInt8 := sboxTable.getD b.toNat 0

/-- `TAMGA_AES_RCON`. -/
def rconTable : Bytes := [0x01, 0x02, 0x04, 0x08, 0x10, 0x20, 0x40]

/-- `tamga_xtime`: the mask is made of the high bit. -/
def xtime (value : UInt8) : UInt8 :=
  let high := (0 : UInt8) - (value >>> 7)
  (value <<< 1) ^^^ (0x1B &&& high)

/-- `temp` behind the two conditions. -/
def keyTempBytes (i : Nat) (temp : Bytes) : Bytes :=
  if i % 32 = 0 then
    [sbox (temp.getD 1 0) ^^^ rconTable.getD (i / 32 - 1) 0, sbox (temp.getD 2 0),
      sbox (temp.getD 3 0), sbox (temp.getD 0 0)]
  -- the step of 256-bit keys alone
  else if i % 32 = 16 then
    [sbox (temp.getD 0 0), sbox (temp.getD 1 0), sbox (temp.getD 2 0), sbox (temp.getD 3 0)]
  else temp

/-- One round of the loop of `tamga_aes256_init`: the four bytes at `i` from those before them. -/
def keyStep (words : Bytes) (i : Nat) : Bytes :=
  let temp := keyTempBytes i [words.getD (i - 4) 0, words.getD (i - 3) 0, words.getD (i - 2) 0,
    words.getD (i - 1) 0]
  words ++ [words.getD (i - 32) 0 ^^^ temp.getD 0 0, words.getD (i + 1 - 32) 0 ^^^ temp.getD 1 0,
    words.getD (i + 2 - 32) 0 ^^^ temp.getD 2 0, words.getD (i + 3 - 32) 0 ^^^ temp.getD 3 0]

/-- `tamga_aes256_init`: the 240 bytes of `round_key`. -/
def aes256Init (key : Bytes) : Bytes :=
  (List.range 52).foldl (fun words j => keyStep words (32 + 4 * j)) key

def roundKey (words : Bytes) (round : Nat) : Bytes := (words.drop (16 * round)).take 16

def addKey (state key : Bytes) : Bytes := List.zipWith (· ^^^ ·) state key

/-- The three rotations through `tmp`. -/
def shiftBytes (state : Bytes) : Bytes :=
  let tmp := state.getD 1 0
  let state := state.set 1 (state.getD 5 0)
  let state := state.set 5 (state.getD 9 0)
  let state := state.set 9 (state.getD 13 0)
  let state := state.set 13 tmp
  let tmp := state.getD 2 0
  let state := state.set 2 (state.getD 10 0)
  let state := state.set 10 tmp
  let tmp := state.getD 6 0
  let state := state.set 6 (state.getD 14 0)
  let state := state.set 14 tmp
  let tmp := state.getD 15 0
  let state := state.set 15 (state.getD 11 0)
  let state := state.set 11 (state.getD 7 0)
  let state := state.set 7 (state.getD 3 0)
  state.set 3 tmp

/-- The mixing of the column at `i`. -/
def mixAt (state : Bytes) (i : Nat) : Bytes :=
  let a0 := state.getD i 0
  let a1 := state.getD (i + 1) 0
  let a2 := state.getD (i + 2) 0
  let a3 := state.getD (i + 3) 0
  let all := a0 ^^^ a1 ^^^ a2 ^^^ a3
  (((state.set i (a0 ^^^ all ^^^ xtime (a0 ^^^ a1))).set (i + 1)
    (a1 ^^^ all ^^^ xtime (a1 ^^^ a2))).set (i + 2)
    (a2 ^^^ all ^^^ xtime (a2 ^^^ a3))).set (i + 3) (a3 ^^^ all ^^^ xtime (a3 ^^^ a0))

def mixBytes (state : Bytes) : Bytes := [0, 4, 8, 12].foldl mixAt state

def encryptRound (words state : Bytes) (round : Nat) : Bytes :=
  let state := state.map sbox
  let state := shiftBytes state
  let state := if round ≠ 14 then mixBytes state else state
  addKey state (roundKey words round)

/-- `tamga_aes256_encrypt_block` on the bytes it copied from `in`. -/
def aes256EncryptBlock (words block : Bytes) : Bytes :=
  (List.range' 1 14).foldl (encryptRound words) (addKey block (roundKey words 0))

/-- The call on buffers of one memory: `in` is read before `out` is written. -/
def aes256EncryptBlockAt (words memory : Bytes) (input output : Nat) : Bytes :=
  overwrite memory output (aes256EncryptBlock words ((memory.drop input).take 16))

/-! ## Tables and doublings -/

/-- The table is that of the inverses under the affine map. -/
theorem sbox_eq (b : UInt8) : sbox b = sBox b := by
  have htable : sboxTable = inverses.map affine := by
    decide +kernel
  have hlen : inverses.length = 256 := by decide +kernel
  have hb := b.toNat_lt
  unfold sbox
  rw [sBox_eq, inv, htable, List.getD_eq_getElem _ _ (by rw [List.length_map, hlen]; exact hb),
    List.getD_eq_getElem _ _ (by rw [hlen]; exact hb), List.getElem_map]

theorem xtime_eq (b : UInt8) : xtime b = timesX b := by
  have all : ∀ k < 256, xtime (UInt8.ofNat k) = timesX (UInt8.ofNat k) := by
    decide +kernel
  exact forall_byte (P := fun b => xtime b = timesX b) all b

/-- The table holds the powers of `x` that seven steps need. -/
theorem rconTable_eq {j : Nat} (hpos : 1 ≤ j) (h : j ≤ 7) : rconTable.getD (j - 1) 0 = rcon j := by
  have h2 : rcon 2 = 0x02 := by rw [rcon_succ, rcon_one]; rfl
  have h3 : rcon 3 = 0x04 := by rw [rcon_succ, h2]; rfl
  have h4 : rcon 4 = 0x08 := by rw [rcon_succ, h3]; rfl
  have h5 : rcon 5 = 0x10 := by rw [rcon_succ, h4]; rfl
  have h6 : rcon 6 = 0x20 := by rw [rcon_succ, h5]; rfl
  have h7 : rcon 7 = 0x40 := by rw [rcon_succ, h6]; rfl
  obtain rfl | rfl | rfl | rfl | rfl | rfl | rfl :
      j = 1 ∨ j = 2 ∨ j = 3 ∨ j = 4 ∨ j = 5 ∨ j = 6 ∨ j = 7 := by omega
  · rw [rcon_one]; rfl
  · rw [h2]; rfl
  · rw [h3]; rfl
  · rw [h4]; rfl
  · rw [h5]; rfl
  · rw [h6]; rfl
  · rw [h7]; rfl

/-! ## The expanded key -/

/-- Four bytes in a row. -/
def toWord (bytes : Bytes) (n : Nat) : Word := fun r => bytes.getD (4 * n + r) 0

theorem toWord_append {front : Bytes} {n m : Nat} (hlen : front.length = 4 * n) (hm : m < n)
    (back : Bytes) : toWord (front ++ back) m = toWord front m := by
  funext r
  unfold toWord
  rw [List.getD_append _ _ _ _ (by omega)]

variable {n : Nat}

theorem toWord_append_right {front : Bytes} (hlen : front.length = 4 * n) (back : Bytes) :
    toWord (front ++ back) n = toWord back 0 := by
  funext r
  unfold toWord
  rw [List.getD_append_right _ _ _ _ (by omega), hlen]
  congr 1
  omega

/-- `temp` as a word. -/
theorem toWord_keyTempBytes (h8 : 8 ≤ n) (h60 : n < 60) (temp : Bytes) :
    toWord (keyTempBytes (4 * n) temp) 0 = keyTemp 8 n (toWord temp 0) := by
  unfold keyTempBytes keyTemp
  by_cases hfirst : n % 8 = 0
  · have hrcon := rconTable_eq (j := n / 8) (by omega) (by omega)
    rw [if_pos (show 4 * n % 32 = 0 by omega), if_pos hfirst, show 4 * n / 32 = n / 8 by omega, hrcon]
    funext r
    unfold subWord
    rcases fin4_cases r with rfl | rfl | rfl | rfl
    · rw [← sbox_eq]; rfl
    · rw [← sbox_eq, if_neg (by decide)]; exact (UInt8.xor_zero).symm
    · rw [← sbox_eq, if_neg (by decide)]; exact (UInt8.xor_zero).symm
    · rw [← sbox_eq, if_neg (by decide)]; exact (UInt8.xor_zero).symm
  · rw [if_neg (show ¬ 4 * n % 32 = 0 by omega), if_neg hfirst]
    by_cases hmid : n % 8 = 4
    · rw [if_pos (show 4 * n % 32 = 16 by omega), if_pos ⟨by decide, hmid⟩]
      funext r
      unfold subWord
      rcases fin4_cases r with rfl | rfl | rfl | rfl <;> rw [← sbox_eq] <;> rfl
    · rw [if_neg (show ¬ 4 * n % 32 = 16 by omega), if_neg fun h => hmid h.2]

/-- A word of the loop is the word eight places back plus what `keyTemp` makes of the last one. -/
theorem keyStep_eq (words : Bytes) (h8 : 8 ≤ n) (h60 : n < 60) :
    ∃ back, keyStep words (4 * n) = words ++ back ∧ back.length = 4 ∧
      toWord back 0 = fun r => toWord words (n - 8) r ^^^ keyTemp 8 n (toWord words (n - 1)) r := by
  have hlast : toWord [words.getD (4 * n - 4) 0, words.getD (4 * n - 3) 0, words.getD (4 * n - 2) 0,
      words.getD (4 * n - 1) 0] 0 = toWord words (n - 1) := by
    funext r
    rcases fin4_cases r with rfl | rfl | rfl | rfl
    · show words.getD (4 * n - 4) 0 = words.getD (4 * (n - 1) + 0) 0
      rw [show 4 * n - 4 = 4 * (n - 1) + 0 by omega]
    · show words.getD (4 * n - 3) 0 = words.getD (4 * (n - 1) + 1) 0
      rw [show 4 * n - 3 = 4 * (n - 1) + 1 by omega]
    · show words.getD (4 * n - 2) 0 = words.getD (4 * (n - 1) + 2) 0
      rw [show 4 * n - 2 = 4 * (n - 1) + 2 by omega]
    · show words.getD (4 * n - 1) 0 = words.getD (4 * (n - 1) + 3) 0
      rw [show 4 * n - 1 = 4 * (n - 1) + 3 by omega]
  refine ⟨_, rfl, rfl, ?_⟩
  rw [← hlast, ← toWord_keyTempBytes h8 h60]
  generalize keyTempBytes (4 * n) _ = temp
  funext r
  rcases fin4_cases r with rfl | rfl | rfl | rfl
  · show words.getD (4 * n - 32) 0 ^^^ temp.getD 0 0 = words.getD (4 * (n - 8) + 0) 0 ^^^ temp.getD 0 0
    rw [show 4 * n - 32 = 4 * (n - 8) + 0 by omega]
  · show words.getD (4 * n + 1 - 32) 0 ^^^ temp.getD 1 0 =
      words.getD (4 * (n - 8) + 1) 0 ^^^ temp.getD 1 0
    rw [show 4 * n + 1 - 32 = 4 * (n - 8) + 1 by omega]
  · show words.getD (4 * n + 2 - 32) 0 ^^^ temp.getD 2 0 =
      words.getD (4 * (n - 8) + 2) 0 ^^^ temp.getD 2 0
    rw [show 4 * n + 2 - 32 = 4 * (n - 8) + 2 by omega]
  · show words.getD (4 * n + 3 - 32) 0 ^^^ temp.getD 3 0 =
      words.getD (4 * (n - 8) + 3) 0 ^^^ temp.getD 3 0
    rw [show 4 * n + 3 - 32 = 4 * (n - 8) + 3 by omega]

theorem expandedKey_of_ge {key : Nat → Word} (h : 8 ≤ n) : expandedKey 8 key n = fun r =>
      expandedKey 8 key (n - 8) r ^^^ keyTemp 8 n (expandedKey 8 key (n - 1)) r := by
  conv_lhs => rw [expandedKey]
  rw [dif_neg (by omega)]

/-- The loop of `tamga_aes256_init` behind `j` rounds. -/
theorem foldl_keyStep {key : Bytes} (hkey : key.length = 32) {j : Nat} (hj : j ≤ 52) :
    ((List.range j).foldl (fun words j => keyStep words (32 + 4 * j)) key).length = 4 * (8 + j) ∧
      ∀ n < 8 + j, toWord ((List.range j).foldl (fun words j => keyStep words (32 + 4 * j)) key) n =
        expandedKey 8 (toWord key) n := by
  induction j with
  | zero =>
    refine ⟨hkey, fun n hn => ?_⟩
    rw [expandedKey, dif_pos (Or.inl hn)]
    rfl
  | succ j ih =>
    obtain ⟨hlen, hwords⟩ := ih (by omega)
    rw [List.range_succ, List.foldl_append, List.foldl_cons, List.foldl_nil]
    generalize (List.range j).foldl (fun words j => keyStep words (32 + 4 * j)) key = words
      at hlen hwords
    obtain ⟨back, hstep, hback, hword⟩ :=
      keyStep_eq words (show 8 ≤ 8 + j by omega) (by omega)
    rw [show 32 + 4 * j = 4 * (8 + j) by omega, hstep]
    refine ⟨by rw [List.length_append, hlen, hback]; omega, fun n hn => ?_⟩
    obtain hlt | rfl : n < 8 + j ∨ n = 8 + j := by omega
    · rw [toWord_append hlen hlt, hwords n hlt]
    · rw [toWord_append_right hlen, hword, expandedKey_of_ge (by omega), hwords _ (by omega),
        hwords _ (by omega)]

/-- **The key expansion.** -/
theorem toWord_aes256Init {key : Bytes} (hkey : key.length = 32) (hn : n < 60) :
    toWord (aes256Init key) n = expandedKey 8 (toWord key) n :=
  (foldl_keyStep hkey (Nat.le_refl 52)).2 n hn

theorem length_aes256Init {key : Bytes} (hkey : key.length = 32) : (aes256Init key).length = 240 :=
  (foldl_keyStep hkey (Nat.le_refl 52)).1

/-! ## The rounds -/

/-- The matrix of sixteen bytes, column by column. -/
def toState (bytes : Bytes) : State := fun r c => bytes.getD (r + 4 * c) 0

variable {s : Bytes}

theorem exists_cons_of_length (h : s.length = n + 1) : ∃ b t, s = b :: t ∧ t.length = n := by
  cases s with
  | nil => cases h
  | cons b t => exact ⟨b, t, rfl, Nat.succ.inj h⟩

theorem exists_of_length_sixteen (h : s.length = 16) :
    ∃ s0 s1 s2 s3 s4 s5 s6 s7 s8 s9 s10 s11 s12 s13 s14 s15 : UInt8,
      s = [s0, s1, s2, s3, s4, s5, s6, s7, s8, s9, s10, s11, s12, s13, s14, s15] := by
  obtain ⟨s0, t0, rfl, h0⟩ := exists_cons_of_length h
  obtain ⟨s1, t1, rfl, h1⟩ := exists_cons_of_length h0
  obtain ⟨s2, t2, rfl, h2⟩ := exists_cons_of_length h1
  obtain ⟨s3, t3, rfl, h3⟩ := exists_cons_of_length h2
  obtain ⟨s4, t4, rfl, h4⟩ := exists_cons_of_length h3
  obtain ⟨s5, t5, rfl, h5⟩ := exists_cons_of_length h4
  obtain ⟨s6, t6, rfl, h6⟩ := exists_cons_of_length h5
  obtain ⟨s7, t7, rfl, h7⟩ := exists_cons_of_length h6
  obtain ⟨s8, t8, rfl, h8⟩ := exists_cons_of_length h7
  obtain ⟨s9, t9, rfl, h9⟩ := exists_cons_of_length h8
  obtain ⟨s10, t10, rfl, h10⟩ := exists_cons_of_length h9
  obtain ⟨s11, t11, rfl, h11⟩ := exists_cons_of_length h10
  obtain ⟨s12, t12, rfl, h12⟩ := exists_cons_of_length h11
  obtain ⟨s13, t13, rfl, h13⟩ := exists_cons_of_length h12
  obtain ⟨s14, t14, rfl, h14⟩ := exists_cons_of_length h13
  obtain ⟨s15, t15, rfl, h15⟩ := exists_cons_of_length h14
  obtain rfl := List.length_eq_zero_iff.mp h15
  exact ⟨s0, s1, s2, s3, s4, s5, s6, s7, s8, s9, s10, s11, s12, s13, s14, s15, rfl⟩

theorem toState_injective {s t : Bytes} (hs : s.length = 16) (ht : t.length = 16)
    (h : toState s = toState t) : s = t := by
  apply List.ext_getElem (by rw [hs, ht])
  intro i hi hi'
  have hentry := congrFun (congrFun h ⟨i % 4, by omega⟩) ⟨i / 4, by omega⟩
  unfold toState at hentry
  dsimp only at hentry
  rw [show i % 4 + 4 * (i / 4) = i by omega] at hentry
  rwa [List.getD_eq_getElem _ _ hi, List.getD_eq_getElem _ _ hi'] at hentry

theorem toState_map (hs : s.length = 16) : toState (s.map sbox) = subBytes (toState s) := by
  funext r c
  have hi : (r : Nat) + 4 * c < s.length := by omega
  show (s.map sbox).getD (r + 4 * c) 0 = sBox (s.getD (r + 4 * c) 0)
  rw [List.getD_eq_getElem _ _ (by rw [List.length_map]; exact hi), List.getD_eq_getElem _ _ hi,
    List.getElem_map, sbox_eq]

theorem length_roundKey {words : Bytes} {round : Nat} (hlen : words.length = 240)
    (hround : round ≤ 14) : (roundKey words round).length = 16 := by
  unfold roundKey
  rw [List.length_take, List.length_drop]
  omega

theorem toState_addKey {words s : Bytes} {key : Nat → Word} {round : Nat} (hs : s.length = 16)
    (hlen : words.length = 240) (hround : round ≤ 14)
    (hwords : ∀ n < 60, toWord words n = key n) :
    toState (addKey s (roundKey words round)) = addRoundKey key round (toState s) := by
  funext r c
  have hkey := length_roundKey hlen hround
  have hword : words.getD (4 * (4 * round + c) + r) 0 = key (4 * round + c) r :=
    congrFun (hwords (4 * round + c) (by omega)) r
  show (addKey s (roundKey words round)).getD (r + 4 * c) 0 =
    s.getD (r + 4 * c) 0 ^^^ key (4 * round + c) r
  unfold addKey
  rw [← hword, List.getD_eq_getElem _ _ (by rw [List.length_zipWith, hs, hkey]; omega),
    List.getElem_zipWith, List.getD_eq_getElem s _ (by omega), List.getD_eq_getElem words _ (by omega)]
  unfold roundKey
  rw [List.getElem_take, List.getElem_drop]
  congr 2
  omega

theorem length_shiftBytes (s : Bytes) : (shiftBytes s).length = s.length := by
  unfold shiftBytes
  simp only [List.length_set]

theorem shiftBytes_eq (s0 s1 s2 s3 s4 s5 s6 s7 s8 s9 s10 s11 s12 s13 s14 s15 : UInt8) :
    shiftBytes [s0, s1, s2, s3, s4, s5, s6, s7, s8, s9, s10, s11, s12, s13, s14, s15] =
      [s0, s5, s10, s15, s4, s9, s14, s3, s8, s13, s2, s7, s12, s1, s6, s11] := by
  simp [shiftBytes]

theorem toState_shiftBytes (hs : s.length = 16) :
    toState (shiftBytes s) = shiftRows (toState s) := by
  obtain ⟨s0, s1, s2, s3, s4, s5, s6, s7, s8, s9, s10, s11, s12, s13, s14, s15, rfl⟩ :=
    exists_of_length_sixteen hs
  rw [shiftBytes_eq]
  funext r c
  rcases fin4_cases r with rfl | rfl | rfl | rfl <;>
    rcases fin4_cases c with rfl | rfl | rfl | rfl <;> rfl

/-- The byte `a` of a column behind the mixing, `b` being the next one and `all` the sum. -/
def mixed (all a b : UInt8) : UInt8 := a ^^^ all ^^^ xtime (a ^^^ b)

/-- The sum of the column and one doubling are the product with the mixing polynomial. -/
theorem ofByte_mixed {all a b c d : UInt8}
    (hall : ofByte all = ofByte a + ofByte b + ofByte c + ofByte d) :
    ofByte (mixed all a b) = root * ofByte a + (root + 1) * ofByte b + ofByte c + ofByte d := by
  unfold mixed
  rw [xtime_eq]
  simp only [ofByte_xor, ofByte_timesX, hall]
  linear_combination ofByte a * two_eq_zero

theorem mixBytes_eq (s0 s1 s2 s3 s4 s5 s6 s7 s8 s9 s10 s11 s12 s13 s14 s15 : UInt8) :
    mixBytes [s0, s1, s2, s3, s4, s5, s6, s7, s8, s9, s10, s11, s12, s13, s14, s15] =
      let all0 := s0 ^^^ s1 ^^^ s2 ^^^ s3
      let all1 := s4 ^^^ s5 ^^^ s6 ^^^ s7
      let all2 := s8 ^^^ s9 ^^^ s10 ^^^ s11
      let all3 := s12 ^^^ s13 ^^^ s14 ^^^ s15
      [mixed all0 s0 s1, mixed all0 s1 s2, mixed all0 s2 s3, mixed all0 s3 s0,
        mixed all1 s4 s5, mixed all1 s5 s6, mixed all1 s6 s7, mixed all1 s7 s4,
        mixed all2 s8 s9, mixed all2 s9 s10, mixed all2 s10 s11, mixed all2 s11 s8,
        mixed all3 s12 s13, mixed all3 s13 s14, mixed all3 s14 s15, mixed all3 s15 s12] := by
  simp [mixBytes, mixAt, mixed]

theorem length_mixBytes (s : Bytes) : (mixBytes s).length = s.length := by
  have hat : ∀ (s : Bytes) (i : Nat), (mixAt s i).length = s.length := by
    intro s i
    unfold mixAt
    simp only [List.length_set]
  unfold mixBytes
  simp only [List.foldl_cons, List.foldl_nil, hat]

/-- A mixed column. -/
theorem mixed_eq (v : Word) (r : Fin 4) :
    mixed (v 0 ^^^ v 1 ^^^ v 2 ^^^ v 3) (v r) (v (r + 1)) = mixColumn v r := by
  have hall : ofByte (v 0 ^^^ v 1 ^^^ v 2 ^^^ v 3) =
      ofByte (v r) + ofByte (v (r + 1)) + ofByte (v (r + 2)) + ofByte (v (r + 3)) := by
    simp only [ofByte_xor]
    rcases fin4_cases r with rfl | rfl | rfl | rfl
    · rfl
    · show _ = ofByte (v 1) + ofByte (v 2) + ofByte (v 3) + ofByte (v 0)
      ring
    · show _ = ofByte (v 2) + ofByte (v 3) + ofByte (v 0) + ofByte (v 1)
      ring
    · show _ = ofByte (v 3) + ofByte (v 0) + ofByte (v 1) + ofByte (v 2)
      ring
  apply ofByte_injective
  rw [ofByte_mixColumn, ofByte_mixed hall]

theorem toState_mixBytes (hs : s.length = 16) : toState (mixBytes s) = mixColumns (toState s) := by
  obtain ⟨s0, s1, s2, s3, s4, s5, s6, s7, s8, s9, s10, s11, s12, s13, s14, s15, rfl⟩ :=
    exists_of_length_sixteen hs
  rw [mixBytes_eq]
  funext r c
  unfold mixColumns
  rw [← mixed_eq]
  rcases fin4_cases r with rfl | rfl | rfl | rfl <;>
    rcases fin4_cases c with rfl | rfl | rfl | rfl <;> rfl

/-! ## The block -/

theorem length_addKey {s key : Bytes} (hs : s.length = 16) (hkey : key.length = 16) :
    (addKey s key).length = 16 := by
  unfold addKey
  rw [List.length_zipWith, hs, hkey, Nat.min_self]

section Block

variable {words : Bytes} {key : Nat → Word} (hlen : words.length = 240)
  (hwords : ∀ n < 60, toWord words n = key n)

include hlen hwords

/-- A round that mixes. -/
theorem encryptRound_full {round : Nat} (hs : s.length = 16) (hround : round < 14) :
    (encryptRound words s round).length = 16 ∧
      toState (encryptRound words s round) = fullRound key (toState s) round := by
  have hsub : (s.map sbox).length = 16 := by rw [List.length_map, hs]
  have hshift : (shiftBytes (s.map sbox)).length = 16 := by rw [length_shiftBytes, hsub]
  have hmix : (mixBytes (shiftBytes (s.map sbox))).length = 16 := by rw [length_mixBytes, hshift]
  unfold encryptRound
  dsimp only
  rw [if_pos (by omega)]
  refine ⟨length_addKey hmix (length_roundKey hlen (by omega)), ?_⟩
  rw [toState_addKey hmix hlen (by omega) hwords, toState_mixBytes hshift, toState_shiftBytes hsub,
    toState_map hs]
  rfl

/-- The rounds that mix, by induction on how many there are. -/
theorem foldl_encryptRound (hs : s.length = 16) (hn : n ≤ 13) :
    ((List.range' 1 n).foldl (encryptRound words) s).length = 16 ∧
      toState ((List.range' 1 n).foldl (encryptRound words) s) =
        (List.range' 1 n).foldl (fullRound key) (toState s) := by
  induction n with
  | zero => exact ⟨hs, rfl⟩
  | succ n ih =>
    obtain ⟨hlength, hstate⟩ := ih (by omega)
    rw [List.range'_concat, List.foldl_append, List.foldl_append, ← hstate]
    exact encryptRound_full hlen hwords hlength (by omega)

theorem toState_encryptBlock {block : Bytes} (hblock : block.length = 16) :
    (aes256EncryptBlock words block).length = 16 ∧
      toState (aes256EncryptBlock words block) = cipher 14 key (toState block) := by
  have hstart := length_addKey hblock (length_roundKey hlen (Nat.zero_le 14))
  obtain ⟨hlength, hstate⟩ := foldl_encryptRound hlen hwords hstart (Nat.le_refl 13)
  rw [toState_addKey hblock hlen (Nat.zero_le 14) hwords] at hstate
  unfold aes256EncryptBlock cipher
  rw [show List.range' 1 14 = List.range' 1 13 ++ [14] from rfl, List.foldl_append, List.foldl_cons,
    List.foldl_nil, ← hstate]
  generalize (List.range' 1 13).foldl (encryptRound words) (addKey block (roundKey words 0)) = s
    at hlength hstate
  -- the last round does not mix
  have hsub : (s.map sbox).length = 16 := by rw [List.length_map, hlength]
  have hshift : (shiftBytes (s.map sbox)).length = 16 := by rw [length_shiftBytes, hsub]
  unfold encryptRound
  dsimp only
  rw [if_neg (by decide)]
  refine ⟨length_addKey hshift (length_roundKey hlen (Nat.le_refl 14)), ?_⟩
  rw [toState_addKey hshift hlen (Nat.le_refl 14) hwords, toState_shiftBytes hsub, toState_map hlength]

end Block

/-- The bytes of a matrix. -/
def ofState (s : State) : Bytes :=
  List.ofFn fun i : Fin 16 =>
    s ⟨i.val % 4, Nat.mod_lt i.val (Nat.succ_pos 3)⟩ ⟨i.val / 4, Nat.div_lt_of_lt_mul i.isLt⟩

theorem toState_ofState (s : State) : toState (ofState s) = s := by
  funext r c
  rcases fin4_cases r with rfl | rfl | rfl | rfl <;>
    rcases fin4_cases c with rfl | rfl | rfl | rfl <;> rfl

/-- **AES-256 is the cipher of FIPS 197.** For each key it permutes the blocks, and the block is read
    before the result is written, wherever the two are. -/
theorem aes256_is_rijndael {key : Bytes} (hkey : key.length = 32) :
    (∀ block : Bytes, block.length = 16 →
      (aes256EncryptBlock (aes256Init key) block).length = 16 ∧
        toState (aes256EncryptBlock (aes256Init key) block) =
          cipher 14 (expandedKey 8 (toWord key)) (toState block)) ∧
    (∀ result : Bytes, result.length = 16 →
      ∃! block : Bytes, block.length = 16 ∧ aes256EncryptBlock (aes256Init key) block = result) ∧
    ∀ (memory : Bytes) (input output : Nat), input + 16 ≤ memory.length →
      output + 16 ≤ memory.length →
      ((aes256EncryptBlockAt (aes256Init key) memory input output).drop output).take 16 =
        aes256EncryptBlock (aes256Init key) ((memory.drop input).take 16) := by
  have hblock : ∀ block : Bytes, block.length = 16 → _ := fun block h =>
    toState_encryptBlock (length_aes256Init hkey) (fun n hn => toWord_aes256Init hkey hn) h
  refine ⟨hblock, ?_, ?_⟩
  · intro result hresult
    obtain ⟨s, hs⟩ := (cipher_bijective 14 (expandedKey 8 (toWord key))).2 (toState result)
    have hlen : (ofState s).length = 16 := List.length_ofFn
    refine ⟨ofState s, ⟨hlen, ?_⟩, ?_⟩
    · apply toState_injective (hblock _ hlen).1 hresult
      rw [(hblock _ hlen).2, toState_ofState, hs]
    · rintro block ⟨hlength, rfl⟩
      apply toState_injective hlength hlen
      apply (cipher_bijective 14 (expandedKey 8 (toWord key))).1
      rw [toState_ofState, hs, (hblock block hlength).2]
  · intro memory input output hinput houtput
    have hread : ((memory.drop input).take 16).length = 16 := by
      rw [List.length_take, List.length_drop]
      omega
    unfold aes256EncryptBlockAt overwrite
    have hfront : (memory.take output).length = output := by
      rw [List.length_take]
      omega
    rw [List.append_assoc, List.drop_left' hfront]
    exact List.take_left' (hblock _ hread).1

/-- The key `00 01 … 1f`. -/
theorem aes256_is_rijndael_counting :
    ((List.range 32).map UInt8.ofNat).length = 32 ∧
      toState (aes256EncryptBlock (aes256Init ((List.range 32).map UInt8.ofNat))
        (List.replicate 16 0)) =
        cipher 14 (expandedKey 8 (toWord ((List.range 32).map UInt8.ofNat)))
          (toState (List.replicate 16 0)) :=
  ⟨by simp, ((aes256_is_rijndael (by simp)).1 _ (by simp)).2⟩

end Tamga.Aes
