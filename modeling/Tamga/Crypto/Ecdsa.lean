import Tamga.Crypto.DerForms
import Tamga.Crypto.Hkdf

/-!
# `Crypto.Ecdsa` — the spelling of ECDSA keys and signatures (`crypto/ecdsa.c`)

A signature is a sequence of two integers, a key is a point by itself or inside a SubjectPublicKeyInfo.
Both parsers accept one spelling of what they return (`signature_spelling`), the second one two of them,
side by side. The arithmetic of the curve (`tamga_p256_verify`) is a parameter here.
-/

namespace Tamga.Ecdsa

open Octets Der Checked

/-! ## The program -/

/-- `TAMGA_OID_EC_PUBLIC_KEY`. -/
def oidEcPublicKey : Bytes := [0x2A, 0x86, 0x48, 0xCE, 0x3D, 0x02, 0x01]

/-- `TAMGA_OID_PRIME256V1`. -/
def oidPrime256v1 : Bytes := [0x2A, 0x86, 0x48, 0xCE, 0x3D, 0x03, 0x01, 0x07]

def p256PointLen : Nat := 65

/-- `*x = &point[1]; *y = &point[33]`, of 32 bytes each. -/
def coordinates (point : Bytes) : Bytes × Bytes := ((point.drop 1).take 32, (point.drop 33).take 32)

/-- `tamga_ecdsa_extract_point`. -/
def ecdsaExtractPoint (publicKey : Option Bytes) : Checked (Bytes × Bytes) := do
  match publicKey with
  | none => failure
  | some publicKey =>
      if publicKey.length = p256PointLen ∧ publicKey[0]? = some 0x04 then return coordinates publicKey
      let (sequence, outer) ← orRefuse (derExpect derSequence (derInit publicKey))
      guard (derAtEnd outer)
      let (algorithmContent, inner) ← orRefuse (derExpect derSequence (derInit sequence))
      let (_, algorithm) ← orRefuseOid (derExpectOid oidEcPublicKey (derInit algorithmContent))
      let (_, algorithm) ← orRefuseOid (derExpectOid oidPrime256v1 algorithm)
      guard (derAtEnd algorithm)
      let (point, inner) ← orRefuse (derReadBitString inner)
      guard (derAtEnd inner)
      guard (point.length = p256PointLen ∧ point[0]? = some 0x04)
      return coordinates point

/-- `tamga_ecdsa_pad_scalar`. -/
def ecdsaPadScalar (value : Bytes) : Checked Bytes :=
  if value.length = 0 ∨ value.length > 32 then failure
  else pure (List.replicate (32 - value.length) 0 ++ value)

/-- `tamga_ecdsa_parse_signature`. -/
def ecdsaParseSignature (signature : Option Bytes) : Checked (Bytes × Bytes) := do
  match signature with
  | none => failure
  | some signature =>
      let (sequence, outer) ← orRefuse (derExpect derSequence (derInit signature))
      guard (derAtEnd outer)
      let (rValue, inner) ← orRefuse (derReadUnsigned (derInit sequence))
      let (sValue, inner) ← orRefuse (derReadUnsigned inner)
      guard (derAtEnd inner)
      let r ← ecdsaPadScalar rValue
      let s ← ecdsaPadScalar sValue
      return (r, s)

/-- `tamga_ecdsa_p256_verify`, over `tamga_p256_verify`; a refusal and `false` are one answer. -/
def ecdsaP256Verify (p256Verify : (x y digest r s : Bytes) → Bool) (publicKey : Option Bytes)
    (message : Hash.Span) (signature : Option Bytes) : Checked Unit := do
  guard (¬ message.Dangling)
  let (x, y) ← ecdsaExtractPoint publicKey
  let (r, s) ← ecdsaParseSignature signature
  guard (p256Verify x y (Hash.sha256 message.given) r s)

/-! ## Signatures -/

/-- `SEQUENCE { INTEGER r, INTEGER s }`. -/
def SignatureDer (r s : Nat) (bytes : Bytes) : Prop :=
  ∃ a b, IntegerDer r a ∧ IntegerDer s b ∧ Element 0x30 (a ++ b) bytes

theorem SignatureDer.eq {r s : Nat} {x y : Bytes} (hx : SignatureDer r s x)
    (hy : SignatureDer r s y) : x = y := by
  obtain ⟨a, b, ha, hb, helement⟩ := hx
  obtain ⟨a', b', ha', hb', helement'⟩ := hy
  cases ha.eq ha'
  cases hb.eq hb'
  exact helement.eq helement'

theorem padScalar_decides {value : Bytes} (h : Minimal value) :
    Decides (ecdsaPadScalar value) fun out => out.length = 32 ∧ be out = be value := by
  unfold ecdsaPadScalar
  have hpos := List.length_pos_iff.mpr h.ne_nil
  split
  · refine decides_failure.congr fun out => iff_of_false id ?_
    rintro ⟨hlen, hbe⟩
    have := h.length_le (List.ne_nil_of_length_pos (by omega)) hbe.symm
    omega
  · have hlen : (List.replicate (32 - value.length) 0 ++ value).length = 32 := by
      rw [List.length_append, List.length_replicate]
      omega
    have hbe : be (List.replicate (32 - value.length) 0 ++ value) = be value := by
      rw [be_append, be_replicate_zero, Nat.zero_mul, Nat.zero_add]
    refine (decides_pure _).congr fun out => ⟨?_, ?_⟩
    · rintro rfl
      exact ⟨hlen, hbe⟩
    · rintro ⟨hlen', hbe'⟩
      exact be_inj (hlen.trans hlen'.symm) (hbe.trans hbe'.symm)

/-- What the parser of signatures takes: the encoding of two numbers that fit into 32 bytes. -/
theorem parseSignature_decides (signature : Option Bytes) : Decides (ecdsaParseSignature signature)
    fun (r, s) => ∃ bytes ∈ signature, r.length = 32 ∧ s.length = 32 ∧ SignatureDer (be r) (be s) bytes := by
  cases signature with
  | none => exact decides_failure.congr fun _ => iff_of_false id nofun
  | some signature =>
    refine ((reads_expect 0x30).bind (at_init signature) fun sequence _ outer _ _ houter =>
      (atEnd_decides houter).bind fun _ _ => reads_unsigned.bind (at_init sequence)
      fun rValue _ inner _ hr hinner => reads_unsigned.bind hinner fun sValue _ inner _ hs hinner =>
      (atEnd_decides hinner).bind fun _ _ => (padScalar_decides hr.1).bind fun r _ =>
      (padScalar_decides hs.1).bind fun s _ => decides_pure (r, s)).congr ?_
    rintro ⟨r, s⟩
    constructor
    · rintro ⟨sequence, bytes, _, helement, rfl, _, rfl, rValue, a, _, ⟨-, ha⟩, rfl, sValue, b, _,
          ⟨-, hb⟩, rfl,
        _, rfl, _, ⟨hr, hbeR⟩, _, ⟨hs, hbeS⟩, heq⟩
      cases heq
      rw [List.append_nil] at helement ⊢
      exact ⟨bytes, rfl, hr, hs, a, b, hbeR ▸ ha, hbeS ▸ hb, helement⟩
    · rintro ⟨bytes, ⟨⟩, hr, hs, a, b, ha, hb, helement⟩
      obtain ⟨rValue, hrMinimal, hbeR⟩ := exists_minimal (be r)
      obtain ⟨sValue, hsMinimal, hbeS⟩ := exists_minimal (be s)
      exact ⟨a ++ b, signature, [], helement, (List.append_nil _).symm, (), rfl, rValue, a, b,
        ⟨hrMinimal, hbeR ▸ ha⟩, rfl, sValue, b, [], ⟨hsMinimal, hbeS ▸ hb⟩, (List.append_nil _).symm, (), rfl,
        r, ⟨hr, hbeR.symm⟩, s, ⟨hs, hbeS.symm⟩, rfl⟩

/-! ## Keys -/

/-- `SEQUENCE { OID ecPublicKey, OID prime256v1 }`. -/
def algorithmDer : Bytes := shortElement 0x30 (shortElement 0x06 oidEcPublicKey ++
    shortElement 0x06 oidPrime256v1)

/-- The SubjectPublicKeyInfo of a point: its algorithm, and `BIT STRING point`. -/
def spki (point : Bytes) : Bytes := shortElement 0x30 (algorithmDer ++ shortElement 0x03 (0 :: point))

theorem coordinates_append {x y : Bytes} (hx : x.length = 32) (hy : y.length = 32) :
    coordinates (0x04 :: x ++ y) = (x, y) := by
  simp [coordinates, ← hx, hy]

/-- The shape both kinds of key are checked for. -/
theorem point_iff {point x y : Bytes} :
    (point.length = p256PointLen ∧ point[0]? = some 0x04) ∧ coordinates point = (x, y) ↔
      x.length = 32 ∧ y.length = 32 ∧ point = 0x04 :: x ++ y := by
  constructor
  · rintro ⟨⟨hlen, hlead⟩, heq⟩
    obtain ⟨lead, rest, rfl⟩ := List.exists_cons_of_length_pos (by rw [hlen]; decide : 0 < point.length)
    cases hlead
    cases heq
    have hrest : rest.length = 64 := Nat.succ.inj hlen
    have htail : (rest.drop 32).take 32 = rest.drop 32 := List.take_of_length_le (by simp [hrest])
    refine ⟨by simp [hrest], by simp [hrest], ?_⟩
    show 0x04 :: rest = 0x04 :: rest.take 32 ++ (rest.drop 32).take 32
    rw [htail, List.cons_append, List.take_append_drop]
  · rintro ⟨hx, hy, rfl⟩
    exact ⟨⟨by simp [hx, hy, p256PointLen], rfl⟩, coordinates_append hx hy⟩

/-- The elements of a key are fixed up to its point. -/
theorem spki_iff {point bytes : Bytes} (hlen : point.length = 65) :
    (∃ oid₁ oid₂ algorithm bits, Element 0x06 oidEcPublicKey oid₁ ∧ Element 0x06 oidPrime256v1 oid₂ ∧
      Element 0x30 (oid₁ ++ oid₂) algorithm ∧ Element 0x03 (0 :: point) bits ∧
      Element 0x30 (algorithm ++ bits) bytes) ↔ bytes = spki point := by
  have h₁ : Element 0x06 oidEcPublicKey _ := element_short (by decide) (by decide)
  have h₂ : Element 0x06 oidPrime256v1 _ := element_short (by decide) (by decide)
  have h₃ : Element 0x30 _ algorithmDer := element_short (by decide) (by decide)
  have h₄ : Element 0x03 (0 :: point) _ := element_short (by decide) (by simp [hlen])
  have h₅ : Element 0x30 _ (spki point) :=
    element_short (by decide) (by simp [hlen, algorithmDer, shortElement, oidEcPublicKey, oidPrime256v1])
  constructor
  · rintro ⟨oid₁, oid₂, algorithm, bits, h₁', h₂', h₃', h₄', h₅'⟩
    cases h₁'.eq h₁
    cases h₂'.eq h₂
    cases h₃'.eq h₃
    cases h₄'.eq h₄
    exact h₅'.eq h₅
  · rintro rfl
    exact ⟨_, _, _, _, h₁, h₂, h₃, h₄, h₅⟩

/-- What the parser of keys takes: a point, by itself or behind the one header of its curve. -/
theorem extractPoint_decides (publicKey : Option Bytes) : Decides (ecdsaExtractPoint publicKey)
    fun (x, y) => ∃ key ∈ publicKey, x.length = 32 ∧ y.length = 32 ∧
      (key = 0x04 :: x ++ y ∨ key = spki (0x04 :: x ++ y)) := by
  cases publicKey with
  | none => exact decides_failure.congr fun _ => iff_of_false id nofun
  | some key =>
    unfold ecdsaExtractPoint
    dsimp only
    split
    · rename_i hraw
      refine (decides_pure _).congr ?_
      rintro ⟨x, y⟩
      constructor
      · intro heq
        obtain ⟨hx, hy, hkey⟩ := point_iff.1 ⟨hraw, heq⟩
        exact ⟨key, rfl, hx, hy, Or.inl hkey⟩
      · rintro ⟨_, ⟨⟩, hx, hy, rfl | rfl⟩
        · exact coordinates_append hx hy
        · simp [spki, algorithmDer, shortElement, oidEcPublicKey, oidPrime256v1, hx, hy, p256PointLen] at hraw
    · rename_i hraw
      refine ((reads_expect 0x30).bind (at_init key) fun sequence _ outer _ _ houter =>
        (atEnd_decides houter).bind fun _ _ => (reads_expect 0x30).bind (at_init sequence)
        fun content _ inner _ _ hinner => (reads_oid oidEcPublicKey).bind (at_init content)
        fun _ _ algorithm _ _ halgorithm => (reads_oid oidPrime256v1).bind halgorithm
        fun _ _ algorithm _ _ halgorithm => (atEnd_decides halgorithm).bind fun _ _ =>
        reads_bitString.bind hinner fun point _ inner _ _ hinner =>
        (atEnd_decides hinner).bind fun _ _ =>
        (decides_guard (point.length = p256PointLen ∧ point[0]? = some 0x04)).bind fun _ _ =>
        decides_pure (coordinates point)).congr ?_
      rintro ⟨x, y⟩
      constructor
      · rintro ⟨sequence, bytes, _, hsequence, rfl, _, rfl, content, algorithm, _, halgorithm, rfl,
            _, oid₁, _,
          hoid₁, rfl, _, oid₂, _, hoid₂, rfl, _, rfl, point, bits, _, hbits, rfl, _, rfl, _, hpoint, heq⟩
        obtain ⟨hx, hy, rfl⟩ := point_iff.1 ⟨hpoint, heq⟩
        simp only [List.append_nil] at *
        exact ⟨_, rfl, hx, hy, Or.inr ((spki_iff hpoint.1).1
          ⟨oid₁, oid₂, algorithm, bits, hoid₁, hoid₂, halgorithm, hbits, hsequence⟩)⟩
      · rintro ⟨_, ⟨⟩, hx, hy, rfl | hkey⟩
        · exact absurd (point_iff.2 ⟨hx, hy, rfl⟩).1 hraw
        · have hpoint := point_iff.2 ⟨hx, hy, rfl⟩
          obtain ⟨oid₁, oid₂, algorithm, bits, hoid₁, hoid₂, halgorithm, hbits, hsequence⟩ :=
            (spki_iff hpoint.1.1).2 hkey
          have hnil : ∀ l : Bytes, l = l ++ [] := fun l => (List.append_nil l).symm
          exact ⟨_, key, [], hsequence, hnil key, (), rfl, _, algorithm, bits, halgorithm, rfl, (),
              oid₁, oid₂,
            hoid₁, rfl, (), oid₂, [], hoid₂, hnil oid₂, (), rfl, _, bits, [], hbits, hnil bits, (), rfl, (),
            hpoint.1, hpoint.2⟩

/-! ## Verification -/

/-- **Signatures have one spelling.** The parser of signatures stays inside its buffer; what it takes is the
    encoding of the two numbers it returns, every two numbers below `2 ^ 256` have such an encoding, and no
    two signatures are read as the same numbers. -/
theorem signature_spelling :
    (∀ signature, ∃ answer, (ecdsaParseSignature signature).run = some answer) ∧
      (∀ signature r s, (ecdsaParseSignature signature).run = some (some (r, s)) ↔
        ∃ bytes ∈ signature, r.length = 32 ∧ s.length = 32 ∧ SignatureDer (be r) (be s) bytes) ∧
      (∀ r < 2 ^ 256, ∀ s < 2 ^ 256, ∃ bytes, SignatureDer r s bytes ∧
        ∀ other, SignatureDer r s other → other = bytes) ∧
      ∀ signature other scalars, (ecdsaParseSignature signature).run = some (some scalars) →
        (ecdsaParseSignature other).run = some (some scalars) → signature = other := by
  refine ⟨?_, fun signature r s => (parseSignature_decides signature).iff, ?_, ?_⟩
  · intro signature
    obtain ⟨answer, hrun, -⟩ := parseSignature_decides signature
    exact ⟨answer, hrun⟩
  · intro r hr s hs
    obtain ⟨a, ha, halen⟩ := exists_integerDer (k := 32) hr (by decide) (by decide)
    obtain ⟨b, hb, hblen⟩ := exists_integerDer (k := 32) hs (by decide) (by decide)
    have helement : Element 0x30 (a ++ b) _ := element_short (by decide) (by rw [List.length_append]; omega)
    exact ⟨_, ⟨a, b, ha, hb, helement⟩, fun other hother => hother.eq ⟨a, b, ha, hb, helement⟩⟩
  · rintro signature other ⟨r, s⟩ h h'
    obtain ⟨bytes, hbytes, -, -, hder⟩ := (parseSignature_decides signature).iff.1 h
    obtain ⟨bytes', hbytes', -, -, hder'⟩ := (parseSignature_decides other).iff.1 h'
    cases hder.eq hder'
    exact hbytes.trans hbytes'.symm

/-- **Verification is the relation of the curve.** `tamga_ecdsa_p256_verify` stays inside its buffers, and it
    accepts exactly when the message is one, the key is one of the two spellings of a point and the
    signature the encoding of two numbers that the curve relates to the digest. -/
theorem ecdsa_verify_iff (p256Verify : (x y digest r s : Bytes) → Bool) (publicKey : Option Bytes)
    (message : Hash.Span) (signature : Option Bytes) :
    (∃ answer, (ecdsaP256Verify p256Verify publicKey message signature).run = some answer) ∧
      ((ecdsaP256Verify p256Verify publicKey message signature).run = some (some ()) ↔
        ¬ message.Dangling ∧ ∃ key bytes x y r s, publicKey = some key ∧ signature = some bytes ∧
          x.length = 32 ∧ y.length = 32 ∧ r.length = 32 ∧ s.length = 32 ∧
          (key = 0x04 :: x ++ y ∨ key = spki (0x04 :: x ++ y)) ∧ SignatureDer (be r) (be s) bytes ∧
          p256Verify x y (Hash.sha256 message.given) r s = true) := by
  have hverify := (decides_guard (¬ message.Dangling)).bind fun _ _ =>
    (extractPoint_decides publicKey).bind fun point _ =>
    (parseSignature_decides signature).bind fun scalars _ =>
    decides_guard (p256Verify point.1 point.2 (Hash.sha256 message.given) scalars.1 scalars.2 = true)
  obtain ⟨answer, hrun, -⟩ := id hverify
  refine ⟨⟨answer, hrun⟩, hverify.iff.trans ⟨?_, ?_⟩⟩
  · rintro ⟨_, hmessage, ⟨x, y⟩, ⟨key, hkey, hx, hy, hspelled⟩, ⟨r, s⟩, ⟨bytes, hbytes, hr, hs, hder⟩, h⟩
    exact ⟨hmessage, key, bytes, x, y, r, s, hkey, hbytes, hx, hy, hr, hs, hspelled, hder, h⟩
  · rintro ⟨hmessage, key, bytes, x, y, r, s, hkey, hbytes, hx, hy, hr, hs, hspelled, hder, h⟩
    exact ⟨(), hmessage, (x, y), ⟨key, hkey, hx, hy, hspelled⟩, (r, s), ⟨bytes, hbytes, hr, hs, hder⟩, h⟩

end Tamga.Ecdsa
