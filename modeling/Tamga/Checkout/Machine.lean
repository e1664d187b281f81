import Tamga.Checkout.License

/-!
# `Checkout.Machine` — the steps of machine-file verification

As for licence files, with four signature schemes. The scheme is the caller's: the file's `alg` has
to name it (`machineSettleAlg_eq_ok`), and whatever else stands there is unsupported.
-/

namespace Tamga

open Alloc Base64 Json

variable {C : Crypto} {L : Libc} {pem : Bytes} {cert : Cert} {encrypted : Bool} {scheme : UInt32}
  {licenseKey fingerprint : Option Bytes}

/-! ## The specification -/

/-- The two legal algorithms under a scheme's suffix. -/
def MachineAlg (suffix : Bytes) (cert : Cert) (encrypted : Bool) : Prop :=
  cert.alg = ascii "base64" ++ ascii "+" ++ suffix ++ ascii "+v2" ∧ encrypted = false ∨
    cert.alg = ascii "aes-256-gcm" ++ ascii "+" ++ suffix ++ ascii "+v2" ∧ encrypted = true

/-- The verifier of a scheme accepts. -/
def SchemeVerifies (C : Crypto) (scheme : UInt32) (pubkey message signature : Bytes) : Prop :=
  scheme = schemeEd25519Sign ∧ pubkey.length = 32 ∧ signature.length = 64 ∧
      C.ed25519Verify pubkey message signature = true ∨
    scheme = schemeRsa2048Pkcs1Sign ∧ C.rsaVerifyPkcs1Sha256 pubkey message signature = true ∨
    scheme = schemeRsa2048Pkcs1PssSign ∧ C.rsaVerifyPssSha256 pubkey message signature = true ∨
    scheme = schemeEcdsaP256Sign ∧ C.ecdsaP256Verify pubkey message signature = true

/-- `sig` verifies over the bytes of `enc` as they stand, under the caller's scheme and key. -/
def MachineSigned (C : Crypto) (scheme : UInt32) (pubkey : Bytes) (cert : Cert) : Prop :=
  ∃ signature, Spells cert.sig signature ∧ SchemeVerifies C scheme pubkey cert.enc signature

/-- `enc` is a nonce, a dot, and a ciphertext with its tag, and opens under the key derived from the
    licence key and the fingerprint. -/
def MachineOpens (C : Crypto) (licenseKey fingerprint : Option Bytes) (enc plaintext : Bytes) : Prop :=
  ∃ lk fp nonceB64 cipherB64 nonce cipher key, licenseKey = some lk ∧ fingerprint = some fp ∧
    enc = nonceB64 ++ ascii "." ++ cipherB64 ∧ Spells nonceB64 nonce ∧ Spells cipherB64 cipher ∧
    nonce.length = 12 ∧ 16 < cipher.length ∧ deriveMachineFileKey C lk fp = some key ∧
    gcmOpen C key nonce [] cipher = some plaintext

/-- The payload bytes of a certificate. -/
def MachinePlaintext (C : Crypto) (licenseKey fingerprint : Option Bytes) (cert : Cert)
    (encrypted : Bool) (plaintext : Bytes) : Prop :=
  if encrypted then MachineOpens C licenseKey fingerprint cert.enc plaintext
  else Spells cert.enc plaintext

/-- The file is a machine file signed under the caller's scheme and key, current, for `resource`. -/
def MachineAccepted (C : Crypto) (L : Libc) (pem : Bytes) (scheme : UInt32) (pubkey : Bytes)
    (licenseKey fingerprint : Option Bytes) (nowUnix : Int64) (resource : Json) : Prop :=
  ∃ suffix cert encrypted plaintext payload, machineAlgSuffix scheme = some suffix ∧
    Certificate L machineMarkers pem cert ∧ MachineAlg suffix cert encrypted ∧
    MachineSigned C scheme pubkey cert ∧
    MachinePlaintext C licenseKey fingerprint cert encrypted plaintext ∧ Reads L plaintext payload ∧
    CurrentPayload payload nowUnix resource

/-! ## The algorithm name -/

section Alg

variable {alg mode suffix : Bytes}

variable {sep : UInt8}

/-- A text with a separator, split at the first one. -/
theorem exists_takeWhile_append {text : Bytes} (h : sep ∈ text) :
    ∃ tail, text = text.takeWhile (· ≠ sep) ++ sep :: tail := by
  have hsplit := List.takeWhile_append_dropWhile (p := (· ≠ sep)) (l := text)
  cases hdrop : text.dropWhile (· ≠ sep) with
  | nil =>
    have := List.dropWhile_eq_nil_iff.mp hdrop sep h
    simp at this
  | cons c tail =>
    have hc := List.head_dropWhile_not (p := (· ≠ sep)) (l := text) (by rw [hdrop]; simp)
    simp only [hdrop, List.head_cons, decide_eq_false_iff_not, not_not] at hc
    rw [hdrop, hc] at hsplit
    exact ⟨tail, hsplit.symm⟩

theorem notMem_takeWhile {text : Bytes} : sep ∉ text.takeWhile (· ≠ sep) := by
  intro h
  have := List.mem_takeWhile_imp h
  simp at this

/-- The same from the right. -/
theorem exists_append_rtakeWhile {text : Bytes} (h : sep ∈ text) :
    ∃ init, text = init ++ sep :: text.rtakeWhile (· ≠ sep) := by
  obtain ⟨tail, htail⟩ := exists_takeWhile_append (List.mem_reverse.mpr h)
  refine ⟨tail.reverse, ?_⟩
  have := congrArg List.reverse htail
  rw [List.reverse_reverse, List.reverse_append, List.reverse_cons, List.append_assoc] at this
  exact this

theorem takeWhile_of_notMem {front tail : Bytes} (h : sep ∉ front) :
    (front ++ sep :: tail).takeWhile (· ≠ sep) = front := by
  rw [List.takeWhile_append_of_pos, List.takeWhile_cons_of_neg (by simp), List.append_nil]
  intro c hc
  simp only [ne_eq, decide_eq_true_eq]
  rintro rfl
  exact h hc

theorem rtakeWhile_of_notMem {init back : Bytes} (h : sep ∉ back) :
    (init ++ sep :: back).rtakeWhile (· ≠ sep) = back := by
  unfold List.rtakeWhile
  rw [List.reverse_append, List.reverse_cons, List.append_assoc, List.singleton_append,
    takeWhile_of_notMem (fun hmem => h (List.mem_reverse.mp hmem)), List.reverse_reverse]

/-- The two splits of one text: they are the same, or the left one comes first. -/
theorem splits_order {front tail init back : Bytes} (hfront : sep ∉ front)
    (h : front ++ sep :: tail = init ++ sep :: back) :
    init = front ∨ ∃ mid, init = front ++ sep :: mid ∧ tail = mid ++ sep :: back := by
  rcases List.append_eq_append_iff.mp h with ⟨cs, rfl, hcs⟩ | ⟨cs, rfl, hcs⟩
  · cases cs with
    | nil => exact Or.inl (List.append_nil _)
    | cons c mid =>
      injection hcs with hc hmid
      exact Or.inr ⟨mid, by rw [hc], hmid⟩
  · cases cs with
    | nil => exact Or.inl (List.append_nil _).symm
    | cons c mid =>
      injection hcs with hc hmid
      exact absurd (by rw [hc]; simp) hfront

theorem machineAlgSplit_eq_some :
    machineAlgSplit alg = some (mode, suffix) ↔
      alg = mode ++ plus :: (suffix ++ plus :: ascii "v2") ∧ plus ∉ mode := by
  unfold machineAlgSplit
  constructor
  · intro h
    by_cases hmem : plus ∈ alg
    · rw [if_neg (not_not.mpr hmem)] at h
      dsimp only at h
      obtain ⟨tail, htail⟩ := exists_takeWhile_append hmem
      obtain ⟨init, hinit⟩ := exists_append_rtakeWhile hmem
      have hnot := @notMem_takeWhile plus alg
      generalize alg.takeWhile (· ≠ plus) = front at *
      generalize alg.rtakeWhile (· ≠ plus) = version at *
      have hlast : alg.length - version.length - 1 = init.length := by
        rw [hinit, List.length_append, List.length_cons]; omega
      rw [hlast] at h
      rcases splits_order hnot (htail.symm.trans hinit) with hsame | ⟨mid, hinit', htail'⟩
      · rw [if_pos (congrArg List.length hsame)] at h
        cases h
      have hne : ¬ init.length = front.length := by
        rw [hinit', List.length_append, List.length_cons]; omega
      have hversion : alg.drop (init.length + 1) = version := by
        rw [hinit, ← List.drop_drop, List.drop_left]; rfl
      have hmode : alg.take front.length = front := by rw [htail]; exact List.take_left
      have hsuffix : (alg.drop (front.length + 1)).take (init.length - front.length - 1) = mid := by
        rw [htail, ← List.drop_drop, List.drop_left, List.drop_one, List.tail_cons, htail',
          show init.length - front.length - 1 = mid.length by
            rw [hinit', List.length_append, List.length_cons]; omega]
        exact List.take_left
      rw [if_neg hne, hversion, hmode, hsuffix] at h
      by_cases hv2 : version = ascii "v2"
      · rw [if_neg (not_not.mpr hv2)] at h
        injection h with h
        injection h with hm hs
        subst hm hs
        exact ⟨by rw [htail, htail', hv2], hnot⟩
      · rw [if_pos hv2] at h
        cases h
    · rw [if_pos hmem] at h
      cases h
  · rintro ⟨rfl, hmode⟩
    have hassoc : mode ++ plus :: (suffix ++ plus :: ascii "v2") =
        (mode ++ plus :: suffix) ++ plus :: ascii "v2" := by simp
    have hback : plus ∉ ascii "v2" := by decide
    rw [if_neg (not_not.mpr (by simp)), takeWhile_of_notMem hmode, hassoc,
      rtakeWhile_of_notMem hback]
    have hlast : ((mode ++ plus :: suffix) ++ plus :: ascii "v2").length - (ascii "v2").length - 1 =
        (mode ++ plus :: suffix).length := by
      rw [List.length_append, List.length_cons]; omega
    dsimp only
    have hversion : ((mode ++ plus :: suffix) ++ plus :: ascii "v2").drop
        ((mode ++ plus :: suffix).length + 1) = ascii "v2" := by
      rw [← List.drop_drop, List.drop_left]; rfl
    rw [hlast, if_neg (by simp), hversion, if_neg (not_not.mpr rfl)]
    simp

/-- **The algorithm name is one of two**, given the suffix of the caller's scheme. -/
theorem machineSettleAlg_eq_ok {opened : Cert × Bool} :
    (machineSettleAlg suffix cert).ok = .ok opened ↔
      opened.1 = cert ∧ MachineAlg suffix cert opened.2 := by
  have shape : ∀ mode : String, cert.alg = ascii mode ++ ascii "+" ++ suffix ++ ascii "+v2" ↔
      cert.alg = ascii mode ++ plus :: (suffix ++ plus :: ascii "v2") := by
    intro mode
    rw [show ascii "+" = [plus] from rfl, show ascii "+v2" = plus :: ascii "v2" from rfl]
    simp
  obtain ⟨opened, encrypted⟩ := opened
  unfold machineSettleAlg MachineAlg
  rw [shape, shape]
  constructor
  · intro h
    cases hsplit : machineAlgSplit cert.alg with
    | none => rw [hsplit] at h; cases h
    | some parts =>
      obtain ⟨mode, suffix'⟩ := parts
      obtain ⟨halg, -⟩ := machineAlgSplit_eq_some.1 hsplit
      rw [hsplit] at h
      dsimp only at h
      by_cases hsuffix : suffix' = suffix
      · rw [if_neg (not_not.mpr hsuffix)] at h
        subst hsuffix
        by_cases hplain : mode = ascii "base64"
        · rw [if_pos hplain] at h
          cases h
          exact ⟨rfl, Or.inl ⟨hplain ▸ halg, rfl⟩⟩
        rw [if_neg hplain] at h
        by_cases henc : mode = ascii "aes-256-gcm"
        · rw [if_pos henc] at h
          cases h
          exact ⟨rfl, Or.inr ⟨henc ▸ halg, rfl⟩⟩
        · rw [if_neg henc] at h
          cases h
      · rw [if_pos hsuffix] at h
        cases h
  · rintro ⟨rfl, ⟨halg, rfl⟩ | ⟨halg, rfl⟩⟩
    · rw [machineAlgSplit_eq_some.2 ⟨halg, by decide⟩]
      dsimp only
      rw [if_neg (not_not.mpr rfl), if_pos rfl]
      rfl
    · rw [machineAlgSplit_eq_some.2 ⟨halg, by decide⟩]
      dsimp only
      rw [if_neg (not_not.mpr rfl), if_neg (by decide), if_pos rfl]
      rfl

/-- Any other name is refused as unsupported. -/
theorem machineSettleAlg_reports :
    Call.Reports (· = .unsupportedScheme) (machineSettleAlg suffix cert) := by
  unfold machineSettleAlg
  split
  · exact .fail rfl
  split_ifs
  · exact .fail rfl
  · exact .pure _
  · exact .pure _
  · exact .fail rfl

end Alg

/-! ## The steps -/

theorem machineOpen_eq_ok (hL : ConsumesNumbers L) {opened : Cert × Bool} :
    (machineOpen L pem scheme).ok = .ok opened ↔
      ∃ suffix, machineAlgSuffix scheme = some suffix ∧ pem.length ≤ maxReasonableLen ∧
        Certificate L machineMarkers pem opened.1 ∧ MachineAlg suffix opened.1 opened.2 := by
  unfold machineOpen
  cases machineAlgSuffix scheme with
  | none => exact ⟨nofun, nofun⟩
  | some suffix =>
    dsimp only
    simp only [AllocE.ok_bind_eq_ok, openCert_eq_ok hL, machineSettleAlg_eq_ok,
      Option.some.injEq]
    constructor
    · rintro ⟨cert, ⟨hlen, hcert⟩, rfl, halg⟩
      exact ⟨suffix, rfl, hlen, hcert, halg⟩
    · rintro ⟨_, rfl, hlen, hcert, halg⟩
      exact ⟨opened.1, ⟨hlen, hcert⟩, rfl, halg⟩

theorem machineCheckSignature_iff {pubkey message signature : Bytes} :
    machineCheckSignature C scheme pubkey message signature = true ↔
      SchemeVerifies C scheme pubkey message signature := by
  unfold machineCheckSignature SchemeVerifies
  by_cases h₁ : scheme = schemeEd25519Sign
  · subst h₁
    rw [if_pos rfl]
    have hlen : (64 : Nat) = ed25519SigLen := rfl
    by_cases hlens : pubkey.length ≠ 32 ∨ signature.length ≠ ed25519SigLen
    · rw [if_pos hlens]
      simp only [hlen, show schemeEd25519Sign ≠ schemeRsa2048Pkcs1Sign by decide,
        show schemeEd25519Sign ≠ schemeRsa2048Pkcs1PssSign by decide,
        show schemeEd25519Sign ≠ schemeEcdsaP256Sign by decide]
      tauto
    · rw [if_neg hlens]
      simp only [hlen, show schemeEd25519Sign ≠ schemeRsa2048Pkcs1Sign by decide,
        show schemeEd25519Sign ≠ schemeRsa2048Pkcs1PssSign by decide,
        show schemeEd25519Sign ≠ schemeEcdsaP256Sign by decide]
      tauto
  rw [if_neg h₁]
  by_cases h₂ : scheme = schemeRsa2048Pkcs1Sign
  · subst h₂
    simp [h₁, show schemeRsa2048Pkcs1Sign ≠ schemeRsa2048Pkcs1PssSign by decide,
      show schemeRsa2048Pkcs1Sign ≠ schemeEcdsaP256Sign by decide]
  rw [if_neg h₂]
  by_cases h₃ : scheme = schemeRsa2048Pkcs1PssSign
  · subst h₃
    simp [h₁, h₂, show schemeRsa2048Pkcs1PssSign ≠ schemeEcdsaP256Sign by decide]
  rw [if_neg h₃]
  by_cases h₄ : scheme = schemeEcdsaP256Sign
  · subst h₄
    simp [h₁, h₂, h₃]
  · rw [if_neg h₄]
    simp [h₁, h₂, h₃, h₄]

theorem machineDecrypt_eq_ok {lk fp nonce cipher plaintext : Bytes} :
    (machineDecrypt C lk fp nonce cipher).ok = .ok plaintext ↔
      16 < cipher.length ∧ ∃ key, deriveMachineFileKey C lk fp = some key ∧
        gcmOpen C key nonce [] cipher = some plaintext := by
  unfold machineDecrypt
  by_cases hshort : cipher.length ≤ gcmTagLen
  · rw [if_pos hshort]
    exact ⟨nofun, fun h => absurd hshort (Nat.not_le.mpr h.1)⟩
  rw [if_neg hshort]
  have hlong : 16 < cipher.length := Nat.lt_of_not_le hshort
  cases deriveMachineFileKey C lk fp with
  | none => exact ⟨nofun, nofun⟩
  | some key =>
    dsimp only
    rw [AllocE.ok_bind_of_ok (AllocE.ok_lift _), if_pos (show malloc.ok = true from rfl)]
    cases hopen : gcmOpen C key nonce [] cipher with
    | none => simp [hopen]
    | some p => simp [hopen, hlong]

theorem machineOpenHalves_eq_ok {lk fp nonceB64 cipherB64 plaintext : Bytes}
    (hnonce : nonceB64.length ≤ maxReasonableLen) (hcipher : cipherB64.length ≤ maxReasonableLen) :
    (machineOpenHalves C lk fp nonceB64 cipherB64).ok = .ok plaintext ↔
      ∃ nonce cipher key, Spells nonceB64 nonce ∧ Spells cipherB64 cipher ∧ nonce.length = 12 ∧
        16 < cipher.length ∧ deriveMachineFileKey C lk fp = some key ∧
        gcmOpen C key nonce [] cipher = some plaintext := by
  unfold machineOpenHalves
  rw [AllocE.ok_bind_eq_ok]
  simp only [decodeBase64_eq_ok hnonce]
  constructor
  · rintro ⟨nonce, hspells, h⟩
    by_cases h12 : nonce.length = gcmNonceLen
    · rw [if_neg (not_not.mpr h12), AllocE.ok_bind_eq_ok] at h
      obtain ⟨cipher, hcspells, h⟩ := h
      obtain ⟨hlong, key, hkey, hopen⟩ := machineDecrypt_eq_ok.1 h
      exact ⟨nonce, cipher, key, hspells, (decodeBase64_eq_ok hcipher).mp hcspells, h12, hlong, hkey,
        hopen⟩
    · rw [if_pos h12] at h
      cases h
  · rintro ⟨nonce, cipher, key, hspells, hcspells, h12, hlong, hkey, hopen⟩
    refine ⟨nonce, hspells, ?_⟩
    rw [if_neg (not_not.mpr (show nonce.length = gcmNonceLen from h12)), AllocE.ok_bind_eq_ok]
    exact ⟨cipher, (decodeBase64_eq_ok hcipher).mpr hcspells,
      machineDecrypt_eq_ok.2 ⟨hlong, key, hkey, hopen⟩⟩

/-- A text that decodes to something is not empty. -/
theorem length_pos_of_spells {text bytes : Bytes} (h : Spells text bytes) (hpos : 0 < bytes.length) :
    text.length ≠ 0 := by
  intro hzero
  rw [List.length_eq_zero_iff.mp hzero, ← base64Decode_eq_some] at h
  injection h with h
  rw [← h] at hpos
  cases hpos

theorem machineOpenEncrypted_eq_ok {enc plaintext : Bytes} (hlen : enc.length ≤ maxReasonableLen) :
    (machineOpenEncrypted C enc licenseKey fingerprint).ok = .ok plaintext ↔
      MachineOpens C licenseKey fingerprint enc plaintext := by
  unfold machineOpenEncrypted MachineOpens
  constructor
  · intro h
    cases licenseKey with
    | none => cases h
    | some lk =>
      cases fingerprint with
      | none => cases h
      | some fp =>
        dsimp only at h
        by_cases hdot : dot ∈ enc
        · rw [if_neg (not_not.mpr hdot)] at h
          obtain ⟨tail, htail⟩ := exists_takeWhile_append hdot
          generalize enc.takeWhile (· ≠ dot) = front at *
          have hdrop : enc.drop (front.length + 1) = tail := by
            rw [htail, ← List.drop_drop, List.drop_left]; rfl
          rw [hdrop] at h
          split at h
          · cases h
          split at h
          · cases h
          have hlen' := congrArg List.length htail
          rw [List.length_append, List.length_cons] at hlen'
          obtain ⟨nonce, cipher, key, hn, hc, h12, hlong, hkey, hopen⟩ :=
            (machineOpenHalves_eq_ok (by omega) (by omega)).mp h
          exact ⟨lk, fp, front, tail, nonce, cipher, key, rfl, rfl,
            by rw [htail, show ascii "." = [dot] from rfl]; simp, hn, hc, h12, hlong, hkey, hopen⟩
        · rw [if_pos hdot] at h
          cases h
  · rintro ⟨lk, fp, nonceB64, cipherB64, nonce, cipher, key, rfl, rfl, rfl, hn, hc, h12, hlong, hkey,
      hopen⟩
    have henc : nonceB64 ++ ascii "." ++ cipherB64 = nonceB64 ++ dot :: cipherB64 := by
      rw [show ascii "." = [dot] from rfl]; simp
    rw [henc] at hlen ⊢
    rw [List.length_append, List.length_cons] at hlen
    have hndot : dot ∉ nonceB64 := hn.notMem rfl (by decide)
    have hcdot : dot ∉ cipherB64 := hc.notMem rfl (by decide)
    have hdrop : (nonceB64 ++ dot :: cipherB64).drop (nonceB64.length + 1) = cipherB64 := by
      rw [← List.drop_drop, List.drop_left]; rfl
    have hnpos := length_pos_of_spells hn (by omega)
    have hcpos := length_pos_of_spells hc (by omega)
    dsimp only
    rw [if_neg (not_not.mpr (by simp)), takeWhile_of_notMem hndot, hdrop, if_neg (by omega),
      if_neg hcdot]
    exact (machineOpenHalves_eq_ok (by omega) (by omega)).mpr
      ⟨nonce, cipher, key, hn, hc, h12, hlong, hkey, hopen⟩

theorem machineDecodePayload_eq_ok {plaintext : Bytes}
    (hlen : cert.enc.length ≤ maxReasonableLen) :
    (machineDecodePayload C cert encrypted licenseKey fingerprint).ok = .ok plaintext ↔
      MachinePlaintext C licenseKey fingerprint cert encrypted plaintext := by
  unfold machineDecodePayload MachinePlaintext
  cases encrypted with
  | true => exact machineOpenEncrypted_eq_ok hlen
  | false => exact decodeBase64_eq_ok hlen

theorem machineDecrypt_reports (lk fp nonce cipher : Bytes) :
    Call.Reports (· ∈ decodeCodes) (machineDecrypt C lk fp nonce cipher) := by
  unfold machineDecrypt
  split
  · exact .fail (by decide)
  split
  · exact .fail (by decide)
  refine .request rfl ?_
  rw [if_pos rfl]
  split
  · exact .pure _
  · exact .fail (by decide)

theorem machineOpenEncrypted_reports {enc : Bytes} (hlen : enc.length ≤ maxReasonableLen) :
    Call.Reports (fun c => c ∈ decodeCodes ∨
        (licenseKey = none ∨ fingerprint = none) ∧ c = .nullArgument)
      (machineOpenEncrypted C enc licenseKey fingerprint) := by
  have hbase64 : ∀ {input : Bytes} {noMemory malformed : String}, input.length ≤ maxReasonableLen →
      Call.Reports (· ∈ decodeCodes) (decodeBase64 input noMemory malformed) :=
    fun h => (decodeBase64_reports h).mono (by rintro _ rfl; decide)
  cases licenseKey with
  | none => exact .fail (Or.inr ⟨Or.inl rfl, rfl⟩)
  | some lk =>
    cases fingerprint with
    | none => exact .fail (Or.inr ⟨Or.inr rfl, rfl⟩)
    | some fp =>
      unfold machineOpenEncrypted
      dsimp only
      split
      · exact .fail (Or.inl (by decide))
      split
      · exact .fail (Or.inl (by decide))
      split
      · exact .fail (Or.inl (by decide))
      refine Call.Reports.mono ?_ fun _ => Or.inl
      refine (hbase64 ((List.takeWhile_sublist _).length_le.trans hlen)).bind fun nonce _ => ?_
      split
      · exact .fail (by decide)
      · exact (hbase64 ((List.drop_sublist _ _).length_le.trans hlen)).bind fun cipher _ =>
          machineDecrypt_reports lk fp nonce cipher

/-- A missing argument is reported at once. -/
theorem machineDecodePayload_reports (hlen : cert.enc.length ≤ maxReasonableLen) :
    Call.Reports (fun c => c ∈ decodeCodes ∨ encrypted = true ∧
        (licenseKey = none ∨ fingerprint = none) ∧ c = .nullArgument)
      (machineDecodePayload C cert encrypted licenseKey fingerprint) := by
  cases encrypted with
  | true => exact (machineOpenEncrypted_reports hlen).mono fun _ h => h.imp_right fun h => ⟨rfl, h⟩
  | false => exact (decodeBase64_reports hlen).mono (by rintro _ rfl; exact Or.inl (by decide))

end Tamga
