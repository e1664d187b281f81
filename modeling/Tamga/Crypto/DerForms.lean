import Tamga.Crypto.Der
import Tamga.Lib.Checked

/-!
# `Crypto.DerForms` — the elements keys and signatures are made of

What the calls of the DER reader decide, for code that gives up at the first refusal: an element behind
its shortest header (`reads_expect`), an integer (`reads_unsigned`), whole bytes (`reads_bitString`), a
fixed object identifier (`reads_oid`). An integer is handed on as its magnitude, the only byte string
without leading zeros that spells it (`Minimal.eq`).
-/

namespace Tamga.Der

open Octets Ber Checked

variable {α β : Type} {r : Reader} {content : Bytes}

/-- `if (!tamga_der_…(reader, …)) return false;` -/
def orRefuse (answer : Option (Option α × Reader)) : Checked (α × Reader) :=
  OptionT.mk (answer.map fun (a, r) => a.map (·, r))

/-- `if (!tamga_der_expect_oid(reader, …)) return false;` -/
def orRefuseOid (answer : Option (Bool × Reader)) : Checked (Unit × Reader) :=
  orRefuse (answer.map fun (same, r) => (if same then some () else none, r))

/-- `y` is ahead of the reader. -/
def At (r : Reader) (y : Bytes) : Prop := r.Valid ∧ r.rest = y

theorem at_init (data : Bytes) : At (derInit data) data := ⟨derInit_valid _, rfl⟩

theorem atEnd_decides {y : Bytes} (h : At r y) : Decides (guard (derAtEnd r) : Checked Unit)
    fun _ => y = [] := by
  have hlen := h.1.length_rest
  refine (decides_guard _).congr fun _ => ?_
  rw [derAtEnd, decide_eq_true_eq, ← h.2, ← List.length_eq_zero_iff]
  omega

/-- **The contract of a call.** It takes the spelling of what it answers from the front of what is ahead. -/
def Reads (p : Reader → Checked (α × Reader)) (spells : α → Bytes → Prop) : Prop :=
  ∀ r, r.Valid → Decides (p r) fun e =>
    ∃ bytes post, spells e.1 bytes ∧ r.rest = bytes ++ post ∧ e.2 = r.skip bytes.length

/-- A call, and what is done behind it. -/
theorem Reads.bind {p : Reader → Checked (α × Reader)} {spells : α → Bytes → Prop} (hp : Reads p spells)
    {y : Bytes} (hr : At r y) {f : α × Reader → Checked β} {Q : α → Bytes → β → Prop}
    (hf : ∀ a x r' z, spells a x → At r' z → Decides (f (a, r')) (Q a z)) :
    Decides (p r >>= f) fun b => ∃ a x z, spells a x ∧ y = x ++ z ∧ Q a z b := by
  obtain ⟨hvalid, rfl⟩ := hr
  have hat : ∀ {bytes post}, r.rest = bytes ++ post → At (r.skip bytes.length) post := by
    intro bytes post hrest
    exact ⟨(element_moves hvalid hrest).2.2, by rw [rest_skip, hrest, List.drop_left]⟩
  refine ((hp r hvalid).bind (Q := fun e b => Q e.1 e.2.rest b) ?_).congr fun b => ⟨?_, ?_⟩
  · rintro ⟨a, r'⟩ ⟨bytes, post, hspells, hrest, rfl⟩
    exact hf a bytes _ _ hspells ⟨(hat hrest).1, rfl⟩
  · rintro ⟨⟨a, r'⟩, ⟨bytes, post, hspells, hrest, rfl⟩, hb⟩
    rw [(hat hrest).2] at hb
    exact ⟨a, bytes, post, hspells, hrest, hb⟩
  · rintro ⟨a, bytes, post, hspells, hrest, hb⟩
    refine ⟨(a, _), ⟨bytes, post, hspells, hrest, rfl⟩, ?_⟩
    show Q a (r.skip bytes.length).rest b
    rwa [(hat hrest).2]

theorem Reads.congr {p : Reader → Checked (α × Reader)} {spells spells' : α → Bytes → Prop}
    (hp : Reads p spells) (h : ∀ a x, spells a x ↔ spells' a x) : Reads p spells' := by
  intro r hr
  refine (hp r hr).congr fun e => ?_
  simp only [h]

theorem reads_of_content (tag : UInt8) {f : Bytes → Option (Option α)} {P : Bytes → α → Prop}
    (hf : ∀ content, Decides (OptionT.mk (f content)) (P content)) :
    Reads (fun r => orRefuse (onContent tag.toNat f r)) fun a bytes => ∃ content, P content a ∧
      Element tag content bytes := by
  intro r hr
  have hsome : ∀ content, (f content).isSome := by
    intro content
    obtain ⟨answer, hanswer, -⟩ := hf content
    exact Option.isSome_iff_exists.mpr ⟨answer, hanswer⟩
  obtain ⟨value, r', hread, -⟩ := onContent_moves hr hsome tag.toNat
  refine ⟨value.map (·, r'), by dsimp only; rw [hread]; rfl, fun (a, r'') => ?_⟩
  have hanswer : value.map (·, r') = some (a, r'') ↔ onContent tag.toNat f r = some (some a, r'') := by
    rw [hread]
    cases value <;> simp
  rw [hanswer, onContent_iff hr]
  constructor
  · rintro ⟨content, bytes, post, ha, helement, hrest, rfl⟩
    exact ⟨bytes, post, ⟨content, (hf content).iff.1 ha, helement⟩, hrest, rfl⟩
  · rintro ⟨bytes, post, ⟨content, ha, helement⟩, hrest, rfl⟩
    exact ⟨content, bytes, post, (hf content).iff.2 ha, helement, hrest, rfl⟩

theorem reads_expect (tag : UInt8) : Reads (fun r => orRefuse (derExpect tag.toNat r)) (Element tag) := by
  have hsame : ∀ r, derExpect tag.toNat r = onContent tag.toNat (fun content => some (some content)) r := by
    intro r
    unfold onContent
    cases derExpect tag.toNat r with
    | none => rfl
    | some e => obtain ⟨_ | content, r'⟩ := e <;> rfl
  simp only [hsame]
  refine (reads_of_content tag fun content => decides_pure content).congr fun content bytes => ?_
  exact ⟨fun ⟨_, hcontent, h⟩ => hcontent ▸ h, fun h => ⟨content, rfl, h⟩⟩

/-- An element with one byte of length. -/
def shortElement (tag : UInt8) (content : Bytes) : Bytes := tag :: UInt8.ofNat content.length :: content

theorem element_short {tag : UInt8} (hlow : tag &&& 0x1F ≠ 0x1F) (hlen : content.length < 128) :
    Element tag content (shortElement tag content) :=
  ⟨hlow, by omega, _, shortest_length_iff.2 (Or.inl ⟨hlen, rfl⟩), rfl⟩

/-! ## Integers -/

/-- A byte string without leading zeros; zero itself is one byte. -/
def Minimal (value : Bytes) : Prop := value = [0] ∨ ∃ b rest, b ≠ 0 ∧ value = b :: rest

theorem Minimal.length_le {value other : Bytes} (h : Minimal value) (hother : other ≠ [])
    (hbe : be value = be other) : value.length ≤ other.length := by
  rcases h with rfl | ⟨b, rest, hb, rfl⟩
  · exact List.length_pos_iff.mpr hother
  · exact length_le_of_be_eq hb hbe

theorem Minimal.ne_nil {value : Bytes} (h : Minimal value) : value ≠ [] := by
  rcases h with rfl | ⟨b, rest, -, rfl⟩ <;> exact List.cons_ne_nil _ _

/-- A number is spelled by one of them only. -/
theorem Minimal.eq {v w : Bytes} (hv : Minimal v) (hw : Minimal w) (h : be v = be w) : v = w :=
  be_inj (le_antisymm (hv.length_le hw.ne_nil h) (hw.length_le hv.ne_nil h.symm)) h

theorem exists_minimal (n : Nat) : ∃ value, Minimal value ∧ be value = n := by
  rcases Nat.eq_zero_or_pos n with rfl | hn
  · exact ⟨[0], Or.inl rfl, by decide⟩
  · obtain ⟨b, rest, hb, hbe⟩ := exists_be hn
    exact ⟨b :: rest, Or.inr ⟨b, rest, hb, rfl⟩, hbe⟩

theorem minimal_of_magnitude {value : Bytes} (h : magnitude content = some (some value)) : Minimal value := by
  cases content with
  | nil => cases h
  | cons lead rest =>
    unfold magnitude at h
    by_cases hneg : lead &&& 0x80 = 0
    · by_cases hzero : lead = 0
      · cases rest with
        | nil => simp [hzero] at h; exact Or.inl h.symm
        | cons next more =>
          by_cases hnext : next &&& 0x80 = 0
          · simp [hzero, hnext] at h
          · simp [hzero, hnext] at h
            refine Or.inr ⟨next, more, ?_, h.symm⟩
            rintro rfl
            exact hnext (by decide)
      · simp [hneg, hzero] at h
        exact Or.inr ⟨lead, rest, hzero, h.symm⟩
    · simp [hneg] at h

theorem magnitude_decides (content : Bytes) : Decides (OptionT.mk (magnitude content))
    fun value => Minimal value ∧ Shortest IntegerOctets (be value) content := by
  rcases magnitude_cases content with ⟨value, hm, hshortest⟩ | ⟨hm, hnone⟩
  · have hminimal := minimal_of_magnitude hm
    refine ⟨some value, hm, fun other => ⟨?_, ?_⟩⟩
    · rintro ⟨⟩
      exact ⟨hminimal, hshortest⟩
    · rintro ⟨hother, hshortest'⟩
      have hsame : (be value : Int) = be other := hshortest.1.2.symm.trans hshortest'.1.2
      rw [hminimal.eq hother (by exact_mod_cast hsame)]
  · exact ⟨none, hm, fun value => ⟨nofun, fun h => absurd h.2 (hnone _)⟩⟩

/-- `INTEGER n`. -/
def IntegerDer (n : Nat) (bytes : Bytes) : Prop :=
  ∃ content, Shortest IntegerOctets n content ∧ Element 0x02 content bytes

/-- An integer is handed on as its magnitude. -/
theorem reads_unsigned : Reads (fun r => orRefuse (derReadUnsigned r))
    fun value bytes => Minimal value ∧ IntegerDer (be value) bytes :=
  (reads_of_content 0x02 magnitude_decides).congr fun value bytes => by
    simp only [IntegerDer, and_assoc, exists_and_left]

theorem IntegerDer.eq {n : Nat} {x y : Bytes} (hx : IntegerDer n x) (hy : IntegerDer n y) : x = y := by
  obtain ⟨content, hshortest, helement⟩ := hx
  obtain ⟨content', hshortest', helement'⟩ := hy
  obtain ⟨-, -, -, -, hbe⟩ := integerOctets_natCast.1 hshortest.1
  obtain ⟨-, -, -, -, hbe'⟩ := integerOctets_natCast.1 hshortest'.1
  have hlen := le_antisymm (hshortest.2 _ hshortest'.1) (hshortest'.2 _ hshortest.1)
  cases be_inj hlen (hbe.trans hbe'.symm)
  exact helement.eq helement'

/-- An integer of up to 125 bytes has an encoding, of at most three bytes more. -/
theorem exists_integerDer {n k : Nat} (hn : n < 256 ^ k) (hk : 0 < k) (hsmall : k ≤ 125) :
    ∃ bytes, IntegerDer n bytes ∧ bytes.length ≤ k + 3 := by
  obtain ⟨value, hminimal, rfl⟩ := exists_minimal n
  have hlen : value.length ≤ k := by
    rcases hminimal with rfl | ⟨b, rest, hb, rfl⟩
    · exact hk
    · exact (Nat.pow_lt_pow_iff_right (by decide : 1 < 256)).mp (lt_of_le_of_lt (pow_le_be hb rest) hn)
  -- a set high bit is kept from being a sign by a zero before it
  obtain ⟨content, hshortest, hcontent⟩ : ∃ content, Shortest IntegerOctets (be value) content ∧
      content.length ≤ value.length + 1 := by
    obtain ⟨b, rest, rfl⟩ := List.exists_cons_of_ne_nil hminimal.ne_nil
    by_cases hb : b.toNat < 128
    · refine ⟨b :: rest, shortest_integer_iff.2 ⟨hb, rfl, ?_⟩, Nat.le_succ _⟩
      rintro rfl c more rfl
      rcases hminimal with h | ⟨b, rest, hb, h⟩
      · cases h
      · cases h
        exact absurd rfl hb
    · refine ⟨0 :: b :: rest, shortest_integer_iff.2 ⟨by decide, by rw [be_cons 0]; simp, ?_⟩, le_refl _⟩
      intro _ c more h
      cases h
      omega
  refine ⟨_, ⟨content, hshortest, element_short (by decide) (by omega)⟩, ?_⟩
  simp only [shortElement, List.length_cons]
  omega

/-! ## Bit strings and object identifiers -/

theorem reads_bitString : Reads (fun r => orRefuse (derReadBitString r))
    fun value bytes => Element 0x03 (0 :: value) bytes := by
  simp only [derReadBitString_eq]
  refine (reads_of_content 0x03 (P := fun content value => content = 0 :: value) fun content => ?_).congr
    fun value bytes => by simp
  exact ⟨_, rfl, fun _ => wholeBytes_iff⟩

theorem reads_oid (oid : Bytes) : Reads (fun r => orRefuseOid (derExpectOid oid r))
    fun _ bytes => Element 0x06 oid bytes := by
  have hsame : ∀ r, orRefuseOid (derExpectOid oid r) =
      orRefuse (onContent derOid (fun c => some (if c = oid then some () else none)) r) := by
    intro r
    rw [derExpectOid_eq]
    cases onContent derOid (fun c => some (if c = oid then some () else none)) r with
    | none => rfl
    | some e => obtain ⟨_ | ⟨⟩, r'⟩ := e <;> rfl
  simp only [hsame]
  refine (reads_of_content 0x06 (P := fun content _ => content = oid) fun content => ?_).congr
    fun _ bytes => by simp
  exact ⟨_, rfl, fun _ => by simp⟩

end Tamga.Der
