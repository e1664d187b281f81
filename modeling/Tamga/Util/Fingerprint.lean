import Mathlib.Data.List.DropRight
import Tamga.Error
import Tamga.Json.Canonical
import Tamga.Util.Buf

/-!
# `Util.Fingerprint` — the canonical text of a machine's components (`util/fingerprint.c`)

Each component becomes `label=value` with the value trimmed; the components are sorted, refused if two
share a label, and joined behind a domain tag with the separator 0x1F.

`qsort` is the C library's and a parameter here; all that is asked of it is that it sorts.
-/

namespace Tamga

open Alloc Json

/-! ## The code -/

/-- `TamgaFpComponent`; `len` is the length of `text`. -/
structure FpComponent where
  text : Bytes
  labelLen : Nat
  deriving DecidableEq, Repr

/-- `tamga_fp_is_space`. -/
def fpIsSpace (c : UInt8) : Bool :=
  c = 0x20 || c = 0x09 || c = 0x0D || c = 0x0A || c = 0x0B || c = 0x0C

/-- `tamga_fp_is_control`. -/
def fpIsControl (c : UInt8) : Bool := c ≤ 0x1F || c = 0x7F

def equals : UInt8 := 0x3D

/-- `tamga_fp_label_is_valid`. -/
def fpLabelIsValid (label : Bytes) : Bool :=
  (label.all fun c => !(c < 0x21 || c > 0x7E || c = equals)) && label.length > 0

/-- `memcmp` of two blocks of one length; bytes are unsigned. -/
def memcmp : Bytes → Bytes → Ordering
  | x :: a, y :: b => if x = y then memcmp a b else if x < y then .lt else .gt
  | _, _ => .eq

/-- `tamga_fp_compare`. -/
def fpCompare (x y : FpComponent) : Ordering :=
  let shortest := min x.text.length y.text.length
  match memcmp (x.text.take shortest) (y.text.take shortest) with
  | .eq =>
      -- a prefix sorts before the string that extends it
      if x.text.length = y.text.length then .eq
      else if x.text.length < y.text.length then .lt else .gt
  | order => order

/-- The two trimming loops. -/
def fpTrim (value : Bytes) : Bytes := (value.dropWhile fpIsSpace).rdropWhile fpIsSpace

/-- The three appends and the detach. -/
def fpAssemble (label value : Bytes) : Alloc (Option Bytes) := do
  let buf ← [label, [equals], value].foldlM Buf.append Buf.init
  buf.detachString

/-- `tamga_fp_build_component`. -/
def fpBuildComponent (label value : Option Bytes) (index : Nat) : Call FpComponent :=
  match label, value with
  | some label, some value =>
      if fpLabelIsValid label = false then
        throwThe Failure (errorSet .invalidFingerprintComponent (ascii "component " ++ printInt index ++
          ascii ": a label must be non-empty ASCII printable (0x21-0x7E) and must not contain '='"))
      else if (fpTrim value).any fpIsControl then
        throwThe Failure (errorSet .invalidFingerprintComponent (ascii "component " ++ printInt index ++
          ascii " (label \"" ++ label ++ ascii "\"): a value may not contain an ASCII control character"))
      else do
        let text ← Call.orFail .outOfMemory "could not build the fingerprint"
          (fpAssemble label (fpTrim value))
        return ⟨text, label.length⟩
  | _, _ =>
      throwThe Failure (errorSet .nullArgument (ascii "component " ++ printInt index ++
        ascii ": both a label and a value are required"))

/-- The loop over the components, from `index` on. -/
def fpBuildAll : (index : Nat) → List (Option Bytes × Option Bytes) → Call (List FpComponent)
  | _, [] => return []
  | index, (label, value) :: rest => do
      let component ← fpBuildComponent label value index
      let components ← fpBuildAll (index + 1) rest
      return component :: components

/-- The label of an assembled component. -/
def FpComponent.label (component : FpComponent) : Bytes := component.text.take component.labelLen

/-- `tamga_fp_reject_duplicates`. -/
def fpRejectDuplicates : List FpComponent → Except Failure Unit
  | prev :: cur :: rest =>
      if prev.labelLen = cur.labelLen ∧ prev.text.take cur.labelLen = cur.text.take cur.labelLen then
        .error (errorSet .invalidFingerprintComponent (ascii "duplicate label \"" ++ cur.label ++
          ascii "\": two values for one label is a caller bug, not something to deduplicate"))
      else fpRejectDuplicates (cur :: rest)
  | _ => .ok ()

/-- `TAMGA_FINGERPRINT_DOMAIN`. -/
def fingerprintDomain : Bytes := ascii "tamga-fingerprint-v1"

/-- `TAMGA_FINGERPRINT_SEPARATOR`. -/
def fingerprintSeparator : UInt8 := 0x1F

/-- The domain, then a separator and a component each. -/
def fpJoin (components : List FpComponent) : Alloc (Option Bytes) := do
  let buf ← (fingerprintDomain :: components.flatMap fun c => [[fingerprintSeparator], c.text]).foldlM
    Buf.append Buf.init
  buf.detachString

/-- `sizeof(TamgaFpComponent)`. -/
def fpComponentSize : Nat := 24

/-- From the sort on. -/
def fpFinish (qsort : List FpComponent → List FpComponent) (components : List FpComponent) :
    Call Bytes :=
  match fpRejectDuplicates (qsort components) with
  | .error f => throwThe Failure f
  | .ok () => Call.orFail .outOfMemory "could not build the fingerprint" (fpJoin (qsort components))

/-- From the component array on. -/
def fpBuild (qsort : List FpComponent → List FpComponent)
    (pairs : List (Option Bytes × Option Bytes)) : Call Bytes :=
  match checkedMul pairs.length fpComponentSize with
  | none => Call.fail .outOfMemory "could not build the fingerprint"
  | some _ => do
      if ← malloc then
        let components ← fpBuildAll 0 pairs
        fpFinish qsort components
      else Call.fail .outOfMemory "could not build the fingerprint"

/-- `tamga_fingerprint_build_canonical`. The two arrays are one list of pairs, of length `count`;
    `none` is a NULL among the arrays and `out_canonical`. -/
def fingerprintBuildCanonical (qsort : List FpComponent → List FpComponent)
    (pairs : Option (List (Option Bytes × Option Bytes))) : Call Bytes :=
  match pairs with
  | none => Call.fail .nullArgument "labels, values and out_canonical are required"
  | some [] => Call.fail .invalidFingerprintComponent "at least one component is required"
  | some pairs => fpBuild qsort pairs

/-! ## One component -/

/-- The bytes a label may have. -/
def LabelByte (c : UInt8) : Prop := 0x21 ≤ c ∧ c ≤ 0x7E ∧ c ≠ equals

/-- A label and a value that make a component. -/
structure FpValid (label value : Bytes) : Prop where
  nonempty : label ≠ []
  label : ∀ c ∈ label, LabelByte c
  value : ∀ c ∈ fpTrim value, fpIsControl c = false

/-- The text of a component. -/
def fpText (label value : Bytes) : Bytes := label ++ equals :: fpTrim value

variable {label value : Bytes}

theorem fpLabelIsValid_iff :
    fpLabelIsValid label = true ↔ label ≠ [] ∧ ∀ c ∈ label, LabelByte c := by
  have hbyte : ∀ c : UInt8, (!(c < 0x21 || c > 0x7E || c = equals)) = true ↔ LabelByte c := by
    intro c
    unfold LabelByte
    simp only [Bool.not_eq_true', Bool.or_eq_false_iff, decide_eq_false_iff_not, UInt8.not_lt,
      gt_iff_lt, and_assoc, ne_eq]
  unfold fpLabelIsValid
  rw [Bool.and_eq_true, List.all_eq_true, decide_eq_true_iff, and_comm]
  refine and_congr ?_ (forall₂_congr fun c _ => hbyte c)
  exact List.length_pos_iff

theorem FpValid.nulFree (h : FpValid label value) : NulFree (fpText label value) := by
  refine nulFree_append.2 ⟨fun hmem => ?_, nulFree_cons.2 ⟨by decide, fun hmem => ?_⟩⟩
  · exact absurd (h.label 0 hmem).1 (by decide)
  · exact absurd (h.value 0 hmem) (by decide)

theorem FpValid.equals_notMem (h : FpValid label value) : equals ∉ label :=
  fun hmem => (h.label _ hmem).2.2 rfl

/-- Without refused requests: the component, a complaint about its halves, or a text longer than any
    block. -/
theorem fpBuildComponent_cases (label? value? : Option Bytes) (index : Nat) :
    (∃ label value, label? = some label ∧ value? = some value ∧ FpValid label value ∧
        (fpBuildComponent label? value? index).ok =
          if (fpText label value).length < Buf.maxGrowth then
            .ok ⟨fpText label value, label.length⟩
          else .error (errorSet .outOfMemory (ascii "could not build the fingerprint"))) ∨
      (¬ ∃ label value, label? = some label ∧ value? = some value ∧ FpValid label value) ∧
        ∃ f, ¬ f.IsOutOfMemory ∧ fpBuildComponent label? value? index = throwThe Failure f := by
  have refused : ∀ {code : ErrorCode} {message : Bytes}, code ≠ .outOfMemory →
      ∃ f : Failure, ¬ f.IsOutOfMemory ∧ (throwThe Failure (errorSet code message) : Call FpComponent) =
        throwThe Failure f := fun {code message} hcode => ⟨errorSet code message, hcode, rfl⟩
  unfold fpBuildComponent
  match label?, value? with
  | none, _ => exact Or.inr ⟨by simp, refused (by decide)⟩
  | some _, none => exact Or.inr ⟨by simp, refused (by decide)⟩
  | some label, some value =>
    dsimp only
    cases hlabel : fpLabelIsValid label with
    | false =>
      refine Or.inr ⟨?_, refused (by decide)⟩
      rintro ⟨_, _, ⟨⟩, ⟨⟩, hvalid⟩
      rw [fpLabelIsValid_iff.2 ⟨hvalid.nonempty, hvalid.label⟩] at hlabel
      cases hlabel
    | true =>
      rw [if_neg (by decide)]
      by_cases hcontrol : (fpTrim value).any fpIsControl = true
      · rw [if_pos hcontrol]
        refine Or.inr ⟨?_, refused (by decide)⟩
        rintro ⟨_, _, ⟨⟩, ⟨⟩, hvalid⟩
        obtain ⟨c, hc, hbad⟩ := List.any_eq_true.mp hcontrol
        rw [hvalid.value c hc] at hbad
        cases hbad
      · rw [if_neg hcontrol]
        obtain ⟨hne, hbytes⟩ := fpLabelIsValid_iff.1 hlabel
        have hvalid : FpValid label value :=
          ⟨hne, hbytes, fun c hc => by
            simpa using fun h => hcontrol (List.any_eq_true.mpr ⟨c, hc, h⟩)⟩
        refine Or.inl ⟨label, value, rfl, rfl, hvalid, ?_⟩
        have htext : (fpAssemble label (fpTrim value)).ok =
            if (fpText label value).length < Buf.maxGrowth then some (fpText label value)
            else none := by
          have hflat : [label, [equals], fpTrim value].flatten = fpText label value := by
            simp [fpText]
          refine (Buf.Writes.pieces _).detachString_ok_eq.trans ?_
          rw [hflat]
          simp only [hvalid.nulFree, true_and]
        by_cases hlen : (fpText label value).length < Buf.maxGrowth
        · rw [if_pos hlen] at htext ⊢
          exact (AllocE.ok_bind_of_ok (Call.orFail_eq_ok.2 htext)).trans rfl
        · rw [if_neg hlen] at htext ⊢
          refine AllocE.ok_bind_of_error ?_
          unfold Call.orFail
          rw [AllocE.ok_bind_of_ok (AllocE.ok_lift _), htext]
          rfl

/-! ## All components -/

/-- The pair makes a component, and no block is too small for its text. -/
def FpBuildable (pair : Option Bytes × Option Bytes) : Prop :=
  ∃ label value, pair = (some label, some value) ∧ FpValid label value ∧
    (fpText label value).length < Buf.maxGrowth

/-- The pair makes a component, and its text is longer than any block. -/
def FpOversized (pair : Option Bytes × Option Bytes) : Prop :=
  ∃ label value, pair = (some label, some value) ∧ FpValid label value ∧
    Buf.maxGrowth ≤ (fpText label value).length

/-- The component a pair makes. -/
def fpComponentOf (pair : Option Bytes × Option Bytes) : FpComponent :=
  ⟨fpText (pair.1.getD []) (pair.2.getD []), (pair.1.getD []).length⟩

variable {pair : Option Bytes × Option Bytes}

theorem fpBuildComponent_buildable (h : FpBuildable pair)
    (index : Nat) : (fpBuildComponent pair.1 pair.2 index).ok = .ok (fpComponentOf pair) := by
  obtain ⟨label, value, rfl, hvalid, hlen⟩ := h
  rcases fpBuildComponent_cases (some label) (some value) index with
    ⟨_, _, ⟨⟩, ⟨⟩, -, hok⟩ | ⟨hno, -⟩
  · rw [if_pos hlen] at hok
    exact hok
  · exact absurd ⟨label, value, rfl, rfl, hvalid⟩ hno

theorem fpBuildComponent_refused (h : ¬ FpBuildable pair)
    (index : Nat) : ∃ f, (fpBuildComponent pair.1 pair.2 index).ok = .error f ∧
      (f.IsOutOfMemory ↔ FpOversized pair) := by
  rcases fpBuildComponent_cases pair.1 pair.2 index with
    ⟨label, value, hlabel, hvalue, hvalid, hok⟩ | ⟨hno, f, hcode, heq⟩
  · have hpair : pair = (some label, some value) := Prod.ext hlabel hvalue
    have hlen : ¬ (fpText label value).length < Buf.maxGrowth :=
      fun hlen => h ⟨label, value, hpair, hvalid, hlen⟩
    rw [if_neg hlen] at hok
    exact ⟨_, hok, fun _ => ⟨label, value, hpair, hvalid, by omega⟩, fun _ => rfl⟩
  · refine ⟨f, by rw [heq]; rfl, fun hf => absurd hf hcode, ?_⟩
    rintro ⟨label, value, rfl, hvalid, -⟩
    exact absurd ⟨label, value, rfl, rfl, hvalid⟩ hno

/-- The loop builds every component, or stops at the first pair that makes none. -/
theorem fpBuildAll_cases : ∀ (pairs : List (Option Bytes × Option Bytes)) (index : Nat),
    ((∀ pair ∈ pairs, FpBuildable pair) ∧
        (fpBuildAll index pairs).ok = .ok (pairs.map fpComponentOf)) ∨
      ∃ done pair rest, pairs = done ++ pair :: rest ∧ (∀ q ∈ done, FpBuildable q) ∧
        ¬ FpBuildable pair ∧ ∃ f, (fpBuildAll index pairs).ok = .error f ∧
          (f.IsOutOfMemory ↔ FpOversized pair)
  | [], _ => Or.inl ⟨nofun, rfl⟩
  | pair :: pairs, index => by
    by_cases hpair : FpBuildable pair
    · have hone := fpBuildComponent_buildable hpair index
      rcases fpBuildAll_cases pairs (index + 1) with
        ⟨hall, hok⟩ | ⟨done, q, rest, rfl, hdone, hq, f, herr, hcode⟩
      · refine Or.inl ⟨?_, ?_⟩
        · rintro q (_ | ⟨_, hq⟩)
          · exact hpair
          · exact hall q hq
        · exact (AllocE.ok_bind_of_ok hone).trans ((AllocE.ok_bind_of_ok hok).trans rfl)
      · refine Or.inr ⟨pair :: done, q, rest, rfl, ?_, hq, f, ?_, hcode⟩
        · rintro r (_ | ⟨_, hr⟩)
          · exact hpair
          · exact hdone r hr
        · exact (AllocE.ok_bind_of_ok hone).trans (AllocE.ok_bind_of_error herr)
    · obtain ⟨f, herr, hcode⟩ := fpBuildComponent_refused hpair index
      exact Or.inr ⟨[], pair, pairs, rfl, nofun, hpair, f, AllocE.ok_bind_of_error herr, hcode⟩

/-! ## Order and duplicates -/

/-- What the library's `qsort` is for: the same components, in ascending order. -/
structure Sorts (qsort : List FpComponent → List FpComponent) : Prop where
  perm : ∀ components, (qsort components).Perm components
  ordered : ∀ components, (qsort components).Pairwise fun x y => fpCompare x y ≠ .gt

theorem memcmp_keyCmp : ∀ a b : Bytes,
    (match memcmp (a.take (min a.length b.length)) (b.take (min a.length b.length)) with
      | .eq => if a.length = b.length then Ordering.eq else if a.length < b.length then .lt else .gt
      | order => order) = keyCmp a b
  | [], [] => rfl
  | [], _ :: _ => rfl
  | _ :: _, [] => rfl
  | x :: a, y :: b => by
    have ih := memcmp_keyCmp a b
    simp only [List.length_cons, Nat.succ_min_succ, List.take_succ_cons, memcmp, keyCmp]
    by_cases hxy : x = y
    · rw [if_pos hxy, if_neg (not_not.mpr hxy), ← ih]
      simp only [Nat.add_right_cancel_iff, Nat.add_lt_add_iff_right]
    · rw [if_neg hxy, if_pos hxy]
      by_cases hlt : x < y
      · rw [if_pos hlt]
      · rw [if_neg hlt]

/-- Components are ordered by their texts, bytewise. -/
theorem fpCompare_iff {x y : FpComponent} : fpCompare x y ≠ .gt ↔ x.text ≤ y.text := by
  have hcmp : fpCompare x y = keyCmp x.text y.text := memcmp_keyCmp x.text y.text
  have hspec := keyCmp_spec x.text y.text
  rw [hcmp]
  cases h : keyCmp x.text y.text with
  | lt => rw [h] at hspec; simp [List.le_of_lt hspec]
  | eq => rw [h] at hspec; simp [hspec]
  | gt => rw [h] at hspec; simpa using hspec

/-- What stands between two texts with a common beginning has it too. -/
theorem prefix_of_between : ∀ {p a b c : Bytes}, a ≤ b → b ≤ c → p <+: a → p <+: c → p <+: b
  | [], _, b, _, _, _, _, _ => List.nil_prefix
  | x :: p, a, b, c, hab, hbc, ha, hc => by
    obtain ⟨a, rfl⟩ := ha
    obtain ⟨c, rfl⟩ := hc
    cases b with
    | nil => exact absurd hab (by simp [← List.not_lt])
    | cons y b =>
      rw [List.cons_append, List.cons_le_cons_iff] at hab hbc
      have hxy : x = y := by
        rcases hab with hlt | ⟨heq, -⟩
        · rcases hbc with hgt | ⟨heq, -⟩
          · exact absurd (UInt8.lt_trans hlt hgt) (UInt8.lt_irrefl _)
          · exact heq.symm
        · exact heq
      subst hxy
      have hab' : p ++ a ≤ b := hab.elim (fun h => absurd h (UInt8.lt_irrefl _)) And.right
      have hbc' : b ≤ p ++ c := hbc.elim (fun h => absurd h (UInt8.lt_irrefl _)) And.right
      exact (List.cons_prefix_cons).mpr ⟨rfl, prefix_of_between hab' hbc'
        (List.prefix_append p a) (List.prefix_append p c)⟩

/-- `labelLen` is where the first `=` of the text stands. -/
structure FpComponent.Formed (component : FpComponent) : Prop where
  split : component.label ++ [equals] <+: component.text
  equals_notMem : equals ∉ component.label
  labelLen : component.label.length = component.labelLen

theorem FpComponent.Formed.label_eq {x : FpComponent} (hx : x.Formed) {l : Bytes}
    (hl : equals ∉ l) (h : l ++ [equals] <+: x.text) : x.label = l := by
  -- both are what stands before the first `=`
  have first : ∀ {l : Bytes}, equals ∉ l → l ++ [equals] <+: x.text →
      x.text.takeWhile (· != equals) = l := by
    rintro l hl ⟨rest, hrest⟩
    have hbefore : ∀ c ∈ l, (c != equals) = true :=
      fun c hc => bne_iff_ne.mpr fun h => hl (h ▸ hc)
    rw [← hrest, List.append_assoc, List.takeWhile_append_of_pos hbefore]
    simp
  rw [← first hl h, first hx.equals_notMem hx.split]

theorem sameLabel_iff {x y : FpComponent} (hx : x.Formed) (hy : y.Formed) :
    (x.labelLen = y.labelLen ∧ x.text.take y.labelLen = y.text.take y.labelLen) ↔
      x.label = y.label := by
  constructor
  · rintro ⟨hlen, htake⟩
    unfold FpComponent.label
    rw [hlen, htake]
  · intro h
    have hlen : x.labelLen = y.labelLen := by rw [← hx.labelLen, ← hy.labelLen, h]
    exact ⟨hlen, by rw [← hlen]; exact h.trans (by unfold FpComponent.label; rw [hlen])⟩

/-- **One pass over neighbours is enough**: sorting brings equal labels together. -/
theorem fpRejectDuplicates_iff : ∀ {components : List FpComponent},
    components.Pairwise (fun x y => x.text ≤ y.text) → (∀ c ∈ components, c.Formed) →
      (fpRejectDuplicates components = .ok () ↔ (components.map FpComponent.label).Nodup)
  | [], _, _ => by simp [fpRejectDuplicates]
  | [_], _, _ => by simp [fpRejectDuplicates]
  | x :: y :: rest, hsorted, hformed => by
    have hx := hformed x List.mem_cons_self
    have hy := hformed y (List.mem_cons_of_mem _ List.mem_cons_self)
    have hsorted' := List.pairwise_cons.mp hsorted
    have ih := fpRejectDuplicates_iff hsorted'.2 fun c hc => hformed c (List.mem_cons_of_mem _ hc)
    unfold fpRejectDuplicates
    simp only [sameLabel_iff hx hy]
    by_cases hsame : x.label = y.label
    · rw [if_pos hsame]
      refine ⟨nofun, fun hnodup => ?_⟩
      rw [List.map_cons, List.map_cons, List.nodup_cons] at hnodup
      exact absurd (hsame ▸ List.mem_cons_self) hnodup.1
    · rw [if_neg hsame, ih, List.map_cons (l := y :: rest), List.nodup_cons]
      refine ⟨fun hnodup => ⟨fun hmem => ?_, hnodup⟩, And.right⟩
      obtain ⟨z, hz, hlabel⟩ := List.mem_map.mp hmem
      rcases List.mem_cons.mp hz with rfl | hz
      · exact hsame hlabel.symm
      · have hzf := hformed z (List.mem_cons_of_mem _ (List.mem_cons_of_mem _ hz))
        refine hsame (hy.label_eq hx.equals_notMem ?_).symm
        exact prefix_of_between (hsorted'.1 y List.mem_cons_self)
          ((List.pairwise_cons.mp hsorted'.2).1 z hz) hx.split (hlabel ▸ hzf.split)

theorem fpRejectDuplicates_not_outOfMemory : ∀ {components : List FpComponent} {f : Failure},
    fpRejectDuplicates components = .error f → ¬ f.IsOutOfMemory
  | [], _, h => nomatch h
  | [_], _, h => nomatch h
  | x :: y :: rest, f, h => by
    unfold fpRejectDuplicates at h
    split at h
    · obtain rfl := Except.error.inj h
      exact fun hcode => nomatch hcode
    · exact fpRejectDuplicates_not_outOfMemory h

/-! ## The whole call -/

theorem formed_fpComponentOf (h : FpBuildable pair) :
    (fpComponentOf pair).Formed ∧ some (fpComponentOf pair).label = pair.1 ∧
      NulFree (fpComponentOf pair).text := by
  obtain ⟨label, value, rfl, hvalid, -⟩ := h
  have hlabel : (fpComponentOf (some label, some value)).label = label :=
    List.take_left
  refine ⟨⟨?_, ?_, ?_⟩, by rw [hlabel], hvalid.nulFree⟩
  · rw [hlabel]
    exact ⟨fpTrim value, by simp [fpComponentOf, fpText]⟩
  · rw [hlabel]
    exact hvalid.equals_notMem
  · rw [hlabel]
    rfl

/-- The canonical text of components in order. -/
def fpCanonical (components : List FpComponent) : Bytes :=
  fingerprintDomain ++ components.flatMap fun c => fingerprintSeparator :: c.text

theorem fpJoin_ok {components : List FpComponent} (hnul : ∀ c ∈ components, NulFree c.text) :
    (fpJoin components).ok =
      if (fpCanonical components).length < Buf.maxGrowth then some (fpCanonical components)
      else none := by
  have hflat : (fingerprintDomain :: components.flatMap fun c =>
      [[fingerprintSeparator], c.text]).flatten = fpCanonical components := by
    rw [List.flatten_cons]
    unfold fpCanonical
    congr 1
    induction components with
    | nil => rfl
    | cons c cs ih => simp [ih fun c hc => hnul c (List.mem_cons_of_mem _ hc)]
  have hfree : NulFree (fpCanonical components) := by
    refine nulFree_append.2 ⟨by decide, fun hmem => ?_⟩
    obtain ⟨c, hc, hmem⟩ := List.mem_flatMap.mp hmem
    rcases List.mem_cons.mp hmem with h | h
    · exact absurd h (by decide)
    · exact hnul c hc h
  refine (Buf.Writes.pieces _).detachString_ok_eq.trans ?_
  rw [hflat]
  simp only [hfree, true_and]

theorem length_fpCanonical (components : List FpComponent) :
    (fpCanonical components).length =
      fingerprintDomain.length + (components.map fun c => c.text.length + 1).sum := by
  simp [fpCanonical, List.length_flatMap]

/-- The whole text is longer than any block. -/
def FpTextTooLong (pairs : List (Option Bytes × Option Bytes)) : Prop :=
  (∀ pair ∈ pairs, FpBuildable pair) ∧ (pairs.map Prod.fst).Nodup ∧
    Buf.maxGrowth ≤ (fpCanonical (pairs.map fpComponentOf)).length

/-- A component array, a component or a canonical text of a size no block has. -/
def FpTooLarge (pairs : List (Option Bytes × Option Bytes)) : Prop :=
  sizeMax < pairs.length * fpComponentSize ∨
    (∃ done pair rest, pairs = done ++ pair :: rest ∧ (∀ q ∈ done, FpBuildable q) ∧
      FpOversized pair) ∨ FpTextTooLong pairs

variable {qsort : List FpComponent → List FpComponent}

/-- Once every component is built, what is left is to compare labels and to join. -/
theorem fpFinish_truthful_iff (hq : Sorts qsort)
    {pairs : List (Option Bytes × Option Bytes)} (hall : ∀ pair ∈ pairs, FpBuildable pair) :
    Call.Truthful (fpFinish qsort (pairs.map fpComponentOf)) ↔ ¬ FpTextTooLong pairs := by
  have hperm := hq.perm (pairs.map fpComponentOf)
  have hmem : ∀ c ∈ qsort (pairs.map fpComponentOf), ∃ pair, FpBuildable pair ∧
      c = fpComponentOf pair := by
    intro c hc
    obtain ⟨pair, hpair, rfl⟩ := List.mem_map.mp (hperm.mem_iff.mp hc)
    exact ⟨pair, hall pair hpair, rfl⟩
  have hdistinct : fpRejectDuplicates (qsort (pairs.map fpComponentOf)) = .ok () ↔
      (pairs.map Prod.fst).Nodup := by
    rw [fpRejectDuplicates_iff ((hq.ordered _).imp fpCompare_iff.1) fun c hc => by
      obtain ⟨pair, hpair, rfl⟩ := hmem c hc
      exact (formed_fpComponentOf hpair).1]
    rw [(hperm.map FpComponent.label).nodup_iff, List.map_map,
      ← List.nodup_map_iff (Option.some_injective Bytes), List.map_map]
    refine iff_of_eq (congrArg List.Nodup (List.map_congr_left fun pair hpair => ?_))
    exact (formed_fpComponentOf (hall pair hpair)).2.1
  have hlength : (fpCanonical (qsort (pairs.map fpComponentOf))).length =
      (fpCanonical (pairs.map fpComponentOf)).length := by
    rw [length_fpCanonical, length_fpCanonical, (hperm.map _).sum_eq]
  have hjoin := @fpJoin_ok (qsort (pairs.map fpComponentOf)) fun c hc => by
    obtain ⟨pair, hpair, rfl⟩ := hmem c hc
    exact (formed_fpComponentOf hpair).2.2
  unfold fpFinish FpTextTooLong
  cases hdup : fpRejectDuplicates (qsort (pairs.map fpComponentOf)) with
  | error f =>
    have hnodup : ¬ (pairs.map Prod.fst).Nodup := fun h => by
      rw [hdistinct.mpr h] at hdup
      cases hdup
    refine iff_of_true (.throw ?_) fun h => hnodup h.2.1
    exact fpRejectDuplicates_not_outOfMemory hdup
  | ok _ =>
    have hnodup := hdistinct.mp hdup
    dsimp only
    rw [hlength] at hjoin
    by_cases hlen : (fpCanonical (pairs.map fpComponentOf)).length < Buf.maxGrowth
    · rw [if_pos hlen] at hjoin
      exact iff_of_true (.orFail hjoin) fun h => absurd h.2.2 (by omega)
    · rw [if_neg hlen] at hjoin
      refine iff_of_false (fun h => h (errorSet .outOfMemory
        (ascii "could not build the fingerprint")) ?_ rfl) (not_not.mpr ⟨hall, hnodup, by omega⟩)
      unfold Call.orFail
      rw [AllocE.ok_bind_of_ok (AllocE.ok_lift _), hjoin]
      rfl

theorem fpBuild_truthful_iff (hq : Sorts qsort) (pairs : List (Option Bytes × Option Bytes)) :
    Call.Truthful (fpBuild qsort pairs) ↔ ¬ FpTooLarge pairs := by
  unfold fpBuild
  cases hmul : checkedMul pairs.length fpComponentSize with
  | none =>
    have hsize : sizeMax < pairs.length * fpComponentSize := by
      by_contra hle
      rw [checkedMul_of_le (by omega)] at hmul
      cases hmul
    exact iff_of_false (fun h => h (errorSet .outOfMemory
      (ascii "could not build the fingerprint")) rfl rfl) (not_not.mpr (Or.inl hsize))
  | some total =>
    have hsize : ¬ sizeMax < pairs.length * fpComponentSize := by
      have := checkedMul_le hmul
      have := checkedMul_eq_some hmul
      omega
    have hrun : Call.Truthful (do
        if ← (liftM malloc : Call Bool) then
          let components ← fpBuildAll 0 pairs
          fpFinish qsort components
        else Call.fail .outOfMemory "could not build the fingerprint") ↔
        Call.Truthful (fpBuildAll 0 pairs >>= fpFinish qsort) := by
      unfold Call.Truthful
      rw [AllocE.ok_bind_of_ok (AllocE.ok_lift malloc)]
      rfl
    refine hrun.trans ?_
    rcases fpBuildAll_cases pairs 0 with
      ⟨hall, hok⟩ | ⟨done, pair, rest, hsplit, hdone, hpair, f, herr, hcode⟩
    · have hfinish := fpFinish_truthful_iff hq hall
      unfold Call.Truthful at hfinish ⊢
      rw [AllocE.ok_bind_of_ok hok, hfinish]
      refine not_congr ⟨fun h => Or.inr (Or.inr h), ?_⟩
      rintro (h | ⟨done, pair, rest, rfl, -, label, value, rfl, -, hlong⟩ | h)
      · exact absurd h hsize
      · obtain ⟨_, _, ⟨⟩, -, hshort⟩ := hall _ (List.mem_append_right _ List.mem_cons_self)
        omega
      · exact h
    · have hlarge : FpTooLarge pairs ↔ FpOversized pair := by
        constructor
        · rintro (h | ⟨done', pair', rest', hsplit', hdone', hover⟩ | ⟨hall, -⟩)
          · exact absurd h hsize
          · -- both split the list at its first pair that is not built
            rcases List.append_eq_append_iff.mp (hsplit.symm.trans hsplit') with
              ⟨mid, rfl, hmid⟩ | ⟨mid, rfl, hmid⟩
            · cases mid with
              | nil => exact (List.cons.inj hmid).1 ▸ hover
              | cons q mid =>
                obtain ⟨rfl, -⟩ := List.cons.inj hmid
                exact absurd (hdone' _ (List.mem_append_right _ List.mem_cons_self)) hpair
            · cases mid with
              | nil => exact (List.cons.inj hmid).1 ▸ hover
              | cons q mid =>
                obtain ⟨rfl, -⟩ := List.cons.inj hmid
                obtain ⟨_, _, h, -, hshort⟩ :=
                  hdone _ (List.mem_append_right _ List.mem_cons_self)
                obtain ⟨_, _, rfl, -, hlong⟩ := hover
                obtain ⟨⟨⟩, ⟨⟩⟩ := Prod.mk.inj h
                omega
          · exact absurd (hall pair (hsplit ▸ List.mem_append_right _ List.mem_cons_self)) hpair
        · exact fun hover => Or.inr (Or.inl ⟨done, pair, rest, hsplit, hdone, hover⟩)
      unfold Call.Truthful
      rw [AllocE.ok_bind_of_error herr, hlarge, ← hcode]
      simp only [Except.error.injEq, forall_eq']

/-- **The fingerprint and memory.** Without refused requests, memory is blamed for nothing but sizes
    no block has. -/
theorem fingerprintBuildCanonical_truthful_iff
    (hq : Sorts qsort) (pairs : Option (List (Option Bytes × Option Bytes))) :
    Call.Truthful (fingerprintBuildCanonical qsort pairs) ↔
      ∀ list, pairs = some list → ¬ FpTooLarge list := by
  match pairs with
  | none => exact iff_of_true (.fail (by decide)) nofun
  | some [] =>
    refine iff_of_true (.fail (by decide)) ?_
    rintro _ ⟨⟩ (h | ⟨done, pair, rest, h, -⟩ | ⟨-, -, h⟩)
    · exact absurd h (by decide)
    · cases done <;> cases h
    · exact absurd h (by decide)
  | some (first :: others) =>
    simp only [Option.some.injEq, forall_eq']
    exact fpBuild_truthful_iff hq (first :: others)

end Tamga
