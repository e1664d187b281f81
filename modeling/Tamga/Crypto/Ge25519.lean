import Tamga.Crypto.Fe25519
import Tamga.Lib.Edwards
import Mathlib.NumberTheory.LegendreSymbol.Basic

/-!
# `Crypto.Ge25519` — points of the curve in extended coordinates

`tamga_ge_add` and `tamga_ge_scalarmul` on a store of points, so that the result may be written over an
operand. The coefficient of the curve is not a square and `-1` is one, by Euler's criterion; so `Lib.Edwards`
has the group, and the formula of the source computes in it.
-/

namespace Tamga.Ed25519

open Edwards Edwards.Curve Octets Ladder Pratt

/-! ## The program -/

/-- `TAMGA_FE_D_BYTES`. -/
def dBytes : Bytes :=
  [0xa3, 0x78, 0x59, 0x13, 0xca, 0x4d, 0xeb, 0x75, 0xab, 0xd8, 0x41, 0x41, 0x4d, 0x0a, 0x70, 0x00,
    0x98, 0xe8, 0x79, 0x77, 0x79, 0x40, 0xc7, 0x8c, 0x73, 0xfe, 0x6f, 0x2b, 0xee, 0x6c, 0x03, 0x52]

/-- `TAMGA_FE_SQRTM1_BYTES`. -/
def sqrtm1Bytes : Bytes :=
  [0xb0, 0xa0, 0x0e, 0x4a, 0x27, 0x1b, 0xee, 0xc4, 0x78, 0xe4, 0x2f, 0xad, 0x06, 0x18, 0x43, 0x2f,
    0xa7, 0xd7, 0xfb, 0x3d, 0x99, 0x00, 0x4d, 0x2b, 0x0b, 0xdf, 0xc1, 0x4f, 0x80, 0x24, 0x83, 0x2b]

/-- `tamga_fe_d`. -/
def feD : Fe := feFromBytes dBytes

/-- `tamga_fe_sqrtm1`. -/
def feSqrtm1 : Fe := feFromBytes sqrtm1Bytes

/-- `TamgaGe`. -/
structure Ge where
  x : Fe
  y : Fe
  z : Fe
  t : Fe

section

variable {Addr : Type} [DecidableEq Addr]

/-- `tamga_ge_identity`. -/
def geIdentity : Ge := ⟨feZero, feOne, feOne, feZero⟩

/-- `tamga_ge_add(r, p, q)`, where the three may be one another: everything is read before anything is
written. -/
def geAdd (m : Addr → Ge) (r p q : Addr) : Addr → Ge :=
  let twoD := feAdd feD feD
  let a := feMul (feSub (m p).y (m p).x) (feSub (m q).y (m q).x)
  let b := feMul (feAdd (m p).y (m p).x) (feAdd (m q).y (m q).x)
  let c := feMul (feMul (m p).t (m q).t) twoD
  let d := feMul (m p).z (m q).z
  let d := feAdd d d
  let e := feSub b a
  let f := feSub d c
  let g := feAdd d c
  let h := feAdd b a
  let m := Function.update m r { m r with x := feMul e f }
  let m := Function.update m r { m r with y := feMul g h }
  let m := Function.update m r { m r with t := feMul e h }
  Function.update m r { m r with z := feMul f g }

/-- `tamga_ge_double`. -/
def geDouble (m : Addr → Ge) (r p : Addr) : Addr → Ge := geAdd m r p p

/-- `tamga_ge_scalarmul`; `none` is the accumulator on the stack. -/
def geScalarmul (m : Addr → Ge) (r p : Addr) (scalar : Bytes) : Addr → Ge :=
  let frame : Option Addr → Ge := fun a => a.elim geIdentity m
  let frame := ladder (fun m => geDouble m none none) (fun m => geAdd m none none (some p))
      (bitLe scalar) 256 frame
  Function.update m r (frame none)

end

/-! ## The curve -/

theorem cast_feD : feD.cast = (le dBytes : ZMod p) := by
  rw [Fe.cast, feD, value_of_canonical ⟨rfl, by decide +kernel⟩]

theorem cast_feSqrtm1 : feSqrtm1.cast = (le sqrtm1Bytes : ZMod p) := by
  rw [Fe.cast, feSqrtm1, value_of_canonical ⟨rfl, by decide +kernel⟩]

theorem sqrtm1_sq : feSqrtm1.cast ^ 2 = -1 := by
  have hsum : (le sqrtm1Bytes * le sqrtm1Bytes + 1) % p = 0 := by decide +kernel
  have hcast := (ZMod.natCast_eq_zero_iff _ p).mpr (Nat.dvd_of_mod_eq_zero hsum)
  push_cast at hcast
  rw [cast_feSqrtm1]
  linear_combination hcast

theorem two_ne_zero_p : (2 : ZMod p) ≠ 0 := by
  intro h
  have hdvd : p ∣ 2 := (ZMod.natCast_eq_zero_iff 2 p).mp h
  exact absurd (Nat.le_of_dvd (by decide) hdvd) (by decide +kernel)

/-- Euler's criterion: the power `(p - 1) / 2` of `d` is `-1`. -/
theorem d_not_isSquare : ¬ IsSquare feD.cast := by
  have heuler : (powMod p (le dBytes) (p / 2) + 1) % p = 0 := by decide +kernel
  have hpow : feD.cast ^ (p / 2) + 1 = 0 := by
    have hcast := (ZMod.natCast_eq_zero_iff _ p).mpr (Nat.dvd_of_mod_eq_zero heuler)
    rwa [powMod_eq, Nat.cast_add, ZMod.natCast_mod, Nat.cast_pow, Nat.cast_one, ← cast_feD] at hcast
  have hne : feD.cast ≠ 0 := by
    intro hzero
    rw [hzero, zero_pow (by decide +kernel), zero_add] at hpow
    exact one_ne_zero hpow
  intro hsquare
  rw [(ZMod.euler_criterion p hne).mp hsquare, one_add_one_eq_two] at hpow
  exact two_ne_zero_p hpow

/-- The curve of Ed25519. -/
noncomputable def curve : Curve (ZMod p) where
  d := feD.cast
  i := feSqrtm1.cast
  i_sq := sqrtm1_sq
  not_isSquare := d_not_isSquare
  two_ne_zero := two_ne_zero_p

/-! ## Points -/

/-- Reduced coordinates of a point of the curve. -/
structure Ge.Valid (g : Ge) (P : curve.Point) : Prop where
  x_lt : g.x.value < p
  y_lt : g.y.value < p
  z_lt : g.z.value < p
  t_lt : g.t.value < p
  represents : Represents P g.x.cast g.y.cast g.z.cast g.t.cast

theorem valid_geIdentity : geIdentity.Valid 0 := by
  have hzero : feZero.value < p := by
    rw [feZero, Limbs.Num.value_zero]
    exact p_pos
  have hone : feOne.value < p := by
    rw [value_feOne]
    exact prime_p.one_lt
  refine ⟨hzero, hone, hone, hzero, ?_⟩
  rw [geIdentity, cast_feZero, cast_feOne]
  exact Represents.zero

section

variable {Addr : Type} [DecidableEq Addr] {m : Addr → Ge} {r p' q : Addr} {P Q : curve.Point}

theorem geAdd_of_ne {a : Addr} (h : a ≠ r) : geAdd m r p' q a = m a := by
  simp only [geAdd, Function.update_of_ne h]

theorem valid_geAdd (hP : (m p').Valid P) (hQ : (m q).Valid Q) : (geAdd m r p' q r).Valid (P + Q) := by
  have hlt : ∀ a b : Fe, (feMul a b).value < p := fun a b => lt_of_value (value_feMul a b)
  have hadd : ∀ a b : Fe, (feAdd a b).value < p := fun a b => lt_of_value (value_feAdd a b)
  simp only [geAdd, Function.update_self]
  refine ⟨hlt _ _, hlt _ _, hlt _ _, hlt _ _, ?_⟩
  simp only [cast_feMul, cast_feAdd, cast_feSub (hlt _ _) (hlt _ _), cast_feSub (hadd _ _) (hlt _ _),
    cast_feSub hP.y_lt hP.x_lt, cast_feSub hQ.y_lt hQ.x_lt]
  exact Represents.add hP.represents hQ.represents rfl rfl rfl rfl rfl rfl rfl rfl

/-- The ladder keeps a multiple in the accumulator, and the point where it is. -/
theorem valid_geScalarmul {scalar : Bytes} (hlen : scalar.length = 32) (hP : (m p').Valid P) :
    (geScalarmul m r p' scalar r).Valid (le scalar • P) := by
  have hlt : le scalar < 2 ^ 256 := by
    have h := le_lt scalar
    rw [hlen] at h
    exact h
  have hladder := @ladder_rep_zero (Option Addr → Ge) (fun m => geDouble m none none)
    (fun m => geAdd m none none (some p')) (fun m' k => (m' none).Valid (k • P) ∧ m' (some p') =
      m p') ?_ ?_ _ 256 hlt
    (fun a => a.elim geIdentity m) ⟨by rw [zero_nsmul]; exact valid_geIdentity, rfl⟩
  · rw [geScalarmul, bitLe_eq, Function.update_self]
    exact hladder.1
  · intro m' k hk
    refine ⟨?_, ?_⟩
    · rw [two_mul, add_nsmul]
      exact valid_geAdd hk.1 hk.1
    · exact (geAdd_of_ne (Option.some_ne_none p')).trans hk.2
  · intro m' k hk
    refine ⟨?_, ?_⟩
    · rw [add_nsmul, one_nsmul]
      exact valid_geAdd hk.1 (hk.2.symm ▸ hP)
    · exact (geAdd_of_ne (Option.some_ne_none p')).trans hk.2

end

/-- Valid extended coordinates: `Z` is not zero, `T Z = X Y`, and `(X / Z, Y / Z)` is on the curve. -/
structure Ge.OnCurve (g : Ge) : Prop where
  reduced : g.x.value < p ∧ g.y.value < p ∧ g.z.value < p ∧ g.t.value < p
  z_ne_zero : g.z.cast ≠ 0
  t_mul_z : g.t.cast * g.z.cast = g.x.cast * g.y.cast
  equation : (g.y.cast ^ 2 - g.x.cast ^ 2) * g.z.cast ^ 2 = g.z.cast ^ 4 +
    feD.cast * (g.x.cast * g.y.cast) ^ 2

theorem onCurve_iff (g : Ge) : g.OnCurve ↔ ∃ P, g.Valid P := by
  constructor
  · intro h
    have hz := h.z_ne_zero
    refine ⟨⟨g.x.cast / g.z.cast, g.y.cast / g.z.cast, ?_⟩, h.reduced.1, h.reduced.2.1,
        h.reduced.2.2.1, h.reduced.2.2.2,
      hz, (div_mul_cancel₀ _ hz).symm, (div_mul_cancel₀ _ hz).symm, h.t_mul_z⟩
    have hd : curve.d = feD.cast := rfl
    rw [hd]
    field_simp
    linear_combination -h.equation
  · rintro ⟨P, h⟩
    refine ⟨⟨h.x_lt, h.y_lt, h.z_lt, h.t_lt⟩, h.represents.ne_zero, h.represents.t_eq, ?_⟩
    have hon : feD.cast * (P.x * P.y) ^ 2 = P.y ^ 2 - P.x ^ 2 - 1 := P.on
    rw [h.represents.x_eq, h.represents.y_eq]
    linear_combination -g.z.cast ^ 4 * hon

/-- **Unified addition is complete**, whatever is written over what, and the ladder multiplies. -/
theorem edwards_complete {Addr : Type} [DecidableEq Addr] (m : Addr → Ge) (r a b : Addr) :
    (∀ P Q, (m a).Valid P → (m b).Valid Q →
      (geAdd m r a b r).Valid (P + Q) ∧ (geAdd m r a b r).OnCurve ∧ ∀ c, c ≠ r → geAdd m r a b c = m c) ∧
    (∀ P scalar, (m a).Valid P → scalar.length = 32 → (geScalarmul m r a scalar r).Valid (le scalar • P)) ∧
    ∀ g : Ge, g.OnCurve ↔ ∃ P, g.Valid P := by
  refine ⟨?_, fun P scalar hP hlen => valid_geScalarmul hlen hP, onCurve_iff⟩
  intro P Q hP hQ
  have hsum : (geAdd m r a b r).Valid (P + Q) := valid_geAdd hP hQ
  exact ⟨hsum, (onCurve_iff _).2 ⟨_, hsum⟩, fun c hc => geAdd_of_ne hc⟩

/-- The point `(0, -1)`, of order two. -/
def geOrderTwo : Ge := ⟨feZero, feNeg feOne, feOne, feZero⟩

theorem onCurve_geOrderTwo : geOrderTwo.OnCurve := by
  have hreduced := valid_geIdentity
  have hy : geOrderTwo.y.cast = -1 := by
    have hone : feOne.value < p := hreduced.y_lt
    rw [geOrderTwo, cast_feNeg hone, cast_feOne]
  refine ⟨⟨hreduced.x_lt, lt_feSub _ _, hreduced.y_lt, hreduced.x_lt⟩, ?_, ?_, ?_⟩
  · rw [geOrderTwo, cast_feOne]
    exact one_ne_zero
  · simp [geOrderTwo]
  · rw [hy]
    simp [geOrderTwo]

/-- It is added to itself in place, and to the identity. -/
theorem edwards_complete_orderTwo :
    (geAdd (fun _ : Unit => geOrderTwo) () () () ()).OnCurve ∧
      ∃ P, geOrderTwo.Valid P ∧
        (geAdd (fun b : Bool => if b then geOrderTwo else geIdentity) false true false false).Valid P := by
  obtain ⟨P, hP⟩ := (onCurve_iff _).1 onCurve_geOrderTwo
  have hsum := ((edwards_complete (fun b : Bool => if b then geOrderTwo else geIdentity)
    false true false).1 P 0 hP valid_geIdentity).1
  rw [add_zero] at hsum
  exact ⟨((edwards_complete (fun _ : Unit => geOrderTwo) () () ()).1 P P hP hP).2.1, P, hP, hsum⟩

end Tamga.Ed25519
