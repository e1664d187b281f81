import Mathlib.Data.List.Sort
import Mathlib.Tactic

/-!
# `Lib.MergeSort` — bottom-up merge sort

Merge sort without recursion on halves: passes of doubling `width`, each merging neighbouring runs of
that width, until one run covers the list. Everything computes by structural recursion.

The invariant is `Runs le width l`: `l` is a concatenation of sorted runs, all of length `width`
except possibly the last. A pass turns `Runs width` into `Runs (2 * width)` (`pass_runs`), and a list
no longer than `width` that has it is sorted (`Runs.pairwise`). A pass also leaves every class of tied
elements as it was (`pass_filter_tied`), which is stability.
-/

namespace MergeSort

variable {α : Type}

/-- Put `x` in front of, or behind, the head of the second run; `rest` merges what follows `x`. -/
def mergeCons (le : α → α → Bool) (x : α) (l : List α) (rest : List α → List α) : List α → List α
  | [] => x :: l
  | y :: r => if le x y then x :: rest (y :: r) else y :: mergeCons le x l rest r

/-- The stable merge: on a tie the left run goes first. -/
def merge (le : α → α → Bool) : List α → List α → List α
  | [], r => r
  | x :: l, r => mergeCons le x l (merge le l) r

/-- One pass: neighbouring runs of length `width` are merged. -/
def pass (le : α → α → Bool) (width : Nat) : (fuel : Nat) → List α → List α
  | 0, l => l
  | fuel + 1, l =>
      if l.isEmpty then []
      else merge le (l.take width) ((l.drop width).take width) ++
        pass le width fuel (l.drop (width * 2))

/-- The outer loop: `for (width = …; width < count; width *= 2)`. -/
def passes (le : α → α → Bool) : (fuel : Nat) → (width : Nat) → List α → List α
  | 0, _, l => l
  | fuel + 1, width, l =>
      if width < l.length then passes le fuel (width * 2) (pass le width l.length l) else l

def sort (le : α → α → Bool) (l : List α) : List α := passes le l.length 1 l

/-! ## Merging is the library's merge -/

variable {le : α → α → Bool}

theorem merge_cons_cons (x y : α) (l r : List α) :
    merge le (x :: l) (y :: r) = if le x y then x :: merge le l (y :: r) else y :: merge le (x :: l) r := rfl

theorem merge_eq (l r : List α) : merge le l r = l.merge r le := by
  induction l generalizing r with
  | nil => simp [merge]
  | cons x l ih =>
    induction r with
    | nil => simp [merge, mergeCons]
    | cons y r ihr =>
      rw [merge_cons_cons, List.cons_merge_cons]
      split
      · rw [ih]
      · rw [← ihr]

theorem merge_perm (l r : List α) : (merge le l r).Perm (l ++ r) := by
  rw [merge_eq]; exact List.merge_perm_append le

theorem merge_pairwise (htrans : ∀ a b c, le a b = true → le b c = true → le a c = true)
    (htotal : ∀ a b, (le a b || le b a) = true) {l r : List α}
    (hl : l.Pairwise fun a b => le a b = true) (hr : r.Pairwise fun a b => le a b = true) :
    (merge le l r).Pairwise fun a b => le a b = true := by
  rw [merge_eq]; exact List.pairwise_merge htrans htotal l r hl hr

/-! ## A pass keeps the elements -/

variable {width : Nat}

theorem pass_perm (hw : 0 < width) :
    ∀ (fuel : Nat) (l : List α), l.length ≤ fuel → (pass le width fuel l).Perm l := by
  intro fuel
  induction fuel with
  | zero => intro l hl; exact List.Perm.refl _
  | succ fuel ih =>
    intro l hl
    unfold pass
    split
    · rename_i h
      rw [List.isEmpty_iff.mp h]
    · rename_i h
      have hne : l.length ≠ 0 := by simpa [List.isEmpty_iff] using h
      have htail : (pass le width fuel (l.drop (width * 2))).Perm (l.drop (width * 2)) :=
        ih _ (by rw [List.length_drop]; omega)
      have hsplit : l.take width ++ (l.drop width).take width ++ l.drop (width * 2) = l := by
        rw [List.append_assoc, show l.drop (width * 2) = (l.drop width).drop width by
          rw [List.drop_drop]; congr 1; omega, List.take_append_drop, List.take_append_drop]
      have happ := (@merge_perm α le (l.take width) ((l.drop width).take width)).append htail
      rw [hsplit] at happ
      exact happ

theorem passes_perm : ∀ (fuel width : Nat) (l : List α), 0 < width →
    (passes le fuel width l).Perm l := by
  intro fuel
  induction fuel with
  | zero => intro width l _; exact List.Perm.refl _
  | succ fuel ih =>
    intro width l hw
    unfold passes
    split
    · exact (ih _ _ (by omega)).trans (pass_perm hw _ _ (le_refl _))
    · exact List.Perm.refl _

theorem sort_perm (l : List α) : (sort le l).Perm l := passes_perm _ _ _ (by decide)

/-! ## A pass doubles the runs -/

/-- `l` is made of sorted runs of length `width`, the last one possibly shorter. -/
inductive Runs (le : α → α → Bool) (width : Nat) : List α → Prop where
  | nil : Runs le width []
  | cons {run rest : List α} (hsorted : run.Pairwise fun a b => le a b = true)
      (hlen : run.length = width ∨ run.length < width ∧ rest = []) (hrest : Runs le width rest) :
      Runs le width (run ++ rest)

theorem runs_one : ∀ l : List α, Runs le 1 l
  | [] => .nil
  | a :: l => @Runs.cons α le 1 [a] l (List.pairwise_singleton _ a) (Or.inl rfl) (runs_one l)

theorem Runs.pairwise {l : List α} (h : Runs le width l) (hlen : l.length ≤ width) :
    l.Pairwise fun a b => le a b = true := by
  cases h with
  | nil => exact List.Pairwise.nil
  | @cons run rest hsorted hrun hrest =>
    rw [List.length_append] at hlen
    have hnil : rest = [] := by
      rcases hrun with h | ⟨-, h⟩
      · exact List.eq_nil_of_length_eq_zero (by omega)
      · exact h
    rw [hnil, List.append_nil]
    exact hsorted

/-- Where the first run ends. -/
theorem Runs.take_drop {l : List α} (h : Runs le width l) :
    ((l.take width).Pairwise fun a b => le a b = true) ∧ Runs le width (l.drop width) := by
  cases h with
  | nil => simp [Runs.nil]
  | @cons run rest hsorted hrun hrest =>
    rcases hrun with h | ⟨h, rfl⟩
    · rw [← h, List.take_left, List.drop_left, h]
      exact ⟨hsorted, hrest⟩
    · rw [List.append_nil, List.take_of_length_le (by omega), List.drop_of_length_le (by omega)]
      exact ⟨hsorted, .nil⟩

theorem pass_runs (htrans : ∀ a b c, le a b = true → le b c = true → le a c = true)
    (htotal : ∀ a b, (le a b || le b a) = true) (hw : 0 < width) :
    ∀ (fuel : Nat) (l : List α), l.length ≤ fuel → Runs le width l →
      Runs le (width * 2) (pass le width fuel l) := by
  intro fuel
  induction fuel with
  | zero =>
    intro l hl _
    rw [List.eq_nil_of_length_eq_zero (Nat.le_zero.mp hl)]
    exact .nil
  | succ fuel ih =>
    intro l hl hruns
    unfold pass
    split
    · exact .nil
    · rename_i h
      have hne : l.length ≠ 0 := by simpa [List.isEmpty_iff] using h
      obtain ⟨hfirst, hrest⟩ := hruns.take_drop
      obtain ⟨hsecond, hrest⟩ := hrest.take_drop
      rw [List.drop_drop, show width + width = width * 2 by omega] at hrest
      have htail := ih (l.drop (width * 2)) (by rw [List.length_drop]; omega) hrest
      refine .cons (merge_pairwise htrans htotal hfirst hsecond) ?_ htail
      -- two full runs, or the list ends inside them
      have hlen := (@merge_perm α le (l.take width) ((l.drop width).take width)).length_eq
      simp only [List.length_append, List.length_take, List.length_drop] at hlen
      by_cases hfull : width * 2 ≤ l.length
      · left; omega
      · right
        refine ⟨by omega, ?_⟩
        rw [List.drop_of_length_le (by omega)]
        cases fuel <;> rfl

theorem passes_pairwise (htrans : ∀ a b c, le a b = true → le b c = true → le a c = true)
    (htotal : ∀ a b, (le a b || le b a) = true) :
    ∀ (fuel width : Nat) (l : List α), 0 < width → Runs le width l → l.length ≤ width * 2 ^ fuel →
      (passes le fuel width l).Pairwise fun a b => le a b = true := by
  intro fuel
  induction fuel with
  | zero => intro width l _ hruns hlen; exact hruns.pairwise (by simpa using hlen)
  | succ fuel ih =>
    intro width l hw hruns hlen
    unfold passes
    split
    · refine ih _ _ (by omega) (pass_runs htrans htotal hw _ _ (le_refl _) hruns) ?_
      rw [(@pass_perm α le width hw _ l (le_refl _)).length_eq]
      rw [pow_succ] at hlen
      calc l.length ≤ width * (2 ^ fuel * 2) := hlen
        _ = width * 2 * 2 ^ fuel := by ring
    · exact hruns.pairwise (by omega)

/-- **Sorted.** For a total preorder the result is in order. -/
theorem sort_pairwise (htrans : ∀ a b c, le a b = true → le b c = true → le a c = true)
    (htotal : ∀ a b, (le a b || le b a) = true) (l : List α) :
    (sort le l).Pairwise fun a b => le a b = true := by
  refine passes_pairwise htrans htotal _ _ _ (by decide) (runs_one l) ?_
  rw [one_mul]
  exact Nat.lt_two_pow_self.le

/-! ## Equal elements keep their order -/

/-- The elements neither before nor behind `c`. -/
def tied (le : α → α → Bool) (c a : α) : Bool := le a c && le c a

theorem merge_filter_tied (htrans : ∀ a b c, le a b = true → le b c = true → le a c = true) (c : α) :
    ∀ {l r : List α}, (l.Pairwise fun a b => le a b = true) →
      (merge le l r).filter (tied le c) = l.filter (tied le c) ++ r.filter (tied le c) := by
  intro l
  induction l with
  | nil =>
    intro r _
    simp [merge]
  | cons x l ih =>
    intro r hl
    induction r with
    | nil => simp [merge, mergeCons]
    | cons y r ihr =>
      rw [merge_cons_cons]
      by_cases hxy : le x y = true
      · rw [if_pos hxy]
        by_cases hx : tied le c x = true
        · rw [List.filter_cons_of_pos hx, List.filter_cons_of_pos hx, ih hl.of_cons, List.cons_append]
        · rw [List.filter_cons_of_neg hx, List.filter_cons_of_neg hx, ih hl.of_cons]
      · rw [if_neg hxy, List.filter_cons, ihr]
        by_cases hy : tied le c y = true
        · -- `y` overtakes the left run, so nothing there is tied with it
          have hnone : (x :: l).filter (tied le c) = [] := by
            rw [List.filter_eq_nil_iff]
            intro z hz htied
            rw [tied, Bool.and_eq_true] at hy htied
            have hzy : le z y = true := htrans z c y htied.1 hy.2
            rcases List.mem_cons.mp hz with rfl | hz
            · exact hxy hzy
            · exact hxy (htrans x z y (List.rel_of_pairwise_cons hl hz) hzy)
          rw [if_pos hy, hnone, List.filter_cons_of_pos hy]
          rfl
        · rw [if_neg hy, List.filter_cons_of_neg hy]

theorem pass_filter_tied (htrans : ∀ a b c, le a b = true → le b c = true → le a c = true)
    (c : α) : ∀ (fuel : Nat) (l : List α), Runs le width l →
      (pass le width fuel l).filter (tied le c) = l.filter (tied le c) := by
  intro fuel
  induction fuel with
  | zero =>
    intro l _
    rfl
  | succ fuel ih =>
    intro l hruns
    unfold pass
    split
    · rename_i h
      rw [List.isEmpty_iff.mp h]
    · obtain ⟨hfirst, hrest⟩ := hruns.take_drop
      have hrest' := hrest.take_drop.2
      rw [List.drop_drop, show width + width = width * 2 by omega] at hrest'
      rw [List.filter_append, merge_filter_tied htrans c hfirst, ih _ hrest', ← List.filter_append,
        ← List.filter_append, show l.drop (width * 2) = (l.drop width).drop width by
          rw [List.drop_drop]; congr 1; omega, List.append_assoc, List.take_append_drop,
              List.take_append_drop]

theorem passes_filter_tied (htrans : ∀ a b c, le a b = true → le b c = true → le a c = true)
    (htotal : ∀ a b, (le a b || le b a) = true) (c : α) :
    ∀ (fuel width : Nat) (l : List α), 0 < width → Runs le width l →
      (passes le fuel width l).filter (tied le c) = l.filter (tied le c) := by
  intro fuel
  induction fuel with
  | zero =>
    intro width l _ _
    rfl
  | succ fuel ih =>
    intro width l hw hruns
    unfold passes
    split
    · rw [ih _ _ (by omega) (pass_runs htrans htotal hw _ _ (le_refl _) hruns),
          pass_filter_tied htrans c _ _ hruns]
    · rfl

/-- **Stable.** Elements that tie come out in the order they went in. -/
theorem sort_stable (htrans : ∀ a b c, le a b = true → le b c = true → le a c = true)
    (htotal : ∀ a b, (le a b || le b a) = true) {R : α → α → Prop} {l : List α} (hl : l.Pairwise R) :
    (sort le l).Pairwise fun a b => le a b = true → le b a = true → R a b := by
  rw [List.pairwise_iff_forall_sublist]
  intro a b hab hle hge
  have hrefl : le a a = true := by simpa using htotal a a
  have hfilter := passes_filter_tied htrans htotal a l.length 1 l (by decide) (runs_one l)
  have hsub : [a, b].Sublist l := by
    have h := hab.filter (tied le a)
    rw [List.filter_eq_self.mpr (by simp [tied, hle, hge, hrefl])] at h
    exact (hfilter ▸ h).trans List.filter_sublist
  exact List.pairwise_iff_forall_sublist.mp hl hsub

end MergeSort
