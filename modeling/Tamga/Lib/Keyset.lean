import Mathlib.Data.List.Basic
import Mathlib.Tactic

/-!
# `Lib.Keyset` — walking a list page by page, by the key of the last element

A reader that knows neither the length of a list nor where it stands asks for the elements behind a key.
It goes on behind the last element of a page as long as the page has exactly the length it takes for a
full one. With distinct keys it reads everything, once and in order, when its idea of a full page is the
server's (`walk_complete`); when it is larger, it stops after the first page (`walk_short`).
-/

namespace Keyset

variable {α κ : Type} [DecidableEq κ] (key : α → κ)

/-- The elements behind the one with this key; all of them without a key. -/
def rest (xs : List α) : Option κ → List α
  | none => xs
  | some k => (xs.dropWhile fun x => key x ≠ k).tail

/-- Asking for pages until one is not full; `fuel` bounds the number of pages. -/
def walk (fetch : Option κ → List α) (full : Nat) : (fuel : Nat) → (after : Option κ) → Option (List α)
  | 0, _ => none
  | fuel + 1, after =>
      let page := fetch after
      if page.length = full then
        match page.getLast? with
        | none => some page
        | some last => (walk fetch full fuel (some (key last))).map (page ++ ·)
      else some page

variable {key} {xs : List α}

theorem rest_eq (hnodup : (xs.map key).Nodup) {front back : List α} {x : α}
    (hxs : xs = front ++ x :: back) : rest key xs (some (key x)) = back := by
  subst hxs
  have hfront : ∀ y ∈ front, key y ≠ key x := by
    intro y hy heq
    rw [List.map_append, List.map_cons, List.nodup_append] at hnodup
    exact hnodup.2.2 _ (List.mem_map_of_mem hy) _ List.mem_cons_self heq
  show ((front ++ x :: back).dropWhile fun y => key y ≠ key x).tail = back
  rw [List.dropWhile_append_of_pos (by simpa using hfront), List.dropWhile_cons_of_neg (by simp)]
  rfl

theorem rest_subset (after : Option κ) : rest key xs after ⊆ xs := by
  cases after with
  | none => exact List.Subset.refl xs
  | some k => exact List.Subset.trans (List.tail_subset _) (List.dropWhile_sublist _).subset

section Walk

variable {size full : Nat} {fetch : Option κ → List α}
  (hfetch : ∀ after, fetch after = (rest key xs after).take size)

include hfetch

/-- From any element on, what is left is read. -/
theorem walk_rest (hnodup : (xs.map key).Nodup) (hsize : 0 < size) :
    ∀ {fuel : Nat} {front back : List α} {after : Option κ}, xs = front ++ back →
      rest key xs after = back → back.length < fuel → walk key fetch size fuel after = some back := by
  intro fuel
  induction fuel with
  | zero =>
    intro front back after _ _ hfuel
    exact absurd hfuel (Nat.not_lt_zero _)
  | succ fuel ih =>
    intro front back after hxs hrest hfuel
    unfold walk
    rw [hfetch, hrest]
    by_cases hlen : (back.take size).length = size
    · -- a full page: its last element is where the next one starts
      simp only [if_pos hlen]
      have hne : back.take size ≠ [] := by
        intro h
        rw [h] at hlen
        exact absurd hlen (by simpa using hsize.ne)
      rw [List.getLast?_eq_some_getLast hne]
      have hsplit : xs = (front ++ (back.take size).dropLast) ++
          (back.take size).getLast hne :: back.drop size := by
        rw [hxs, List.append_assoc, List.append_cons, List.dropLast_concat_getLast,
          List.take_append_drop]
      have hnext : walk key fetch size fuel (some (key ((back.take size).getLast hne))) =
          some (back.drop size) := by
        have hxs' : xs = (front ++ back.take size) ++ back.drop size := by
          rw [List.append_assoc, List.take_append_drop]
          exact hxs
        apply ih hxs' (rest_eq hnodup hsplit)
        rw [List.length_take] at hlen
        rw [List.length_drop]
        omega
      simp only [hnext, Option.map_some, List.take_append_drop]
    · -- a short page is the last one
      simp only [if_neg hlen]
      rw [List.take_of_length_le]
      rw [List.length_take] at hlen
      omega

/-- **The walk** reads the whole list when the reader's full page is the server's. -/
theorem walk_complete (hnodup : (xs.map key).Nodup) (hsize : 0 < size) :
    walk key fetch size (xs.length + 1) none = some xs := by
  have hall : xs = [] ++ xs := rfl
  exact walk_rest hfetch hnodup hsize hall rfl (Nat.lt_succ_self _)

/-- It stops after the first page when the server never sends what the reader takes for a full one. -/
theorem walk_short (hshort : size < full) (fuel : Nat) :
    walk key fetch full (fuel + 1) none = some (xs.take size) := by
  have hpage : ¬ (xs.take size).length = full := by
    rw [List.length_take]
    omega
  unfold walk
  rw [hfetch]
  exact if_neg hpage

end Walk

end Keyset
