import Tamga.Json.Canonical

/-!
# `Json.KeySort` — the key sort on its two arrays (`tamga_json_sort_keys`)

The sort of `Json.Write` is a function on lists. The code works on an index array and a scratch array,
with `size_t` bounds that are clamped to the member count, and that is modelled here access by access:
`none` is a read or a write outside an array, a key asked for outside the object, or a loop that does not
end. No run meets one, and what the passes leave in the index array is the list sort's result
(`sortArrays_eq`), which is a stable sort of the indices (`sort_keys_stable`).
-/

namespace Tamga

namespace Json

open Alloc

/-! ## The program -/

/-- `size_t` arithmetic. -/
def wrap (n : Nat) : Nat := n % 2 ^ 64

/-- `array[i] = x`, inside the array. -/
def store (array : List Nat) (i x : Nat) : Option (List Nat) :=
  if i < array.length then some (array.set i x) else none

/-- `tamga_json_object_key_at`, not NULL, at an index taken from the array. -/
def keyAt (keys : List Bytes) (order : List Nat) (i : Nat) : Option Bytes := do
  let index ← order[i]?
  keys[index]?

/-- The choice between the heads of the two runs. -/
def takeLeft (keys : List Bytes) (order : List Nat) (left mid right last : Nat) : Option Bool :=
  if left ≥ mid then some false
  else if right ≥ last then some true
  else do
    let lk ← keyAt keys order left
    let rk ← keyAt keys order right
    some (keyLe lk rk)

/-- The `while` loop: the runs `[left, mid)` and `[right, last)` are merged into `scratch` from `spot`. -/
def mergeLoop (keys : List Bytes) (order : List Nat) (mid last : Nat) :
    (fuel left right spot : Nat) → List Nat → Option (List Nat)
  | 0, _, _, _, _ => none
  | fuel + 1, left, right, spot, scratch =>
      if left < mid ∨ right < last then do
        let fromLeft ← takeLeft keys order left mid right last
        let index ← order[if fromLeft then left else right]?
        let scratch ← store scratch spot index
        if fromLeft then mergeLoop keys order mid last fuel (left + 1) right (spot + 1) scratch
        else mergeLoop keys order mid last fuel left (right + 1) (spot + 1) scratch
      else some scratch

/-- The loop over `start`: neighbouring runs of `width` indices are merged. -/
def runLoop (keys : List Bytes) (order : List Nat) (width : Nat) :
    (fuel start : Nat) → List Nat → Option (List Nat)
  | 0, _, _ => none
  | fuel + 1, start, scratch =>
      let count := keys.length
      if start < count then do
        let mid := wrap (start + width)
        let last := wrap (start + wrap (width * 2))
        let mid := if mid > count then count else mid
        let last := if last > count then count else last
        let scratch ← mergeLoop keys order mid last (count + 1) start mid start scratch
        runLoop keys order width fuel (wrap (start + wrap (width * 2))) scratch
      else some scratch

/-- `for (i = 0; i < count; i++) to[i] = next(i)`, from `i` on. -/
def fillLoop (next : Nat → Option Nat) : (left i : Nat) → List Nat → Option (List Nat)
  | 0, _, array => some array
  | left + 1, i, array => do
      let x ← next i
      let array ← store array i x
      fillLoop next left (i + 1) array

/-- The loop over `width`. -/
def widthLoop (keys : List Bytes) : (fuel width : Nat) → (order scratch : List Nat) → Option (List Nat)
  | 0, _, _, _ => none
  | fuel + 1, width, order, scratch =>
      if width < keys.length then do
        let scratch ← runLoop keys order width (keys.length + 1) 0 scratch
        let order ← fillLoop (fun i => scratch[i]?) keys.length 0 order
        widthLoop keys fuel (wrap (width * 2)) order scratch
      else some order

/-- What happens to the two arrays once they are there; both come zeroed. -/
def sortArrays (keys : List Bytes) : Option (List Nat) := do
  let count := keys.length
  let order ← fillLoop some count 0 (List.replicate count 0)
  widthLoop keys (count + 1) 1 order (List.replicate count 0)

/-- `tamga_json_sort_keys` on the keys of an object: `none` when an array was refused. -/
def jsonSortKeys (keys : List Bytes) : Alloc (Option (Option (List Nat))) := do
  match checkedMul keys.length 8 with
  | none => return none
  | some _ =>
      if ← malloc then
        if ← malloc then return some (sortArrays keys) else return none
      else return none

/-! ## Arrays as lists -/

theorem store_append (pre post : List Nat) (old x : Nat) :
    store (pre ++ old :: post) pre.length x = some (pre ++ x :: post) := by
  rw [store, if_pos (by simp), List.set_append_right _ _ (le_refl _)]
  simp

/-- Filling writes the new contents behind what is already written. -/
theorem fillLoop_eq {next : Nat → Option Nat} (new : List Nat) :
    ∀ pre old : List Nat, old.length = new.length →
    (∀ k < new.length, next (pre.length + k) = new[k]?) →
      fillLoop next new.length pre.length (pre ++ old) = some (pre ++ new) := by
  induction new with
  | nil =>
    intro pre old hlen _
    rw [List.eq_nil_of_length_eq_zero hlen]
    rfl
  | cons x new ih =>
    intro pre old hlen hnext
    obtain ⟨y, old, rfl⟩ := List.exists_cons_of_length_pos (by rw [hlen]; simp : 0 < old.length)
    have hx : next pre.length = some x := hnext 0 (by simp)
    have hrest := ih (pre ++ [x]) old (by simpa using hlen) (by
      intro k hk
      rw [List.length_append, List.length_singleton, Nat.add_assoc, Nat.add_comm 1 k]
      exact hnext (k + 1) (by simpa using hk))
    rw [List.length_cons, fillLoop, hx]
    dsimp only [Option.bind_eq_bind, Option.bind_some]
    rw [store_append]
    dsimp only [Option.bind_some]
    simpa using hrest

/-- The run `[a, b)` of an array. -/
def segment (array : List Nat) (a b : Nat) : List Nat := (array.drop a).take (b - a)

variable {array : List Nat}

theorem segment_of_le {a b : Nat} (h : b ≤ a) : segment array a b = [] := by
  rw [segment, Nat.sub_eq_zero_of_le h, List.take_zero]

theorem segment_cons {a b : Nat} (hab : a < b) (hb : b ≤ array.length) :
    ∃ x ∈ array, array[a]? = some x ∧ segment array a b = x :: segment array (a + 1) b := by
  have ha : a < array.length := by omega
  refine ⟨array[a], List.getElem_mem ha, List.getElem?_eq_getElem ha, ?_⟩
  rw [segment, segment, List.drop_eq_getElem_cons ha, show b - a = (b - (a + 1)) + 1 by omega,
      List.take_succ_cons]

/-! ## One merge -/

/-- The order on indices that the keys give. -/
def indexLe (keys : List Bytes) (i j : Nat) : Bool := keyLe (keys.getD i []) (keys.getD j [])

variable {keys : List Bytes}

variable {order : List Nat}

theorem keyAt_eq (hbound : ∀ i ∈ order, i < keys.length) {i x : Nat} (hx : order[i]? = some x) :
    keyAt keys order i = some (keys.getD x []) := by
  have hlt : x < keys.length := hbound x (List.mem_of_getElem? hx)
  rw [keyAt, hx]
  simp [List.getD_eq_getElem?_getD, hlt]

/-- One round: an index goes behind `pre`, and the loop goes on behind it. -/
theorem mergeLoop_step {mid last fuel left right : Nat} {pre gap post : List Nat} {old x : Nat}
    {fromLeft : Bool} (hmore : left < mid ∨ right < last)
    (htake : takeLeft keys order left mid right last = some fromLeft)
    (hx : order[if fromLeft then left else right]? = some x) :
    mergeLoop keys order mid last (fuel + 1) left right pre.length (pre ++ old :: gap ++ post) =
      if fromLeft then mergeLoop keys order mid last fuel (left + 1) right (pre ++
          [x]).length (pre ++ [x] ++ gap ++ post)
      else mergeLoop keys order mid last fuel left (right + 1)
          (pre ++ [x]).length (pre ++ [x] ++ gap ++ post) := by
  rw [mergeLoop, if_pos hmore, htake]
  dsimp only [Option.bind_eq_bind, Option.bind_some]
  rw [hx]
  dsimp only [Option.bind_some]
  rw [show pre ++ old :: gap ++ post = pre ++ old :: (gap ++ post) by simp, store_append]
  simp

/-- The loop merges what is left of the two runs into the gap behind `pre`. -/
theorem mergeLoop_eq (hbound : ∀ i ∈ order, i < keys.length) {mid last : Nat}
    (hmid : mid ≤ order.length) (hlast : last ≤ order.length) : ∀ (fuel left right : Nat)
      (pre gap post : List Nat),
      (segment order left mid).length + (segment order right last).length < fuel →
      gap.length = (segment order left mid).length + (segment order right last).length →
      mergeLoop keys order mid last fuel left right pre.length (pre ++ gap ++ post) =
        some (pre ++ MergeSort.merge (indexLe keys) (segment order left mid)
          (segment order right last) ++ post) := by
  intro fuel
  induction fuel with
  | zero =>
    intro left right pre gap post hfuel
    omega
  | succ fuel ih =>
    intro left right pre gap post hfuel hgap
    by_cases hdone : left < mid ∨ right < last
    · obtain ⟨old, gap, rfl⟩ : ∃ old gap', gap = old :: gap' := by
        apply List.exists_cons_of_length_pos
        rw [hgap]
        rcases hdone with h | h
        · obtain ⟨x, -, -, hseg⟩ := segment_cons h hmid
          rw [hseg, List.length_cons]
          omega
        · obtain ⟨x, -, -, hseg⟩ := segment_cons h hlast
          rw [hseg, List.length_cons]
          omega
      rw [List.length_cons] at hgap
      by_cases hleft : left < mid
      · obtain ⟨x, -, hx, hsegl⟩ := segment_cons hleft hmid
        rw [hsegl, List.length_cons] at hfuel hgap
        rw [hsegl]
        -- what the rest of the loop does once `x` is taken
        have htook := ih (left + 1) right (pre ++ [x]) gap post (by omega) (by omega)
        by_cases hright : right < last
        · obtain ⟨y, -, hy, hsegr⟩ := segment_cons hright hlast
          rw [hsegr, List.length_cons] at hfuel hgap
          have hchoice : takeLeft keys order left mid right last = some (indexLe keys x y) := by
            rw [takeLeft, if_neg (by omega), if_neg (by omega), keyAt_eq hbound hx, keyAt_eq hbound hy]
            rfl
          by_cases hle : indexLe keys x y = true
          · rw [mergeLoop_step hdone hchoice (by rw [if_pos hle]; exact hx), if_pos hle, htook, hsegr,
              MergeSort.merge_cons_cons, if_pos hle]
            simp
          · have htook' := ih left (right + 1) (pre ++ [y]) gap post (by rw [hsegl, List.length_cons]; omega)
              (by rw [hsegl, List.length_cons]; omega)
            rw [mergeLoop_step hdone hchoice (by rw [if_neg hle]; exact hy), if_neg hle, htook', hsegl, hsegr,
              MergeSort.merge_cons_cons, if_neg hle]
            simp
        · have hchoice : takeLeft keys order left mid right last = some true := by
            rw [takeLeft, if_neg (by omega), if_pos (by omega)]
          rw [mergeLoop_step hdone hchoice hx, if_pos rfl, htook, segment_of_le (by omega : last ≤ right),
            MergeSort.merge_eq, MergeSort.merge_eq]
          simp
      · have hright : right < last := by omega
        obtain ⟨y, -, hy, hsegr⟩ := segment_cons hright hlast
        have hchoice : takeLeft keys order left mid right last = some false := by
          rw [takeLeft, if_pos (by omega)]
        rw [hsegr, List.length_cons, segment_of_le (by omega : mid ≤ left), List.length_nil] at hfuel hgap
        have htook := ih left (right + 1) (pre ++ [y]) gap post
          (by rw [segment_of_le (by omega : mid ≤ left), List.length_nil]; omega)
          (by rw [segment_of_le (by omega : mid ≤ left), List.length_nil]; omega)
        rw [mergeLoop_step hdone hchoice hy, if_neg (by simp), htook, hsegr,
            segment_of_le (by omega : mid ≤ left)]
        simp [MergeSort.merge]
    · rw [segment_of_le (by omega : mid ≤ left), segment_of_le (by omega : last ≤ right)] at hgap ⊢
      rw [mergeLoop, if_neg hdone, List.eq_nil_of_length_eq_zero hgap]
      rfl

/-! ## Passes -/

theorem length_merge {α : Type} {le : α → α → Bool} (l r : List α) :
    (MergeSort.merge le l r).length = l.length + r.length := by
  rw [(@MergeSort.merge_perm α le l r).length_eq, List.length_append]

/-- The clamped bound of a run. -/
theorem clamp_eq (bound count : Nat) : (if bound > count then count else bound) = min bound count := by
  split <;> omega

/-- The two runs of one merge, as the list sort cuts them. -/
theorem segment_first (start width : Nat) :
    segment array start (min (start + width) array.length) = (array.drop start).take width := by
  rw [segment, List.take_eq_take_iff, List.length_drop]
  omega

theorem segment_second (start width : Nat) :
    segment array (min (start + width) array.length) (min (start + width * 2) array.length) =
      ((array.drop start).drop width).take width := by
  rw [List.drop_drop]
  by_cases h : start + width ≤ array.length
  · rw [Nat.min_eq_left h, segment, List.take_eq_take_iff, List.length_drop]
    omega
  · rw [segment_of_le (by omega), List.drop_eq_nil_of_le (by omega), List.take_nil]

/-- The merge of the two runs at `start`. -/
def mergedAt (keys : List Bytes) (order : List Nat) (width start : Nat) : List Nat :=
  MergeSort.merge (indexLe keys) ((order.drop start).take width) (((order.drop start).drop width).take width)

theorem length_mergedAt (width start : Nat) :
    (mergedAt keys order width start).length = min (width * 2) (order.length - start) := by
  rw [mergedAt, length_merge]
  simp only [List.length_take, List.length_drop]
  omega

theorem mergeRuns_eq (hbound : ∀ i ∈ order, i < keys.length) (hlen : order.length = keys.length)
    {width : Nat} {pre gap post : List Nat}
      (hgap : gap.length = (mergedAt keys order width pre.length).length) :
    mergeLoop keys order (min (pre.length + width) keys.length) (min (pre.length + width * 2) keys.length)
        (keys.length + 1) pre.length (min (pre.length + width) keys.length) pre.length (pre ++ gap ++ post) =
      some (pre ++ mergedAt keys order width pre.length ++ post) := by
  have hfirst := @segment_first order pre.length width
  have hsecond := @segment_second order pre.length width
  rw [hlen] at hfirst hsecond
  have hmerged := @length_merge Nat (indexLe keys) ((order.drop pre.length).take width)
    (((order.drop pre.length).drop width).take width)
  rw [← mergedAt] at hmerged
  have hbound' := @length_mergedAt keys order width pre.length
  have h := mergeLoop_eq hbound (by omega : min (pre.length + width) keys.length ≤ order.length)
    (by omega : min (pre.length + width * 2) keys.length ≤ order.length) (keys.length + 1) pre.length
    (min (pre.length + width) keys.length) pre gap post
  rw [hfirst, hsecond, ← mergedAt] at h
  exact h (by omega) (by omega)

/-- A pass fills the scratch array from `start` on with the merged runs. -/
theorem runLoop_eq (hbound : ∀ i ∈ order, i < keys.length) (hlen : order.length = keys.length)
    {width : Nat} (hpos : 0 < width) (hwidth : width < keys.length) (hsize : keys.length * 8 ≤ sizeMax) :
    ∀ (fuel start : Nat) (pre gap : List Nat), pre.length = min start keys.length →
      gap.length = keys.length - start → keys.length - start ≤ fuel →
      runLoop keys order width (fuel + 1) start (pre ++ gap) =
        some (pre ++ MergeSort.pass (indexLe keys) width fuel (order.drop start)) := by
  intro fuel
  have hmax : sizeMax = 2 ^ 64 - 1 := rfl
  -- past the end there is nothing left to fill
  have hend : ∀ (fuel start : Nat) (pre gap : List Nat), keys.length ≤ start →
      gap.length = keys.length - start →
      runLoop keys order width (fuel + 1) start (pre ++ gap) =
        some (pre ++ MergeSort.pass (indexLe keys) width fuel (order.drop start)) := by
    intro fuel start pre gap hover hgap
    rw [runLoop, if_neg (by omega), List.eq_nil_of_length_eq_zero (by omega : gap.length = 0),
      List.drop_eq_nil_of_le (by omega)]
    cases fuel <;> rfl
  induction fuel with
  | zero =>
    intro start pre gap _ hgap hfuel
    exact hend 0 start pre gap (by omega) hgap
  | succ fuel ih =>
    intro start pre gap hpre hgap hfuel
    by_cases hmore : start < keys.length
    · obtain rfl : start = pre.length := by omega
      have hmid : wrap (pre.length + width) = pre.length + width := Nat.mod_eq_of_lt (by omega)
      have hlast : wrap (pre.length + wrap (width * 2)) = pre.length + width * 2 := by
        rw [wrap, wrap, Nat.mod_eq_of_lt (by omega : width * 2 < 2 ^ 64), Nat.mod_eq_of_lt (by omega)]
      -- the scratch array is split where this merge ends
      have hmerged := @length_mergedAt keys order width pre.length
      have hsplit := List.take_append_drop (mergedAt keys order width pre.length).length gap
      have hmerge := @mergeRuns_eq keys order hbound hlen width pre
        (gap.take (mergedAt keys order width pre.length).length)
        (gap.drop (mergedAt keys order width pre.length).length) (by rw [List.length_take]; omega)
      rw [List.append_assoc, hsplit] at hmerge
      have hnext := ih (pre.length + width * 2) (pre ++ mergedAt keys order width pre.length)
        (gap.drop (mergedAt keys order width pre.length).length) (by rw [List.length_append]; omega)
        (by rw [List.length_drop]; omega) (by omega)
      have hne : (order.drop pre.length).isEmpty = false := by
        rw [List.isEmpty_eq_false_iff, ne_eq, List.drop_eq_nil_iff]
        omega
      rw [runLoop, if_pos hmore]
      dsimp only [Option.bind_eq_bind]
      rw [hmid, hlast, clamp_eq, clamp_eq, hmerge]
      dsimp only [Option.bind_some]
      rw [hnext, MergeSort.pass, hne, if_neg (by simp), ← mergedAt, List.drop_drop]
      simp
    · exact hend (fuel + 1) start pre gap (by omega) hgap

/-- The passes, as the list sort makes them. -/
theorem widthLoop_eq (hsize : keys.length * 8 ≤ sizeMax) :
    ∀ (fuel width : Nat) (order scratch : List Nat), 0 < width →
    (∀ i ∈ order, i < keys.length) → order.length = keys.length → scratch.length = keys.length →
    keys.length ≤ width * 2 ^ fuel →
      widthLoop keys (fuel + 1) width order scratch =
        some (MergeSort.passes (indexLe keys) fuel width order) := by
  intro fuel
  have hmax : sizeMax = 2 ^ 64 - 1 := rfl
  induction fuel with
  | zero =>
    intro width order scratch _ _ _ _ hwidth
    rw [pow_zero, Nat.mul_one] at hwidth
    rw [widthLoop, if_neg (by omega)]
    rfl
  | succ fuel ih =>
    intro width order scratch hpos hbound hlen hscratch hwidth
    rw [widthLoop, MergeSort.passes, hlen]
    by_cases hmore : width < keys.length
    · have hpass := runLoop_eq hbound hlen hpos hmore hsize keys.length 0 [] scratch (by simp)
          (by simpa using hscratch)
        (by omega)
      rw [List.nil_append, List.nil_append, List.drop_zero] at hpass
      have hperm := @MergeSort.pass_perm Nat (indexLe keys) width hpos keys.length order (by omega)
      have hpassLen := hperm.length_eq.trans hlen
      generalize MergeSort.pass (indexLe keys) width keys.length order = out at hpass hperm hpassLen
      have hcopy := @fillLoop_eq (fun i => out[i]?) out [] order (by omega) (by simp)
      rw [List.nil_append, List.nil_append, List.length_nil, hpassLen] at hcopy
      have hwrap : wrap (width * 2) = width * 2 := Nat.mod_eq_of_lt (by omega)
      have hnext := ih (width * 2) out out (by omega)
          (fun i hi => hbound i (hperm.mem_iff.mp hi)) hpassLen hpassLen
        (by rw [pow_succ] at hwidth; linarith)
      rw [if_pos hmore, if_pos hmore, hpass]
      dsimp only [Option.bind_eq_bind, Option.bind_some]
      rw [hcopy]
      dsimp only [Option.bind_some]
      rw [hwrap, hnext]
    · rw [if_neg hmore, if_neg hmore]

/-- **The arrays refine the list.** -/
theorem sortArrays_eq (hsize : keys.length * 8 ≤ sizeMax) : sortArrays keys = some (sortOrder keys) := by
  have hfill := @fillLoop_eq some (List.range keys.length) [] (List.replicate keys.length 0) (by simp) (by
    intro k hk
    rw [List.length_range] at hk
    simp [hk])
  rw [List.length_range, List.nil_append, List.nil_append, List.length_nil] at hfill
  have hwidth := widthLoop_eq hsize keys.length 1 (List.range keys.length)
      (List.replicate keys.length 0) (by decide)
    (fun i hi => List.mem_range.mp hi) (by simp) (by simp) (by rw [one_mul]; exact Nat.lt_two_pow_self.le)
  rw [sortArrays]
  dsimp only [Option.bind_eq_bind]
  rw [hfill]
  dsimp only [Option.bind_some]
  rw [hwidth, sortOrder, MergeSort.sort, List.length_range]
  rfl

/-! ## The sort -/

theorem indexLe_trans (i j k : Nat) (hij : indexLe keys i j = true) (hjk : indexLe keys j k = true) :
    indexLe keys i k = true := by
  unfold indexLe at *
  rw [keyLe_iff] at hij hjk ⊢
  exact List.le_trans hij hjk

theorem indexLe_total (i j : Nat) : (indexLe keys i j || indexLe keys j i) = true := by
  unfold indexLe
  rw [Bool.or_eq_true, keyLe_iff, keyLe_iff]
  exact List.le_total _ _

/-- A run that got both its arrays sorted in them. -/
theorem sorted_of_jsonSortKeys {F : Prop} {result : Option (List Nat)}
    (h : (jsonSortKeys keys).Can F (some result)) :
    result = some (sortOrder keys) := by
  unfold jsonSortKeys at h
  split at h
  · cases can_pure.1 h
  · rename_i bytes hmul
    have hsize : keys.length * 8 ≤ sizeMax := checkedMul_eq_some hmul ▸ checkedMul_le hmul
    rcases malloc_can h with h | ⟨-, h⟩
    · rcases malloc_can h with h | ⟨-, h⟩
      · rw [← Option.some.inj (can_pure.1 h), sortArrays_eq hsize]
      · cases can_pure.1 h
    · cases can_pure.1 h

/-- The indices of the members, sorted by their keys, equal keys in the order of the members. -/
structure StableOrder (keys : List Bytes) (order : List Nat) : Prop where
  perm : order.Perm (List.range keys.length)
  sorted : order.Pairwise fun i j => cstr (keys.getD i []) ≤ cstr (keys.getD j [])
  stable : order.Pairwise fun i j => cstr (keys.getD i []) = cstr (keys.getD j []) → i < j

theorem stableOrder_sortOrder (keys : List Bytes) : StableOrder keys (sortOrder keys) where
  perm := sortOrder_perm keys
  sorted := (MergeSort.sort_pairwise indexLe_trans indexLe_total _).imp fun h => keyLe_iff.1 h
  stable := by
    refine (MergeSort.sort_stable indexLe_trans indexLe_total List.pairwise_lt_range).imp ?_
    intro i j htied heq
    exact htied (keyLe_iff.2 (heq ▸ List.le_refl _)) (keyLe_iff.2 (heq ▸ List.le_refl _))

/-- **The key sort is a stable sort that stays in its arrays.** Whenever both arrays were handed out, the
    passes end, no access is out of bounds, and the index array holds the stable order; and where its size
    can be asked for at all, nothing but a refusal keeps it from that. -/
theorem sort_keys_stable (keys : List Bytes) :
    (∀ result, (jsonSortKeys keys).Can True (some result) → ∃ order, result = some order ∧
      StableOrder keys order) ∧
      (keys.length * 8 ≤ sizeMax → (jsonSortKeys keys).ok.isSome) := by
  constructor
  · intro result h
    exact ⟨_, sorted_of_jsonSortKeys h, stableOrder_sortOrder keys⟩
  · intro hsize
    rw [jsonSortKeys, checkedMul_of_le hsize]
    rfl

/-- Three members, one key twice: the last run is a partial one. -/
theorem sort_keys_stable_three :
    (jsonSortKeys [ascii "b", ascii "a", ascii "b"]).Can True (some (some [1, 0, 2])) ∧
    StableOrder [ascii "b", ascii "a", ascii "b"] [1, 0, 2] := by
  have hrun : (jsonSortKeys [ascii "b", ascii "a", ascii "b"]).Can True (some (some [1, 0, 2])) :=
    Or.inl (Or.inl (congrArg some (by decide +kernel : sortArrays [ascii "b", ascii "a",
      ascii "b"] = some [1, 0, 2])))
  obtain ⟨order, horder, hstable⟩ := (sort_keys_stable _).1 _ hrun
  cases horder
  exact ⟨hrun, hstable⟩

end Json

end Tamga
