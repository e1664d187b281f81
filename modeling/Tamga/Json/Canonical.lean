import Mathlib.Data.List.Forall2
import Tamga.Json.Text

/-!
# `Json.Canonical` — key order and the arranged tree

What canonical output forgets is the order of members. Two trees are `EqUpToOrder` when they differ in
nothing else, and `arrange v` picks one tree out of each class: members sorted by the bytes of their
keys, at every level. The serializers meet in it — the canonical text of `v` **is** the plain text of
`arrange v` (`text_arrange`) — so facts about canonical output reduce to facts about plain output and
about `arrange`.
-/

namespace Tamga

namespace Json

/-! ## The key order -/

theorem keyCmp_spec (a b : Bytes) :
    match keyCmp a b with
    | .lt => a < b
    | .eq => a = b
    | .gt => b < a := by
  induction a generalizing b with
  | nil =>
    cases b with
    | nil => rfl
    | cons y b => exact List.nil_lt_cons y b
  | cons x a ih =>
    cases b with
    | nil => exact List.nil_lt_cons x a
    | cons y b =>
      by_cases hxy : x = y
      · -- equal heads: the order is decided further on
        subst hxy
        have := ih b
        simp only [keyCmp, ne_eq, not_true_eq_false, if_false]
        split <;> simp_all
      · simp only [keyCmp, ne_eq, hxy, not_false_eq_true, if_true]
        by_cases hlt : x < y
        · rw [if_pos hlt]
          exact List.cons_lt_cons_iff.mpr (Or.inl hlt)
        · rw [if_neg hlt]
          exact List.cons_lt_cons_iff.mpr (Or.inl (by grind))

theorem keyLe_iff {a b : Bytes} : keyLe a b = true ↔ cstr a ≤ cstr b := by
  have h := keyCmp_spec (cstr a) (cstr b)
  unfold keyLe
  cases hc : keyCmp (cstr a) (cstr b) with
  | lt => rw [hc] at h; simp [List.le_of_lt h]
  | eq => rw [hc] at h; simp [h]
  | gt => rw [hc] at h; simpa using h

/-- **Sorting sorts.** -/
theorem sortMembers_pairwise {α : Type} (members : List (Bytes × α)) :
    (sortMembers members).Pairwise fun m m' => cstr m.1 ≤ cstr m'.1 := by
  have hsort : (sortOrder (members.map Prod.fst)).Pairwise fun i j =>
      keyLe ((members.map Prod.fst).getD i []) ((members.map Prod.fst).getD j []) = true := by
    refine MergeSort.sort_pairwise (fun i j k hij hjk => ?_) (fun i j => ?_) _
    · rw [keyLe_iff] at hij hjk ⊢
      exact List.le_trans hij hjk
    · rw [Bool.or_eq_true, keyLe_iff, keyLe_iff]
      exact List.le_total _ _
  refine List.pairwise_filterMap.mpr (hsort.imp fun hij m hm m' hm' => ?_)
  rw [keyLe_iff] at hij
  simpa [List.getD_eq_getElem?_getD, hm, hm'] using hij

/-! ## Equality up to the order of members -/

/-- One member against another: the same key, related values. -/
inductive MemberRel (R : Json → Json → Prop) : Bytes × Json → Bytes × Json → Prop where
  | mk {key : Bytes} {v w : Json} (h : R v w) : MemberRel R (key, v) (key, w)

/-- `a` and `b` are equal up to the order of members in each object. -/
inductive EqUpToOrder : Json → Json → Prop where
  | refl (v : Json) : EqUpToOrder v v
  | arr {items items' : List Json} (h : List.Forall₂ EqUpToOrder items items') :
      EqUpToOrder (.arr items) (.arr items')
  | obj {members reordered members' : List (Bytes × Json)}
      (h : List.Forall₂ (MemberRel EqUpToOrder) members reordered)
      (hperm : reordered.Perm members') : EqUpToOrder (.obj members) (.obj members')

variable {v : Json}

/-- Member by member, whatever the order. -/
theorem EqUpToOrder.member {members members' : List (Bytes × Json)}
    (h : EqUpToOrder (.obj members) (.obj members')) {key : Bytes}
    (hm : (key, v) ∈ members) : ∃ w, (key, w) ∈ members' ∧ EqUpToOrder v w := by
  cases h with
  | refl => exact ⟨v, hm, .refl v⟩
  | @obj _ reordered _ h hperm =>
    have hreordered : ∃ w, (key, w) ∈ reordered ∧ EqUpToOrder v w := by
      clear hperm
      induction h with
      | nil => cases hm
      | cons hmm' _ ih =>
        rcases List.mem_cons.mp hm with rfl | hm
        · cases hmm' with
          | mk hvw => exact ⟨_, List.mem_cons_self, hvw⟩
        · obtain ⟨w, hw, hvw⟩ := ih hm
          exact ⟨w, List.mem_cons_of_mem _ hw, hvw⟩
    obtain ⟨w, hw, hvw⟩ := hreordered
    exact ⟨w, hperm.mem_iff.mp hw, hvw⟩

/-! ## Conditions on a tree, node by node -/

def NoDouble : Json → Prop
  | .double _ => False
  | _ => True

/-- The keys of an object are C strings, each used once. -/
def DistinctKeys : Json → Prop
  | .obj members => (members.map Prod.fst).Nodup ∧ ∀ m ∈ members, NulFree m.1
  | _ => True

/-- The keys of an object are in strictly ascending order, byte by byte. -/
def Ascending : Json → Prop
  | .obj members => (members.map Prod.fst).Pairwise (· < ·)
  | _ => True

theorem nodup_of_ascending {keys : List Bytes} (h : keys.Pairwise (· < ·)) : keys.Nodup := by
  refine List.Pairwise.imp ?_ h
  rintro a _ hlt rfl
  exact List.lt_irrefl a hlt

/-! ## The arranged tree -/

mutual

/-- `v` with the members of every object in canonical order. -/
def arrange : Json → Json
  | .arr items => .arr (arrangeItems items)
  | .obj members => .obj (inOrder true (arrangeMembers members))
  | v => v

def arrangeItems : List Json → List Json
  | [] => []
  | v :: items => v.arrange :: arrangeItems items

def arrangeMembers : List (Bytes × Json) → List (Bytes × Json)
  | [] => []
  | (key, v) :: members => (key, v.arrange) :: arrangeMembers members

end

@[simp] theorem arrange_null : Json.null.arrange = .null := rfl

@[simp] theorem arrange_bool (b : Bool) : (Json.bool b).arrange = .bool b := rfl

@[simp] theorem arrange_int (n : Int64) : (Json.int n).arrange = .int n := rfl

@[simp] theorem arrange_double (d : Double) : (Json.double d).arrange = .double d := rfl

@[simp] theorem arrange_str (s : Bytes) : (Json.str s).arrange = .str s := rfl

theorem arrange_arr (items : List Json) : (Json.arr items).arrange = .arr (items.map arrange) := by
  have h : arrangeItems items = items.map arrange := by
    induction items with
    | nil => rfl
    | cons v items ih =>
      show v.arrange :: arrangeItems items = _
      rw [ih, List.map_cons]
  show Json.arr (arrangeItems items) = _
  rw [h]

theorem arrange_obj (members : List (Bytes × Json)) :
    (Json.obj members).arrange =
      .obj ((inOrder true members).map fun m => (m.1, m.2.arrange)) := by
  have h : arrangeMembers members = members.map fun m => (m.1, m.2.arrange) := by
    induction members with
    | nil => rfl
    | cons m members ih =>
      show (m.1, m.2.arrange) :: arrangeMembers members = _
      rw [ih, List.map_cons]
  show Json.obj (inOrder true (arrangeMembers members)) = _
  rw [h, inOrder_map]

/-- **The serializers meet.** Canonical output is plain output of the arranged tree. -/
theorem text_arrange (L : Libc) (v : Json) : v.text L true = v.arrange.text L false := by
  induction v using Json.node_induction with
  | null => rfl
  | bool b => cases b <;> rfl
  | int n => rfl
  | double d => rfl
  | str s => rfl
  | arr items ih =>
    rw [arrange_arr, text, text, itemTexts_eq, itemTexts_eq, List.map_map,
      List.map_congr_left ih]
    rfl
  | obj members ih =>
    have hmembers : ∀ m ∈ inOrder true members, (m.1, m.2.text L true) =
        (m.1, m.2.arrange.text L false) :=
      fun m hm => by rw [ih m ((inOrder_perm true members).mem_iff.mp hm)]
    rw [arrange_obj, text, text, memberTexts_eq, memberTexts_eq, inOrder_map, inOrder_false,
      List.map_congr_left hmembers]
    simp only [List.map_map, Function.comp_def]

/-- A property that looks at keys only, and not at their order, survives the arrangement. -/
theorem every_arrange {p : Json → Prop}
    (harr : ∀ items items' : List Json, items'.length = items.length → p (.arr items) → p (.arr items'))
    (hobj : ∀ members members' : List (Bytes × Json),
      (members'.map Prod.fst).Perm (members.map Prod.fst) → p (.obj members) → p (.obj members'))
        (hv : v.Every p) : v.arrange.Every p := by
  induction v using Json.node_induction with
  | null | bool | int | double | str => exact hv
  | arr items ih =>
    obtain ⟨h0, hitems⟩ := every_arr.1 hv
    rw [arrange_arr, every_arr]
    refine ⟨harr items _ (List.length_map _) h0, fun w hw => ?_⟩
    obtain ⟨v, hmem, rfl⟩ := List.mem_map.mp hw
    exact ih v hmem (hitems v hmem)
  | obj members ih =>
    obtain ⟨h0, hmembers⟩ := every_obj.1 hv
    rw [arrange_obj, every_obj]
    constructor
    · refine hobj members _ ?_ h0
      rw [List.map_map]
      exact (inOrder_perm true members).map _
    · intro w hw
      obtain ⟨m, hmem, rfl⟩ := List.mem_map.mp hw
      have hmem := (inOrder_perm true members).mem_iff.mp hmem
      exact ih m hmem (hmembers m hmem)

theorem noDouble_arrange (hv : v.Every NoDouble) : v.arrange.Every NoDouble :=
  every_arrange (fun _ _ _ _ => trivial) (fun _ _ _ _ => trivial) hv

theorem distinctKeys_arrange (hv : v.Every DistinctKeys) : v.arrange.Every DistinctKeys := by
  refine every_arrange (fun _ _ _ _ => trivial) (fun members members' hperm h => ?_) hv
  refine ⟨hperm.nodup_iff.mpr h.1, fun m hm => ?_⟩
  obtain ⟨m', hm', hkey⟩ := List.mem_map.mp (hperm.mem_iff.mp (List.mem_map_of_mem hm))
  rw [← hkey]
  exact h.2 m' hm'

/-- Members with distinct keys come out strictly ascending. -/
theorem inOrder_ascending {α : Type} {members : List (Bytes × α)}
    (hnodup : (members.map Prod.fst).Nodup) (hnul : ∀ m ∈ members, NulFree m.1) :
    ((inOrder true members).map Prod.fst).Pairwise (· < ·) := by
  have hperm := inOrder_perm true members
  have hsorted : (inOrder true members).Pairwise fun m m' => cstr m.1 ≤ cstr m'.1 := by
    unfold inOrder
    split
    · exact sortMembers_pairwise members
    · rename_i hlen
      match members, hlen with
      | [], _ => exact List.Pairwise.nil
      | [m], _ => exact List.pairwise_singleton _ m
      | _ :: _ :: _, hlen => simp at hlen
  have hnodup' : (inOrder true members).Pairwise fun m m' => m.1 ≠ m'.1 :=
    List.pairwise_map.mp ((hperm.map Prod.fst).nodup_iff.mpr hnodup)
  refine List.pairwise_map.mpr ((hsorted.and hnodup').imp_of_mem fun {m m'} hm hm' h => ?_)
  rw [cstr_of_nulFree (hnul m (hperm.mem_iff.mp hm)),
    cstr_of_nulFree (hnul m' (hperm.mem_iff.mp hm'))] at h
  exact List.not_le.mp fun hle => h.2 (List.le_antisymm h.1 hle)

theorem arrange_ascending (hv : v.Every DistinctKeys) : v.arrange.Every Ascending := by
  induction v using Json.node_induction with
  | null | bool | int | double | str => simp [Ascending]
  | arr items ih =>
    rw [arrange_arr, every_arr]
    refine ⟨trivial, fun w hw => ?_⟩
    obtain ⟨v, hmem, rfl⟩ := List.mem_map.mp hw
    exact ih v hmem ((every_arr.1 hv).2 v hmem)
  | obj members ih =>
    obtain ⟨⟨hnodup, hnul⟩, hmembers⟩ := every_obj.1 hv
    rw [arrange_obj, every_obj]
    constructor
    · show ((_ : List (Bytes × Json)).map Prod.fst).Pairwise (· < ·)
      rw [List.map_map]
      exact inOrder_ascending hnodup hnul
    · intro w hw
      obtain ⟨m, hmem, rfl⟩ := List.mem_map.mp hw
      have hmem := (inOrder_perm true members).mem_iff.mp hmem
      exact ih m hmem (hmembers m hmem)

/-! ## One arranged tree for each class -/

theorem eqUpToOrder_arrange (v : Json) : EqUpToOrder v v.arrange := by
  induction v using Json.node_induction with
  | null | bool | int | double | str => exact .refl _
  | arr items ih =>
    rw [arrange_arr]
    exact .arr (List.forall₂_map_right_iff.mpr (List.forall₂_same.mpr ih))
  | obj members ih =>
    rw [arrange_obj]
    refine .obj ?_ ((inOrder_perm true members).map _).symm
    exact List.forall₂_map_right_iff.mpr (List.forall₂_same.mpr fun m hm => .mk (ih m hm))

theorem forall₂_of_map_eq {α β γ : Type} {f : α → γ} {g : β → γ} {R : α → β → Prop} :
    ∀ {as : List α} {bs : List β}, as.map f = bs.map g →
      (∀ a ∈ as, ∀ b, f a = g b → R a b) → List.Forall₂ R as bs := by
  intro as
  induction as with
  | nil =>
    intro bs h _
    rw [List.map_eq_nil_iff.mp h.symm]
    exact .nil
  | cons a as ih =>
    intro bs h hR
    obtain ⟨b, bs, rfl, hab, hrest⟩ := List.map_eq_cons_iff.mp h.symm
    exact .cons (hR a List.mem_cons_self b hab.symm)
      (ih hrest.symm fun a' ha' => hR a' (List.mem_cons_of_mem _ ha'))

theorem eqUpToOrder_of_arrange_eq {a : Json} :
    ∀ {b : Json}, a.arrange = b.arrange → EqUpToOrder a b := by
  induction a using Json.node_induction with
  | null | bool | int | double | str =>
    intro b h
    cases b <;> simp [arrange_arr, arrange_obj] at h
    first | exact h ▸ .refl _ | exact .refl _
  | arr items ih =>
    intro b h
    cases b with
    | arr items' =>
      rw [arrange_arr, arrange_arr] at h
      injection h with h
      exact .arr (forall₂_of_map_eq h fun v hv w hvw => ih v hv hvw)
    | _ => simp [arrange_arr, arrange_obj] at h
  | obj members ih =>
    intro b h
    cases b with
    | obj members' =>
      rw [arrange_obj, arrange_obj] at h
      injection h with h
      -- undo the sorting on both sides, then match the members through their images
      have hperm : (members.map fun m => (m.1, m.2.arrange)).Perm
          (members'.map fun m => (m.1, m.2.arrange)) :=
        ((inOrder_perm true members).map _).symm.trans
          (h ▸ (inOrder_perm true members').map _)
      obtain ⟨reordered, hmap, hperm⟩ :=
        (congrFun (congrFun (List.eq_map_comp_perm _) _) _).mpr hperm
      refine .obj (forall₂_of_map_eq hmap fun m hm m' hmm' => ?_) hperm
      obtain ⟨key, v⟩ := m
      obtain ⟨key', w⟩ := m'
      injection hmm' with hkey hvw
      subst hkey
      exact .mk (ih _ hm hvw)
    | _ => simp [arrange_arr, arrange_obj] at h

theorem map_eq_of_forall₂ {α β γ : Type} {f : α → γ} {g : β → γ} {R : α → β → Prop}
    {as : List α} {bs : List β} (h : List.Forall₂ R as bs)
    (hR : ∀ a ∈ as, ∀ b, R a b → f a = g b) : as.map f = bs.map g := by
  induction h with
  | nil => rfl
  | cons hab _ ih =>
    rw [List.map_cons, List.map_cons, hR _ List.mem_cons_self _ hab,
      ih fun a ha => hR a (List.mem_cons_of_mem _ ha)]

/-- Two orders of the same members with distinct keys are sorted into one. -/
theorem inOrder_eq_of_perm {α : Type} {members members' : List (Bytes × α)}
    (hperm : members.Perm members') (hnodup : (members.map Prod.fst).Nodup)
    (hnul : ∀ m ∈ members, NulFree m.1) : inOrder true members = inOrder true members' := by
  have hasc := List.pairwise_map.mp (inOrder_ascending hnodup hnul)
  have hasc' := List.pairwise_map.mp (inOrder_ascending
    ((hperm.map Prod.fst).nodup_iff.mp hnodup) fun m hm => hnul m (hperm.mem_iff.mpr hm))
  refine List.Perm.eq_of_pairwise (fun m m' _ _ h h' => ?_) hasc hasc'
    ((inOrder_perm true members).trans (hperm.trans (inOrder_perm true members').symm))
  exact absurd h' (List.lt_asymm h)

theorem arrange_eq_of_eqUpToOrder {a : Json} (ha : a.Every DistinctKeys) :
    ∀ {b : Json}, EqUpToOrder a b → a.arrange = b.arrange := by
  induction a using Json.node_induction with
  | null | bool | int | double | str => intro b h; cases h; rfl
  | arr items ih =>
    intro b h
    cases h with
    | refl => rfl
    | arr h =>
      rw [arrange_arr, arrange_arr,
        map_eq_of_forall₂ h fun v hv w hvw => ih v hv ((every_arr.1 ha).2 v hv) hvw]
  | obj members ih =>
    obtain ⟨⟨hnodup, hnul⟩, hmembers⟩ := every_obj.1 ha
    intro b h
    cases h with
    | refl => rfl
    | @obj _ reordered members' h hperm =>
      have hmap : (members.map fun m => (m.1, m.2.arrange)) =
          reordered.map fun m => (m.1, m.2.arrange) := by
        refine map_eq_of_forall₂ h fun m hm m' hmm' => ?_
        cases hmm' with
        | mk hvw => rw [ih _ hm (hmembers _ hm) hvw]
      rw [arrange_obj, arrange_obj, ← inOrder_map, ← inOrder_map, hmap]
      have hkeys : reordered.map Prod.fst = members.map Prod.fst := by
        have := congrArg (List.map Prod.fst) hmap
        simpa [List.map_map, Function.comp_def] using this.symm
      congr 1
      refine inOrder_eq_of_perm (hperm.map _) ?_ ?_
      · rw [List.map_map]
        exact hkeys ▸ hnodup
      · intro m hm
        obtain ⟨m', hm', rfl⟩ := List.mem_map.mp hm
        have : m'.1 ∈ members.map Prod.fst := hkeys ▸ List.mem_map_of_mem hm'
        obtain ⟨m'', hm'', hkey⟩ := List.mem_map.mp this
        rw [← hkey]
        exact hnul m'' hm''

/-- **Classes.** On trees with distinct keys, being equal up to member order is having the same
    arranged tree. -/
theorem eqUpToOrder_iff {a b : Json} (ha : a.Every DistinctKeys) :
    EqUpToOrder a b ↔ a.arrange = b.arrange :=
  ⟨arrange_eq_of_eqUpToOrder ha, eqUpToOrder_of_arrange_eq⟩

/-! ## The canonical serializer on reordered trees -/

/-- The sort asks for the same memory and returns the same order. -/
theorem writeOrder_eq_of_perm {α : Type} {members members' : List (Bytes × α)}
    (hperm : members.Perm members') (hnodup : (members.map Prod.fst).Nodup)
    (hnul : ∀ m ∈ members, NulFree m.1) : writeOrder true members = writeOrder true members' := by
  have hsorted := inOrder_eq_of_perm hperm hnodup hnul
  have hlen := hperm.length_eq
  unfold inOrder at hsorted
  unfold writeOrder
  rw [hlen] at hsorted ⊢
  split
  · rename_i hsort
    rw [if_pos hsort, if_pos hsort] at hsorted
    unfold sortKeys
    rw [hlen, hsorted]
  · rename_i hsort
    rw [if_neg hsort, if_neg hsort] at hsorted
    rw [hsorted]

/-- **Reordering is invisible** to the canonical serializer: it makes the same requests and appends
    the same bytes. -/
theorem writeValue_eq_of_eqUpToOrder (L : Libc) {a : Json} (ha : a.Every DistinctKeys) :
    ∀ {b : Json}, EqUpToOrder a b → writeValue L true a = writeValue L true b := by
  induction a using Json.node_induction with
  | null | bool | int | double | str => intro b h; cases h; rfl
  | arr items ih =>
    intro b h
    cases h with
    | refl => rfl
    | arr h =>
      funext out
      simp only [writeValue, itemWriters_eq]
      rw [map_eq_of_forall₂ h fun v hv w hvw => ih v hv ((every_arr.1 ha).2 v hv) hvw]
  | obj members ih =>
    obtain ⟨⟨hnodup, hnul⟩, hmembers⟩ := every_obj.1 ha
    intro b h
    cases h with
    | refl => rfl
    | @obj _ reordered members' h hperm =>
      funext out
      have hmap : (members.map fun m => (m.1, writeValue L true m.2)) =
          reordered.map fun m => (m.1, writeValue L true m.2) := by
        refine map_eq_of_forall₂ h fun m hm m' hmm' => ?_
        cases hmm' with
        | mk hvw => rw [ih _ hm (hmembers _ hm) hvw]
      have horder : writeOrder true (members.map fun m => (m.1, writeValue L true m.2)) =
          writeOrder true (members'.map fun m => (m.1, writeValue L true m.2)) := by
        refine writeOrder_eq_of_perm (hmap ▸ hperm.map _) ?_ ?_
        · rw [List.map_map]; exact hnodup
        · intro m hm
          obtain ⟨m', hm', rfl⟩ := List.mem_map.mp hm
          exact hnul m' hm'
      simp only [writeValue, memberWriters_eq, writeObject, horder]

theorem writeCanonical_eq_of_eqUpToOrder (L : Libc) {a b : Json} (ha : a.Every DistinctKeys)
    (h : EqUpToOrder a b) : writeCanonical L a = writeCanonical L b := by
  unfold writeCanonical writeImpl
  rw [writeValue_eq_of_eqUpToOrder L ha h]

end Json

end Tamga
