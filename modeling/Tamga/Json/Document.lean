import Tamga.Json.Grammar

/-!
# `Json.Document` — facts about document trees

The limits of a document are limits of its children one level down (`within_arr`, `within_obj`), and
what the parser does to the members one after the other (`setMember`, folded) is what the
specification says about all of them at once (`lastWins`).
-/

namespace Tamga

namespace Json

/-- Induction with the children of an array or an object given by membership. -/
@[elab_as_elim]
theorem Doc.node_induction {P : Doc → Prop} (null : P .null) (bool : ∀ b, P (.bool b))
    (num : ∀ token, P (.num token)) (str : ∀ s, P (.str s))
    (arr : ∀ items, (∀ doc ∈ items, P doc) → P (.arr items))
    (obj : ∀ members, (∀ m ∈ members, P m.2) → P (.obj members)) (doc : Doc) : P doc :=
  @Doc.rec P (fun items => ∀ doc ∈ items, P doc) (fun members => ∀ m ∈ members, P m.2)
    (fun m => P m.2) null bool num str arr obj
    (fun _ h => absurd h List.not_mem_nil)
    (fun _ _ hx hxs v hv => by
      rcases List.mem_cons.mp hv with rfl | hv
      · exact hx
      · exact hxs v hv)
    (fun _ h => absurd h List.not_mem_nil)
    (fun _ _ hx hxs m hm => by
      rcases List.mem_cons.mp hm with rfl | hm
      · exact hx
      · exact hxs m hm)
    (fun _ _ h => h) doc

/-! ## Limits, child by child -/

namespace Doc

variable {items : List Doc} {d : Nat}

theorem itemsDepth_le : itemsDepth items ≤ d ↔ ∀ doc ∈ items, doc.depth ≤ d := by
  induction items with
  | nil => simp [itemsDepth]
  | cons doc items ih => rw [itemsDepth, max_le_iff, ih, List.forall_mem_cons]

variable {members : List (Bytes × Doc)}

theorem membersDepth_le : membersDepth members ≤ d ↔ ∀ m ∈ members, m.2.depth ≤ d := by
  induction members with
  | nil => simp [membersDepth]
  | cons m members ih => rw [membersDepth, max_le_iff, ih, List.forall_mem_cons]

theorem mem_itemsKeys {k : Bytes} : k ∈ itemsKeys items ↔ ∃ doc ∈ items, k ∈ doc.keys := by
  induction items with
  | nil => simp [itemsKeys]
  | cons doc items ih => simp [itemsKeys, ih]

theorem mem_membersKeys {k : Bytes} :
    k ∈ membersKeys members ↔ ∃ m ∈ members, k = m.1 ∨ k ∈ m.2.keys := by
  induction members with
  | nil => simp [membersKeys]
  | cons m members ih => obtain ⟨key, doc⟩ := m; simp [membersKeys, ih, or_assoc]

theorem mem_itemsTokens {t : Bytes} : t ∈ itemsTokens items ↔ ∃ doc ∈ items, t ∈ doc.tokens := by
  induction items with
  | nil => simp [itemsTokens]
  | cons doc items ih => simp [itemsTokens, ih]

theorem mem_membersTokens {t : Bytes} :
    t ∈ membersTokens members ↔ ∃ m ∈ members, t ∈ m.2.tokens := by
  induction members with
  | nil => simp [membersTokens]
  | cons m members ih => obtain ⟨key, doc⟩ := m; simp [membersTokens, ih]

theorem itemsValue_eq (L : Libc) (items : List Doc) :
    itemsValue L items = items.map (Doc.value L) := by
  induction items with
  | nil => rfl
  | cons doc items ih => rw [itemsValue, ih, List.map_cons]

theorem membersValue_eq (L : Libc) (members : List (Bytes × Doc)) :
    membersValue L members = members.map fun m => (m.1, m.2.value L) := by
  induction members with
  | nil => rfl
  | cons m members ih => rw [membersValue, ih, List.map_cons]

theorem within_arr : (Doc.arr items).Within (d + 1) ↔ ∀ doc ∈ items, doc.Within d := by
  constructor
  · intro h doc hdoc
    exact ⟨itemsDepth_le.1 (Nat.le_of_succ_le_succ h.depth_le) doc hdoc,
      fun k hk => h.keys_nulFree k (mem_itemsKeys.2 ⟨doc, hdoc, hk⟩),
      fun t ht => h.tokens_le t (mem_itemsTokens.2 ⟨doc, hdoc, ht⟩)⟩
  · intro h
    refine ⟨Nat.succ_le_succ (itemsDepth_le.2 fun doc hdoc => (h doc hdoc).depth_le), ?_, ?_⟩
    · intro k hk
      obtain ⟨doc, hdoc, hk⟩ := mem_itemsKeys.1 hk
      exact (h doc hdoc).keys_nulFree k hk
    · intro t ht
      obtain ⟨doc, hdoc, ht⟩ := mem_itemsTokens.1 ht
      exact (h doc hdoc).tokens_le t ht

theorem within_obj :
    (Doc.obj members).Within (d + 1) ↔ ∀ m ∈ members, NulFree m.1 ∧ m.2.Within d := by
  constructor
  · intro h m hm
    exact ⟨h.keys_nulFree _ (mem_membersKeys.2 ⟨m, hm, Or.inl rfl⟩),
      membersDepth_le.1 (Nat.le_of_succ_le_succ h.depth_le) m hm,
      fun k hk => h.keys_nulFree k (mem_membersKeys.2 ⟨m, hm, Or.inr hk⟩),
      fun t ht => h.tokens_le t (mem_membersTokens.2 ⟨m, hm, ht⟩)⟩
  · intro h
    refine ⟨Nat.succ_le_succ (membersDepth_le.2 fun m hm => (h m hm).2.depth_le), ?_, ?_⟩
    · intro k hk
      obtain ⟨m, hm, rfl | hk⟩ := mem_membersKeys.1 hk
      · exact (h m hm).1
      · exact (h m hm).2.keys_nulFree k hk
    · intro t ht
      obtain ⟨m, hm, ht⟩ := mem_membersTokens.1 ht
      exact (h m hm).2.tokens_le t ht

/-- No document has depth 0. -/
theorem Within.pos {doc : Doc} (h : doc.Within d) : ∃ n, d = n + 1 := by
  have hpos : 1 ≤ doc.depth := by cases doc <;> simp [Doc.depth]
  exact ⟨d - 1, by have := h.depth_le; omega⟩

end Doc

/-! ## Repeated members -/

/-- The members set one after the other, as the parser does. -/
def setMembers (done members : List (Bytes × Json)) : List (Bytes × Json) :=
  members.foldl (fun acc m => setMember acc m.1 m.2) done

/-- Setting `key` in a table made from a list of distinct keys. -/
theorem setMember_filterMap {keys : List Bytes} {g : Bytes → Option Json} {key : Bytes} {v : Json}
    (hnodup : keys.Nodup) (hsome : ∀ k ∈ keys, (g k).isSome) :
    setMember (keys.filterMap fun k => (g k).map fun v => (k, v)) key v =
      (if key ∈ keys then keys else keys ++ [key]).filterMap fun k =>
        (if k = key then some v else g k).map fun v => (k, v) := by
  induction keys with
  | nil => simp [setMember]
  | cons a keys ih =>
    obtain ⟨hnot, hnodup⟩ := List.nodup_cons.mp hnodup
    obtain ⟨va, hva⟩ := Option.isSome_iff_exists.mp (hsome a List.mem_cons_self)
    have ih := ih hnodup fun k hk => hsome k (List.mem_cons_of_mem _ hk)
    rw [List.filterMap_cons, hva, Option.map_some]
    by_cases ha : a = key
    · subst ha
      -- the rest of the table does not mention the key
      have hrest : (keys.filterMap fun k => (g k).map fun v => (k, v)) =
          keys.filterMap fun k => (if k = a then some v else g k).map fun v => (k, v) := by
        refine List.filterMap_congr fun k hk => ?_
        rw [if_neg (by rintro rfl; exact hnot hk)]
      simp [setMember, hrest]
    · simp only [setMember, if_neg ha, ih, List.mem_cons, Ne.symm ha, false_or]
      split <;> simp [ha, hva]

theorem eraseDups_snoc (keys : List Bytes) (key : Bytes) :
    (keys ++ [key]).eraseDups =
      if key ∈ keys.eraseDups then keys.eraseDups else keys.eraseDups ++ [key] := by
  rw [List.eraseDups_append]
  by_cases h : key ∈ keys
  · rw [if_pos (List.mem_eraseDups.mpr h)]
    simp [List.removeAll, h]
  · rw [if_neg (mt List.mem_eraseDups.mp h)]
    simp [List.removeAll, h, List.eraseDups_cons]

theorem nodup_eraseDups (keys : List Bytes) : keys.eraseDups.Nodup := by
  induction keys using List.reverseRecOn with
  | nil => simp
  | append_singleton keys key ih =>
    rw [eraseDups_snoc]
    split
    · exact ih
    · rename_i h
      rw [List.nodup_append]
      exact ⟨ih, List.nodup_singleton key, fun a ha b hb => by
        rw [List.mem_singleton.mp hb]; rintro rfl; exact h ha⟩

theorem lookup_isSome {members : List (Bytes × Json)} {key : Bytes}
    (h : key ∈ members.map Prod.fst) : (lookup members key).isSome := by
  obtain ⟨m, hm, rfl⟩ := List.mem_map.mp h
  unfold lookup
  rw [Option.isSome_map, List.find?_isSome]
  exact ⟨m, hm, by simp⟩

theorem lastWins_snoc (members : List (Bytes × Json)) (key : Bytes) (v : Json) :
    lastWins (members ++ [(key, v)]) = setMember (lastWins members) key v := by
  have hlookup : ∀ k, lookup (members ++ [(key, v)]).reverse k =
      if k = key then some v else lookup members.reverse k := by
    intro k
    unfold lookup
    by_cases hk : k = key
    · simp [hk]
    · simp [hk, Ne.symm hk]
  unfold lastWins
  rw [setMember_filterMap (nodup_eraseDups _)]
  · simp only [hlookup, List.map_append, List.map_cons, List.map_nil, eraseDups_snoc]
  · intro k hk
    refine lookup_isSome ?_
    rw [List.map_reverse, List.mem_reverse]
    exact List.mem_eraseDups.mp hk

/-- **Repeated keys.** Setting the members in document order leaves each key where it first occurred,
    with the value it had last. -/
theorem setMembers_nil (members : List (Bytes × Json)) :
    setMembers [] members = lastWins members := by
  induction members using List.reverseRecOn with
  | nil => rfl
  | append_singleton members m ih =>
    unfold setMembers at ih ⊢
    rw [List.foldl_append, ih, lastWins_snoc]
    rfl

end Json

end Tamga
