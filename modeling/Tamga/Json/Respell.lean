import Tamga.Json.RoundTrip

/-!
# `Json.Respell` — documents that differ in the order of members only

Whitespace and the choice among escapes are gone once a text is read as a `Doc`; what two documents
of one JSON value may still differ in is the order of members, and that only where no key is repeated
(`Respelled`). The limits of the parser do not see the difference (`Respelled.within`), and the
values are equal up to order (`Respelled.value`).
-/

namespace Tamga

namespace Json

namespace Doc

/-- One member against another: the same key, related documents. -/
inductive MemberRel (R : Doc → Doc → Prop) : Bytes × Doc → Bytes × Doc → Prop where
  | mk {key : Bytes} {doc doc' : Doc} (h : R doc doc') : MemberRel R (key, doc) (key, doc')

/-- The same document, but for the order of members in objects whose keys are all different. -/
inductive Respelled : Doc → Doc → Prop where
  | refl (doc : Doc) : Respelled doc doc
  | arr {items items' : List Doc} (h : List.Forall₂ Respelled items items') :
      Respelled (.arr items) (.arr items')
  | obj {members members' : List (Bytes × Doc)}
      (h : List.Forall₂ (MemberRel Respelled) members members') :
      Respelled (.obj members) (.obj members')
  | reorder {members reordered members' : List (Bytes × Doc)}
      (hnodup : (members.map Prod.fst).Nodup)
      (h : List.Forall₂ (MemberRel Respelled) members reordered)
      (hperm : reordered.Perm members') : Respelled (.obj members) (.obj members')

/-! ## Limits -/

theorem forall_of_forall₂ {α β : Type} {R : α → β → Prop} {p : α → Prop} {q : β → Prop} {as : List α}
    {bs : List β} (h : List.Forall₂ R as bs) (hR : ∀ a ∈ as, ∀ b, R a b → (p a ↔ q b)) :
    (∀ a ∈ as, p a) ↔ ∀ b ∈ bs, q b := by
  induction h with
  | nil => simp
  | cons hab _ ih =>
    rw [List.forall_mem_cons, List.forall_mem_cons, hR _ List.mem_cons_self _ hab,
      ih fun a ha => hR a (List.mem_cons_of_mem _ ha)]

theorem Respelled.within {doc : Doc} :
    ∀ {doc' : Doc} {d : Nat}, Respelled doc doc' → (doc.Within d ↔ doc'.Within d) := by
  induction doc using Doc.node_induction with
  | null | bool | num | str => intro doc' d h; cases h; rfl
  | arr items ih =>
    intro doc' d h
    cases h with
    | refl => rfl
    | arr h =>
      cases d with
      | zero => exact ⟨fun h => absurd h.pos (by simp), fun h => absurd h.pos (by simp)⟩
      | succ d =>
        rw [within_arr, within_arr]
        exact forall_of_forall₂ h fun doc hdoc _ h => ih doc hdoc h
  | obj members ih =>
    -- the limits of an object are limits of its members, in whatever order
    have hmembers : ∀ {reordered : List (Bytes × Doc)} {d : Nat},
        List.Forall₂ (MemberRel Respelled) members reordered →
          ((∀ m ∈ members, NulFree m.1 ∧ m.2.Within d) ↔
            ∀ m ∈ reordered, NulFree m.1 ∧ m.2.Within d) := by
      intro reordered d h
      refine forall_of_forall₂ h fun m hm m' hmm' => ?_
      cases hmm' with
      | mk hdoc => exact and_congr Iff.rfl (ih _ hm hdoc)
    intro doc' d h
    cases d with
    | zero => exact ⟨fun h => absurd h.pos (by simp), fun h => absurd h.pos (by simp)⟩
    | succ d =>
      cases h with
      | refl => rfl
      | obj h =>
        rw [within_obj, within_obj]
        exact hmembers h
      | reorder _ h hperm =>
        rw [within_obj, within_obj, hmembers h]
        exact ⟨fun h m hm => h m (hperm.mem_iff.mpr hm), fun h m hm => h m (hperm.mem_iff.mp hm)⟩

end Doc

/-! ## Values -/

theorem forall₂_imp_mem {α β : Type} {R S : α → β → Prop} {as : List α} {bs : List β}
    (h : List.Forall₂ R as bs) (hRS : ∀ a ∈ as, ∀ b, R a b → S a b) : List.Forall₂ S as bs := by
  induction h with
  | nil => exact .nil
  | cons hab _ ih =>
    exact .cons (hRS _ List.mem_cons_self _ hab) (ih fun a ha => hRS a (List.mem_cons_of_mem _ ha))

section Values

variable {R : Json → Json → Prop} {members members' : List (Bytes × Json)}

theorem MemberRel.keys (h : List.Forall₂ (MemberRel R) members members') :
    members.map Prod.fst = members'.map Prod.fst :=
  map_eq_of_forall₂ h fun _ _ _ h => by cases h; rfl

theorem lookup_rel (h : List.Forall₂ (MemberRel R) members members') (key : Bytes) :
    Option.Rel R (lookup members key) (lookup members' key) := by
  unfold lookup
  induction h with
  | nil => exact .none
  | @cons m m' ms ms' hm _ ih =>
    cases hm with
    | @mk k v w hvw =>
      by_cases hk : k = key
      · simpa [hk] using Option.Rel.some hvw
      · simpa [hk] using ih

/-- Related members give related tables, whichever of them are overwritten. -/
theorem lastWins_rel (h : List.Forall₂ (MemberRel R) members members') :
    List.Forall₂ (MemberRel R) (lastWins members) (lastWins members') := by
  unfold lastWins
  rw [MemberRel.keys h]
  have hlookup := lookup_rel (List.rel_reverse h)
  generalize (members'.map Prod.fst).eraseDups = keys
  induction keys with
  | nil => exact .nil
  | cons key keys ih =>
    rw [List.filterMap_cons, List.filterMap_cons]
    have hkey := hlookup key
    generalize lookup members.reverse key = a, lookup members'.reverse key = b at hkey
    cases hkey with
    | none => exact ih
    | some hvw => exact .cons (.mk hvw) ih

end Values

/-- **One value.** Respelled documents denote trees that are equal up to the order of members. -/
theorem Doc.Respelled.value (L : Libc) {doc : Doc} :
    ∀ {doc' : Doc}, Respelled doc doc' → EqUpToOrder (doc.value L) (doc'.value L) := by
  induction doc using Doc.node_induction with
  | null | bool | num | str => intro doc' h; cases h; exact .refl _
  | arr items ih =>
    intro doc' h
    cases h with
    | refl => exact .refl _
    | arr h =>
      rw [Doc.value, Doc.value, itemsValue_eq, itemsValue_eq]
      refine .arr (List.forall₂_map_left_iff.mpr (List.forall₂_map_right_iff.mpr ?_))
      exact forall₂_imp_mem h fun doc hdoc _ h => ih doc hdoc h
  | obj members ih =>
    have hmembers : ∀ {reordered : List (Bytes × Doc)},
        List.Forall₂ (Doc.MemberRel Respelled) members reordered →
          List.Forall₂ (Json.MemberRel EqUpToOrder) (membersValue L members)
            (membersValue L reordered) := by
      intro reordered h
      rw [membersValue_eq, membersValue_eq]
      refine List.forall₂_map_left_iff.mpr (List.forall₂_map_right_iff.mpr ?_)
      refine forall₂_imp_mem h fun m hm m' hmm' => ?_
      cases hmm' with
      | mk hdoc => exact .mk (ih _ hm hdoc)
    intro doc' h
    cases h with
    | refl => exact .refl _
    | obj h => exact .obj (lastWins_rel (hmembers h)) (List.Perm.refl _)
    | @reorder _ reordered members' hnodup h hperm =>
      -- no key is repeated on either side, so nothing is overwritten
      have hkeys : ∀ ms : List (Bytes × Doc),
          (membersValue L ms).map Prod.fst = ms.map Prod.fst := fun ms => by
        rw [membersValue_eq, List.map_map]; rfl
      have hreordered : (reordered.map Prod.fst).Nodup := by
        rw [← hkeys, ← MemberRel.keys (hmembers h), hkeys]
        exact hnodup
      rw [Doc.value, Doc.value, lastWins_of_nodup (by rw [hkeys]; exact hnodup),
        lastWins_of_nodup (by rw [hkeys]; exact (hperm.map Prod.fst).nodup_iff.mp hreordered)]
      refine .obj (hmembers h) ?_
      rw [membersValue_eq, membersValue_eq]
      exact hperm.map _

end Json

end Tamga
