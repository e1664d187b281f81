import Tamga.Json.ParseSpec

/-!
# `Json.Stored` — a parsed tree is no larger than its text

A tree that comes out of `tamga_json_parse` is **storable**: its tables, keys and strings are within
the bound on the text, its keys are distinct C strings. That is what copying it, and decoding a
string found in it, rely on.
-/

namespace Tamga

namespace Json

variable {L : Libc}

/-! ## Members after repeated keys are merged -/

section LastWins

variable (members : List (Bytes × Json))

theorem nodup_lastWins : ((lastWins members).map Prod.fst).Nodup := by
  induction members using List.reverseRecOn with
  | nil => exact List.nodup_nil
  | append_singleton members m ih =>
    rw [lastWins_snoc]
    exact nodup_setMember ih

theorem length_lastWins_le : (lastWins members).length ≤ members.length := by
  induction members using List.reverseRecOn with
  | nil => exact le_refl _
  | append_singleton members m ih =>
    rw [lastWins_snoc, List.length_append, List.length_singleton]
    exact le_trans length_setMember_le (Nat.succ_le_succ ih)

theorem mem_of_mem_lastWins {m : Bytes × Json} (h : m ∈ lastWins members) : m ∈ members := by
  induction members using List.reverseRecOn with
  | nil => exact h
  | append_singleton members m' ih =>
    rw [lastWins_snoc] at h
    rcases mem_setMember h with h | rfl
    · exact List.mem_append_left _ (ih h)
    · exact List.mem_append_right _ (List.mem_singleton_self _)

end LastWins

/-! ## Texts bound their documents -/

/-- Each part of a separated list has a text of its own inside the whole. -/
theorem Sep.mem {α : Type} {P : α → Bytes → Prop} {as : List α} {t : Bytes} (h : Sep P as t)
    {a : α} (ha : a ∈ as) : ∃ t', P a t' ∧ t'.length ≤ t.length := by
  induction h with
  | @one a' before t' after _ hp _ =>
    rw [List.mem_singleton.mp ha]
    exact ⟨t', hp, by simp only [List.length_append]; omega⟩
  | @cons a' as before t' after ts _ hp _ _ ih =>
    rcases List.mem_cons.mp ha with rfl | ha
    · exact ⟨t', hp, by simp only [List.length_append]; omega⟩
    · obtain ⟨t'', hp', hlen⟩ := ih ha
      exact ⟨t'', hp', by simp only [List.length_append, List.length_cons]; omega⟩

theorem MemberText.length_pos {P : Doc → Bytes → Prop} {m : Bytes × Doc} {t : Bytes}
    (h : MemberText P m t) : 0 < t.length := by
  cases h with
  | mk => simp only [List.length_append, List.length_cons]; omega

theorem numberValue_storable (token : Bytes) : (numberValue L token).Every Storable := by
  unfold numberValue
  cases literalInt token with
  | none => exact every_double.2 trivial
  | some n =>
    show (if fitsInt64 n then Json.int (Int64.ofInt n) else .double (L.strtod token).1).Every Storable
    split
    · exact every_int.2 trivial
    · exact every_double.2 trivial

/-- The value of a text within the bound is storable. -/
theorem ValueText.storable : ∀ {d : Nat} {doc : Doc} {t : Bytes}, doc.Within d → ValueText doc t →
    t.length ≤ maxReasonableLen → (doc.value L).Every Storable := by
  intro d
  induction d with
  | zero =>
    intro doc t hdoc _ _
    obtain ⟨n, hn⟩ := hdoc.pos
    cases hn
  | succ d ih =>
    intro doc t hdoc ht hlen
    cases ht with
    | null => exact every_null.2 trivial
    | litTrue => exact every_bool.2 trivial
    | litFalse => exact every_bool.2 trivial
    | num h => exact numberValue_storable _
    | str h =>
      have := h.length_le
      exact every_str.2 (show List.length _ ≤ _ by omega)
    | arrNil h => exact every_arr.2 ⟨Nat.zero_le _, fun v hv => absurd hv List.not_mem_nil⟩
    | @arr items t h =>
      simp only [List.length_append, List.length_cons] at hlen
      have hcount := h.length_le fun _ _ => ValueText.length_pos
      rw [Doc.value, Doc.itemsValue_eq, every_arr]
      refine ⟨by show List.length _ ≤ _; rw [List.length_map]; omega, fun v hv => ?_⟩
      obtain ⟨doc, hmem, rfl⟩ := List.mem_map.mp hv
      obtain ⟨t', ht', hle⟩ := h.mem hmem
      exact ih (Doc.within_arr.1 hdoc doc hmem) ht' (by omega)
    | objNil h =>
      exact every_obj.2 ⟨⟨Nat.zero_le _, List.nodup_nil, fun m hm => absurd hm List.not_mem_nil⟩,
        fun m hm => absurd hm List.not_mem_nil⟩
    | @obj members t h =>
      simp only [List.length_append, List.length_cons] at hlen
      have hcount := h.length_le fun _ _ => MemberText.length_pos
      have hmembers := Doc.within_obj.1 hdoc
      have hkept := length_lastWins_le (members.map fun m => (m.1, m.2.value L))
      rw [List.length_map] at hkept
      rw [Doc.value, Doc.membersValue_eq, every_obj]
      -- a member that is left is one of the document's
      have hmem : ∀ m ∈ lastWins (members.map fun m => (m.1, m.2.value L)),
          ∃ m' ∈ members, m = (m'.1, m'.2.value L) := by
        intro m hm
        obtain ⟨m', hm', rfl⟩ := List.mem_map.mp (mem_of_mem_lastWins _ hm)
        exact ⟨m', hm', rfl⟩
      refine ⟨⟨by omega, nodup_lastWins _, fun m hm => ?_⟩, fun m hm => ?_⟩
      · obtain ⟨m', hm', rfl⟩ := hmem m hm
        obtain ⟨t', ht', hle⟩ := h.mem hm'
        refine ⟨(hmembers m' hm').1, ?_⟩
        cases ht' with
        | mk hname _ _ _ =>
          have := hname.length_le
          simp only [List.length_append, List.length_cons] at hle ⊢
          omega
      · obtain ⟨m', hm', rfl⟩ := hmem m hm
        have hwithin := (hmembers m' hm').2
        obtain ⟨t', ht', hle⟩ := h.mem hm'
        cases ht' with
        | mk _ _ _ hvalue =>
          simp only [List.length_append, List.length_cons] at hle
          exact ih hwithin hvalue (by omega)

theorem Denotes.storable {t : Bytes} {v : Json} (h : Denotes L t v)
    (hlen : t.length ≤ maxReasonableLen) : v.Every Storable := by
  obtain ⟨doc, ⟨before, body, after, -, hbody, -, rfl⟩, hdoc, rfl⟩ := h
  simp only [List.length_append] at hlen
  exact hbody.storable hdoc (by omega)

/-! ## Looking into a storable tree -/

theorem mem_of_lookup {members : List (Bytes × Json)} {key : Bytes} {v : Json}
    (h : lookup members key = some v) : (key, v) ∈ members := by
  unfold lookup at h
  obtain ⟨m, hm, rfl⟩ := Option.map_eq_some_iff.mp h
  have hkey : m.1 = key := by simpa using List.find?_some hm
  rw [← hkey]
  exact List.mem_of_find?_eq_some hm

theorem Every.objectGet {p : Json → Prop} {v w : Json} {key : Bytes} (h : v.Every p)
    (hget : v.objectGet key = some w) : w.Every p := by
  cases v with
  | obj members => exact (every_obj.1 h).2 _ (mem_of_lookup hget)
  | null | bool | int | double | str | arr => cases hget

end Json

end Tamga
