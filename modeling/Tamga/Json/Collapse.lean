import Tamga.Json.Floating

/-!
# `Json.Collapse` — which trees share a canonical text

JSON has no word for an infinity or a NaN: the serializer writes `null` for either. `nullify` is the
tree with that said in it. On a library whose conversions are correct nothing else collapses: two
trees have one canonical text iff they are equal up to order once nullified (`text_canonical_iff`).
-/

namespace Tamga

namespace Json

mutual

/-- `v` with `null` in place of every number that is not finite. -/
def nullify : Json → Json
  | .double d => if d.isFinite then .double d else .null
  | .arr items => .arr (nullifyItems items)
  | .obj members => .obj (nullifyMembers members)
  | v => v

def nullifyItems : List Json → List Json
  | [] => []
  | v :: items => v.nullify :: nullifyItems items

def nullifyMembers : List (Bytes × Json) → List (Bytes × Json)
  | [] => []
  | (key, v) :: members => (key, v.nullify) :: nullifyMembers members

end

theorem nullify_arr (items : List Json) : (Json.arr items).nullify = .arr (items.map nullify) := by
  have h : nullifyItems items = items.map nullify := by
    induction items with
    | nil => rfl
    | cons v items ih => rw [nullifyItems, ih, List.map_cons]
  rw [nullify, h]

theorem nullify_obj (members : List (Bytes × Json)) :
    (Json.obj members).nullify = .obj (members.map fun m => (m.1, m.2.nullify)) := by
  have h : nullifyMembers members = members.map fun m => (m.1, m.2.nullify) := by
    induction members with
    | nil => rfl
    | cons m members ih => rw [nullifyMembers, ih, List.map_cons]
  rw [nullify, h]

/-- No number in the tree is an infinity or a NaN, node by node. -/
def FiniteNumber : Json → Prop
  | .double d => d.isFinite = true
  | _ => True

theorem nullify_of_finite {v : Json} (hv : v.Every FiniteNumber) : v.nullify = v := by
  induction v using Json.node_induction with
  | null | bool | int | str => rfl
  | double d =>
    have hfin : d.isFinite = true := hv.self
    rw [nullify, if_pos hfin]
  | arr items ih =>
    rw [nullify_arr, List.map_congr_left fun v hmem => ih v hmem ((every_arr.1 hv).2 v hmem),
      List.map_id']
  | obj members ih =>
    have hmembers : ∀ m ∈ members, (m.1, m.2.nullify) = m :=
      fun m hm => by rw [ih m hm ((every_obj.1 hv).2 m hm)]
    rw [nullify_obj, List.map_congr_left hmembers, List.map_id']

/-- **The text does not tell.** -/
theorem text_nullify (L : Libc) (canonical : Bool) (v : Json) :
    v.nullify.text L canonical = v.text L canonical := by
  induction v using Json.node_induction with
  | null | bool | int | str => rfl
  | double d =>
    rw [nullify]
    split
    · rfl
    · rename_i hfin
      rw [text, text, doubleText, if_pos hfin]
  | arr items ih =>
    rw [nullify_arr, text, text, itemTexts_eq, itemTexts_eq, List.map_map]
    simp only [Function.comp_def]
    rw [List.map_congr_left ih]
  | obj members ih =>
    have hmembers : ∀ m ∈ members, (m.1, m.2.nullify.text L canonical) = (m.1, m.2.text L canonical) :=
      fun m hm => by rw [ih m hm]
    rw [nullify_obj, text, text, memberTexts_eq, memberTexts_eq, List.map_map]
    simp only [Function.comp_def]
    rw [List.map_congr_left hmembers]

/-- What is left identifies its numbers. -/
theorem identified_nullify {L : Libc} (hL : L.Correct) {v : Json} (hv : v.Every DistinctKeys) :
    Identified L v.nullify := by
  induction v using Json.node_induction with
  | null | bool | int | str => exact ⟨by simp [nullify, Recoverable], hv⟩
  | double d =>
    rw [nullify]
    split
    · rename_i hfin
      exact ⟨every_double.2 (recoverable_double hL hfin), hv⟩
    · exact ⟨every_null.2 trivial, every_null.2 trivial⟩
  | arr items ih =>
    have hitems : ∀ w ∈ items.map nullify, Identified L w := by
      intro w hw
      obtain ⟨v, hmem, rfl⟩ := List.mem_map.mp hw
      exact ih v hmem ((every_arr.1 hv).2 v hmem)
    rw [nullify_arr]
    exact ⟨every_arr.2 ⟨trivial, fun w hw => (hitems w hw).1⟩,
      every_arr.2 ⟨trivial, fun w hw => (hitems w hw).2⟩⟩
  | obj members ih =>
    obtain ⟨⟨hnodup, hnul⟩, hmembers⟩ := every_obj.1 hv
    have hvalues : ∀ m ∈ members.map fun m => (m.1, m.2.nullify), NulFree m.1 ∧ Identified L m.2 := by
      intro w hw
      obtain ⟨m, hmem, rfl⟩ := List.mem_map.mp hw
      exact ⟨hnul m hmem, ih m hmem (hmembers m hmem)⟩
    rw [nullify_obj]
    refine ⟨every_obj.2 ⟨trivial, fun m hm => (hvalues m hm).2.1⟩, every_obj.2 ⟨⟨?_, ?_⟩, ?_⟩⟩
    · rw [List.map_map]; exact hnodup
    · exact fun m hm => (hvalues m hm).1
    · exact fun m hm => (hvalues m hm).2.2

theorem Identified.arrange {L : Libc} {v : Json} (h : Identified L v) : Identified L v.arrange :=
  ⟨every_arrange (fun _ _ _ _ => trivial) (fun _ _ _ _ => trivial) h.1, distinctKeys_arrange h.2⟩

/-- **What canonical output identifies.** -/
theorem text_canonical_iff {L : Libc} (hL : L.Correct) {a b : Json} (ha : a.Every DistinctKeys)
    (hb : b.Every DistinctKeys) :
    a.text L true = b.text L true ↔ EqUpToOrder a.nullify b.nullify := by
  have hia := identified_nullify hL ha
  have hib := identified_nullify hL hb
  rw [← text_nullify L true a, ← text_nullify L true b, text_arrange, text_arrange,
    eqUpToOrder_iff hia.2]
  constructor
  · intro h; exact text_injective hia.arrange hib.arrange h
  · intro h; rw [h]

end Json

end Tamga
