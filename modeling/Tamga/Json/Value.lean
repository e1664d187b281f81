import Tamga.Util.Buf

/-!
# `Json.Value` — the document tree (`util/json.c`)

The tree is the source's: integers keep their exact `int64_t`, every other number is a `double`,
strings carry an explicit length (so they may contain NUL bytes), arrays and objects are ordered.
Object keys are C strings.

A node is built with one request, a string node with two, and the item and member tables grow by
doubling. The capacity of a table is not stored: it is `tableCap` of its length, because a table
only ever grows by one entry at a time (`tableCap_succ`).
-/

namespace Tamga

open Alloc

/-- An IEEE 754 binary64 value, by its bit pattern. -/
structure Double where
  bits : UInt64
  deriving DecidableEq, Repr

namespace Double

def signBit (x : Double) : Bool := x.bits.toNat / 2 ^ 63 = 1
def biasedExponent (x : Double) : Nat := x.bits.toNat / 2 ^ 52 % 2 ^ 11
def fraction (x : Double) : Nat := x.bits.toNat % 2 ^ 52

def isFinite (x : Double) : Bool := x.biasedExponent ≠ 2047
def isNaN (x : Double) : Bool := x.biasedExponent = 2047 ∧ x.fraction ≠ 0
def isZero (x : Double) : Bool := x.biasedExponent = 0 ∧ x.fraction = 0

/-- C's `==`: NaN equals nothing, the two zeros equal each other. -/
def eq (x y : Double) : Bool := !x.isNaN && !y.isNaN && (x = y || x.isZero && y.isZero)

/-- The significand, as an integer multiple of `2 ^ (exponent - 1075)`. -/
def significand (x : Double) : Nat :=
  if x.biasedExponent = 0 then x.fraction else 2 ^ 52 + x.fraction

/-- The value of a finite `x` when it is an integer of absolute value at most `2 ^ 53`. -/
def toInt? (x : Double) : Option Int :=
  if ¬ x.isFinite then none else
  let exponent := max 1 x.biasedExponent
  let magnitude? : Option Nat :=
    if 1075 ≤ exponent then some (x.significand * 2 ^ (exponent - 1075))
    else if x.significand % 2 ^ (1075 - exponent) = 0 then
      some (x.significand / 2 ^ (1075 - exponent))
    else none
  match magnitude? with
  | none => none
  | some m => if 2 ^ 53 < m then none else some (if x.signBit then -m else m)

end Double

/-- `TamgaJson`. -/
inductive Json : Type where
  | null
  | bool (boolean : Bool)
  | int (integer : Int64)
  | double (real : Double)
  | str (bytes : Bytes)
  | arr (items : List Json)
  | obj (members : List (Bytes × Json))

namespace Json

/-- Induction with the children of an array or an object given by membership. -/
@[elab_as_elim]
theorem node_induction {P : Json → Prop} (null : P .null) (bool : ∀ b, P (.bool b))
    (int : ∀ n, P (.int n)) (double : ∀ d, P (.double d)) (str : ∀ s, P (.str s))
    (arr : ∀ items, (∀ v ∈ items, P v) → P (.arr items))
    (obj : ∀ members, (∀ m ∈ members, P m.2) → P (.obj members)) (v : Json) : P v :=
  @Json.rec P (fun items => ∀ v ∈ items, P v) (fun members => ∀ m ∈ members, P m.2) (fun m => P m.2)
    null bool int double str arr obj
    (fun _ h => absurd h List.not_mem_nil)
    (fun _ _ hx hxs v hv => by
      rcases List.mem_cons.mp hv with rfl | hv
      · exact hx
      · exact hxs v hv)
    (fun _ h => absurd h List.not_mem_nil)
    (fun _ _ hx hxs m hm => by
      rcases List.mem_cons.mp hm with rfl | hm
      · exact hx
      · exact hxs m hm)
    (fun _ _ h => h) v

/-- `Node w v`: the value `w` occurs in `v`, at any depth. -/
inductive Node (w : Json) : Json → Prop where
  | self : Node w w
  | item {v : Json} {items : List Json} (hv : v ∈ items) (h : Node w v) : Node w (.arr items)
  | member {m : Bytes × Json} {members : List (Bytes × Json)} (hm : m ∈ members)
      (h : Node w m.2) : Node w (.obj members)

/-- `p` holds at every value inside `v`, `v` itself included. -/
def Every (p : Json → Prop) (v : Json) : Prop := ∀ w, Node w v → p w

section Every

variable {p q : Json → Prop} {v : Json}

theorem Every.self (h : v.Every p) : p v := h v .self

theorem Every.mono (h : v.Every p) (hpq : ∀ w, p w → q w) : v.Every q :=
  fun w hw => hpq w (h w hw)

variable {items : List Json}

@[simp] theorem every_arr : (Json.arr items).Every p ↔ p (.arr items) ∧ ∀ v ∈ items, v.Every p := by
  constructor
  · intro h; exact ⟨h.self, fun v hv w hw => h w (.item hv hw)⟩
  · rintro ⟨h0, h⟩ w hw
    cases hw with
    | self => exact h0
    | item hv hw => exact h _ hv w hw

variable {members : List (Bytes × Json)}

@[simp] theorem every_obj :
    (Json.obj members).Every p ↔ p (.obj members) ∧ ∀ m ∈ members, m.2.Every p := by
  constructor
  · intro h; exact ⟨h.self, fun m hm w hw => h w (.member hm hw)⟩
  · rintro ⟨h0, h⟩ w hw
    cases hw with
    | self => exact h0
    | member hm hw => exact h _ hm w hw

theorem every_leaf (hleaf : ∀ w, Node w v → w = v) : v.Every p ↔ p v :=
  ⟨fun h => h.self, fun h w hw => hleaf w hw ▸ h⟩

@[simp] theorem every_null : Json.null.Every p ↔ p .null := every_leaf fun _ h => by cases h; rfl
@[simp] theorem every_bool {b : Bool} : (Json.bool b).Every p ↔ p (.bool b) :=
  every_leaf fun _ h => by cases h; rfl
@[simp] theorem every_int {n : Int64} : (Json.int n).Every p ↔ p (.int n) :=
  every_leaf fun _ h => by cases h; rfl
@[simp] theorem every_double {d : Double} : (Json.double d).Every p ↔ p (.double d) :=
  every_leaf fun _ h => by cases h; rfl
@[simp] theorem every_str {s : Bytes} : (Json.str s).Every p ↔ p (.str s) :=
  every_leaf fun _ h => by cases h; rfl

end Every

/-! ## Equality -/

mutual

/-- Equality of trees, as a computation. -/
def beq : Json → Json → Bool
  | .null, .null => true
  | .bool a, .bool b => a = b
  | .int a, .int b => a = b
  | .double a, .double b => a = b
  | .str a, .str b => a = b
  | .arr a, .arr b => beqItems a b
  | .obj a, .obj b => beqMembers a b
  | _, _ => false

def beqItems : List Json → List Json → Bool
  | [], [] => true
  | a :: as, b :: bs => beq a b && beqItems as bs
  | _, _ => false

def beqMembers : List (Bytes × Json) → List (Bytes × Json) → Bool
  | [], [] => true
  | (k, a) :: as, (l, b) :: bs => k = l && (beq a b && beqMembers as bs)
  | _, _ => false

end

theorem beq_iff (a : Json) : ∀ b, beq a b = true ↔ a = b := by
  induction a using Json.node_induction with
  | null => intro b; cases b <;> simp [beq]
  | bool x => intro b; cases b <;> simp [beq]
  | int n => intro b; cases b <;> simp [beq]
  | double d => intro b; cases b <;> simp [beq]
  | str s => intro b; cases b <;> simp [beq]
  | arr items ih =>
    have hitems : ∀ bs, beqItems items bs = true ↔ items = bs := by
      induction items with
      | nil => intro bs; cases bs <;> simp [beqItems]
      | cons a as ihs =>
        intro bs
        cases bs with
        | nil => simp [beqItems]
        | cons b bs =>
          simp [beqItems, ih a List.mem_cons_self b,
            ihs (fun v hv => ih v (List.mem_cons_of_mem _ hv)) bs]
    intro b
    cases b <;> simp [beq, hitems]
  | obj members ih =>
    have hmembers : ∀ bs, beqMembers members bs = true ↔ members = bs := by
      induction members with
      | nil => intro bs; cases bs <;> simp [beqMembers]
      | cons a as ihs =>
        intro bs
        obtain ⟨k, a⟩ := a
        cases bs with
        | nil => simp [beqMembers]
        | cons b bs =>
          obtain ⟨l, b⟩ := b
          simp [beqMembers, ih (k, a) List.mem_cons_self b,
            ihs (fun v hv => ih v (List.mem_cons_of_mem _ hv)) bs, and_assoc]
    intro b
    cases b <;> simp [beq, hmembers]

instance : DecidableEq Json := fun a b => decidable_of_iff (beq a b = true) (beq_iff a b)

/-! ## Depth -/

mutual

/-- How deep values are nested, counting the value itself. -/
def depth : Json → Nat
  | .arr items => itemsDepth items + 1
  | .obj members => membersDepth members + 1
  | _ => 1

def itemsDepth : List Json → Nat
  | [] => 0
  | v :: items => max v.depth (itemsDepth items)

def membersDepth : List (Bytes × Json) → Nat
  | [] => 0
  | (_, v) :: members => max v.depth (membersDepth members)

end

/-! ## Members -/

/-- The value of the first member with this key. -/
def lookup (members : List (Bytes × Json)) (key : Bytes) : Option Json :=
  (members.find? fun m => m.1 = key).map Prod.snd

/-- A repeated key replaces the value in place; a new one goes to the end. -/
def setMember : List (Bytes × Json) → Bytes → Json → List (Bytes × Json)
  | [], key, item => [(key, item)]
  | (k, v) :: rest, key, item =>
      if k = key then (k, item) :: rest else (k, v) :: setMember rest key item

/-! ## Construction -/

/-- `tamga_json_new` and the scalar constructors over it: one block. -/
def new (value : Json) : Alloc (Option Json) := do
  if ← malloc then return some value else return none

/-- `tamga_json_new_string`: the copy, then the node. -/
def newString (utf8 : Bytes) : Alloc (Option Json) := do
  if ← malloc then new (.str utf8) else return none

def newArray : Alloc (Option Json) := new (.arr [])
def newObject : Alloc (Option Json) := new (.obj [])

/-- Capacity of a table of `count` entries: none, then 16, then doubling. -/
def tableCap (count : Nat) : Nat := if count = 0 then 0 else max 16 (2 ^ (Nat.log2 (count - 1) + 1))

/-- `tamga_json_grow`, for a table of `count` entries of `elemSize` bytes about to get one more. -/
def grow (count elemSize : Nat) : Alloc Bool :=
  if count < tableCap count then pure true else
  match checkedMul (if tableCap count = 0 then 8 else tableCap count) 2 with
  | none => pure false
  | some newCap =>
      match checkedMul newCap elemSize with
      | none => pure false
      | some _ => malloc

/-- `tamga_json_array_append`; `none` is `false`. -/
def arrayAppend (array : Json) (item : Option Json) : Alloc (Option Json) :=
  match array, item with
  | .arr items, some item => do
      if ← grow items.length 8 then return some (.arr (items ++ [item])) else return none
  | _, _ => pure none

/-- `tamga_json_object_set`; `none` is `false`. Replacing a value allocates nothing. -/
def objectSet (object : Json) (key : Bytes) (item : Option Json) : Alloc (Option Json) :=
  match object, item with
  | .obj members, some item =>
      if (members.map Prod.fst).contains (cstr key) then
        pure (some (.obj (setMember members (cstr key) item)))
      else do
        if ← grow members.length 24 then
          match ← strndup (cstr key) with
          | none => return none
          | some keyCopy => return some (.obj (members ++ [(keyCopy, item)]))
        else return none
  | _, _ => pure none

/-- `tamga_json_object_set(object, key, tamga_json_new_string(utf8, len))`. -/
def setString (object : Json) (key utf8 : Bytes) : Alloc (Option Json) := do
  let item ← newString utf8
  objectSet object key item

mutual

/-- `tamga_json_clone`. -/
def clone : Json → Alloc (Option Json)
  | .null => new .null
  | .bool b => new (.bool b)
  | .int n => new (.int n)
  | .double d => new (.double d)
  | .str bytes => newString bytes
  | .arr items => do
      match ← newArray with
      | none => return none
      | some copy => cloneItems copy items
  | .obj members => do
      match ← newObject with
      | none => return none
      | some copy => cloneMembers copy members

/-- The loop of the array case. -/
def cloneItems (copy : Json) : List Json → Alloc (Option Json)
  | [] => pure (some copy)
  | v :: items => do
      match ← clone v with
      | none => return none
      | some child =>
          match ← arrayAppend copy (some child) with
          | none => return none
          | some copy => cloneItems copy items

/-- The loop of the object case. -/
def cloneMembers (copy : Json) : List (Bytes × Json) → Alloc (Option Json)
  | [] => pure (some copy)
  | (key, v) :: members => do
      match ← clone v with
      | none => return none
      | some child =>
          match ← objectSet copy key (some child) with
          | none => return none
          | some copy => cloneMembers copy members

end

/-! ## Inspection

A NULL value is `none`; the accessors below are applied to a value that is there, and callers chain
them with `Option.bind`, which is what the source's NULL checks amount to. -/

def isObject : Json → Bool
  | .obj _ => true
  | _ => false

/-- `tamga_json_as_int`: an integer, or a double that is one and not past `2^53`. -/
def asInt : Json → Option Int64
  | .int n => some n
  | .double d => d.toInt?.map Int64.ofInt
  | _ => none

/-- `tamga_json_as_string`: the bytes with their length. -/
def asString : Json → Option Bytes
  | .str bytes => some bytes
  | _ => none

/-- The items of an array, as `tamga_json_array_len` and `tamga_json_array_at` give them. -/
def arrayItems : Json → List Json
  | .arr items => items
  | _ => []

/-- The members of an object, as `tamga_json_object_key_at` and `_value_at` give them. -/
def objectMembers : Json → List (Bytes × Json)
  | .obj members => members
  | _ => []

/-- `tamga_json_object_get`, for a C string `key`. -/
def objectGet (value : Json) (key : Bytes) : Option Json :=
  match value with
  | .obj members => lookup members (cstr key)
  | _ => none

variable {F : Prop}

/-! ## The table capacity follows the source's doubling -/

theorem tableCap_succ (count : Nat) :
    tableCap (count + 1) =
      if count < tableCap count then tableCap count
      else 2 * (if tableCap count = 0 then 8 else tableCap count) := by
  unfold tableCap
  by_cases hsmall : count < 2
  · interval_cases count <;> decide
  obtain ⟨k, hk⟩ : ∃ k, Nat.log2 (count - 1) = k := ⟨_, rfl⟩
  obtain ⟨hlo, hhi⟩ := (Nat.log2_eq_iff (by omega)).1 hk
  rw [if_neg (by omega), if_neg (by omega : count ≠ 0), hk, Nat.add_sub_cancel]
  by_cases hstep : count < 2 ^ (k + 1)
  · rw [(Nat.log2_eq_iff (by omega)).2 ⟨by omega, hstep⟩, if_pos (lt_max_of_lt_right hstep)]
  · -- the logarithm steps up exactly when `count` is a power of two
    have hcount : count = 2 ^ (k + 1) := by omega
    rw [hcount, Nat.log2_two_pow]
    by_cases hk3 : k < 3
    · interval_cases k <;> decide
    · have hpow : 2 ^ 4 ≤ 2 ^ (k + 1) := Nat.pow_le_pow_right (by decide) (by omega)
      rw [max_eq_right (by omega), max_eq_right (by rw [pow_succ]; omega), if_neg (lt_irrefl _),
        if_neg (by omega), pow_succ _ (k + 1), Nat.mul_comm]

theorem new_can {v : Json} (h : (new v).Can F r) : r = some v ∨ F ∧ r = none := by
  rcases malloc_can h with h | ⟨hF, h⟩
  · exact Or.inl (can_pure.1 h).symm
  · exact Or.inr ⟨hF, (can_pure.1 h).symm⟩

theorem newString_can {s : Bytes} (h : (newString s).Can F r) :
    r = some (.str s) ∨ F ∧ r = none := by
  rcases malloc_can h with h | ⟨hF, h⟩
  · exact new_can h
  · exact Or.inr ⟨hF, (can_pure.1 h).symm⟩

theorem tableCap_le {count : Nat} : tableCap count ≤ max 16 (2 * count) := by
  induction count with
  | zero => exact Nat.zero_le _
  | succ count ih =>
    rw [tableCap_succ]
    split
    · omega
    · split <;> omega

/-- Growing a table of reasonable size fails only when the allocator does. -/
theorem grow_can {count elemSize : Nat} {b : Bool} (hcount : count ≤ maxReasonableLen)
    (helem : elemSize ≤ 24) (h : (grow count elemSize).Can F b) : b = true ∨ F ∧ b = false := by
  unfold grow at h
  split at h
  · exact Or.inl (can_pure.1 h).symm
  -- the new capacity is at most four times a reasonable length, far from overflowing
  have hcap : (if tableCap count = 0 then 8 else tableCap count) * 2 ≤ 4 * maxReasonableLen := by
    have := @tableCap_le count
    have : max 16 (2 * count) ≤ 2 * maxReasonableLen :=
      max_le (by decide) (by omega)
    have : 8 * 2 ≤ 4 * maxReasonableLen := by decide
    split <;> omega
  have hsize : ∀ n : Nat, n ≤ 4 * maxReasonableLen → n * 24 ≤ sizeMax := by
    intro n hn
    have : 4 * maxReasonableLen * 24 ≤ sizeMax := by decide
    omega
  rw [checkedMul_of_le (le_trans (by omega) (hsize _ hcap))] at h
  simp only at h
  rw [checkedMul_of_le (le_trans (Nat.mul_le_mul_left _ helem) (hsize _ hcap))] at h
  exact can_request.1 h

theorem arrayAppend_can {v : Json} (hcount : items.length ≤ maxReasonableLen)
    (h : (arrayAppend (.arr items) (some v)).Can F r) :
    r = some (.arr (items ++ [v])) ∨ F ∧ r = none := by
  obtain ⟨b, hb, h⟩ := can_bind.1 h
  rcases grow_can hcount (by decide) hb with rfl | ⟨hF, rfl⟩
  · exact Or.inl (can_pure.1 h).symm
  · exact Or.inr ⟨hF, (can_pure.1 h).symm⟩

variable {key : Bytes}

theorem setMember_of_notMem {item : Json}
    (h : key ∉ members.map Prod.fst) : setMember members key item = members ++ [(key, item)] := by
  induction members with
  | nil => rfl
  | cons m rest ih =>
    obtain ⟨k, v⟩ := m
    rw [List.map_cons, List.mem_cons, not_or] at h
    rw [setMember, if_neg (fun hk => h.1 hk.symm), ih h.2]
    rfl

theorem objectSet_can {item : Json} (hcount : members.length ≤ maxReasonableLen)
    (hkey : key.length ≤ maxReasonableLen) (hnul : NulFree key)
    (h : (objectSet (.obj members) key (some item)).Can F r) :
    r = some (.obj (setMember members key item)) ∨ F ∧ r = none := by
  unfold objectSet at h
  simp only [cstr_of_nulFree hnul] at h
  split at h
  · exact Or.inl (can_pure.1 h).symm
  rename_i hnew
  obtain ⟨b, hb, h⟩ := can_bind.1 h
  rcases grow_can hcount (by decide) hb with rfl | ⟨hF, rfl⟩
  · obtain ⟨k, hk, h⟩ := can_bind.1 h
    rcases strndup_can hkey hnul hk with rfl | ⟨hF, rfl⟩
    · rw [setMember_of_notMem (by simpa using hnew)]
      exact Or.inl (can_pure.1 h).symm
    · exact Or.inr ⟨hF, (can_pure.1 h).symm⟩
  · exact Or.inr ⟨hF, (can_pure.1 h).symm⟩

/-! ## Members after a replacement -/

section Members

variable {members : List (Bytes × Json)} {key k : Bytes} {item : Json}

/-- The keys stay, in place; a new key goes to the end. -/
theorem keys_setMember :
    (setMember members key item).map Prod.fst =
      if key ∈ members.map Prod.fst then members.map Prod.fst
      else members.map Prod.fst ++ [key] := by
  induction members with
  | nil => rfl
  | cons m rest ih =>
    obtain ⟨k, v⟩ := m
    unfold setMember
    by_cases hk : k = key
    · subst hk
      simp
    · rw [if_neg hk, List.map_cons, ih]
      simp only [List.map_cons, List.mem_cons, Ne.symm hk, false_or]
      split
      · rfl
      · rfl

theorem nodup_setMember (h : (members.map Prod.fst).Nodup) :
    ((setMember members key item).map Prod.fst).Nodup := by
  rw [keys_setMember]
  split
  · exact h
  · rename_i hk
    rw [List.nodup_append]
    exact ⟨h, List.nodup_singleton key, fun a ha b hb => by
      rw [List.mem_singleton.mp hb]; rintro rfl; exact hk ha⟩

theorem mem_setMember {m : Bytes × Json} (h : m ∈ setMember members key item) :
    m ∈ members ∨ m = (key, item) := by
  induction members with
  | nil => exact Or.inr (List.mem_singleton.mp h)
  | cons m' rest ih =>
    obtain ⟨k, v⟩ := m'
    unfold setMember at h
    split at h
    · rename_i hk
      subst hk
      rcases List.mem_cons.mp h with rfl | h
      · exact Or.inr rfl
      · exact Or.inl (List.mem_cons_of_mem _ h)
    · rcases List.mem_cons.mp h with rfl | h
      · exact Or.inl List.mem_cons_self
      · exact (ih h).imp (List.mem_cons_of_mem _) id

theorem length_setMember_le : (setMember members key item).length ≤ members.length + 1 := by
  have := congrArg List.length (@keys_setMember members key item)
  rw [List.length_map] at this
  rw [this]
  split <;> simp

end Members

/-! ## Copies

A tree that fits the DOM's own limits is copied as it is; the parser only builds such trees. -/

/-- What `tamga_json_object_set` and the tables ask of one value, not looking below it, and a bound on
    the bytes of a string. -/
def Storable : Json → Prop
  | .str bytes => bytes.length ≤ maxReasonableLen
  | .arr items => items.length ≤ maxReasonableLen
  | .obj members =>
      members.length ≤ maxReasonableLen ∧ (members.map Prod.fst).Nodup ∧
        ∀ m ∈ members, NulFree m.1 ∧ m.1.length ≤ maxReasonableLen
  | _ => True

theorem cloneItems_can (hclone : ∀ v ∈ items, ∀ r, (clone v).Can F r → r = some v ∨ F ∧ r = none) :
    ∀ {done : List Json} {r : Option Json}, done.length + items.length ≤ maxReasonableLen →
      (cloneItems (.arr done) items).Can F r → r = some (.arr (done ++ items)) ∨ F ∧ r = none := by
  induction items with
  | nil =>
    intro done r _ h
    rw [List.append_nil]
    exact Or.inl (can_pure.1 h).symm
  | cons v items ih =>
    intro done r hlen h
    rw [List.length_cons] at hlen
    unfold cloneItems at h
    obtain ⟨c, hc, h⟩ := can_bind.1 h
    rcases hclone v List.mem_cons_self c hc with rfl | ⟨hF, rfl⟩
    · obtain ⟨a, ha, h⟩ := can_bind.1 h
      rcases arrayAppend_can (by omega) ha with rfl | ⟨hF, rfl⟩
      · have := ih (fun w hw => hclone w (List.mem_cons_of_mem _ hw))
          (by rw [List.length_append, List.length_singleton]; omega) h
        simpa using this
      · exact Or.inr ⟨hF, (can_pure.1 h).symm⟩
    · exact Or.inr ⟨hF, (can_pure.1 h).symm⟩

theorem cloneMembers_can
    (hclone : ∀ m ∈ members, ∀ r, (clone m.2).Can F r → r = some m.2 ∨ F ∧ r = none)
    (hkeys : ∀ m ∈ members, NulFree m.1 ∧ m.1.length ≤ maxReasonableLen) :
    ∀ {done : List (Bytes × Json)} {r : Option Json},
      done.length + members.length ≤ maxReasonableLen →
      ((done ++ members).map Prod.fst).Nodup → (cloneMembers (.obj done) members).Can F r →
      r = some (.obj (done ++ members)) ∨ F ∧ r = none := by
  induction members with
  | nil =>
    intro done r _ _ h
    rw [List.append_nil]
    exact Or.inl (can_pure.1 h).symm
  | cons m members ih =>
    obtain ⟨key, v⟩ := m
    intro done r hlen hnodup h
    rw [List.length_cons] at hlen
    unfold cloneMembers at h
    obtain ⟨c, hc, h⟩ := can_bind.1 h
    rcases hclone _ List.mem_cons_self c hc with rfl | ⟨hF, rfl⟩
    · obtain ⟨a, ha, h⟩ := can_bind.1 h
      obtain ⟨hnul, hkeylen⟩ := hkeys _ List.mem_cons_self
      rcases objectSet_can (by omega) hkeylen hnul ha with rfl | ⟨hF, rfl⟩
      · -- the keys are distinct, so this one is not among those already copied
        have hfresh : key ∉ done.map Prod.fst := by
          intro hmem
          rw [List.map_append, List.nodup_append] at hnodup
          exact hnodup.2.2 key hmem key (by simp) rfl
        rw [setMember_of_notMem hfresh] at h
        have := ih (fun w hw => hclone w (List.mem_cons_of_mem _ hw))
          (fun w hw => hkeys w (List.mem_cons_of_mem _ hw))
          (by rw [List.length_append, List.length_singleton]; omega) (by simpa using hnodup) h
        simpa using this
      · exact Or.inr ⟨hF, (can_pure.1 h).symm⟩
    · exact Or.inr ⟨hF, (can_pure.1 h).symm⟩

/-- **Copy.** The clone of a storable tree is that tree, unless a request is refused. -/
theorem clone_can {v : Json} (hv : v.Every Storable) :
    ∀ r, (clone v).Can F r → r = some v ∨ F ∧ r = none := by
  induction v using Json.node_induction with
  | null => exact fun r h => new_can h
  | bool b => exact fun r h => new_can h
  | int n => exact fun r h => new_can h
  | double d => exact fun r h => new_can h
  | str s => exact fun r h => newString_can h
  | arr items ih =>
    intro r h
    obtain ⟨hlen, hitems⟩ := every_arr.1 hv
    obtain ⟨c, hc, h⟩ := can_bind.1 h
    rcases new_can hc with rfl | ⟨hF, rfl⟩
    · exact cloneItems_can (fun v hv' => ih v hv' (hitems v hv')) (by simpa [Storable] using hlen) h
    · exact Or.inr ⟨hF, (can_pure.1 h).symm⟩
  | obj members ih =>
    intro r h
    obtain ⟨⟨hlen, hnodup, hkeys⟩, hmembers⟩ := every_obj.1 hv
    obtain ⟨c, hc, h⟩ := can_bind.1 h
    rcases new_can hc with rfl | ⟨hF, rfl⟩
    · exact cloneMembers_can (fun m hm => ih m hm (hmembers m hm)) hkeys (by simpa using hlen)
        (by simpa using hnodup) h
    · exact Or.inr ⟨hF, (can_pure.1 h).symm⟩

/-! ## Refused requests -/

theorem new_sound (v : Json) : (new v).Sound (· = none) :=
  Sound.of_can fun _ _ h => new_can h

theorem newString_sound (s : Bytes) : (newString s).Sound (· = none) :=
  Sound.of_can fun _ _ h => newString_can h

theorem grow_sound (count elemSize : Nat) : (grow count elemSize).Sound (· = false) := by
  unfold grow
  split
  · exact Sound.pure _
  split
  · exact Sound.pure _
  split
  · exact Sound.pure _
  · exact sound_request

theorem objectSet_sound (object : Json) (key : Bytes) (item : Option Json) :
    (objectSet object key item).Sound (· = none) := by
  unfold objectSet
  split
  · split
    · exact Sound.pure _
    refine Sound.bind (grow_sound _ _) ?_ ?_
    · rintro _ rfl r hr
      exact (can_pure.1 hr).symm
    cases (grow _ 24).ok with
    | false => exact Sound.pure _
    | true =>
      refine Sound.bind (strndup_sound _) ?_ ?_
      · rintro _ rfl r hr
        exact (can_pure.1 hr).symm
      · cases (strndup (cstr key)).ok with
        | none => exact Sound.pure _
        | some k => exact Sound.pure _
  · exact Sound.pure _

theorem arrayAppend_sound (array : Json) (item : Option Json) :
    (arrayAppend array item).Sound (· = none) := by
  unfold arrayAppend
  split
  · refine Sound.bind (grow_sound _ _) ?_ ?_
    · rintro _ rfl r hr
      exact (can_pure.1 hr).symm
    cases (grow _ 8).ok with
    | false => exact Sound.pure _
    | true => exact Sound.pure _
  · exact Sound.pure _

theorem cloneItems_sound (h : ∀ v ∈ items, (clone v).Sound (· = none)) :
    ∀ copy, (cloneItems copy items).Sound (· = none) := by
  induction items with
  | nil => intro copy; rw [cloneItems]; exact Sound.pure _
  | cons v items ih =>
    intro copy
    obtain ⟨hv, hitems⟩ := List.forall_mem_cons.mp h
    rw [cloneItems]
    exact Sound.bind_none hv rfl fun child _ =>
      Sound.bind_none (arrayAppend_sound _ _) rfl fun copy _ => ih hitems copy

theorem cloneMembers_sound (h : ∀ m ∈ members, (clone m.2).Sound (· = none)) :
    ∀ copy, (cloneMembers copy members).Sound (· = none) := by
  induction members with
  | nil => intro copy; rw [cloneMembers]; exact Sound.pure _
  | cons m members ih =>
    intro copy
    obtain ⟨hm, hmembers⟩ := List.forall_mem_cons.mp h
    rw [cloneMembers]
    exact Sound.bind_none hm rfl fun child _ =>
      Sound.bind_none (objectSet_sound _ _ _) rfl fun copy _ => ih hmembers copy

/-- A copy is the same copy, or nothing. -/
theorem clone_sound (v : Json) : (clone v).Sound (· = none) := by
  induction v using Json.node_induction with
  | null => rw [clone]; exact new_sound _
  | bool b => rw [clone]; exact new_sound _
  | int n => rw [clone]; exact new_sound _
  | double d => rw [clone]; exact new_sound _
  | str bytes => rw [clone]; exact newString_sound bytes
  | arr items ih =>
    rw [clone]
    exact Sound.bind_none (new_sound _) rfl fun copy _ => cloneItems_sound ih copy
  | obj members ih =>
    rw [clone]
    exact Sound.bind_none (new_sound _) rfl fun copy _ => cloneMembers_sound ih copy

theorem setString_sound (object : Json) (key utf8 : Bytes) :
    (setString object key utf8).Sound (· = none) := by
  refine Sound.bind (newString_sound utf8) ?_ (objectSet_sound object key _)
  rintro _ rfl r hr
  rw [objectSet] at hr
  · exact (can_pure.1 hr).symm
  · nofun

theorem setString_can {key utf8 : Bytes}
    (hcount : members.length ≤ maxReasonableLen) (hkey : key.length ≤ maxReasonableLen)
    (hnul : NulFree key) (h : (setString (.obj members) key utf8).Can F r) :
    r = some (.obj (setMember members key (.str utf8))) ∨ F ∧ r = none := by
  obtain ⟨item, hitem, h⟩ := can_bind.1 h
  rcases newString_can hitem with rfl | ⟨hF, rfl⟩
  · exact objectSet_can hcount hkey hnul h
  · exact Or.inr ⟨hF, (can_pure.1 h).symm⟩

/-! ## Building a tree -/

theorem new_delivers (v : Json) : (new v).Delivers v := fun _ _ h => new_can h

theorem objectSet_delivers {item : Json}
    (hcount : members.length ≤ maxReasonableLen) (hkey : key.length ≤ maxReasonableLen)
    (hnul : NulFree key) :
    (objectSet (.obj members) key (some item)).Delivers (.obj (setMember members key item)) :=
  fun _ _ h => objectSet_can hcount hkey hnul h

theorem setString_delivers {key utf8 : Bytes}
    (hcount : members.length ≤ maxReasonableLen) (hkey : key.length ≤ maxReasonableLen)
    (hnul : NulFree key) :
    (setString (.obj members) key utf8).Delivers (.obj (setMember members key (.str utf8))) :=
  fun _ _ h => setString_can hcount hkey hnul h

end Json

end Tamga
