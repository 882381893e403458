import NixSource.Conversion

/-! The outcome of a conversion, read off the positions of the value: the first position in document
order that has no expression decides the error, and without one the expression is the image of the
value. -/

namespace NixSource

theorem Logged.outcome_bind {α β : Type} (x : Logged α) (f : α → Logged β) :
    (x >>= f).outcome = x.outcome.bind fun a => (f a).outcome := by
  obtain ⟨events, e | a⟩ := x <;> rfl

namespace Value

/-- `part` is what the steps of a location lead to from a value. Indices count every element of an
array, also those that are left out. -/
inductive Reaches : Value → Location → Value → Prop where
  | here (v : Value) : Reaches v [] v
  | index {items : List Value} {i : Nat} {v part : Value} {steps : Location} :
      items[i]? = some v → Reaches v steps part → Reaches (array items) (.index i :: steps) part
  | key {members : List (String × Value)} {name : String} {v part : Value} {steps : Location} :
      (name, v) ∈ members → Reaches v steps part →
        Reaches (object members) (.key name :: steps) part

mutual

/-- The positions of the value at `here` in document order, a container before what is in it. An
expression inside a value is one position. -/
def positionsAt (here : Location) : Value → List (Location × Value)
  | array items => (here, array items) :: itemPositions here 0 items
  | object members => (here, object members) :: memberPositions here members
  | v => [(here, v)]

def itemPositions (here : Location) (i : Nat) : List Value → List (Location × Value)
  | [] => []
  | v :: rest => positionsAt (here ++ [.index i]) v ++ itemPositions here (i + 1) rest

def memberPositions (here : Location) : List (String × Value) → List (Location × Value)
  | [] => []
  | (name, v) :: rest => positionsAt (here ++ [.key name]) v ++ memberPositions here rest

end

def positions (v : Value) : List (Location × Value) :=
  v.positionsAt []

/-- Why the value at a position has no expression, whatever is inside it: an integer above the
largest of the language, a float that is not finite, or a container with as many steps to it as the
limit or more. -/
def fault? (limit : Nat) : Location × Value → Option ConversionError
  | (here, uint n) => if n.toNat ≤ 9223372036854775807 then none else some (.tooLarge here n)
  | (here, float x) => if x.isFinite then none else some (.notFinite here x)
  | (here, array _) | (here, object _) =>
    if here.length < limit then none else some (.tooDeep here limit)
  | _ => none

mutual

/-- The expression that a value without faults is: scalars and expressions as they are, containers
without what is undefined in them. -/
def image : Value → Option Expr
  | undefined => none
  | null => some .null
  | bool b => some (.bool b)
  | int i => some (.int i)
  | uint n => some (.int (Int64.ofInt n.toNat))
  | float x => (FiniteFloat.ofBinary64? x).map .float
  | string s => some (.string s)
  | array items => some (.list (imageItems items))
  | object members => some (.attrs (imageMembers members))
  | expr e => some e

def imageItems : List Value → List Expr
  | [] => []
  | v :: rest => v.image.toList ++ imageItems rest

def imageMembers : List (String × Value) → List (String × Expr)
  | [] => []
  | (name, v) :: rest => v.image.toList.map (name, ·) ++ imageMembers rest

end

mutual

theorem mem_positionsAt_iff (place : Location) (part : Value) (here : Location) : (v : Value) →
    ((place, part) ∈ positionsAt here v ↔ ∃ steps, place = here ++ steps ∧ Reaches v steps part)
  | undefined | null | bool _ | int _ | uint _ | float _ | string _ | expr _ => by
    rw [positionsAt, List.mem_singleton]
    · constructor
      · rintro h
        cases h
        exact ⟨[], by simp, .here _⟩
      · rintro ⟨steps, hp, hr⟩
        cases hr
        simpa using hp
    all_goals simp
  | array items => by
    rw [positionsAt, List.mem_cons, mem_itemPositions_iff place part here 0 items]
    constructor
    · rintro (h | ⟨k, v, steps, hk, hp, hr⟩)
      · cases h
        exact ⟨[], by simp, .here _⟩
      · exact ⟨.index k :: steps, by simpa using hp, .index hk hr⟩
    · rintro ⟨steps, hp, hr⟩
      cases hr with
      | here => exact .inl (by simpa using hp)
      | index hk hr => exact .inr ⟨_, _, _, hk, by simpa using hp, hr⟩
  | object members => by
    rw [positionsAt, List.mem_cons, mem_memberPositions_iff place part here members]
    constructor
    · rintro (h | ⟨name, v, steps, hm, hp, hr⟩)
      · cases h
        exact ⟨[], by simp, .here _⟩
      · exact ⟨.key name :: steps, hp, .key hm hr⟩
    · rintro ⟨steps, hp, hr⟩
      cases hr with
      | here => exact .inl (by simpa using hp)
      | key hm hr => exact .inr ⟨_, _, _, hm, hp, hr⟩

theorem mem_itemPositions_iff (place : Location) (part : Value) (here : Location) :
    (i : Nat) → (items : List Value) →
    ((place, part) ∈ itemPositions here i items ↔ ∃ k v steps, items[k]? = some v ∧
      place = here ++ .index (i + k) :: steps ∧ Reaches v steps part)
  | _, [] => by simp [itemPositions]
  | i, v :: rest => by
    rw [itemPositions, List.mem_append, mem_positionsAt_iff place part _ v,
      mem_itemPositions_iff place part here (i + 1) rest]
    constructor
    · rintro (⟨steps, hp, hr⟩ | ⟨k, w, steps, hk, hp, hr⟩)
      · exact ⟨0, v, steps, rfl, by simpa using hp, hr⟩
      · exact ⟨k + 1, w, steps, hk, by rw [hp, Nat.add_assoc, Nat.add_comm 1], hr⟩
    · rintro ⟨k, w, steps, hk, hp, hr⟩
      cases k with
      | zero =>
        obtain rfl : v = w := by simpa using hk
        exact .inl ⟨steps, by simpa using hp, hr⟩
      | succ k =>
        exact .inr ⟨k, w, steps, hk, by rw [hp, Nat.add_assoc, Nat.add_comm 1], hr⟩

theorem mem_memberPositions_iff (place : Location) (part : Value) (here : Location) :
    (members : List (String × Value)) →
    ((place, part) ∈ memberPositions here members ↔ ∃ name v steps, (name, v) ∈ members ∧
      place = here ++ .key name :: steps ∧ Reaches v steps part)
  | [] => by simp [memberPositions]
  | (n, v) :: rest => by
    rw [memberPositions, List.mem_append, mem_positionsAt_iff place part _ v,
      mem_memberPositions_iff place part here rest]
    constructor
    · rintro (⟨steps, hp, hr⟩ | ⟨name, w, steps, hm, hp, hr⟩)
      · exact ⟨n, v, steps, List.mem_cons_self, by simpa using hp, hr⟩
      · exact ⟨name, w, steps, List.mem_cons_of_mem _ hm, hp, hr⟩
    · rintro ⟨name, w, steps, hm, hp, hr⟩
      rcases List.mem_cons.mp hm with h | hm
      · cases h
        exact .inl ⟨steps, by simpa using hp, hr⟩
      · exact .inr ⟨name, w, steps, hm, hp, hr⟩

end

/-- The positions are exactly what the steps of some location lead to. -/
theorem mem_positions_iff (v : Value) (steps : Location) (part : Value) :
    (steps, part) ∈ v.positions ↔ Reaches v steps part := by
  simp [positions, mem_positionsAt_iff]

/-- What comes of a part whose first fault is `fault` and whose image is `a`. -/
def settle {α : Type} (fault : Option ConversionError) (a : α) : Except ConversionError α :=
  match fault with
  | some e => .error e
  | none => .ok a

mutual

/-- The first fault in document order decides what comes of a value. -/
theorem outcome_convertAt (limit : Nat) (here : Location) : (v : Value) →
    (convertAt limit here v).outcome =
      settle ((v.positionsAt here).findSome? (fault? limit)) v.image
  | undefined | null | bool _ | int _ | string _ | expr _ => rfl
  | uint n => by
    by_cases h : n.toNat ≤ 9223372036854775807
    · have h' : n.toNat < 9223372036854775808 := by omega
      simp [convertAt, positionsAt, fault?, settle, image, h, h']
    · have h' : ¬n.toNat < 9223372036854775808 := by omega
      simp [convertAt, positionsAt, fault?, settle, Logged.fail, h, h']
  | float x => by
    by_cases h : x.isFinite = true
    · simp [convertAt, positionsAt, fault?, settle, image, FiniteFloat.ofBinary64?, h]
    · simp [convertAt, positionsAt, fault?, settle, Logged.fail, FiniteFloat.ofBinary64?, h]
  | array items => by
    by_cases h : here.length < limit
    · have h' : ¬limit ≤ here.length := by omega
      have ih := outcome_convertItems limit here 0 items
      simp only [convertAt, h', if_false, Logged.outcome_bind, ih]
      cases hf : (itemPositions here 0 items).findSome? (fault? limit) <;>
        simp [positionsAt, fault?, settle, image, h, hf, Except.bind]
    · have h' : limit ≤ here.length := by omega
      simp [convertAt, positionsAt, fault?, settle, Logged.fail, h, h']
  | object members => by
    by_cases h : here.length < limit
    · have h' : ¬limit ≤ here.length := by omega
      have ih := outcome_convertMembers limit here members
      simp only [convertAt, h', if_false, Logged.outcome_bind, ih]
      cases hf : (memberPositions here members).findSome? (fault? limit) <;>
        simp [positionsAt, fault?, settle, image, h, hf, Except.bind]
    · have h' : limit ≤ here.length := by omega
      simp [convertAt, positionsAt, fault?, settle, Logged.fail, h, h']

theorem outcome_convertItems (limit : Nat) (here : Location) : (i : Nat) → (items : List Value) →
    (convertItems limit here i items).outcome =
      settle ((itemPositions here i items).findSome? (fault? limit)) (imageItems items)
  | _, [] => rfl
  | i, v :: rest => by
    have hv := outcome_convertAt limit (here ++ [.index i]) v
    have ih := outcome_convertItems limit here (i + 1) rest
    simp only [convertItems, Logged.outcome_bind, hv, itemPositions, List.findSome?_append,
      imageItems]
    cases hf : (v.positionsAt (here ++ [.index i])).findSome? (fault? limit) with
    | some e => rfl
    | none =>
      cases hi : v.image <;>
        cases hr : (itemPositions here (i + 1) rest).findSome? (fault? limit) <;>
          simp [settle, Except.bind, Logged.outcome_bind, Logged.log, ih, hr]

theorem outcome_convertMembers (limit : Nat) (here : Location) :
    (members : List (String × Value)) →
    (convertMembers limit here members).outcome =
      settle ((memberPositions here members).findSome? (fault? limit)) (imageMembers members)
  | [] => rfl
  | (name, v) :: rest => by
    have hv := outcome_convertAt limit (here ++ [.key name]) v
    have ih := outcome_convertMembers limit here rest
    simp only [convertMembers, Logged.outcome_bind, hv, memberPositions, List.findSome?_append,
      imageMembers]
    cases hf : (v.positionsAt (here ++ [.key name])).findSome? (fault? limit) with
    | some e => rfl
    | none =>
      cases hi : v.image <;>
        cases hr : (memberPositions here rest).findSome? (fault? limit) <;>
          simp [settle, Except.bind, Logged.outcome_bind, Logged.log, ih, hr]

end

theorem toExpr_eq_settle (limit : Nat) (v : Value) :
    v.toExpr limit = (settle (v.positions.findSome? (fault? limit)) v.image).bind
      fun | some e => .ok e | none => .error .undefinedRoot := by
  have h := outcome_convertAt limit [] v
  simp only [toExpr, convert, positions]
  generalize convertAt limit [] v = logged at h
  obtain ⟨events, outcome⟩ := logged
  cases hf : (v.positionsAt []).findSome? (fault? limit) <;> cases hi : v.image <;>
    simp_all [settle, Except.bind]

theorem fault_and_image_of_toExpr {limit : Nat} {v : Value} {e : Expr}
    (h : v.toExpr limit = .ok e) :
    v.positions.findSome? (fault? limit) = none ∧ v.image = some e := by
  rw [toExpr_eq_settle] at h
  cases hf : v.positions.findSome? (fault? limit) <;> cases hi : v.image <;>
    simp_all [settle, Except.bind]

end Value

end NixSource
