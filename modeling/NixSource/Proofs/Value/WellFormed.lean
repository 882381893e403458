import NixSource.Datum
import NixSource.Expr.WellFormed
import NixSource.Proofs.Conversion.FirstFault

/-! The parts of a value, induction from the parts of a value to the value, and well-formed values:
every object in them binds each name once, and every expression in them is well-formed. Documents
and descriptions come to nothing else. -/

namespace NixSource

theorem Bindings.of_mem_insert {α : Type} {b : Bindings α} {name : String} {v : α}
    {p : String × α} (h : p ∈ b.insert name v) : p = (name, v) ∨ p ∈ b := by
  induction b with
  | nil => exact .inl (List.mem_singleton.mp h)
  | cons q b ih =>
    obtain ⟨k, w⟩ := q
    by_cases hk : k = name
    · rw [insert, if_pos hk, List.mem_cons] at h
      exact h.imp (fun h => hk ▸ h) (List.mem_cons_of_mem _)
    · rw [insert, if_neg hk, List.mem_cons] at h
      obtain rfl | h := h
      · exact .inr List.mem_cons_self
      · exact (ih h).imp id (List.mem_cons_of_mem _)

namespace Value

variable {v : Value}

/-- The values directly inside a value. -/
def parts : Value → List Value
  | array items => items
  | object members => members.map Prod.snd
  | undefined | null | bool _ | int _ | uint _ | float _ | string _ | expr _ => []

section

variable {motive : Value → Prop}

mutual

/-- What holds of a value whenever it holds of its parts holds of all values. -/
@[elab_as_elim]
theorem induction_parts (step : ∀ v, (∀ part ∈ v.parts, motive part) → motive v) :
    (v : Value) → motive v
  | undefined | null | bool _ | int _ | uint _ | float _ | string _ | expr _ => step _ nofun
  | array items => step _ (forall_mem_items step items)
  | object members => step _ (forall_mem_members step members)

theorem forall_mem_items (step : ∀ v, (∀ part ∈ v.parts, motive part) → motive v) :
    (items : List Value) → ∀ part ∈ items, motive part
  | [] => nofun
  | v :: rest => List.forall_mem_cons.mpr ⟨induction_parts step v, forall_mem_items step rest⟩

theorem forall_mem_members (step : ∀ v, (∀ part ∈ v.parts, motive part) → motive v) :
    (members : List (String × Value)) → ∀ part ∈ members.map Prod.snd, motive part
  | [] => nofun
  | (_, v) :: rest =>
    List.forall_mem_cons.mpr ⟨induction_parts step v, forall_mem_members step rest⟩

end

end

theorem Reaches.of_mem_parts {part x : Value} {steps : Location} (hpart : part ∈ v.parts)
    (h : part.Reaches steps x) : ∃ steps', v.Reaches steps' x := by
  cases v with
  | array items =>
    obtain ⟨i, hi⟩ := List.mem_iff_getElem?.mp hpart
    exact ⟨_, .index hi h⟩
  | object members =>
    obtain ⟨⟨name, _⟩, hmem, rfl⟩ := List.mem_map.mp hpart
    exact ⟨_, .key hmem h⟩
  | _ => cases hpart

theorem reaches_iff (v x : Value) :
    (∃ steps, v.Reaches steps x) ↔ x = v ∨ ∃ part ∈ v.parts, ∃ steps, part.Reaches steps x := by
  constructor
  · rintro ⟨_, _ | ⟨hi, h⟩ | ⟨hmem, h⟩⟩
    · exact .inl rfl
    · exact .inr ⟨_, List.mem_of_getElem? hi, _, h⟩
    · exact .inr ⟨_, List.mem_map_of_mem hmem, _, h⟩
  · rintro (rfl | ⟨part, hpart, steps, h⟩)
    · exact ⟨[], .here x⟩
    · exact h.of_mem_parts hpart

/-- Something holds of a value and of all that it reaches. -/
def Everywhere (p : Value → Prop) (v : Value) : Prop :=
  ∀ steps part, v.Reaches steps part → p part

theorem everywhere_iff_parts {p : Value → Prop} :
    v.Everywhere p ↔ p v ∧ ∀ part ∈ v.parts, part.Everywhere p := by
  constructor
  · intro h
    refine ⟨h [] v (.here v), fun part hpart steps x hreach => ?_⟩
    exact h _ x (hreach.of_mem_parts hpart).choose_spec
  · rintro ⟨hv, hparts⟩ steps x hreach
    obtain rfl | ⟨part, hpart, steps', h⟩ := (reaches_iff v x).mp ⟨steps, hreach⟩
    · exact hv
    · exact hparts part hpart steps' x h

/-- The objects in a value bind each name once, and the expressions in it are well-formed. -/
structure WellFormed (v : Value) : Prop where
  nodup : ∀ {steps members}, v.Reaches steps (object members) → (Bindings.names members).Nodup
  wellFormed : ∀ {steps e}, v.Reaches steps (expr e) → e.WellFormed

theorem wellFormed_iff_everywhere (v : Value) :
    v.WellFormed ↔ v.Everywhere fun part =>
      (∀ members, part = object members → (Bindings.names members).Nodup) ∧
        ∀ e, part = expr e → e.WellFormed := by
  constructor
  · intro h steps part hreach
    constructor
    · rintro members rfl
      exact h.nodup hreach
    · rintro e rfl
      exact h.wellFormed hreach
  · intro h
    exact ⟨fun hreach => (h _ _ hreach).1 _ rfl, fun hreach => (h _ _ hreach).2 _ rfl⟩

theorem wellFormed_iff_parts (v : Value) :
    v.WellFormed ↔ (∀ members, v = object members → (Bindings.names members).Nodup) ∧
      (∀ e, v = expr e → e.WellFormed) ∧ ∀ part ∈ v.parts, part.WellFormed := by
  rw [wellFormed_iff_everywhere, everywhere_iff_parts, and_assoc]
  simp only [wellFormed_iff_everywhere]

theorem WellFormed.of_mem_parts (h : v.WellFormed) {part : Value} (hpart : part ∈ v.parts) :
    part.WellFormed :=
  ((wellFormed_iff_parts v).mp h).2.2 part hpart

theorem wellFormed_array {items : List Value} (h : ∀ v ∈ items, v.WellFormed) :
    (array items).WellFormed :=
  (wellFormed_iff_parts _).mpr ⟨by simp, by simp, h⟩

/-- Values that hold nothing but themselves. -/
inductive IsScalar : Value → Prop where
  | undefined : IsScalar undefined
  | null : IsScalar null
  | bool (b : Bool) : IsScalar (bool b)
  | int (i : Int64) : IsScalar (int i)
  | uint (n : UInt64) : IsScalar (uint n)
  | float (x : Binary64) : IsScalar (float x)
  | string (s : String) : IsScalar (string s)

theorem IsScalar.wellFormed (h : v.IsScalar) : v.WellFormed := by
  rw [wellFormed_iff_parts]
  cases h <;> simp [parts]

/-- Bindings that can be the members of a well-formed object. -/
structure WellFormedMembers (members : Bindings Value) : Prop where
  nodup : members.names.Nodup
  wellFormed : ∀ p ∈ members, p.2.WellFormed

namespace WellFormedMembers

variable {members : Bindings Value}

theorem nil : WellFormedMembers [] := ⟨List.nodup_nil, by simp⟩

theorem insert (h : WellFormedMembers members) (name : String) (hv : v.WellFormed) :
    WellFormedMembers (members.insert name v) := by
  refine ⟨Bindings.nodup_names_insert h.nodup name v, fun p hp => ?_⟩
  obtain rfl | hp := Bindings.of_mem_insert hp
  · exact hv
  · exact h.wellFormed p hp

theorem object (h : WellFormedMembers members) : (object members).WellFormed := by
  refine (wellFormed_iff_parts _).mpr ⟨?_, by simp, ?_⟩
  · rintro _ ⟨⟩
    exact h.nodup
  · exact List.forall_mem_map.mpr h.wellFormed

end WellFormedMembers

end Value

/-! ### Documents and descriptions -/

namespace Json

open Value (IsScalar WellFormedMembers)

theorem wellFormed_number (n : JsonNumber) : n.toValue.WellFormed := by
  cases n with
  | natural n =>
    rw [JsonNumber.toValue_natural]
    split
    · exact (IsScalar.int _).wellFormed
    · exact (IsScalar.uint n).wellFormed
  | negative i => exact (IsScalar.int i).wellFormed
  | float x => exact (IsScalar.float x.value).wellFormed

mutual

/-- The value of a document is well-formed, also when a key of an object is repeated. -/
theorem wellFormed_toValue : (j : Json) → j.toValue.WellFormed
  | null => IsScalar.null.wellFormed
  | bool b => (IsScalar.bool b).wellFormed
  | string s => (IsScalar.string s).wellFormed
  | number n => wellFormed_number n
  | array items => Value.wellFormed_array (wellFormed_itemValues items)
  | object members => (wellFormedMembers_memberValues members .nil).object

theorem wellFormed_itemValues : (items : List Json) → ∀ v ∈ itemValues items, v.WellFormed
  | [] => nofun
  | j :: rest => List.forall_mem_cons.mpr ⟨wellFormed_toValue j, wellFormed_itemValues rest⟩

theorem wellFormedMembers_memberValues : (members : List (String × Json)) →
    ∀ {b : Bindings Value}, WellFormedMembers b →
      WellFormedMembers (b.insertMany (memberValues members))
  | [], _, hb => hb
  | (name, j) :: rest, _, hb =>
    wellFormedMembers_memberValues rest (hb.insert name (wellFormed_toValue j))

end

end Json

namespace Datum

open Value (IsScalar WellFormedMembers)

variable {room : Nat}

theorem exists_of_bind_ok {ε α β : Type} {x : Except ε α} {f : α → Except ε β} {b : β}
    (h : x >>= f = .ok b) : ∃ a, x = .ok a ∧ f a = .ok b := by
  cases x with
  | error e => cases h
  | ok a => exact ⟨a, rfl, h⟩

theorem exists_of_arrayValue_ok {announced length : Nat} {values : Except DatumError (List Value)}
    {v : Value} (h : arrayValue room announced length values = .ok v) :
    ∃ vs, values = .ok vs ∧ v = .array vs := by
  by_cases hroom : hasRoom room announced length = true
  · rw [arrayValue_of_hasRoom hroom] at h
    cases values with
    | error e => cases h
    | ok vs => exact ⟨vs, rfl, (Except.ok.inj h).symm⟩
  · rw [arrayValue_of_not_hasRoom hroom] at h
    cases h

mutual

/-- A description comes to nothing but well-formed values. -/
theorem wellFormed_of_toValue : (d : Datum) → ∀ {v}, d.toValue room = .ok v → v.WellFormed
  | bool _ | int8 _ | int16 _ | int32 _ | int64 _ | uint8 _ | uint16 _ | uint32 _ | uint64 _
  | float32 _ | float64 _ | char _ | string _ | shown _ | absent | unit | namedUnit _
  | unitVariant _ _ => fun h => by
    cases h
    exact IsScalar.wellFormed (by constructor)
  | int128 _ | uint128 _ | failure _ => nofun
  | bytes bs => fun h => by
    cases h
    exact Value.wellFormed_array (List.forall_mem_map.mpr fun b _ => (IsScalar.int _).wellFormed)
  | present content | wrapper _ content => wellFormed_of_toValue content
  | sequence _ items | tuple _ items | namedTuple _ _ items => fun h => by
    obtain ⟨vs, hvs, rfl⟩ := exists_of_arrayValue_ok h
    exact Value.wellFormed_array (wellFormed_of_itemValues items hvs)
  | map steps => fun h => by
    obtain ⟨members, hmembers, ⟨⟩⟩ := exists_of_bind_ok h
    exact (wellFormedMembers_of_runSteps steps .nil hmembers).object
  | record _ fields => fun h => by
    obtain ⟨members, hmembers, ⟨⟩⟩ := exists_of_bind_ok h
    exact (wellFormedMembers_of_fieldValues fields .nil hmembers).object
  | wrapperVariant _ variant content => fun h => by
    obtain ⟨v, hv, ⟨⟩⟩ := exists_of_bind_ok h
    exact (WellFormedMembers.nil.insert variant (wellFormed_of_toValue content hv)).object
  | tupleVariant _ variant _ items => fun h => by
    obtain ⟨_, harray, ⟨⟩⟩ := exists_of_bind_ok h
    obtain ⟨vs, hvs, rfl⟩ := exists_of_arrayValue_ok harray
    have harray := Value.wellFormed_array (wellFormed_of_itemValues items hvs)
    exact (WellFormedMembers.nil.insert variant harray).object
  | recordVariant _ variant fields => fun h => by
    obtain ⟨members, hmembers, ⟨⟩⟩ := exists_of_bind_ok h
    have hobject := (wellFormedMembers_of_fieldValues fields .nil hmembers).object
    exact (WellFormedMembers.nil.insert variant hobject).object

theorem wellFormed_of_itemValues : (items : List Datum) → ∀ {vs}, itemValues room items = .ok vs →
    ∀ v ∈ vs, v.WellFormed
  | [], _, h => by
    cases h
    exact nofun
  | d :: rest, _, h => by
    obtain ⟨v, hv, h⟩ := exists_of_bind_ok h
    obtain ⟨vs, hvs, ⟨⟩⟩ := exists_of_bind_ok h
    exact List.forall_mem_cons.mpr
      ⟨wellFormed_of_toValue d hv, wellFormed_of_itemValues rest hvs⟩

theorem wellFormedMembers_of_fieldValues : (fields : List (String × Option Datum)) →
    ∀ {members result}, WellFormedMembers members → fieldValues room members fields = .ok result →
      WellFormedMembers result
  | [], _, _, hmembers, h => by
    cases h
    exact hmembers
  | (_, none) :: rest, _, _, hmembers, h => wellFormedMembers_of_fieldValues rest hmembers h
  | (name, some d) :: rest, _, _, hmembers, h => by
    obtain ⟨v, hv, h⟩ := exists_of_bind_ok h
    exact wellFormedMembers_of_fieldValues rest
      (hmembers.insert name (wellFormed_of_toValue d hv)) h

theorem wellFormedMembers_of_runSteps : (steps : List (MapStep Datum)) →
    ∀ {members pending result}, WellFormedMembers members →
      runSteps room members pending steps = .ok result → WellFormedMembers result
  | [], _, _, _, hmembers, h => by
    cases h
    exact hmembers
  | .entry k v :: rest, _, _, _, hmembers, h => by
    obtain ⟨_, -, h⟩ := exists_of_bind_ok h
    obtain ⟨name, -, h⟩ := exists_of_bind_ok h
    obtain ⟨w, hw, h⟩ := exists_of_bind_ok h
    exact wellFormedMembers_of_runSteps rest
      (hmembers.insert name (wellFormed_of_toValue v hw)) h
  | .key k :: rest, _, _, _, hmembers, h => by
    obtain ⟨_, -, h⟩ := exists_of_bind_ok h
    obtain ⟨name, -, h⟩ := exists_of_bind_ok h
    exact wellFormedMembers_of_runSteps rest hmembers h
  | .value v :: rest, _, some name, _, hmembers, h => by
    obtain ⟨w, hw, h⟩ := exists_of_bind_ok h
    exact wellFormedMembers_of_runSteps rest
      (hmembers.insert name (wellFormed_of_toValue v hw)) h
  | .value v :: rest, _, none, _, _, h => by
    obtain ⟨_, -, h⟩ := exists_of_bind_ok h
    cases h

end

end Datum

end NixSource
