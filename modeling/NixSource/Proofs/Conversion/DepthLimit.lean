import NixSource.Proofs.Conversion.Calls
import NixSource.Proofs.Conversion.Faults
import NixSource.Proofs.Value.WellFormed
import Mathlib.Order.Lattice
import Mathlib.Order.MinMax

/-! The depth limit is a threshold: a limit that is no smaller than the nesting of a value has no part
in its conversion, and under a smaller one the conversion fails, at the limit or before. -/

namespace NixSource

/-- Whether an error is about a number that has no literal. -/
def ConversionError.isUnsupported : ConversionError → Bool
  | tooLarge _ _ | notFinite _ _ => true
  | tooDeep _ _ | undefinedRoot => false

namespace Value

mutual

/-- How many arrays and objects there are at most around a part of a value, the part itself among
them if it is one. -/
def nesting : Value → Nat
  | array items => itemNesting items + 1
  | object members => memberNesting members + 1
  | _ => 0

def itemNesting : List Value → Nat
  | [] => 0
  | v :: rest => max v.nesting (itemNesting rest)

def memberNesting : List (String × Value) → Nat
  | [] => 0
  | (_, v) :: rest => max v.nesting (memberNesting rest)

end

variable {limit n : Nat} {v : Value}

theorem lt_itemNesting_iff (items : List Value) :
    n < itemNesting items ↔ ∃ part ∈ items, n < part.nesting := by
  induction items with
  | nil => simp [itemNesting]
  | cons v rest ih => simp [itemNesting, ih]

theorem lt_memberNesting_iff (members : List (String × Value)) :
    n < memberNesting members ↔ ∃ part ∈ members.map Prod.snd, n < part.nesting := by
  induction members with
  | nil => simp [memberNesting]
  | cons p rest ih => simp [memberNesting, ih]

theorem nesting_pos_iff : 0 < v.nesting ↔ v.isContainer = true := by
  cases v <;> simp [nesting, isContainer]

theorem succ_lt_nesting_iff : n + 1 < v.nesting ↔ ∃ part ∈ v.parts, n < part.nesting := by
  cases v with
  | array items => rw [nesting, Nat.add_lt_add_iff_right, lt_itemNesting_iff]; rfl
  | object members => rw [nesting, Nat.add_lt_add_iff_right, lt_memberNesting_iff]; rfl
  | _ => simp [nesting, parts]

theorem exists_step_of_mem_parts {part : Value} (h : part ∈ v.parts) :
    ∃ step, ∀ {steps x}, part.Reaches steps x → v.Reaches (step :: steps) x := by
  cases v with
  | array items =>
    obtain ⟨i, hi⟩ := List.mem_iff_getElem?.mp h
    exact ⟨.index i, .index hi⟩
  | object members =>
    obtain ⟨⟨name, _⟩, hmem, rfl⟩ := List.mem_map.mp h
    exact ⟨.key name, .key hmem⟩
  | _ => cases h

/-- The nesting exceeds `n` exactly if some container is `n` steps from the root. -/
theorem lt_nesting_iff :
    n < v.nesting ↔
      ∃ steps part, v.Reaches steps part ∧ part.isContainer = true ∧ steps.length = n := by
  induction n generalizing v with
  | zero =>
    rw [nesting_pos_iff]
    constructor
    · exact fun h => ⟨[], v, .here v, h, rfl⟩
    · rintro ⟨steps, part, hreach, hpart, hlength⟩
      obtain rfl := List.eq_nil_of_length_eq_zero hlength
      cases hreach
      exact hpart
  | succ n ih =>
    rw [succ_lt_nesting_iff]
    constructor
    · rintro ⟨part, hpart, hn⟩
      obtain ⟨steps, x, hreach, hx, hlength⟩ := ih.mp hn
      obtain ⟨step, hstep⟩ := exists_step_of_mem_parts hpart
      exact ⟨step :: steps, x, hstep hreach, hx, by rw [List.length_cons, hlength]⟩
    · rintro ⟨_, x, hreach, hx, hlength⟩
      cases hreach with
      | here => cases hlength
      | index hi hreach =>
        exact ⟨_, List.mem_of_getElem? hi, ih.mpr ⟨_, x, hreach, hx, by simpa using hlength⟩⟩
      | key hmem hreach =>
        exact ⟨_, List.mem_map_of_mem hmem, ih.mpr ⟨_, x, hreach, hx, by simpa using hlength⟩⟩

/-! ### Faults under two limits -/

theorem fault?_eq_tooDeep_iff {here place : Location} {l : Nat} :
    fault? limit (here, v) = some (.tooDeep place l) ↔
      v.isContainer = true ∧ limit ≤ here.length ∧ place = here ∧ l = limit := by
  cases v with
  | uint | float =>
    rw [fault?]
    split <;> simp [isContainer]
  | array | object =>
    by_cases h : here.length < limit
    · simp [fault?, isContainer, h]
    · simp [fault?, isContainer, h, Nat.not_lt.mp h, eq_comm]
  | _ => simp [fault?, isContainer]

/-- The limit has a part only in what becomes of containers. -/
theorem fault?_eq_of_isContainer {limit' : Nat} {p : Location × Value}
    (h : p.2.isContainer = true → p.1.length < limit ∧ p.1.length < limit') :
    fault? limit p = fault? limit' p := by
  obtain ⟨here, v⟩ := p
  cases v with
  | array | object =>
    obtain ⟨hlimit, hlimit'⟩ := h rfl
    simp [fault?, hlimit, hlimit']
  | _ => rfl

/-- What is no fault under one limit is none under a larger one. -/
theorem fault?_eq_none_of_le {limit' : Nat} (h : limit ≤ limit') {p : Location × Value}
    (hp : fault? limit p = none) : fault? limit' p = none := by
  obtain ⟨here, v⟩ := p
  rw [fault?_eq_none_iff] at hp ⊢
  refine ⟨hp.1, fun hcontainer => ?_⟩
  have hdepth := hp.2 hcontainer
  omega

theorem fault?_of_isUnsupported {limit' : Nat} {p : Location × Value} {e : ConversionError}
    (he : e.isUnsupported = true) (hp : fault? limit p = some e) : fault? limit' p = some e := by
  obtain ⟨here, v⟩ := p
  cases v with
  | array | object =>
    rw [fault?] at hp
    split at hp
    · cases hp
    · cases hp
      cases he
  | _ => exact hp

theorem length_lt_nesting {p : Location × Value} (hp : p ∈ v.positions)
    (hcontainer : p.2.isContainer = true) : p.1.length < v.nesting :=
  lt_nesting_iff.mpr ⟨p.1, p.2, (mem_positions_iff v p.1 p.2).mp hp, hcontainer, rfl⟩

/-! ### A limit above the nesting -/

theorem toExpr_ne_tooDeep (h : v.nesting ≤ limit) (place : Location) (l : Nat) :
    v.toExpr limit ≠ .error (.tooDeep place l) := by
  intro herror
  obtain ⟨steps, part, hreach, hfault⟩ := exists_reaches_of_toExpr herror (by simp)
  obtain ⟨hcontainer, hdepth, -⟩ := fault?_eq_tooDeep_iff.mp hfault
  have hlt : steps.length < v.nesting := lt_nesting_iff.mpr ⟨steps, part, hreach, hcontainer, rfl⟩
  omega

theorem findSome?_congr {α β : Type} {f g : α → Option β} {l : List α}
    (h : ∀ a ∈ l, f a = g a) : l.findSome? f = l.findSome? g := by
  induction l with
  | nil => rfl
  | cons a l ih =>
    obtain ⟨ha, hl⟩ := List.forall_mem_cons.mp h
    rw [List.findSome?_cons, List.findSome?_cons, ha, ih hl]

theorem toExpr_eq_of_nesting_le {limit' : Nat} (h : v.nesting ≤ limit) (h' : v.nesting ≤ limit') :
    v.toExpr limit' = v.toExpr limit := by
  have hfaults : ∀ p ∈ v.positions, fault? limit' p = fault? limit p := by
    intro p hp
    refine fault?_eq_of_isContainer fun hcontainer => ?_
    have hlt := length_lt_nesting hp hcontainer
    omega
  rw [toExpr_eq_settle, toExpr_eq_settle, findSome?_congr hfaults]

/-! ### A limit below the nesting -/

theorem firstFault_singleton_ne_tooDeep {here place : Location} {l : Nat}
    (hv : v.isContainer = false) :
    [(here, v)].findSome? (fault? limit) ≠ some (.tooDeep place l) := by
  rw [List.findSome?_singleton]
  intro hfault
  obtain ⟨hcontainer, -⟩ := fault?_eq_tooDeep_iff.mp hfault
  rw [hv] at hcontainer
  cases hcontainer

/-- A container is looked at before what is inside it, so the first one that is too deep is as deep
as the limit. -/
theorem length_of_tooDeep_container {here place : Location} {l : Nat}
    {inside : List (Location × Value)} (h : here.length ≤ limit) (hv : v.isContainer = true)
    (hinside : here.length < limit →
      inside.findSome? (fault? limit) = some (.tooDeep place l) → place.length = limit ∧ l = limit)
    (hfirst : ((here, v) :: inside).findSome? (fault? limit) = some (.tooDeep place l)) :
    place.length = limit ∧ l = limit := by
  rw [List.findSome?_cons] at hfirst
  split at hfirst
  · next hhere =>
    cases hfirst
    obtain ⟨-, hdepth, rfl, rfl⟩ := fault?_eq_tooDeep_iff.mp hhere
    exact ⟨by omega, rfl⟩
  · next hhere => exact hinside ((fault?_eq_none_iff.mp hhere).2 hv) hfirst

mutual

theorem length_of_tooDeep {here place : Location} {l : Nat} (h : here.length ≤ limit) :
    (v : Value) → (v.positionsAt here).findSome? (fault? limit) = some (.tooDeep place l) →
      place.length = limit ∧ l = limit
  | undefined | null | bool _ | int _ | string _ | expr _ => nofun
  | uint _ => fun hfirst => absurd hfirst (firstFault_singleton_ne_tooDeep rfl)
  | float _ => fun hfirst => absurd hfirst (firstFault_singleton_ne_tooDeep rfl)
  | array items => fun hfirst => by
    rw [positionsAt] at hfirst
    exact length_of_tooDeep_container h rfl
      (fun hdepth => length_of_tooDeep_items hdepth 0 items) hfirst
  | object members => fun hfirst => by
    rw [positionsAt] at hfirst
    exact length_of_tooDeep_container h rfl
      (fun hdepth => length_of_tooDeep_members hdepth members) hfirst

theorem length_of_tooDeep_items {here place : Location} {l : Nat} (h : here.length < limit) :
    (i : Nat) → (items : List Value) →
    (itemPositions here i items).findSome? (fault? limit) = some (.tooDeep place l) →
      place.length = limit ∧ l = limit
  | _, [], hfirst => nomatch hfirst
  | i, v :: rest, hfirst => by
    rw [itemPositions, List.findSome?_append, Option.or_eq_some_iff] at hfirst
    obtain hfirst | ⟨-, hfirst⟩ := hfirst
    · exact length_of_tooDeep (by simp; omega) v hfirst
    · exact length_of_tooDeep_items h (i + 1) rest hfirst

theorem length_of_tooDeep_members {here place : Location} {l : Nat} (h : here.length < limit) :
    (members : List (String × Value)) →
    (memberPositions here members).findSome? (fault? limit) = some (.tooDeep place l) →
      place.length = limit ∧ l = limit
  | [], hfirst => nomatch hfirst
  | (name, v) :: rest, hfirst => by
    rw [memberPositions, List.findSome?_append, Option.or_eq_some_iff] at hfirst
    obtain hfirst | ⟨-, hfirst⟩ := hfirst
    · exact length_of_tooDeep (by simp; omega) v hfirst
    · exact length_of_tooDeep_members h rest hfirst

end

theorem exists_firstFault_of_lt_nesting (h : limit < v.nesting) :
    ∃ e, v.positions.findSome? (fault? limit) = some e := by
  obtain ⟨steps, part, hreach, hcontainer, hlength⟩ := lt_nesting_iff.mp h
  by_contra hnone
  have hall := List.findSome?_eq_none_iff.mp (Option.eq_none_iff_forall_ne_some.mpr
    fun e he => hnone ⟨e, he⟩)
  have hdepth := (fault?_eq_none_iff.mp (hall _ ((mem_positions_iff v _ _).mpr hreach))).2
    hcontainer
  omega

/-- A first fault that is not about the depth stays the first one under a larger limit. -/
theorem firstFault_of_isUnsupported {limit' : Nat} {e : ConversionError} (h : limit ≤ limit')
    (he : e.isUnsupported = true) {positions : List (Location × Value)}
    (hfirst : positions.findSome? (fault? limit) = some e) :
    positions.findSome? (fault? limit') = some e := by
  obtain ⟨before, p, after, rfl, hp, hbefore⟩ := List.findSome?_eq_some_iff.mp hfirst
  refine List.findSome?_eq_some_iff.mpr ⟨before, p, after, rfl, ?_, fun q hq => ?_⟩
  · exact fault?_of_isUnsupported he hp
  · exact fault?_eq_none_of_le h (hbefore q hq)

theorem toExpr_of_lt_nesting (h : limit < v.nesting) :
    ∃ e, v.toExpr limit = .error e ∧
      ((∃ place, e = .tooDeep place limit ∧ place.length = limit) ∨
        e.isUnsupported = true ∧ ∀ limit' > limit, v.toExpr limit' = .error e) := by
  obtain ⟨e, hfirst⟩ := exists_firstFault_of_lt_nesting h
  have hroot : e ≠ .undefinedRoot := by
    rintro rfl
    obtain ⟨p, -, hp⟩ := List.exists_of_findSome?_eq_some hfirst
    exact fault?_ne_undefinedRoot p hp
  refine ⟨e, (toExpr_eq_error_iff hroot).mpr hfirst, ?_⟩
  cases e with
  | undefinedRoot => exact absurd rfl hroot
  | tooDeep place l =>
    obtain ⟨hlength, rfl⟩ := length_of_tooDeep (Nat.zero_le limit) v hfirst
    exact .inl ⟨place, rfl, hlength⟩
  | tooLarge | notFinite =>
    refine .inr ⟨rfl, fun limit' hlimit => ?_⟩
    exact (toExpr_eq_error_iff hroot).mpr
      (firstFault_of_isUnsupported (Nat.le_of_lt hlimit) rfl hfirst)

/-- A limit that is no smaller than the nesting of a value is never exceeded and has no part in what
the value is converted to. Under a smaller one the conversion fails, at a container with as many
steps to it as the limit, or before at a number on which it fails under every larger limit too. In
any case the calls are on the positions up to the first fault; none is on a value with more steps to
it than the limit, and there are at most as many calls under way and one more. -/
theorem toExpr_depth_threshold (v : Value) (limit : Nat) :
    (v.nesting ≤ limit →
      (∀ place l, v.toExpr limit ≠ .error (.tooDeep place l)) ∧
        ∀ limit', v.nesting ≤ limit' → v.toExpr limit' = v.toExpr limit) ∧
    (limit < v.nesting →
      ∃ e, v.toExpr limit = .error e ∧
        ((∃ place, e = .tooDeep place limit ∧ place.length = limit) ∨
          e.isUnsupported = true ∧ ∀ limit' > limit, v.toExpr limit' = .error e)) ∧
    (v.record limit).logged = v.convertAt limit [] ∧
      (v.record limit).calls.map Call.path = visited limit v.positions ∧
      ∀ c ∈ (v.record limit).calls, c.path.length ≤ limit ∧ c.depth ≤ limit + 1 := by
  refine ⟨fun h => ⟨toExpr_ne_tooDeep h, fun limit' h' => toExpr_eq_of_nesting_le h h'⟩,
    toExpr_of_lt_nesting, logged_recordAt limit 1 [] v, paths_recordAt limit 1 [] v,
    fun c hc => ?_⟩
  obtain ⟨hpath, hdepth⟩ := within_record limit v c hc
  exact ⟨hpath, by omega⟩

/-- An empty array at the limit is too deep. Under a larger limit the number behind it is reached. -/
theorem toExpr_depth_threshold_empty :
    (object [("a", array [array []]), ("b", uint 18446744073709551615)]).nesting = 3 ∧
      (∃ place, (object [("a", array [array []]), ("b", uint 18446744073709551615)]).toExpr 2 =
        .error (.tooDeep place 2) ∧ place.length = 2) ∧
      (object [("a", array [array []]), ("b", uint 18446744073709551615)]).toExpr 128 =
        .error (.tooLarge [.key "b"] 18446744073709551615) := by
  have hnesting :
      (object [("a", array [array []]), ("b", uint 18446744073709551615)]).nesting = 3 := by
    decide
  refine ⟨hnesting, ?_, ?_⟩
  · obtain ⟨e, he, ⟨place, rfl, hlength⟩ | ⟨hunsupported, -⟩⟩ :=
      (toExpr_depth_threshold _ 2).2.1 (by rw [hnesting]; decide)
    · exact ⟨place, he, hlength⟩
    · obtain rfl : ConversionError.tooDeep [.key "a", .index 0] 2 = e := Except.error.inj he
      cases hunsupported
  · rw [((toExpr_depth_threshold _ 3).1 (by rw [hnesting])).2 128 (by rw [hnesting]; decide)]
    rfl

end Value

end NixSource
