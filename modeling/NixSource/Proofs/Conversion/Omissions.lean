import NixSource.Proofs.Conversion.Faults

/-! The log of a conversion, read off the positions of the value. What is undefined in a container is
logged in document order up to the first fault, and the fault is logged last. The lines on what was
left out make up for what the expression has less than the value. -/

namespace NixSource

theorem Logged.lines_bind {α β : Type} (x : Logged α) (f : α → Logged β) :
    (x >>= f).lines = x.lines ++
      match x.outcome with
      | .ok a => (f a).lines
      | .error _ => [] := by
  obtain ⟨events, e | a⟩ := x
  · exact (List.append_nil _).symm
  · exact List.map_append

theorem Logged.lines_map {α β : Type} (x : Logged α) (f : α → β) :
    (x >>= fun a => pure (f a)).lines = x.lines := by
  rw [Logged.lines_bind]
  cases x.outcome <;> exact List.append_nil _

namespace Expr

mutual

/-- How many elements of lists and bindings of sets there are in an expression, those of nested lists
and sets among them. -/
def entries : Expr → Nat
  | list items => elementEntries items
  | attrs b => bindingEntries b
  | _ => 0

def elementEntries : List Expr → Nat
  | [] => 0
  | e :: rest => 1 + e.entries + elementEntries rest

def bindingEntries : List (String × Expr) → Nat
  | [] => 0
  | (_, e) :: rest => 1 + e.entries + bindingEntries rest

end

theorem elementEntries_append (l m : List Expr) :
    elementEntries (l ++ m) = elementEntries l + elementEntries m := by
  induction l with
  | nil => rw [List.nil_append, elementEntries, Nat.zero_add]
  | cons e l ih =>
    rw [List.cons_append, elementEntries, elementEntries, ih]
    omega

theorem bindingEntries_append (l m : List (String × Expr)) :
    bindingEntries (l ++ m) = bindingEntries l + bindingEntries m := by
  induction l with
  | nil => rw [List.nil_append, bindingEntries, Nat.zero_add]
  | cons p l ih =>
    rw [List.cons_append, bindingEntries, bindingEntries, ih]
    omega

theorem bindingEntries_map (name : String) (l : List Expr) :
    bindingEntries (l.map (name, ·)) = elementEntries l := by
  induction l with
  | nil => rfl
  | cons e l ih => rw [List.map_cons, bindingEntries, elementEntries, ih]

end Expr

namespace Value

mutual

/-- How many elements of arrays and members of objects there are in a value, undefined ones among
them. An expression in it has the entries that it has on its own. -/
def entries : Value → Nat
  | array items => itemEntries items
  | object members => memberEntries members
  | expr e => e.entries
  | _ => 0

def itemEntries : List Value → Nat
  | [] => 0
  | v :: rest => 1 + v.entries + itemEntries rest

def memberEntries : List (String × Value) → Nat
  | [] => 0
  | (_, v) :: rest => 1 + v.entries + memberEntries rest

end

/-- What the log has to say on a position. An undefined value is an element or a member of the
container that the last step leads out of; a whole value is neither. -/
def omission? : Location × Value → Option LogLine
  | (place, undefined) =>
    match place.getLast? with
    | some (.index _) => some ⟨.trace, "omitting undefined element", place.text⟩
    | some (.key _) => some ⟨.trace, "omitting undefined member", place.text⟩
    | none => none
  | _ => none

theorem omission?_element (here : Location) (i : Nat) :
    omission? (here ++ [.index i], undefined) =
      some ⟨.trace, "omitting undefined element", Location.text (here ++ [.index i])⟩ := by
  simp [omission?]

theorem omission?_member (here : Location) (name : String) :
    omission? (here ++ [.key name], undefined) =
      some ⟨.trace, "omitting undefined member", Location.text (here ++ [.key name])⟩ := by
  simp [omission?]

/-- What is left out before the first fault among some positions. -/
def omissions (limit : Nat) (positions : List (Location × Value)) : List LogLine :=
  (positions.takeWhile fun p => (fault? limit p).isNone).filterMap omission?

/-- What is logged of an outcome. -/
def failureLines : Except ConversionError Expr → List LogLine
  | .ok _ | .error .undefinedRoot => []
  | .error e => [⟨.debug, "value conversion failed", e.message⟩]

section

variable {limit : Nat} {p : Location × Value} {here : Location} {v : Value}

theorem omissions_cons_of_fault {e : ConversionError} (h : fault? limit p = some e)
    (rest : List (Location × Value)) : omissions limit (p :: rest) = [] := by
  simp [omissions, h]

theorem omissions_cons (h : fault? limit p = none) (rest : List (Location × Value)) :
    omissions limit (p :: rest) = (omission? p).toList ++ omissions limit rest := by
  rw [omissions, List.takeWhile_cons_of_pos (by simp [h]), List.filterMap_cons]
  cases omission? p <;> rfl

theorem omissions_singleton (h : omission? p = none) : omissions limit [p] = [] := by
  cases hfault : fault? limit p with
  | some e => exact omissions_cons_of_fault hfault []
  | none => rw [omissions_cons hfault, h]; rfl

theorem omissions_append (l m : List (Location × Value)) :
    omissions limit (l ++ m) = omissions limit l ++
      match l.findSome? (fault? limit) with
      | some _ => []
      | none => omissions limit m := by
  induction l with
  | nil => rfl
  | cons p l ih =>
    cases h : fault? limit p with
    | some e => simp [omissions_cons_of_fault h, h]
    | none =>
      rw [List.cons_append, omissions_cons h, omissions_cons h, ih, List.findSome?_cons, h,
        List.append_assoc]

theorem level_of_mem_omissions {positions : List (Location × Value)} {line : LogLine}
    (h : line ∈ omissions limit positions) : line.level = .trace := by
  obtain ⟨⟨place, v⟩, -, hline⟩ := List.mem_filterMap.mp h
  unfold omission? at hline
  split at hline
  · split at hline <;> cases hline <;> rfl
  · cases hline

/-- A container that is nested too deep logs nothing, another one what is logged inside it. -/
theorem lines_container {α : Type} {inside : Logged α} {rest : List (Location × Value)}
    (hfault : fault? limit (here, v) =
      if here.length < limit then none else some (.tooDeep here limit))
    (homission : omission? (here, v) = none) (hinside : inside.lines = omissions limit rest)
    (wrap : α → Option Expr) :
    (if limit ≤ here.length then Logged.fail (.tooDeep here limit)
      else inside >>= fun a => pure (wrap a)).lines = omissions limit ((here, v) :: rest) := by
  by_cases hdepth : here.length < limit
  · rw [if_neg (by omega), Logged.lines_map, hinside]
    rw [if_pos hdepth] at hfault
    rw [omissions_cons hfault, homission]
    rfl
  · rw [if_pos (by omega)]
    rw [if_neg hdepth] at hfault
    exact (omissions_cons_of_fault hfault rest).symm

theorem omissions_append_of_sound {l : List (Location × Value)}
    (h : l.findSome? (fault? limit) = none) (m : List (Location × Value)) :
    omissions limit (l ++ m) = omissions limit l ++ omissions limit m := by
  rw [omissions_append, h]

theorem exists_image_of_positionsAt (hv : v ≠ undefined)
    (hfault : (v.positionsAt here).findSome? (fault? limit) = none) : ∃ e, v.image = some e := by
  have hhere := (mem_positionsAt_iff here v here v).mpr ⟨[], by simp, .here v⟩
  exact exists_image_of_fault?_eq_none hv (List.findSome?_eq_none_iff.mp hfault _ hhere)

theorem omissions_undefined {line : LogLine} (h : omission? (here, undefined) = some line) :
    omissions limit (positionsAt here undefined) = [line] := by
  have hcons := @omissions_cons limit (here, undefined) rfl []
  rw [h] at hcons
  exact hcons

/-- An entry of a container and the entries after it. The container logs that an undefined entry is
left out; of another entry only what is inside it is logged. -/
theorem lines_entry {α : Type} {line : LogLine} {rest : List (Location × Value)}
    {next : Option Expr → Logged α}
    (hv : v ≠ undefined → (convertAt limit here v).lines = omissions limit (v.positionsAt here))
    (hline : omission? (here, undefined) = some line)
    (hkept : ∀ e, (next (some e)).lines = omissions limit rest)
    (homitted : (next none).lines = line :: omissions limit rest) :
    (convertAt limit here v >>= next).lines = omissions limit (v.positionsAt here ++ rest) := by
  rw [Logged.lines_bind, outcome_convertAt, omissions_append]
  by_cases hundefined : v = undefined
  · subst hundefined
    rw [omissions_undefined hline]
    exact homitted
  · rw [hv hundefined]
    cases hfault : (v.positionsAt here).findSome? (fault? limit) with
    | some e => rfl
    | none =>
      obtain ⟨e, he⟩ := exists_image_of_positionsAt hundefined hfault
      rw [he]
      exact congrArg _ (hkept e)

end

-- What is undefined is logged by its container, not by its own call, so the induction leaves it out.
mutual

theorem lines_convertAt (limit : Nat) (here : Location) : (v : Value) → v ≠ undefined →
    (convertAt limit here v).lines = omissions limit (v.positionsAt here)
  | undefined, h => absurd rfl h
  | null, _ | bool _, _ | int _, _ | string _, _ | expr _, _ => rfl
  | uint n, _ => by
    have hnone : omissions limit (positionsAt here (uint n)) = [] := omissions_singleton rfl
    rw [convertAt, hnone]
    split <;> rfl
  | float x, _ => by
    have hnone : omissions limit (positionsAt here (float x)) = [] := omissions_singleton rfl
    rw [convertAt, hnone]
    split <;> rfl
  | array items, _ => by
    rw [convertAt, positionsAt]
    exact lines_container rfl rfl (lines_convertItems limit here 0 items) _
  | object members, _ => by
    rw [convertAt, positionsAt]
    exact lines_container rfl rfl (lines_convertMembers limit here members) _

theorem lines_convertItems (limit : Nat) (here : Location) : (i : Nat) → (items : List Value) →
    (convertItems limit here i items).lines = omissions limit (itemPositions here i items)
  | _, [] => rfl
  | i, v :: rest => by
    have ih := lines_convertItems limit here (i + 1) rest
    rw [convertItems, itemPositions]
    refine lines_entry (lines_convertAt limit _ v) (omission?_element here i) (fun e => ?_) ?_
    · exact (Logged.lines_map _ _).trans ih
    · rw [← ih]
      rfl

theorem lines_convertMembers (limit : Nat) (here : Location) :
    (members : List (String × Value)) →
    (convertMembers limit here members).lines = omissions limit (memberPositions here members)
  | [] => rfl
  | (name, v) :: rest => by
    have ih := lines_convertMembers limit here rest
    rw [convertMembers, memberPositions]
    refine lines_entry (lines_convertAt limit _ v) (omission?_member here name) (fun e => ?_) ?_
    · exact (Logged.lines_map _ _).trans ih
    · rw [← ih]
      rfl

end

/-! ### What the expression has less than the value -/

/-- An entry is either there in the expression, with what is left of what is inside it, or logged. -/
theorem entries_entry {limit : Nat} {here : Location} {v : Value} {line : LogLine}
    (hline : omission? (here, undefined) = some line)
    (hfault : (v.positionsAt here).findSome? (fault? limit) = none)
    (hv : ∀ e, v.image = some e →
      v.entries = e.entries + (omissions limit (v.positionsAt here)).length) :
    1 + v.entries = Expr.elementEntries v.image.toList +
      (omissions limit (v.positionsAt here)).length := by
  by_cases hundefined : v = undefined
  · subst hundefined
    rw [omissions_undefined hline]
    rfl
  · obtain ⟨e, he⟩ := exists_image_of_positionsAt hundefined hfault
    rw [hv e he, he, Option.toList_some, Expr.elementEntries, Expr.elementEntries]
    omega

mutual

theorem entries_eq_add (limit : Nat) (here : Location) : (v : Value) →
    (v.positionsAt here).findSome? (fault? limit) = none → ∀ e, v.image = some e →
      v.entries = e.entries + (omissions limit (v.positionsAt here)).length
  | undefined, _, _, h => nomatch h
  | null, _, _, rfl | bool _, _, _, rfl | int _, _, _, rfl | string _, _, _, rfl
  | expr _, _, _, rfl => rfl
  | uint n, _, _, rfl => by
    have hnone : omissions limit (positionsAt here (uint n)) = [] := omissions_singleton rfl
    rw [hnone]
    rfl
  | float x, _, e, h => by
    obtain ⟨f, -, rfl⟩ := Option.map_eq_some_iff.mp h
    have hnone : omissions limit (positionsAt here (float x)) = [] := omissions_singleton rfl
    rw [hnone]
    rfl
  | array items, hfault, _, rfl => by
    rw [positionsAt, List.findSome?_cons] at hfault
    split at hfault
    · cases hfault
    · next hhere =>
      rw [positionsAt, omissions_cons hhere]
      exact itemEntries_eq_add limit here 0 items hfault
  | object members, hfault, _, rfl => by
    rw [positionsAt, List.findSome?_cons] at hfault
    split at hfault
    · cases hfault
    · next hhere =>
      rw [positionsAt, omissions_cons hhere]
      exact memberEntries_eq_add limit here members hfault

theorem itemEntries_eq_add (limit : Nat) (here : Location) : (i : Nat) → (items : List Value) →
    (itemPositions here i items).findSome? (fault? limit) = none →
      itemEntries items = Expr.elementEntries (imageItems items) +
        (omissions limit (itemPositions here i items)).length
  | _, [], _ => rfl
  | i, v :: rest, hfault => by
    rw [itemPositions, List.findSome?_append, Option.or_eq_none_iff] at hfault
    have hentry := entries_entry (omission?_element here i) hfault.1
      (entries_eq_add limit _ v hfault.1)
    have ih := itemEntries_eq_add limit here (i + 1) rest hfault.2
    rw [itemEntries, imageItems, itemPositions, omissions_append_of_sound hfault.1,
      List.length_append, Expr.elementEntries_append, hentry, ih]
    omega

theorem memberEntries_eq_add (limit : Nat) (here : Location) : (members : List (String × Value)) →
    (memberPositions here members).findSome? (fault? limit) = none →
      memberEntries members = Expr.bindingEntries (imageMembers members) +
        (omissions limit (memberPositions here members)).length
  | [], _ => rfl
  | (name, v) :: rest, hfault => by
    rw [memberPositions, List.findSome?_append, Option.or_eq_none_iff] at hfault
    have hentry := entries_entry (omission?_member here name) hfault.1
      (entries_eq_add limit _ v hfault.1)
    have ih := memberEntries_eq_add limit here rest hfault.2
    rw [memberEntries, imageMembers, memberPositions, omissions_append_of_sound hfault.1,
      List.length_append, Expr.bindingEntries_append, Expr.bindingEntries_map, hentry, ih]
    omega

end

theorem ne_undefinedRoot_of_convertAt {limit : Nat} {here : Location} {v : Value}
    {e : ConversionError} (h : (convertAt limit here v).outcome = .error e) :
    e ≠ .undefinedRoot := by
  rw [outcome_convertAt] at h
  cases hfault : (v.positionsAt here).findSome? (fault? limit) with
  | none =>
    rw [hfault] at h
    cases h
  | some e' =>
    rw [hfault] at h
    cases h
    obtain ⟨p, -, hp⟩ := List.exists_of_findSome?_eq_some hfault
    rintro rfl
    exact fault?_ne_undefinedRoot p hp

theorem lines_convertAt_nil (limit : Nat) (v : Value) :
    (convertAt limit [] v).lines = omissions limit v.positions := by
  by_cases h : v = undefined
  · subst h
    rfl
  · exact lines_convertAt limit [] v h

theorem lines_convert_eq (limit : Nat) (v : Value) :
    (v.convert limit).lines = omissions limit v.positions ++ failureLines (v.toExpr limit) := by
  have herror := @ne_undefinedRoot_of_convertAt limit [] v
  rw [← lines_convertAt_nil, toExpr, convert]
  generalize convertAt limit [] v = logged at herror
  obtain ⟨events, e | (_ | e)⟩ := logged
  · cases e with
    | undefinedRoot => exact absurd rfl (herror rfl)
    | tooLarge | notFinite | tooDeep => exact List.map_append
  · exact (List.append_nil _).symm
  · exact (List.append_nil _).symm

/-- The log of a conversion tells, in document order, of everything undefined that is left out of
its container before the first fault, and of the fault last. Of a value that is converted, as many
elements and members are missing in the expression as there are lines on what was left out. -/
theorem lines_convert (limit : Nat) (v : Value) :
    (v.convert limit).lines = omissions limit v.positions ++ failureLines (v.toExpr limit) ∧
      ∀ e, v.toExpr limit = .ok e →
        v.entries = e.entries + (v.convert limit).lines.countP (·.level = .trace) := by
  refine ⟨lines_convert_eq limit v, fun e he => ?_⟩
  obtain ⟨hfault, himage⟩ := fault_and_image_of_toExpr he
  have htrace : (omissions limit v.positions).countP (·.level = .trace) =
      (omissions limit v.positions).length :=
    List.countP_eq_length.mpr fun line hline => by simp [level_of_mem_omissions hline]
  rw [lines_convert_eq, he, failureLines, List.append_nil, htrace]
  exact entries_eq_add limit [] v hfault e himage

/-- An element is left out before a number without a literal stops the conversion, and the member
after it is not reached. Without that number both are left out. -/
theorem lines_convert_nested :
    ((object [("a", array [null, undefined, uint 18446744073709551615]),
        ("b", undefined)]).convert 8).lines =
      [⟨.trace, "omitting undefined element", "a[1]"⟩,
        ⟨.debug, "value conversion failed",
          "Unsupported value at a[2]: unsigned integer 18446744073709551615 " ++
            "exceeds the Nix integer range"⟩] ∧
      (object [("a", array [null, undefined]), ("b", undefined)]).toExpr 8 =
        .ok (.attrs [("a", .list [.null])]) ∧
      (object [("a", array [null, undefined]), ("b", undefined)]).entries =
        (Expr.attrs [("a", .list [.null])]).entries + 2 := by
  have hok : (object [("a", array [null, undefined]), ("b", undefined)]).toExpr 8 =
      .ok (.attrs [("a", .list [.null])]) := rfl
  refine ⟨?_, hok, (lines_convert 8 _).2 _ hok⟩
  rw [(lines_convert 8 _).1]
  decide +kernel

end Value

end NixSource
