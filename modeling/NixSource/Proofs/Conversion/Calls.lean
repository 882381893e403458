import NixSource.Proofs.Conversion.FirstFault

/-! The calls that a conversion makes: one for each position in document order, up to the first fault.
The converter calls itself on every element and member of a container that it enters, one step further
down; a container that is as deep as the limit is not entered, so the limit bounds the steps, and with
them the calls that are under way. -/

namespace NixSource

/-- A call of the converter: how many calls are under way with it, and the steps to its value. -/
structure Call where
  depth : Nat
  path : Location
deriving DecidableEq

/-- A conversion and the calls that were made for it, in order. -/
structure Recorded (α : Type) where
  calls : List Call
  logged : Logged α

namespace Recorded

variable {α β : Type}

def ofLogged (x : Logged α) : Recorded α :=
  ⟨[], x⟩

def call (c : Call) : Recorded Unit :=
  ⟨[c], pure ()⟩

/-- What follows an error is not done, so it makes no calls. -/
protected def bind (x : Recorded α) (f : α → Recorded β) : Recorded β where
  calls := x.calls ++
    match x.logged.outcome with
    | .ok a => (f a).calls
    | .error _ => []
  logged := x.logged >>= fun a => (f a).logged

instance : Monad Recorded where
  pure a := ofLogged (pure a)
  bind := Recorded.bind

theorem calls_bind (x : Recorded α) (f : α → Recorded β) :
    (x >>= f).calls = x.calls ++
      match x.logged.outcome with
      | .ok a => (f a).calls
      | .error _ => [] := rfl

theorem logged_bind (x : Recorded α) (f : α → Recorded β) :
    (x >>= f).logged = x.logged >>= fun a => (f a).logged := rfl

theorem calls_map (x : Recorded α) (f : α → β) :
    (x >>= fun a => pure (f a)).calls = x.calls := by
  rw [calls_bind]
  cases x.logged.outcome <;> exact List.append_nil _

/-- Each call has room under the limit, and there are as many calls under way as containers around
the value, and the one on the value itself. -/
def Within (limit : Nat) (x : Recorded α) : Prop :=
  ∀ c ∈ x.calls, c.path.length ≤ limit ∧ c.depth = c.path.length + 1

theorem within_ofLogged (limit : Nat) (x : Logged α) : (ofLogged x).Within limit := nofun

theorem within_call {limit : Nat} {here : Location} (h : here.length ≤ limit) :
    (call ⟨here.length + 1, here⟩).Within limit := by
  intro c hc
  obtain rfl := List.mem_singleton.mp hc
  exact ⟨h, rfl⟩

theorem Within.bind {limit : Nat} {x : Recorded α} {f : α → Recorded β} (hx : x.Within limit)
    (hf : ∀ a, (f a).Within limit) : (x >>= f).Within limit := by
  intro c hc
  obtain hc | hc := List.mem_append.mp hc
  · exact hx c hc
  · split at hc
    · exact hf _ c hc
    · cases hc

end Recorded

namespace Value

mutual

/-- `convertAt`, with a record of its calls. It is itself the last of `depth` calls under way. -/
def recordAt (limit depth : Nat) (here : Location) : Value → Recorded (Option Expr)
  | array items => do
    .call ⟨depth, here⟩
    if limit ≤ here.length then .ofLogged (.fail (.tooDeep here limit))
    else return some (.list (← recordItems limit depth here 0 items))
  | object members => do
    .call ⟨depth, here⟩
    if limit ≤ here.length then .ofLogged (.fail (.tooDeep here limit))
    else return some (.attrs (← recordMembers limit depth here members))
  | v => do
    .call ⟨depth, here⟩
    .ofLogged (v.convertAt limit here)

def recordItems (limit depth : Nat) (here : Location) (i : Nat) :
    List Value → Recorded (List Expr)
  | [] => pure []
  | v :: rest => do
    match ← recordAt limit (depth + 1) (here ++ [.index i]) v with
    | some e => return e :: (← recordItems limit depth here (i + 1) rest)
    | none =>
      .ofLogged (.log (.omittedElement (here ++ [.index i])))
      recordItems limit depth here (i + 1) rest

def recordMembers (limit depth : Nat) (here : Location) :
    List (String × Value) → Recorded (Bindings Expr)
  | [] => pure []
  | (name, v) :: rest => do
    match ← recordAt limit (depth + 1) (here ++ [.key name]) v with
    | some e => return (name, e) :: (← recordMembers limit depth here rest)
    | none =>
      .ofLogged (.log (.omittedMember (here ++ [.key name])))
      recordMembers limit depth here rest

end

/-- The conversion of a whole value, with a record of its calls. -/
def record (limit : Nat) (v : Value) : Recorded (Option Expr) :=
  v.recordAt limit 1 []

mutual

theorem logged_recordAt (limit depth : Nat) (here : Location) : (v : Value) →
    (recordAt limit depth here v).logged = convertAt limit here v
  | undefined | null | bool _ | int _ | uint _ | float _ | string _ | expr _ => rfl
  | array items => by
    rw [recordAt, convertAt, ← logged_recordItems limit depth here 0 items]
    split <;> rfl
  | object members => by
    rw [recordAt, convertAt, ← logged_recordMembers limit depth here members]
    split <;> rfl

theorem logged_recordItems (limit depth : Nat) (here : Location) : (i : Nat) →
    (items : List Value) →
    (recordItems limit depth here i items).logged = convertItems limit here i items
  | _, [] => rfl
  | i, v :: rest => by
    have hv := logged_recordAt limit (depth + 1) (here ++ [.index i]) v
    have ih := logged_recordItems limit depth here (i + 1) rest
    rw [recordItems, convertItems, Recorded.logged_bind, hv, ← ih]
    congr 1
    funext o
    cases o <;> rfl

theorem logged_recordMembers (limit depth : Nat) (here : Location) :
    (members : List (String × Value)) →
    (recordMembers limit depth here members).logged = convertMembers limit here members
  | [] => rfl
  | (name, v) :: rest => by
    have hv := logged_recordAt limit (depth + 1) (here ++ [.key name]) v
    have ih := logged_recordMembers limit depth here rest
    rw [recordMembers, convertMembers, Recorded.logged_bind, hv, ← ih]
    congr 1
    funext o
    cases o <;> rfl

end

/-! ### The positions that are called on -/

/-- The places of some positions up to the first one with a fault, and of that one. -/
def visited (limit : Nat) : List (Location × Value) → List Location
  | [] => []
  | p :: rest =>
    p.1 :: match fault? limit p with
      | some _ => []
      | none => visited limit rest

theorem visited_append (limit : Nat) (l m : List (Location × Value)) :
    visited limit (l ++ m) = visited limit l ++
      match l.findSome? (fault? limit) with
      | some _ => []
      | none => visited limit m := by
  induction l with
  | nil => rfl
  | cons p l ih =>
    rw [List.cons_append, visited, visited, List.findSome?_cons, ih]
    cases fault? limit p <;> rfl

theorem visited_singleton (limit : Nat) (p : Location × Value) : visited limit [p] = [p.1] := by
  rw [visited]
  cases fault? limit p <;> rfl

/-- A container that is nested too deep is called on, and nothing that is inside it. -/
theorem paths_container {α : Type} {limit : Nat} {here : Location} {v : Value}
    {inside : Recorded α} {rest : List (Location × Value)}
    (hfault : fault? limit (here, v) =
      if here.length < limit then none else some (.tooDeep here limit))
    (hinside : inside.calls.map Call.path = visited limit rest) (depth : Nat)
    (wrap : α → Option Expr) :
    (Recorded.call ⟨depth, here⟩ >>= fun _ =>
      if limit ≤ here.length then .ofLogged (.fail (.tooDeep here limit))
      else inside >>= fun a => pure (wrap a)).calls.map Call.path =
        visited limit ((here, v) :: rest) := by
  rw [visited, hfault]
  by_cases hdepth : here.length < limit
  · rw [if_neg (by omega), if_pos hdepth, ← hinside, ← Recorded.calls_map inside wrap]
    rfl
  · rw [if_pos (by omega), if_neg hdepth]
    rfl

/-- An entry of a container and the entries after it, which are called on whether or not the first
one is left out. -/
theorem paths_entry {α : Type} {limit depth : Nat} {here : Location} {v : Value}
    {rest : List (Location × Value)} {next : Option Expr → Recorded α}
    (hv : (recordAt limit depth here v).calls.map Call.path = visited limit (v.positionsAt here))
    (hnext : ∀ o, (next o).calls.map Call.path = visited limit rest) :
    (recordAt limit depth here v >>= next).calls.map Call.path =
      visited limit (v.positionsAt here ++ rest) := by
  rw [Recorded.calls_bind, logged_recordAt, outcome_convertAt, List.map_append, hv, visited_append]
  cases (v.positionsAt here).findSome? (fault? limit) with
  | some e => rfl
  | none => exact congrArg _ (hnext v.image)

mutual

theorem paths_recordAt (limit depth : Nat) (here : Location) : (v : Value) →
    (recordAt limit depth here v).calls.map Call.path = visited limit (v.positionsAt here)
  | undefined | null | bool _ | int _ | string _ | expr _ => rfl
  | uint n => (visited_singleton limit (here, uint n)).symm
  | float x => (visited_singleton limit (here, float x)).symm
  | array items => by
    rw [recordAt, positionsAt]
    exact paths_container rfl (paths_recordItems limit depth here 0 items) depth _
  | object members => by
    rw [recordAt, positionsAt]
    exact paths_container rfl (paths_recordMembers limit depth here members) depth _

theorem paths_recordItems (limit depth : Nat) (here : Location) : (i : Nat) →
    (items : List Value) →
    (recordItems limit depth here i items).calls.map Call.path =
      visited limit (itemPositions here i items)
  | _, [] => rfl
  | i, v :: rest => by
    have ih := paths_recordItems limit depth here (i + 1) rest
    rw [recordItems, itemPositions]
    refine paths_entry (paths_recordAt limit (depth + 1) _ v) fun o => ?_
    cases o with
    | some e => exact (congrArg _ (Recorded.calls_map _ _)).trans ih
    | none => exact ih

theorem paths_recordMembers (limit depth : Nat) (here : Location) :
    (members : List (String × Value)) →
    (recordMembers limit depth here members).calls.map Call.path =
      visited limit (memberPositions here members)
  | [] => rfl
  | (name, v) :: rest => by
    have ih := paths_recordMembers limit depth here rest
    rw [recordMembers, memberPositions]
    refine paths_entry (paths_recordAt limit (depth + 1) _ v) fun o => ?_
    cases o with
    | some e => exact (congrArg _ (Recorded.calls_map _ _)).trans ih
    | none => exact ih

end

/-! ### The bound on the calls -/

/-- A container that has been entered has room for the calls on its entries. -/
theorem within_entry {α : Type} {limit : Nat} {here : Location} {step : Segment} {v : Value}
    {next : Option Expr → Recorded α} (h : here.length < limit)
    (hv : (here ++ [step]).length ≤ limit →
      (recordAt limit ((here ++ [step]).length + 1) (here ++ [step]) v).Within limit)
    (hnext : ∀ o, (next o).Within limit) :
    (recordAt limit (here.length + 1 + 1) (here ++ [step]) v >>= next).Within limit := by
  have hlength : (here ++ [step]).length = here.length + 1 := List.length_append
  rw [hlength] at hv
  exact (hv h).bind hnext

mutual

theorem within_recordAt {limit : Nat} {here : Location} (h : here.length ≤ limit) : (v : Value) →
    (recordAt limit (here.length + 1) here v).Within limit
  | undefined | null | bool _ | int _ | uint _ | float _ | string _ | expr _ =>
    (Recorded.within_call h).bind fun _ => Recorded.within_ofLogged limit _
  | array items => by
    rw [recordAt]
    refine (Recorded.within_call h).bind fun _ => ?_
    split
    · exact Recorded.within_ofLogged limit _
    · next hdepth =>
      exact (within_recordItems (by omega) 0 items).bind fun _ => Recorded.within_ofLogged limit _
  | object members => by
    rw [recordAt]
    refine (Recorded.within_call h).bind fun _ => ?_
    split
    · exact Recorded.within_ofLogged limit _
    · next hdepth =>
      exact (within_recordMembers (by omega) members).bind fun _ =>
        Recorded.within_ofLogged limit _

theorem within_recordItems {limit : Nat} {here : Location} (h : here.length < limit) :
    (i : Nat) → (items : List Value) →
    (recordItems limit (here.length + 1) here i items).Within limit
  | _, [] => Recorded.within_ofLogged limit _
  | i, v :: rest => by
    have ih := within_recordItems h (i + 1) rest
    rw [recordItems]
    refine within_entry h (fun hstep => within_recordAt hstep v) fun o => ?_
    cases o with
    | some e => exact ih.bind fun _ => Recorded.within_ofLogged limit _
    | none => exact (Recorded.within_ofLogged limit _).bind fun _ => ih

theorem within_recordMembers {limit : Nat} {here : Location} (h : here.length < limit) :
    (members : List (String × Value)) →
    (recordMembers limit (here.length + 1) here members).Within limit
  | [] => Recorded.within_ofLogged limit _
  | (name, v) :: rest => by
    have ih := within_recordMembers h rest
    rw [recordMembers]
    refine within_entry h (fun hstep => within_recordAt hstep v) fun o => ?_
    cases o with
    | some e => exact ih.bind fun _ => Recorded.within_ofLogged limit _
    | none => exact (Recorded.within_ofLogged limit _).bind fun _ => ih

end

theorem within_record (limit : Nat) (v : Value) : (v.record limit).Within limit :=
  @within_recordAt limit [] (Nat.zero_le limit) v

end Value

end NixSource
