import NixSource.Expr.WellFormed

/-! The parts of an expression: the expressions directly inside it, what is anywhere inside it, and
induction from the parts of an expression to the expression. -/

namespace NixSource

/-- The expressions that a function's arguments are given by default. -/
def Params.defaults {α : Type} : Params α → List α
  | .name _ => []
  | .formals items _ => items.filterMap Formal.default

namespace Expr

/-- The expressions directly inside an expression, from left to right. -/
def parts : Expr → List Expr
  | null | bool _ | int _ | float _ | string _ | uri _ | path _ | verbatim _ | inherit _ => []
  | attrs b | recAttrs b => b.map Prod.snd
  | list items => items
  | update l r => [l, r]
  | apply f a => [f, a]
  | letIn b body => b.map Prod.snd ++ [body]
  | lambda params body => params.defaults ++ [body]
  | ifThenElse c y n => [c, y, n]
  | withScope s body => [s, body]
  | assertThen c body => [c, body]
  | importOf p => [p]
  | select s _ fallback => s :: fallback.toList

/-- `Contains e part`: `part` is `e` or anywhere inside it. -/
inductive Contains : Expr → Expr → Prop where
  | self (e : Expr) : Contains e e
  | inside {e e' part : Expr} : e' ∈ e.parts → Contains e' part → Contains e part

theorem contains_iff (e part : Expr) :
    e.Contains part ↔ part = e ∨ ∃ e' ∈ e.parts, e'.Contains part := by
  constructor
  · rintro (_ | ⟨hp, h⟩)
    · exact .inl rfl
    · exact .inr ⟨_, hp, h⟩
  · rintro (rfl | ⟨e', hp, h⟩)
    · exact .self part
    · exact .inside hp h

section

variable {motive : Expr → Prop}

mutual

/-- What holds of an expression whenever it holds of its parts holds of all expressions. -/
@[elab_as_elim]
theorem induction_parts (step : ∀ e, (∀ part ∈ e.parts, motive part) → motive e) :
    (e : Expr) → motive e
  | null | bool _ | int _ | float _ | string _ | uri _ | path _ | verbatim _ | inherit _ =>
    step _ nofun
  | attrs b => step _ (forall_mem_bindings step b)
  | recAttrs b => step _ (forall_mem_bindings step b)
  | list items => step _ (forall_mem_elements step items)
  | update l r => step _ (by simp [parts, induction_parts step l, induction_parts step r])
  | apply f a => step _ (by simp [parts, induction_parts step f, induction_parts step a])
  | letIn b body => step _ (List.forall_mem_append.mpr
      ⟨forall_mem_bindings step b, by simp [induction_parts step body]⟩)
  | lambda (.name x) body => step _ (by simp [parts, Params.defaults, induction_parts step body])
  | lambda (.formals items _) body => step _ (List.forall_mem_append.mpr
      ⟨forall_mem_formals step items, by simp [induction_parts step body]⟩)
  | ifThenElse c y n => step _ (by
      simp [parts, induction_parts step c, induction_parts step y, induction_parts step n])
  | withScope s body => step _ (by simp [parts, induction_parts step s, induction_parts step body])
  | assertThen c body =>
    step _ (by simp [parts, induction_parts step c, induction_parts step body])
  | importOf p => step _ (by simp [parts, induction_parts step p])
  | select s _ none => step _ (by simp [parts, induction_parts step s])
  | select s _ (some d) => step _ (by simp [parts, induction_parts step s, induction_parts step d])

theorem forall_mem_bindings (step : ∀ e, (∀ part ∈ e.parts, motive part) → motive e) :
    (b : List (String × Expr)) → ∀ part ∈ b.map Prod.snd, motive part
  | [] => nofun
  | (_, e) :: rest =>
    List.forall_mem_cons.mpr ⟨induction_parts step e, forall_mem_bindings step rest⟩

theorem forall_mem_elements (step : ∀ e, (∀ part ∈ e.parts, motive part) → motive e) :
    (items : List Expr) → ∀ part ∈ items, motive part
  | [] => nofun
  | e :: rest => List.forall_mem_cons.mpr ⟨induction_parts step e, forall_mem_elements step rest⟩

theorem forall_mem_formals (step : ∀ e, (∀ part ∈ e.parts, motive part) → motive e) :
    (items : List (Formal Expr)) → ∀ part ∈ items.filterMap Formal.default, motive part
  | [] => nofun
  | ⟨_, none⟩ :: rest => forall_mem_formals step rest
  | ⟨_, some d⟩ :: rest =>
    List.forall_mem_cons.mpr ⟨induction_parts step d, forall_mem_formals step rest⟩

end

end

theorem wellFormed_of_mem_defaults {items : List (Formal Expr)} (h : WellFormedFormals items) :
    ∀ part ∈ items.filterMap Formal.default, part.WellFormed := by
  induction items with
  | nil => nofun
  | cons f rest ih =>
    obtain ⟨name, d | d⟩ := f
    · exact ih h
    · exact List.forall_mem_cons.mpr ⟨h.1, ih h.2⟩

theorem wellFormed_of_mem_bindings {b : List (String × Expr)} (h : WellFormedBindings b) :
    ∀ part ∈ b.map Prod.snd, part.WellFormed := by
  rw [List.forall_mem_map]
  exact (wellFormedBindings_iff b).mp h

theorem wellFormed_of_mem_parts {e part : Expr} (h : e.WellFormed) (hp : part ∈ e.parts) :
    part.WellFormed := by
  suffices ∀ part ∈ e.parts, part.WellFormed from this part hp
  cases e with
  | attrs b => exact wellFormed_of_mem_bindings h.2
  | recAttrs b => exact wellFormed_of_mem_bindings h.2
  | list items => exact (wellFormedElements_iff items).mp h
  | update l r => simpa [parts] using h.2.2
  | apply f a => simpa [parts, WellFormed] using h
  | letIn b body =>
    simp only [parts, List.forall_mem_append, List.forall_mem_singleton]
    exact ⟨wellFormed_of_mem_bindings h.2.1, h.2.2⟩
  | lambda params body =>
    simp only [parts, List.forall_mem_append, List.forall_mem_singleton]
    cases params with
    | name x => exact ⟨nofun, h.2⟩
    | formals items ellipsis => exact ⟨wellFormed_of_mem_defaults h.2.1, h.2.2⟩
  | ifThenElse c y n => simpa [parts, WellFormed] using h
  | withScope s body => simpa [parts, WellFormed] using h
  | assertThen c body => simpa [parts, WellFormed] using h
  | importOf p => simpa [parts, WellFormed] using h
  | select s p fallback => cases fallback <;> simpa [parts, WellFormed] using h
  | null | bool _ | int _ | float _ | string _ | uri _ | path _ | verbatim _ | inherit _ => nofun

/-- Whether nothing in an expression is printed as it was given: there are no verbatim sources and no
inherited bindings in it. -/
structure Built (e : Expr) : Prop where
  no_verbatim : ∀ s, ¬ e.Contains (verbatim s)
  no_inherit : ∀ scope, ¬ e.Contains (inherit scope)

theorem built_of_parts {e : Expr} (hverbatim : ∀ s, verbatim s ≠ e)
    (hinherit : ∀ scope, inherit scope ≠ e) (h : ∀ part ∈ e.parts, part.Built) : e.Built := by
  constructor
  · intro s hs
    rcases (contains_iff _ _).mp hs with he | ⟨part, hp, hs⟩
    · exact hverbatim s he
    · exact (h part hp).no_verbatim s hs
  · intro scope hs
    rcases (contains_iff _ _).mp hs with he | ⟨part, hp, hs⟩
    · exact hinherit scope he
    · exact (h part hp).no_inherit scope hs

end Expr

end NixSource
