import NixSource.Expr.Checked

/-! Well-formed expressions: sets bind each name once, operands of merges can be sets, and functions
have arguments with distinct valid names. Checked construction from well-formed parts gives nothing
else. -/

namespace NixSource.Expr

mutual

/-- Whether all the parts of an expression fit together. -/
def WellFormed : Expr → Prop
  | null | bool _ | int _ | float _ | string _ | uri _ | path _ | verbatim _ | inherit _ => True
  | attrs b => (Bindings.names b).Nodup ∧ WellFormedBindings b
  | recAttrs b => (Bindings.names b).Nodup ∧ WellFormedBindings b
  | list items => WellFormedElements items
  | update l r => l.canBeSet = true ∧ r.canBeSet = true ∧ l.WellFormed ∧ r.WellFormed
  | apply f a => f.WellFormed ∧ a.WellFormed
  | letIn b body => (Bindings.names b).Nodup ∧ WellFormedBindings b ∧ body.WellFormed
  | lambda (.name x) body => checkArgumentName x = .ok () ∧ body.WellFormed
  | lambda (.formals items _) body =>
    checkFormals [] items = .ok () ∧ WellFormedFormals items ∧ body.WellFormed
  | ifThenElse c y n => c.WellFormed ∧ y.WellFormed ∧ n.WellFormed
  | withScope s body => s.WellFormed ∧ body.WellFormed
  | assertThen c body => c.WellFormed ∧ body.WellFormed
  | importOf p => p.WellFormed
  | select s _ none => s.WellFormed
  | select s _ (some d) => s.WellFormed ∧ d.WellFormed

def WellFormedBindings : List (String × Expr) → Prop
  | [] => True
  | (_, e) :: rest => e.WellFormed ∧ WellFormedBindings rest

def WellFormedElements : List Expr → Prop
  | [] => True
  | e :: rest => e.WellFormed ∧ WellFormedElements rest

def WellFormedFormals : List (Formal Expr) → Prop
  | [] => True
  | ⟨_, none⟩ :: rest => WellFormedFormals rest
  | ⟨_, some d⟩ :: rest => d.WellFormed ∧ WellFormedFormals rest

end

def WellFormedParams : Params Expr → Prop
  | .name _ => True
  | .formals items _ => WellFormedFormals items

theorem wellFormedBindings_iff (b : List (String × Expr)) :
    WellFormedBindings b ↔ ∀ e ∈ b, e.2.WellFormed := by
  induction b with
  | nil => simp [WellFormedBindings]
  | cons e rest ih => simp [WellFormedBindings, ih]

theorem wellFormedElements_iff (items : List Expr) :
    WellFormedElements items ↔ ∀ e ∈ items, e.WellFormed := by
  induction items with
  | nil => simp [WellFormedElements]
  | cons e rest ih => simp [WellFormedElements, ih]

theorem wellFormedBindings_insert {b : Bindings Expr} (h : WellFormedBindings b) (name : String)
    {e : Expr} (he : e.WellFormed) : WellFormedBindings (b.insert name e) := by
  induction b with
  | nil => exact ⟨he, trivial⟩
  | cons p rest ih =>
    obtain ⟨k, w⟩ := p
    by_cases hk : k = name
    · simp [Bindings.insert, hk, WellFormedBindings, he, h.2]
    · simp [Bindings.insert, hk, WellFormedBindings, h.1, ih h.2]

theorem wellFormed_attrs_ofList {entries : List (String × Expr)}
    (h : ∀ e ∈ entries, e.2.WellFormed) : (attrs (Bindings.ofList entries)).WellFormed := by
  refine ⟨Bindings.nodup_names_ofList entries, ?_⟩
  suffices ∀ b, WellFormedBindings b → WellFormedBindings (Bindings.insertMany b entries) from
    this [] trivial
  induction entries with
  | nil => exact fun b hb => hb
  | cons e rest ih =>
    exact fun b hb => ih (fun e he => h e (List.mem_cons_of_mem _ he)) _
      (wellFormedBindings_insert hb e.1 (h e List.mem_cons_self))

theorem wellFormed_of_merge {l r e : Expr} (hl : l.WellFormed) (hr : r.WellFormed)
    (h : merge l r = .ok e) : e.WellFormed := by
  unfold merge at h
  split at h
  · cases h
  · split at h
    · cases h
    · next h1 h2 =>
      cases h
      exact ⟨by simpa using h1, by simpa using h2, hl, hr⟩

theorem wellFormed_of_function {params : Params Expr} {body e : Expr}
    (hp : WellFormedParams params) (hb : body.WellFormed)
    (h : function params body = .ok e) : e.WellFormed := by
  obtain ⟨hc, rfl⟩ := (function_eq_ok_iff params body e).mp h
  cases params with
  | name x => exact ⟨hc, hb⟩
  | formals items ellipsis => exact ⟨hc, hp, hb⟩

end NixSource.Expr
