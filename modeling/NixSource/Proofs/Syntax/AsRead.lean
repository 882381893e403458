import NixSource.Proofs.Syntax.Parser

/-! How the text of an expression groups. Merges are read from the right, whichever way they were
put together, and a selection from a selection is read as one, unless a fallback stands between
them. A URI that is written as a string is read as a string. All else is read as it was written. -/

namespace NixSource.Expr

/-- The merge of two expressions as text without parentheses has it, where the last merge on the
left takes the one on the right for its own operand. -/
def joinUpdate : Expr → Expr → Expr
  | update a b, r => update a (joinUpdate b r)
  | l, r => update l r

/-- The selection from an expression as text has it, where the attributes go on with those of a
selection without a fallback. If the selection outside has a fallback, it then covers the attributes
of both, so the text means something else than the expression. -/
def joinSelect (s : Expr) (p : AttributePath) (fallback : Option Expr) : Expr :=
  match s with
  | select base q none => select base ⟨q.first, q.rest ++ p.toList⟩ fallback
  | s => select s p fallback

mutual

/-- The expression that the text of `e` stands for. -/
def asRead : Expr → Expr
  | null => null
  | bool b => bool b
  | int i => int i
  | float x => float x
  | string s => string s
  | uri u => if u.isBare then uri u else string u.text
  | path p => path p
  | verbatim source => verbatim source
  | inherit scope => inherit scope
  | attrs b => attrs (asReadBindings b)
  | recAttrs b => recAttrs (asReadBindings b)
  | list items => list (asReadElements items)
  | update l r => joinUpdate l.asRead r.asRead
  | apply f a => apply f.asRead a.asRead
  | letIn b body => letIn (asReadBindings b) body.asRead
  | lambda (.name x) body => lambda (.name x) body.asRead
  | lambda (.formals items ellipsis) body =>
    lambda (.formals (asReadFormals items) ellipsis) body.asRead
  | ifThenElse c y n => ifThenElse c.asRead y.asRead n.asRead
  | withScope s body => withScope s.asRead body.asRead
  | assertThen c body => assertThen c.asRead body.asRead
  | importOf p => importOf p.asRead
  | select s p none => joinSelect s.asRead p none
  | select s p (some d) => joinSelect s.asRead p (some d.asRead)

def asReadBindings : List (String × Expr) → List (String × Expr)
  | [] => []
  | (name, value) :: rest => (name, value.asRead) :: asReadBindings rest

def asReadElements : List Expr → List Expr
  | [] => []
  | e :: rest => e.asRead :: asReadElements rest

def asReadFormals : List (Formal Expr) → List (Formal Expr)
  | [] => []
  | ⟨name, none⟩ :: rest => ⟨name, none⟩ :: asReadFormals rest
  | ⟨name, some d⟩ :: rest => ⟨name, some d.asRead⟩ :: asReadFormals rest

end

theorem joinUpdate_of_precedence_ne {l : Expr} (h : l.precedence ≠ .operator) (r : Expr) :
    joinUpdate l r = update l r := by
  cases l <;> first | rfl | exact absurd rfl h

theorem joinUpdate_assoc (a b c : Expr) :
    joinUpdate (joinUpdate a b) c = joinUpdate a (joinUpdate b c) := by
  fun_induction joinUpdate a b with
  | case1 a b r ih => simp only [joinUpdate, ih]
  | case2 l r h =>
    have hl : ∀ x, joinUpdate l x = update l x := by
      cases l <;> first | exact fun _ => rfl | exact (h _ _ rfl).elim
    rw [hl, joinUpdate]

theorem joinUpdate_eq_update (l r : Expr) : ∃ a b, joinUpdate l r = update a b := by
  cases l <;> exact ⟨_, _, rfl⟩

theorem joinSelect_eq_select (s : Expr) (p : AttributePath) (fallback : Option Expr) :
    ∃ base q, joinSelect s p fallback = select base q fallback := by
  unfold joinSelect
  split <;> exact ⟨_, _, rfl⟩

/-- What is read binds as tightly as what was written. -/
theorem precedence_asRead (e : Expr) : e.asRead.precedence = e.precedence := by
  cases e with
  | bool b => rfl
  | uri u =>
    unfold asRead
    split <;> rfl
  | update l r =>
    obtain ⟨a, b, h⟩ := joinUpdate_eq_update l.asRead r.asRead
    rw [asRead, h]
    rfl
  | lambda params body => cases params <;> rfl
  | select s p d =>
    cases d with
    | none =>
      obtain ⟨base, q, h⟩ := joinSelect_eq_select s.asRead p none
      rw [asRead, h]
      rfl
    | some d =>
      obtain ⟨base, q, h⟩ := joinSelect_eq_select s.asRead p (some d.asRead)
      rw [asRead, h]
      rfl
  | _ => rfl

/-- Whether an expression is no selection, or one with a fallback, which ends the attributes. -/
def IsRoot (e : Expr) : Prop :=
  ∀ s p, e ≠ select s p none

theorem isRoot_asRead {e : Expr} (h : e.IsRoot) : e.asRead.IsRoot := by
  intro s p heq
  cases e with
  | uri u =>
    unfold asRead at heq
    split at heq <;> cases heq
  | bool b => cases heq
  | update l r =>
    obtain ⟨a, b, hab⟩ := joinUpdate_eq_update l.asRead r.asRead
    rw [asRead, hab] at heq
    cases heq
  | lambda params body => cases params <;> cases heq
  | select s p d =>
    cases d with
    | none => exact h s p rfl
    | some d =>
      obtain ⟨base, q, hq⟩ := joinSelect_eq_select s.asRead p (some d.asRead)
      rw [asRead, hq] at heq
      cases heq
  | _ => cases heq

/-- Attributes selected from a selection go on with it. -/
theorem joinSelect_selecting {x : Expr} (h : x.IsRoot) (names : List String) (p : AttributePath)
    (fallback : Option Expr) :
    joinSelect (x.selecting names none) p fallback = x.selecting (names ++ p.toList) fallback := by
  cases names with
  | nil =>
    unfold joinSelect selecting
    split
    · next heq => exact absurd heq (h _ _)
    · rfl
  | cons n ns => rfl

mutual

/-- Whether text tells an expression from all others: no merge is on the left of another, nothing is
selected from a selection without a fallback, and no URI has to be written as a string. -/
def Unambiguous : Expr → Prop
  | null | bool _ | int _ | float _ | string _ | path _ | verbatim _ | inherit _ => True
  | uri u => u.isBare = true
  | attrs b => UnambiguousBindings b
  | recAttrs b => UnambiguousBindings b
  | list items => UnambiguousElements items
  | update l r => l.precedence ≠ .operator ∧ l.Unambiguous ∧ r.Unambiguous
  | apply f a => f.Unambiguous ∧ a.Unambiguous
  | letIn b body => UnambiguousBindings b ∧ body.Unambiguous
  | lambda (.name _) body => body.Unambiguous
  | lambda (.formals items _) body => UnambiguousFormals items ∧ body.Unambiguous
  | ifThenElse c y n => c.Unambiguous ∧ y.Unambiguous ∧ n.Unambiguous
  | withScope s body => s.Unambiguous ∧ body.Unambiguous
  | assertThen c body => c.Unambiguous ∧ body.Unambiguous
  | importOf p => p.Unambiguous
  | select s _ none => s.IsRoot ∧ s.Unambiguous
  | select s _ (some d) => s.IsRoot ∧ s.Unambiguous ∧ d.Unambiguous

def UnambiguousBindings : List (String × Expr) → Prop
  | [] => True
  | (_, value) :: rest => value.Unambiguous ∧ UnambiguousBindings rest

def UnambiguousElements : List Expr → Prop
  | [] => True
  | e :: rest => e.Unambiguous ∧ UnambiguousElements rest

def UnambiguousFormals : List (Formal Expr) → Prop
  | [] => True
  | ⟨_, none⟩ :: rest => UnambiguousFormals rest
  | ⟨_, some d⟩ :: rest => d.Unambiguous ∧ UnambiguousFormals rest

end

theorem joinSelect_of_isRoot {s : Expr} (h : s.IsRoot) (p : AttributePath)
    (fallback : Option Expr) : joinSelect s p fallback = select s p fallback :=
  joinSelect_selecting h [] p fallback

mutual

theorem asRead_of_unambiguous : ∀ (e : Expr), e.Unambiguous → e.asRead = e
  | null, _ | bool _, _ | int _, _ | float _, _ | string _, _ | path _, _ | verbatim _, _
  | inherit _, _ => rfl
  | uri u, h => if_pos h
  | attrs b, h => congrArg attrs (asReadBindings_of_unambiguous b h)
  | recAttrs b, h => congrArg recAttrs (asReadBindings_of_unambiguous b h)
  | list items, h => congrArg list (asReadElements_of_unambiguous items h)
  | update l r, h => by
    rw [asRead, asRead_of_unambiguous l h.2.1, asRead_of_unambiguous r h.2.2,
      joinUpdate_of_precedence_ne h.1]
  | apply f a, h => by
    rw [asRead, asRead_of_unambiguous f h.1, asRead_of_unambiguous a h.2]
  | letIn b body, h => by
    rw [asRead, asReadBindings_of_unambiguous b h.1, asRead_of_unambiguous body h.2]
  | lambda (.name x) body, h => congrArg (lambda (.name x)) (asRead_of_unambiguous body h)
  | lambda (.formals items ellipsis) body, h => by
    rw [asRead, asReadFormals_of_unambiguous items h.1, asRead_of_unambiguous body h.2]
  | ifThenElse c y n, h => by
    rw [asRead, asRead_of_unambiguous c h.1, asRead_of_unambiguous y h.2.1,
      asRead_of_unambiguous n h.2.2]
  | withScope s body, h => by
    rw [asRead, asRead_of_unambiguous s h.1, asRead_of_unambiguous body h.2]
  | assertThen c body, h => by
    rw [asRead, asRead_of_unambiguous c h.1, asRead_of_unambiguous body h.2]
  | importOf p, h => congrArg importOf (asRead_of_unambiguous p h)
  | select s p none, h => by
    rw [asRead, asRead_of_unambiguous s h.2, joinSelect_of_isRoot h.1]
  | select s p (some d), h => by
    rw [asRead, asRead_of_unambiguous s h.2.1, asRead_of_unambiguous d h.2.2,
      joinSelect_of_isRoot h.1]

theorem asReadBindings_of_unambiguous : ∀ (b : List (String × Expr)), UnambiguousBindings b →
    asReadBindings b = b
  | [], _ => rfl
  | (name, value) :: b, h => by
    rw [asReadBindings, asRead_of_unambiguous value h.1, asReadBindings_of_unambiguous b h.2]

theorem asReadElements_of_unambiguous : ∀ (items : List Expr), UnambiguousElements items →
    asReadElements items = items
  | [], _ => rfl
  | e :: items, h => by
    rw [asReadElements, asRead_of_unambiguous e h.1, asReadElements_of_unambiguous items h.2]

theorem asReadFormals_of_unambiguous : ∀ (items : List (Formal Expr)), UnambiguousFormals items →
    asReadFormals items = items
  | [], _ => rfl
  | ⟨name, none⟩ :: items, h => by
    rw [asReadFormals, asReadFormals_of_unambiguous items h]
  | ⟨name, some d⟩ :: items, h => by
    rw [asReadFormals, asRead_of_unambiguous d h.1, asReadFormals_of_unambiguous items h.2]

end

end NixSource.Expr
