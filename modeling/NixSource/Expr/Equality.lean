import NixSource.Expr.Basic

/-! Equality of expressions. The order of bindings in a set does not count, everything else does;
numbers are equal when their bits are. -/

namespace NixSource.Expr

mutual

/-- Whether two expressions are equal up to the order of bindings. -/
def same : Expr → Expr → Bool
  | null, null => true
  | bool a, bool b => a == b
  | int a, int b => a == b
  | float a, float b => a == b
  | string a, string b => a == b
  | uri a, uri b => a == b
  | path a, path b => a == b
  | verbatim a, verbatim b => a == b
  | inherit a, inherit b => a == b
  | attrs a, attrs b => a.length == b.length && bindingsIn b a
  | recAttrs a, recAttrs b => a.length == b.length && bindingsIn b a
  | list a, list b => sameElements a b
  | update a c, update b d => a.same b && c.same d
  | apply a c, apply b d => a.same b && c.same d
  | letIn a c, letIn b d => a.length == b.length && bindingsIn b a && c.same d
  | lambda (.name a) c, lambda (.name b) d => a == b && c.same d
  | lambda (.formals a e) c, lambda (.formals b f) d => sameFormals a b && e == f && c.same d
  | ifThenElse a c e, ifThenElse b d f => a.same b && c.same d && e.same f
  | withScope a c, withScope b d => a.same b && c.same d
  | assertThen a c, assertThen b d => a.same b && c.same d
  | importOf a, importOf b => a.same b
  | select a p none, select b q none => a.same b && p == q
  | select a p (some c), select b q (some d) => a.same b && p == q && c.same d
  | _, _ => false
termination_by structural x => x

/-- Whether every one of some bindings is, with an equal value, among those of `b`. Sets with
equally many bindings are equal when this holds. -/
def bindingsIn (b : Bindings Expr) : List (String × Expr) → Bool
  | [] => true
  | (name, value) :: rest =>
    (match b.get? name with
      | some other => value.same other
      | none => false) && bindingsIn b rest

def sameElements : List Expr → List Expr → Bool
  | [], [] => true
  | a :: as, b :: bs => a.same b && sameElements as bs
  | _, _ => false

def sameFormals : List (Formal Expr) → List (Formal Expr) → Bool
  | [], [] => true
  | ⟨n, none⟩ :: as, ⟨m, none⟩ :: bs => n == m && sameFormals as bs
  | ⟨n, some a⟩ :: as, ⟨m, some b⟩ :: bs => n == m && a.same b && sameFormals as bs
  | _, _ => false

end

instance : BEq Expr := ⟨same⟩

/-- Equality of the bindings of two sets, whatever their order. -/
def sameBindings (a b : Bindings Expr) : Bool :=
  a.length == b.length && bindingsIn b a

end NixSource.Expr
