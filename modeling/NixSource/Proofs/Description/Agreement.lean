import NixSource.Proofs.Conversion.Signed
import Mathlib.Data.List.Forall2
import Mathlib.Data.Option.Defs

/-! Descriptions that agree: they break off with the same error, or come to values that differ only in
how integers are held. Agreement of the parts is agreement of the whole, and descriptions that agree
have the same expression. -/

namespace NixSource

/-- Two outcomes that are the same error, or results in a relation. -/
inductive Agree {ε α β : Type} (R : α → β → Prop) : Except ε α → Except ε β → Prop where
  | error (e : ε) : Agree R (.error e) (.error e)
  | ok {a : α} {b : β} : R a b → Agree R (.ok a) (.ok b)

namespace Agree

variable {ε α β γ δ : Type} {R : α → β → Prop} {S : γ → δ → Prop}

theorem refl {R : α → α → Prop} (h : ∀ a, R a a) : (x : Except ε α) → Agree R x x
  | .error e => .error e
  | .ok a => .ok (h a)

theorem symm {R : α → α → Prop} (hR : ∀ a b, R a b → R b a) {x y : Except ε α} (h : Agree R x y) :
    Agree R y x := by
  cases h with
  | error e => exact .error e
  | ok h => exact .ok (hR _ _ h)

theorem trans {R : α → α → Prop} (hR : ∀ a b c, R a b → R b c → R a c) {x y z : Except ε α}
    (h : Agree R x y) (h' : Agree R y z) : Agree R x z := by
  cases h with
  | error e => exact h'
  | ok h =>
    cases h' with
    | ok h' => exact .ok (hR _ _ _ h h')

theorem bind {x : Except ε α} {y : Except ε β} {f : α → Except ε γ} {g : β → Except ε δ}
    (h : Agree R x y) (hfg : ∀ a b, R a b → Agree S (f a) (g b)) : Agree S (x >>= f) (y >>= g) := by
  cases h with
  | error e => exact .error e
  | ok hab => exact hfg _ _ hab

/-- What goes on after an outcome that agrees with a result. -/
theorem bind_ok {x : Except ε α} {b : β} {f : α → Except ε γ} {y : Except ε δ}
    (h : Agree R x (.ok b)) (hf : ∀ a, R a b → Agree S (f a) y) : Agree S (x >>= f) y := by
  cases h with
  | ok hab => exact hf _ hab

end Agree

namespace Value

/-- Two values that differ at most in how integers are held. -/
def Alike (v w : Value) : Prop :=
  v.signed = w.signed

def ItemsAlike (vs ws : List Value) : Prop :=
  signedItems vs = signedItems ws

def MembersAlike (a b : Bindings Value) : Prop :=
  signedMembers a = signedMembers b

theorem Alike.refl (v : Value) : Alike v v := rfl

theorem Alike.symm {v w : Value} (h : Alike v w) : Alike w v :=
  Eq.symm h

theorem Alike.trans {u v w : Value} (h : Alike u v) (h' : Alike v w) : Alike u w :=
  Eq.trans h h'

theorem ItemsAlike.cons {v w : Value} {vs ws : List Value} (h : Alike v w) (hs : ItemsAlike vs ws) :
    ItemsAlike (v :: vs) (w :: ws) := by
  unfold Alike at h
  unfold ItemsAlike at hs
  rw [ItemsAlike, signedItems, signedItems, h, hs]

theorem ItemsAlike.array {vs ws : List Value} (h : ItemsAlike vs ws) :
    Alike (array vs) (array ws) :=
  congrArg Value.array h

theorem MembersAlike.object {a b : Bindings Value} (h : MembersAlike a b) :
    Alike (object a) (object b) :=
  congrArg Value.object h

theorem MembersAlike.insert {a b : Bindings Value} {v w : Value} (h : MembersAlike a b)
    (hv : Alike v w) (name : String) : MembersAlike (a.insert name v) (b.insert name w) := by
  unfold MembersAlike
  rw [signedMembers_insert, signedMembers_insert, h, hv]

theorem Alike.tagged {v w : Value} (h : Alike v w) (variant : String) :
    Alike (tagged variant v) (tagged variant w) :=
  (MembersAlike.insert (a := []) (b := []) rfl h variant).object

theorem Alike.toKey {v w : Value} (h : Alike v w) : v.toKey = w.toKey := by
  rw [← toKey_signed v, ← toKey_signed w, h]

theorem Alike.toExpr {v w : Value} (h : Alike v w) (limit : Nat) :
    v.toExpr limit = w.toExpr limit := by
  unfold Value.toExpr
  rw [← convert_signed limit v, ← convert_signed limit w, h]

end Value

open Value

namespace Datum

variable {room : Nat}

/-- Two descriptions that agree about the value, up to how integers are held. -/
def Agrees (room : Nat) (a b : Datum) : Prop :=
  Agree Alike (a.toValue room) (b.toValue room)

theorem Agrees.refl (d : Datum) : Agrees room d d :=
  Agree.refl (R := Alike) Alike.refl (d.toValue room)

theorem Agrees.symm {a b : Datum} (h : Agrees room a b) : Agrees room b a :=
  Agree.symm (R := Alike) (fun _ _ => Alike.symm) h

theorem Agrees.trans {a b c : Datum} (h : Agrees room a b) (h' : Agrees room b c) :
    Agrees room a c :=
  Agree.trans (R := Alike) (fun _ _ _ => Alike.trans) h h'

theorem Agrees.toExpr {a b : Datum} (h : Agrees room a b) : a.toExpr room = b.toExpr room := by
  unfold Agrees at h
  unfold Datum.toExpr
  generalize a.toValue room = x at h
  generalize b.toValue room = y at h
  cases h with
  | error e => rfl
  | ok h => simp only [h.toExpr]

theorem Agrees.toSource {a b : Datum} (h : Agrees room a b) (layout : Layout) :
    a.toSource room layout = b.toSource room layout := by
  rw [Datum.toSource, Datum.toSource, h.toExpr]

theorem Agrees.toKey {a b : Datum} (h : Agrees room a b) :
    Agree Eq (a.toValue room >>= Value.toKey) (b.toValue room >>= Value.toKey) :=
  h.bind fun v w hvw => by
    rw [Alike.toKey hvw]
    exact .refl (fun _ => rfl) w.toKey

/-- Two steps of a map that agree in what they consist of. -/
inductive StepAgrees (room : Nat) : MapStep Datum → MapStep Datum → Prop where
  | entry {k k' v v' : Datum} :
    Agrees room k k' → Agrees room v v' → StepAgrees room (.entry k v) (.entry k' v')
  | key {k k' : Datum} : Agrees room k k' → StepAgrees room (.key k) (.key k')
  | value {v v' : Datum} : Agrees room v v' → StepAgrees room (.value v) (.value v')

/-- Two fields of one name, both left out or with contents that agree. -/
inductive FieldAgrees (room : Nat) : String × Option Datum → String × Option Datum → Prop where
  | skipped (name : String) : FieldAgrees room (name, none) (name, none)
  | field (name : String) {d d' : Datum} :
    Agrees room d d' → FieldAgrees room (name, some d) (name, some d')

end Datum

end NixSource
