import NixSource.Proofs.Json.Nesting
import Mathlib.Data.List.Forall2

/-! Conversion of documents that were read from a text. Their only fault is an integer above the
largest signed one: the reader goes less deep than a conversion, its floats are finite, and a
document has nothing in it that could be left out. -/

namespace NixSource

theorem FiniteFloat.ofBinary64?_value (x : FiniteFloat) : ofBinary64? x.value = some x :=
  dif_pos x.finite

/-- The integer that a number is, unless it is a float. -/
def JsonNumber.integer? : JsonNumber → Option Int
  | natural n => some n.toNat
  | negative i => some i.toInt
  | float _ => none

/-- An integer that fits no signed one is an unsigned one, and what is no integer of 64 bits at all
is a float, which is finite. -/
theorem JsonNumber.exists_finiteFloat {n : JsonNumber} (hint : n.int64? = none)
    (huint : n.uint64? = none) : ∃ x : FiniteFloat, n.float64? = some x.value := by
  cases n with
  | natural n => cases huint
  | negative i => cases hint
  | float x => exact ⟨x, rfl⟩

namespace Json

mutual

/-- The numbers in the document at `here`, each with its location, in document order. -/
def numbersAt (here : Location) : Json → List (Location × JsonNumber)
  | number n => [(here, n)]
  | array items => itemNumbers here 0 items
  | object members => memberNumbers here members
  | _ => []

def itemNumbers (here : Location) (i : Nat) : List Json → List (Location × JsonNumber)
  | [] => []
  | j :: rest => numbersAt (here ++ [.index i]) j ++ itemNumbers here (i + 1) rest

def memberNumbers (here : Location) : List (String × Json) → List (Location × JsonNumber)
  | [] => []
  | (name, j) :: rest => numbersAt (here ++ [.key name]) j ++ memberNumbers here rest

end

def numbers (j : Json) : List (Location × JsonNumber) :=
  j.numbersAt []

/-- What is wrong with an integer above the largest signed one. -/
def oversize? : Location × JsonNumber → Option ConversionError
  | (here, .natural n) => if n.toNat ≤ 9223372036854775807 then none else some (.tooLarge here n)
  | _ => none

/-- An expression that says what a document does: the same scalars, as many elements in the same
order, and the same names in the same order with what their values say. -/
inductive Mirrors : Json → Expr → Prop where
  | null : Mirrors null .null
  | bool (b : Bool) : Mirrors (bool b) (.bool b)
  | integer {n : JsonNumber} {i : Int64} : n.integer? = some i.toInt → Mirrors (number n) (.int i)
  | float (x : FiniteFloat) : Mirrors (number (.float x)) (.float x)
  | string (s : String) : Mirrors (string s) (.string s)
  | array {items : List Json} {elements : List Expr} :
      List.Forall₂ Mirrors items elements → Mirrors (array items) (.list elements)
  | object {members : List (String × Json)} {b : Bindings Expr} :
      Bindings.names members = b.names →
        List.Forall₂ Mirrors (members.map Prod.snd) (b.map Prod.snd) →
          Mirrors (object members) (.attrs b)

/-- The bindings of an expression that mirrors an object with these members. -/
def MirrorsMembers (members : List (String × Json)) (b : Bindings Expr) : Prop :=
  Bindings.names members = b.names ∧
    List.Forall₂ Mirrors (members.map Prod.snd) (b.map Prod.snd)

theorem MirrorsMembers.cons {members : List (String × Json)} {b : Bindings Expr} {j : Json}
    {e : Expr} (name : String) (hj : Mirrors j e) (h : MirrorsMembers members b) :
    MirrorsMembers ((name, j) :: members) ((name, e) :: b) :=
  ⟨congrArg (name :: ·) h.1, .cons hj h.2⟩

/-- A conversion that logs nothing and either fails with the error that is given, or without one has
a result with the property `P`. -/
inductive Quiet {α : Type} (P : α → Prop) : Option ConversionError → Logged α → Prop where
  | failed (e : ConversionError) : Quiet P (some e) ⟨[], .error e⟩
  | done {a : α} : P a → Quiet P none ⟨[], .ok a⟩

/-- The first of two errors decides. -/
theorem Quiet.bind {α β : Type} {P : α → Prop} {Q : β → Prop} {e f : Option ConversionError}
    {x : Logged α} {k : α → Logged β} (hx : Quiet P e x) (hk : ∀ a, P a → Quiet Q f (k a)) :
    Quiet Q (e.or f) (x >>= k) := by
  cases hx with
  | failed e => exact .failed e
  | @done a ha =>
    have hbind : ((⟨[], .ok a⟩ : Logged α) >>= k) = k a := by simp
    rw [hbind, Option.none_or]
    exact hk a ha

theorem Quiet.map {α β : Type} {P : α → Prop} {Q : β → Prop} {e : Option ConversionError}
    {x : Logged α} {g : α → β} (hx : Quiet P e x) (hg : ∀ a, P a → Q (g a)) :
    Quiet Q e (x >>= fun a => pure (g a)) := by
  simpa using hx.bind fun a ha => (.done (hg a ha) : Quiet Q none (pure (g a)))

theorem names_memberValues (members : List (String × Json)) :
    Bindings.names (memberValues members) = Bindings.names members := by
  induction members with
  | nil => rfl
  | cons p members ih => rw [memberValues, Bindings.names_cons, Bindings.names_cons, ih]

/-- Members with distinct names are bound as they stand. -/
theorem toValue_object {members : List (String × Json)} (h : (Bindings.names members).Nodup) :
    (object members).toValue = .object (memberValues members) := by
  rw [toValue, Bindings.ofList_eq_self (by rwa [names_memberValues])]

open Value (convertAt convertItems convertMembers)

theorem quiet_number (limit : Nat) (here : Location) (n : JsonNumber) :
    Quiet (fun result => ∃ e, result = some e ∧ Mirrors (number n) e) (oversize? (here, n))
      (convertAt limit here n.toValue) := by
  cases n with
  | natural n =>
    rw [JsonNumber.toValue_natural, oversize?]
    by_cases h : n.toNat ≤ 9223372036854775807
    · rw [if_pos h, if_pos (by omega), convertAt]
      refine .done ⟨_, rfl, .integer ?_⟩
      rw [Int64.toInt_ofInt_of_le (by omega) (by omega)]
      rfl
    · rw [if_neg h, if_neg (by omega), convertAt, if_neg (by omega)]
      exact .failed _
  | negative i =>
    rw [JsonNumber.toValue_negative, convertAt]
    exact .done ⟨.int i, rfl, .integer rfl⟩
  | float x =>
    rw [JsonNumber.toValue_float, convertAt, FiniteFloat.ofBinary64?_value]
    exact .done ⟨.float x, rfl, .float x⟩

mutual

/-- A container is nested in as many others as there are steps to it, so the bound on the nesting
bounds the steps. -/
theorem quiet_convertAt {limit : Nat} (here : Location) : (j : Json) → ∀ {depth : Nat},
    Bounded depth j → here.length + depth ≤ limit →
      Quiet (fun result => ∃ e, result = some e ∧ Mirrors j e)
        ((j.numbersAt here).findSome? oversize?) (convertAt limit here j.toValue)
  | null, _, _, _ => .done ⟨.null, rfl, .null⟩
  | bool b, _, _, _ => .done ⟨.bool b, rfl, .bool b⟩
  | string s, _, _, _ => .done ⟨.string s, rfl, .string s⟩
  | number n, _, _, _ => by
    rw [numbersAt, List.findSome?_singleton, toValue]
    exact quiet_number limit here n
  | array items, _, .array hitems, hdepth => by
    rw [numbersAt, toValue, convertAt, if_neg (by omega)]
    refine (quiet_convertItems here 0 items hitems (by omega)).map ?_
    exact fun elements helements => ⟨.list elements, rfl, .array helements⟩
  | object members, _, .object hnames hmembers, hdepth => by
    rw [numbersAt, toValue_object hnames, convertAt, if_neg (by omega)]
    refine (quiet_convertMembers here members hmembers (by omega)).map ?_
    exact fun b hb => ⟨.attrs b, rfl, .object hb.1 hb.2⟩

theorem quiet_convertItems {limit : Nat} (here : Location) : (i : Nat) → (items : List Json) →
    ∀ {depth : Nat}, (∀ j ∈ items, Bounded depth j) → here.length + 1 + depth ≤ limit →
      Quiet (List.Forall₂ Mirrors items) ((itemNumbers here i items).findSome? oversize?)
        (convertItems limit here i (itemValues items))
  | _, [], _, _, _ => .done .nil
  | i, j :: rest, _, hitems, hdepth => by
    obtain ⟨hj, hrest⟩ := List.forall_mem_cons.mp hitems
    rw [itemNumbers, List.findSome?_append, itemValues, convertItems]
    refine (quiet_convertAt _ j hj (by simpa using hdepth)).bind ?_
    rintro _ ⟨e, rfl, he⟩
    exact (quiet_convertItems here (i + 1) rest hrest hdepth).map fun es hes => .cons he hes

theorem quiet_convertMembers {limit : Nat} (here : Location) : (members : List (String × Json)) →
    ∀ {depth : Nat}, (∀ p ∈ members, Bounded depth p.2) → here.length + 1 + depth ≤ limit →
      Quiet (MirrorsMembers members) ((memberNumbers here members).findSome? oversize?)
        (convertMembers limit here (memberValues members))
  | [], _, _, _ => .done ⟨rfl, .nil⟩
  | (name, j) :: rest, _, hmembers, hdepth => by
    obtain ⟨hj, hrest⟩ := List.forall_mem_cons.mp hmembers
    rw [memberNumbers, List.findSome?_append, memberValues, convertMembers]
    refine (quiet_convertAt _ j hj (by simpa using hdepth)).bind ?_
    rintro _ ⟨e, rfl, he⟩
    exact (quiet_convertMembers here rest hrest hdepth).map fun b hb => hb.cons name he

end

/-- A document that was read from a text has an expression that mirrors it, and nothing is logged on
the way, unless there is an integer above the largest signed one in it. The first of those in
document order is then the error. No number of a document is converted to a NaN, for one that is no
integer of 64 bits is a finite float. -/
theorem convert_read {text : String} {j : Json} (h : read text = .ok j) :
    (match j.numbers.findSome? oversize? with
      | some error => j.toValue.convert Value.defaultDepthLimit = ⟨[.failed error], .error error⟩
      | none => ∃ e, j.toValue.convert Value.defaultDepthLimit = ⟨[], .ok e⟩ ∧ Mirrors j e) ∧
    ∀ p ∈ j.numbers, p.2.int64? = none → p.2.uint64? = none →
      ∃ x : FiniteFloat, p.2.float64? = some x.value := by
  refine ⟨?_, fun p _ hint huint => JsonNumber.exists_finiteFloat hint huint⟩
  have hquiet : Quiet (fun result => ∃ e, result = some e ∧ Mirrors j e)
      (j.numbers.findSome? oversize?) (convertAt Value.defaultDepthLimit [] j.toValue) :=
    quiet_convertAt [] j (bounded_of_read h) (by decide)
  unfold Value.convert
  generalize convertAt Value.defaultDepthLimit [] j.toValue = logged at hquiet
  generalize j.numbers.findSome? oversize? = fault at hquiet
  cases hquiet with
  | failed e => rfl
  | done hresult =>
    obtain ⟨e, rfl, he⟩ := hresult
    exact ⟨e, rfl, he⟩

/-- A key that is repeated keeps its first place, so its last value is looked at first. -/
theorem convert_read_repeatedKey :
    ∃ j, read "\x7b\"a\":1,\"b\":9223372036854775808,\"a\":[18446744073709551615]\x7d" = .ok j ∧
      j.toValue.convert Value.defaultDepthLimit =
        ⟨[.failed (.tooLarge [.key "a", .index 0] 18446744073709551615)],
          .error (.tooLarge [.key "a", .index 0] 18446744073709551615)⟩ := by
  have hfault :
      (read "\x7b\"a\":1,\"b\":9223372036854775808,\"a\":[18446744073709551615]\x7d"
        ).toOption.bind (fun j => j.numbers.findSome? oversize?) =
          some (.tooLarge [.key "a", .index 0] 18446744073709551615) := by
    decide +kernel
  generalize hread : read _ = outcome at hfault ⊢
  cases outcome with
  | error e => cases hfault
  | ok j =>
    have h := (convert_read hread).1
    rw [show j.numbers.findSome? oversize? = _ from hfault] at h
    exact ⟨j, rfl, h⟩

end Json

end NixSource
