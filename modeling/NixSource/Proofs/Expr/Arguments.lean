import NixSource.Expr.Checked
import Mathlib.Data.List.Nodup
import Mathlib.Order.Nat

/-! Functions with named arguments. One is made exactly if the names are identifiers that are not
reserved and no two of them are the same. Otherwise the first argument that breaks either rule is
the one that is reported, and the report says which of the two it breaks. -/

namespace NixSource

/-! ### The names of arguments -/

/-- An ASCII letter or an underscore. -/
def StartsName (c : Char) : Prop :=
  'A' ≤ c ∧ c ≤ 'Z' ∨ 'a' ≤ c ∧ c ≤ 'z' ∨ c = '_'

def ContinuesName (c : Char) : Prop :=
  StartsName c ∨ '0' ≤ c ∧ c ≤ '9' ∨ c = '\'' ∨ c = '-'

/-- A name that an argument can have: an identifier, by the ranges that its characters are in, which
is not reserved. -/
structure IsArgumentName (name : String) : Prop where
  identifier : ∃ c cs, name.toList = c :: cs ∧ StartsName c ∧ ∀ d ∈ cs, ContinuesName d
  unreserved : name ∉ reservedWords

theorem isLetter_iff (c : Char) :
    isLetter c = true ↔ 'A' ≤ c ∧ c ≤ 'Z' ∨ 'a' ≤ c ∧ c ≤ 'z' := by
  have hranges : isLetter c =
      (decide ('A' ≤ c ∧ c ≤ 'Z') || (decide ('a' ≤ c) && decide (c ≤ 'z'))) := rfl
  simp [hranges]

theorem isIdentifierStart_iff (c : Char) : isIdentifierStart c = true ↔ StartsName c := by
  simp [isIdentifierStart, isLetter_iff, StartsName, or_assoc]

theorem isIdentifierRest_iff (c : Char) : isIdentifierRest c = true ↔ ContinuesName c := by
  simp [isIdentifierRest, ContinuesName, isIdentifierStart_iff, Char.isDigit, Char.le_def,
    or_assoc]

theorem isBareName_iff (name : String) : isBareName name = true ↔ IsArgumentName name := by
  have hreserved : isReserved name = false ↔ name ∉ reservedWords := by simp [isReserved]
  rw [isBareName, Bool.and_eq_true, Bool.not_eq_true', hreserved]
  constructor
  · rintro ⟨hid, hname⟩
    cases hcs : name.toList with
    | nil =>
      rw [hcs] at hid
      cases hid
    | cons c cs =>
      rw [hcs, isIdentifier, Bool.and_eq_true, List.all_eq_true] at hid
      exact ⟨⟨c, cs, hcs, (isIdentifierStart_iff c).mp hid.1,
        fun d hd => (isIdentifierRest_iff d).mp (hid.2 d hd)⟩, hname⟩
  · rintro ⟨⟨c, cs, hcs, hc, hrest⟩, hname⟩
    rw [hcs, isIdentifier, Bool.and_eq_true, List.all_eq_true]
    exact ⟨⟨(isIdentifierStart_iff c).mpr hc,
      fun d hd => (isIdentifierRest_iff d).mpr (hrest d hd)⟩, hname⟩

/-! ### The first fault -/

/-- What is wrong with the name at a place among the names of the arguments: no argument can have
it, or an argument in front of it has it too. -/
inductive ArgumentFault (names : List String) (i : Nat) : Malformed → Prop where
  | invalid {name : String} : names[i]? = some name → ¬ IsArgumentName name →
      ArgumentFault names i (.argumentName name)
  | repeated {name : String} {j : Nat} : names[i]? = some name → j < i → names[j]? = some name →
      ArgumentFault names i (.repeatedArgument name)

theorem isArgumentName_of_faultless {names : List String} {i : Nat} {name : String}
    (hget : names[i]? = some name) (h : ∀ m, ¬ ArgumentFault names i m) : IsArgumentName name := by
  by_contra hname
  exact h _ (.invalid hget hname)

/-- The names are each compared with those in front of them only, which compares any two. -/
theorem faultless_iff (names : List String) :
    (∀ i m, ¬ ArgumentFault names i m) ↔ (∀ name ∈ names, IsArgumentName name) ∧ names.Nodup := by
  constructor
  · intro h
    refine ⟨fun name hmem => ?_, List.nodup_iff_getElem?_ne_getElem?.mpr fun j i hj hi heq => ?_⟩
    · obtain ⟨i, hi⟩ := List.mem_iff_getElem?.mp hmem
      exact isArgumentName_of_faultless hi (h i)
    · have hget : names[i]? = some names[i] := List.getElem?_eq_getElem hi
      exact h i _ (.repeated hget hj (heq.trans hget))
  · rintro ⟨hvalid, hnodup⟩ i m (⟨hi, hname⟩ | ⟨hi, hj, hearlier⟩)
    · exact hname (hvalid _ (List.mem_of_getElem? hi))
    · obtain ⟨hlength, -⟩ := List.getElem?_eq_some_iff.mp hi
      exact List.nodup_iff_getElem?_ne_getElem?.mp hnodup _ i hj hlength (hearlier.trans hi.symm)

theorem mem_take_iff_exists_getElem? {names : List String} {name : String} {i : Nat} :
    name ∈ names.take i ↔ ∃ j < i, names[j]? = some name := by
  simp only [List.mem_iff_getElem?, List.getElem?_take]
  grind

section

variable {α : Type} {items : List (Formal α)} {i : Nat}

/-- The check goes on behind an argument without a fault, with its name among the earlier ones. -/
theorem checkFormals_step (hi : i < items.length)
    (h : ∀ m, ¬ ArgumentFault (items.map Formal.name) i m) :
    checkFormals ((items.map Formal.name).take i) (items.drop i) =
      checkFormals ((items.map Formal.name).take (i + 1)) (items.drop (i + 1)) := by
  have hget : (items.map Formal.name)[i]? = some items[i].name := by simp [hi]
  have hname : isBareName items[i].name = true :=
    (isBareName_iff _).mpr (isArgumentName_of_faultless hget h)
  have hnew : items[i].name ∉ (items.map Formal.name).take i := fun hmem => by
    obtain ⟨j, hj, hearlier⟩ := mem_take_iff_exists_getElem?.mp hmem
    exact h _ (.repeated hget hj hearlier)
  rw [List.drop_eq_getElem_cons hi, checkFormals_cons, if_pos hname, if_neg hnew,
    List.take_add_one, hget, Option.toList_some]

/-- As long as there is no fault, the check has come to the next argument with the names of all
arguments in front of it. -/
theorem checkFormals_eq_drop (hi : i ≤ items.length)
    (h : ∀ j < i, ∀ m, ¬ ArgumentFault (items.map Formal.name) j m) :
    checkFormals [] items =
      checkFormals ((items.map Formal.name).take i) (items.drop i) := by
  induction i with
  | zero => rw [List.take_zero, List.drop_zero]
  | succ i ih =>
    rw [ih (Nat.le_of_succ_le hi) fun j hj => h j (Nat.lt_succ_of_lt hj),
      checkFormals_step hi (h i (Nat.lt_succ_self i))]

theorem checkFormals_eq_ok (h : ∀ i m, ¬ ArgumentFault (items.map Formal.name) i m) :
    checkFormals [] items = .ok () := by
  rw [checkFormals_eq_drop (Nat.le_refl items.length) fun j _ => h j, List.drop_length,
    checkFormals]

/-- The check stops at the first fault. A name that is there for the second time is one that an
argument can have, or the fault would be where it comes first. -/
theorem checkFormals_eq_error {m : Malformed}
    (hi : IsLeast {i | ∃ m, ArgumentFault (items.map Formal.name) i m} i)
    (h : ArgumentFault (items.map Formal.name) i m) : checkFormals [] items = .error m := by
  have hbefore : ∀ j < i, ∀ m, ¬ ArgumentFault (items.map Formal.name) j m :=
    fun j hj m hfault => Nat.not_le_of_lt hj (hi.2 ⟨m, hfault⟩)
  have hlength : i < items.length := by
    obtain ⟨hget, -⟩ | ⟨hget, -, -⟩ := h <;>
      simpa using (List.getElem?_eq_some_iff.mp hget).1
  rw [checkFormals_eq_drop hlength.le hbefore, List.drop_eq_getElem_cons hlength,
    checkFormals_cons]
  cases h with
  | @invalid name hget hname =>
    obtain rfl : items[i].name = name := by simpa [hlength] using hget
    rw [if_neg fun hbare => hname ((isBareName_iff _).mp hbare)]
  | @repeated name j hget hj hearlier =>
    obtain rfl : items[i].name = name := by simpa [hlength] using hget
    have hname : isBareName items[i].name = true :=
      (isBareName_iff _).mpr (isArgumentName_of_faultless hearlier (hbefore j hj))
    rw [if_pos hname, if_pos (mem_take_iff_exists_getElem?.mpr ⟨j, hj, hearlier⟩)]

theorem exists_isLeast_fault {m : Malformed} (h : ArgumentFault (items.map Formal.name) i m) :
    ∃ i, IsLeast {i | ∃ m, ArgumentFault (items.map Formal.name) i m} i := by
  classical
  have hfault : ∃ i, ∃ m, ArgumentFault (items.map Formal.name) i m := ⟨i, m, h⟩
  exact ⟨Nat.find hfault, Nat.isLeast_find hfault⟩

theorem checkFormals_eq_ok_iff (items : List (Formal α)) :
    checkFormals [] items = .ok () ↔
      (∀ f ∈ items, IsArgumentName f.name) ∧ (items.map Formal.name).Nodup := by
  have hnames : (∀ f ∈ items, IsArgumentName f.name) ↔
      ∀ name ∈ items.map Formal.name, IsArgumentName name := by simp
  rw [hnames, ← faultless_iff]
  refine ⟨fun hok i m hfault => ?_, checkFormals_eq_ok⟩
  obtain ⟨i, hi⟩ := exists_isLeast_fault hfault
  obtain ⟨m, hm⟩ := hi.1
  rw [checkFormals_eq_error hi hm] at hok
  cases hok

theorem isBareName_of_checkFormals (h : checkFormals [] items = .ok ()) :
    ∀ f ∈ items, isBareName f.name = true :=
  fun f hf => (isBareName_iff f.name).mpr (((checkFormals_eq_ok_iff items).mp h).1 f hf)

theorem checkFormals_eq_error_iff (items : List (Formal α)) (m : Malformed) :
    checkFormals [] items = .error m ↔
      ∃ i, IsLeast {i | ∃ m, ArgumentFault (items.map Formal.name) i m} i ∧
        ArgumentFault (items.map Formal.name) i m := by
  constructor
  · intro herror
    obtain ⟨i, m', hfault⟩ : ∃ i m', ArgumentFault (items.map Formal.name) i m' := by
      by_contra hnone
      rw [checkFormals_eq_ok fun i m' hfault => hnone ⟨i, m', hfault⟩] at herror
      cases herror
    obtain ⟨i, hi⟩ := exists_isLeast_fault hfault
    obtain ⟨m', hm'⟩ := hi.1
    obtain rfl : m' = m := Except.error.inj ((checkFormals_eq_error hi hm').symm.trans herror)
    exact ⟨i, hi, hm'⟩
  · rintro ⟨i, hi, hm⟩
    exact checkFormals_eq_error hi hm

end

namespace Expr

/-- A function with named arguments is made, of just the arguments and the body that were given,
exactly if arguments can have the names and no two of them are the same. Otherwise the first
argument with a fault is reported by its name, as an invalid name or as one that is declared
twice. -/
theorem function_formals_eq_iff (items : List (Formal Expr)) (ellipsis : Bool) (body : Expr) :
    (∀ e, function (.formals items ellipsis) body = .ok e ↔
      ((∀ f ∈ items, IsArgumentName f.name) ∧ (items.map Formal.name).Nodup) ∧
        e = .lambda (.formals items ellipsis) body) ∧
    (∀ m, function (.formals items ellipsis) body = .error m ↔
      ∃ i, IsLeast {i | ∃ m, ArgumentFault (items.map Formal.name) i m} i ∧
        ArgumentFault (items.map Formal.name) i m) ∧
    ∀ name,
      (Malformed.argumentName name).message =
        "Malformed function: " ++ (quotation name ++ " is not a valid argument name") ∧
      (Malformed.repeatedArgument name).message =
        "Malformed function: " ++ ("argument " ++ name ++ " is declared twice") := by
  refine ⟨fun e => ?_, fun m => ?_, fun name => ⟨rfl, rfl⟩⟩
  · rw [function_eq_ok_iff, Params.check, checkFormals_eq_ok_iff]
  · rw [function_eq_error_iff, Params.check, checkFormals_eq_error_iff]

/-- The second `a` is in front of the reserved word. -/
example : function (.formals [⟨"a", none⟩, ⟨"a", none⟩, ⟨"if", none⟩] true) .null =
    .error (.repeatedArgument "a") := rfl

end Expr

end NixSource
