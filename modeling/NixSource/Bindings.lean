/-! Bindings: names bound to values, each name once, in the order in which they were first bound. -/

namespace NixSource

/-- Names with their values, in order. -/
abbrev Bindings (α : Type) := List (String × α)

namespace Bindings

variable {α : Type}

/-- Binds `name` to `value`. A name that is bound already keeps its place and takes the new value; a
new one goes to the end. -/
def insert (name : String) (value : α) : Bindings α → Bindings α
  | [] => [(name, value)]
  | (n, v) :: rest => if n = name then (n, value) :: rest else (n, v) :: insert name value rest

def insertMany (b : Bindings α) (entries : List (String × α)) : Bindings α :=
  entries.foldl (fun b e => b.insert e.1 e.2) b

/-- The entries bound one after the other. -/
def ofList (entries : List (String × α)) : Bindings α :=
  insertMany [] entries

def get? (name : String) : Bindings α → Option α
  | [] => none
  | (n, v) :: rest => if n = name then some v else get? name rest

def contains (b : Bindings α) (name : String) : Bool :=
  (b.get? name).isSome

def names (b : Bindings α) : List String :=
  b.map Prod.fst

@[simp] theorem names_nil : names ([] : Bindings α) = [] := rfl

@[simp] theorem names_cons (e : String × α) (b : Bindings α) :
    names (e :: b) = e.1 :: names b := rfl

@[simp] theorem get?_nil (m : String) : get? m ([] : Bindings α) = none := rfl

theorem get?_insert (b : Bindings α) (n m : String) (v : α) :
    (b.insert n v).get? m = if n = m then some v else b.get? m := by
  induction b with
  | nil => simp [insert, get?]
  | cons e rest ih =>
    obtain ⟨k, w⟩ := e
    by_cases hk : k = n
    · subst hk
      by_cases hm : k = m <;> simp [insert, get?, hm]
    · by_cases hm : k = m
      · subst hm
        simp [insert, get?, hk, Ne.symm hk]
      · simp [insert, get?, hk, hm, ih]

theorem mem_names_iff (b : Bindings α) (n : String) : n ∈ b.names ↔ (b.get? n).isSome := by
  induction b with
  | nil => simp
  | cons e rest ih =>
    obtain ⟨k, w⟩ := e
    by_cases hk : k = n
    · simp [get?, hk]
    · simp [get?, hk, Ne.symm hk, ih]

theorem names_insert (b : Bindings α) (n : String) (v : α) :
    (b.insert n v).names = if n ∈ b.names then b.names else b.names ++ [n] := by
  induction b with
  | nil => simp [insert]
  | cons e rest ih =>
    obtain ⟨k, w⟩ := e
    by_cases hk : k = n
    · simp [insert, hk]
    · by_cases hn : n ∈ names rest <;> simp [insert, hk, Ne.symm hk, ih, hn]

theorem nodup_names_insert {b : Bindings α} (h : b.names.Nodup) (n : String) (v : α) :
    (b.insert n v).names.Nodup := by
  rw [names_insert]
  split
  · exact h
  · next hn =>
    refine List.nodup_append.mpr ⟨h, by simp, fun a ha c hc => ?_⟩
    simp only [List.mem_singleton] at hc
    exact fun e => hn (hc ▸ e ▸ ha)

theorem nodup_names_insertMany (entries : List (String × α)) {b : Bindings α}
    (h : b.names.Nodup) : (b.insertMany entries).names.Nodup := by
  induction entries generalizing b with
  | nil => exact h
  | cons e rest ih => exact ih (nodup_names_insert h e.1 e.2)

theorem nodup_names_ofList (entries : List (String × α)) : (ofList entries).names.Nodup :=
  nodup_names_insertMany entries List.nodup_nil

theorem insertMany_append (b : Bindings α) (l m : List (String × α)) :
    b.insertMany (l ++ m) = (b.insertMany l).insertMany m :=
  List.foldl_append

end Bindings

end NixSource
