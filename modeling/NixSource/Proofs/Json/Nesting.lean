import NixSource.Json.Reader
import NixSource.Proofs.Bindings.Insertion

/-! What the reader of JSON guarantees of a document, whatever the text: its arrays and objects are
nested no deeper than the reader goes, and a key that was repeated is bound once. -/

namespace NixSource

namespace Json

/-- A document whose arrays and objects are nested in fewer than `depth` others, and whose objects
bind each name once. -/
inductive Bounded : Nat → Json → Prop where
  | null (depth : Nat) : Bounded depth null
  | bool (depth : Nat) (b : Bool) : Bounded depth (bool b)
  | number (depth : Nat) (n : JsonNumber) : Bounded depth (number n)
  | string (depth : Nat) (s : String) : Bounded depth (string s)
  | array {depth : Nat} {items : List Json} :
      (∀ j ∈ items, Bounded depth j) → Bounded (depth + 1) (array items)
  | object {depth : Nat} {members : List (String × Json)} :
      (Bindings.names members).Nodup → (∀ p ∈ members, Bounded depth p.2) →
        Bounded (depth + 1) (object members)

variable {depth : Nat}

theorem Bounded.object_ofList {members : List (String × Json)}
    (h : ∀ p ∈ members, Bounded depth p.2) :
    Bounded (depth + 1) (.object (Bindings.ofList members)) :=
  .object (Bindings.nodup_names_ofList members) fun p hp => h p (Bindings.of_mem_ofList hp)

open Datum (exists_of_bind_ok)

mutual

/-- The reader goes one level down with each array or object, as the bound does. -/
theorem bounded_of_readValue : (fuel : Nat) → ∀ {depth : Nat} {cs rest : List Char} {j : Json},
    readValue fuel depth cs = .ok (j, rest) → Bounded depth j
  | 0, _, _, _, _, h => by simp [readValue, refuse] at h
  | fuel + 1, depth, cs, rest, j, h => by
    rw [readValue] at h
    split at h
    · cases h
    · obtain ⟨_, -, h⟩ := exists_of_bind_ok h
      cases h
      exact .null depth
    · obtain ⟨_, -, h⟩ := exists_of_bind_ok h
      cases h
      exact .bool depth true
    · obtain ⟨_, -, h⟩ := exists_of_bind_ok h
      cases h
      exact .bool depth false
    · obtain ⟨⟨s, _⟩, -, h⟩ := exists_of_bind_ok h
      cases h
      exact .string depth s
    · obtain ⟨⟨n, _⟩, -, h⟩ := exists_of_bind_ok h
      cases h
      exact .number depth n
    · split at h
      · cases h
      · obtain ⟨⟨items, _⟩, hitems, h⟩ := exists_of_bind_ok h
        cases h
        exact .array (bounded_of_readElements fuel hitems)
    · split at h
      · cases h
      · obtain ⟨⟨members, _⟩, hmembers, h⟩ := exists_of_bind_ok h
        cases h
        exact .object_ofList (bounded_of_readMembers fuel hmembers)
    · split at h
      · obtain ⟨⟨n, _⟩, -, h⟩ := exists_of_bind_ok h
        cases h
        exact .number depth n
      · cases h

theorem bounded_of_readElements : (fuel : Nat) → ∀ {depth : Nat} {first : Bool}
    {cs rest : List Char} {items : List Json},
    readElements fuel depth first cs = .ok (items, rest) → ∀ j ∈ items, Bounded depth j
  | 0, _, _, _, _, _, h => by simp [readElements, refuse] at h
  | fuel + 1, depth, first, cs, rest, items, h => by
    rw [readElements] at h
    obtain ⟨next, -, h⟩ := exists_of_bind_ok h
    cases next with
    | done _ =>
      cases h
      exact nofun
    | more cs =>
      obtain ⟨⟨j, _⟩, hj, h⟩ := exists_of_bind_ok h
      obtain ⟨⟨items, _⟩, hitems, h⟩ := exists_of_bind_ok h
      cases h
      exact List.forall_mem_cons.mpr
        ⟨bounded_of_readValue fuel hj, bounded_of_readElements fuel hitems⟩

theorem bounded_of_readMembers : (fuel : Nat) → ∀ {depth : Nat} {first : Bool}
    {cs rest : List Char} {members : List (String × Json)},
    readMembers fuel depth first cs = .ok (members, rest) → ∀ p ∈ members, Bounded depth p.2
  | 0, _, _, _, _, _, h => by simp [readMembers, refuse] at h
  | fuel + 1, depth, first, cs, rest, members, h => by
    rw [readMembers] at h
    obtain ⟨next, -, h⟩ := exists_of_bind_ok h
    cases next with
    | done _ =>
      cases h
      exact nofun
    | more cs =>
      obtain ⟨⟨key, _⟩, -, h⟩ := exists_of_bind_ok h
      obtain ⟨_, -, h⟩ := exists_of_bind_ok h
      obtain ⟨⟨j, _⟩, hj, h⟩ := exists_of_bind_ok h
      obtain ⟨⟨members, _⟩, hmembers, h⟩ := exists_of_bind_ok h
      cases h
      exact List.forall_mem_cons.mpr
        ⟨bounded_of_readValue fuel hj, bounded_of_readMembers fuel hmembers⟩

end

/-- Whatever text a document is read from, it stays within the depth that the reader goes to. -/
theorem bounded_of_read {text : String} {j : Json} (h : read text = .ok j) :
    Bounded nestingLimit j := by
  have hall : readAll text.toList = .ok j := by
    rw [read] at h
    cases hr : readAll text.toList with
    | error refusal =>
      rw [hr] at h
      cases h
    | ok j' =>
      rw [hr] at h
      cases h
      rfl
  rw [readAll] at hall
  obtain ⟨⟨j', rest⟩, hj, hall⟩ := exists_of_bind_ok hall
  have hbounded := bounded_of_readValue _ hj
  simp only at hall
  split at hall
  · cases hall
    exact hbounded
  · cases hall

end Json

end NixSource
