import NixSource.Proofs.Bindings.Insertion
import NixSource.Proofs.Bindings.Matches
import Mathlib.Data.List.Induction

/-! Sets that are collected from entries and go on being bound, one name at a time. What a set shows
after any such run is said from all the entries of the run: the place of a name from the first entry
for it, and its value from the last. -/

namespace NixSource

namespace Bindings

variable {α : Type} {b : Bindings α} {name : String}

/-- The value that the last of the entries for a name gives it. -/
def lastValue? (name : String) (entries : List (String × α)) : Option α :=
  (entries.filter fun e => e.1 = name).getLast?.map Prod.snd

theorem lastValue?_concat (name : String) (entries : List (String × α)) (e : String × α) :
    lastValue? name (entries ++ [e]) =
      if e.1 = name then some e.2 else lastValue? name entries := by
  by_cases h : e.1 = name <;> simp [lastValue?, List.filter_append, h]

/-- One more entry changes what is looked up under its own name only, so a run of them leaves every
name with its last value. -/
theorem get?_insertMany (b : Bindings α) (entries : List (String × α)) (name : String) :
    (b.insertMany entries).get? name = (lastValue? name entries).or (b.get? name) := by
  induction entries using List.reverseRecOn with
  | nil => rfl
  | append_singleton entries e ih =>
    have hstep : b.insertMany (entries ++ [e]) = (b.insertMany entries).insert e.1 e.2 :=
      insertMany_append b entries [e]
    rw [hstep, get?_insert, lastValue?_concat, ih]
    split <;> rfl

theorem get?_ofList (entries : List (String × α)) (name : String) :
    (ofList entries).get? name = lastValue? name entries := by
  rw [ofList, get?_insertMany, get?_nil, Option.or_none]

/-- A name that is bound is bound again where it is, and nothing else is touched. -/
theorem insert_of_mem (hnodup : b.names.Nodup) (h : name ∈ b.names) (value : α) :
    b.insert name value = b.map fun e => if e.1 = name then (name, value) else e := by
  induction b with
  | nil => cases h
  | cons e b ih =>
    obtain ⟨k, w⟩ := e
    obtain ⟨hk, hb⟩ := List.nodup_cons.mp hnodup
    by_cases hname : k = name
    · subst hname
      have hrest : b.map (fun e => if e.1 = k then (k, value) else e) = b := by
        refine (List.map_congr_left fun e he => if_neg fun hek => hk ?_).trans (List.map_id b)
        have hmem : e.1 ∈ names b := List.mem_map_of_mem he
        exact hek ▸ hmem
      rw [insert, if_pos rfl, List.map_cons, hrest, if_pos rfl]
    · have hmem : name ∈ names b := (List.mem_cons.mp h).resolve_left (Ne.symm hname)
      rw [insert, if_neg hname, ih hb hmem, List.map_cons, if_neg hname]

/-- Names that are bound once are looked up where they stand. -/
theorem getElem?_eq (h : b.names.Nodup) (i : Nat) :
    b[i]? = b.names[i]?.bind fun name => (b.get? name).map (name, ·) := by
  rw [names, List.getElem?_map]
  cases hi : b[i]? with
  | none => rfl
  | some e =>
    have hget : b.get? e.1 = some e.2 := (get?_eq_some_iff h e.1 e.2).mpr (List.mem_of_getElem? hi)
    simp [hget]

/-- What a set shows of the entries that were bound to make it. -/
structure Records (b : Bindings α) (entries : List (String × α)) : Prop where
  /-- Each name is there once, in the order in which the names come first. -/
  names : b.names = (Bindings.names entries).eraseDups
  nodup : b.names.Nodup
  get? : ∀ name, b.get? name = lastValue? name entries
  /-- The names that are bound are those with a value, which are those of the entries. -/
  contains : ∀ name, (b.contains name = true ↔ (b.get? name).isSome = true) ∧
    (b.contains name = true ↔ name ∈ Bindings.names entries)
  length : b.length = (Bindings.names entries).eraseDups.length
  isEmpty : b.isEmpty = true ↔ b.length = 0
  /-- One after the other, the bindings are the names, each with what is looked up under it. -/
  getElem? : ∀ i : Nat, b[i]? = b.names[i]?.bind fun name => (b.get? name).map (name, ·)

theorem records_ofList (entries : List (String × α)) : Records (ofList entries) entries where
  names := names_ofList entries
  nodup := nodup_names_ofList entries
  get? := get?_ofList entries
  contains name := by
    refine ⟨Iff.rfl, ?_⟩
    rw [contains, ← mem_names_iff, names_ofList, List.mem_eraseDups]
  length := by rw [← names_ofList, Bindings.names, List.length_map]
  isEmpty := List.isEmpty_iff_length_eq_zero
  getElem? := getElem?_eq (nodup_names_ofList entries)

/-- A set that is collected from some entries and goes on being bound, one name at a time, is the
set collected from all of the entries at once, and shows each name where it comes first with the
value that it is given last. Binding a name that is there already moves nothing and changes nothing
but what is looked up under that name. -/
theorem foldl_insert_ofList (given later : List (String × α)) :
    later.foldl (fun b e => b.insert e.1 e.2) (ofList given) = ofList (given ++ later) ∧
      Records (later.foldl (fun b e => b.insert e.1 e.2) (ofList given)) (given ++ later) ∧
      ∀ name value, name ∈ Bindings.names (given ++ later) →
        ((ofList (given ++ later)).insert name value).names = (ofList (given ++ later)).names ∧
        (∀ i : Nat, ((ofList (given ++ later)).insert name value)[i]? =
          (ofList (given ++ later))[i]?.map fun e => if e.1 = name then (name, value) else e) ∧
        ∀ other, other ≠ name →
          ((ofList (given ++ later)).insert name value).get? other =
            (ofList (given ++ later)).get? other := by
  have hrun : later.foldl (fun b e => b.insert e.1 e.2) (ofList given) = ofList (given ++ later) :=
    (insertMany_append [] given later).symm
  refine ⟨hrun, hrun ▸ records_ofList _, fun name value hname => ⟨?_, fun i => ?_, ?_⟩⟩
  · rw [names_insert, if_pos]
    rwa [names_ofList, List.mem_eraseDups]
  · rw [insert_of_mem (nodup_names_ofList _), List.getElem?_map]
    rwa [names_ofList, List.mem_eraseDups]
  · intro other hother
    rw [get?_insert, if_neg (Ne.symm hother)]

/-- A name of the entries that a set was collected from is bound again in between new ones. -/
theorem foldl_insert_ofList_repeated :
    "b" ∈ Bindings.names ([("a", 1), ("b", 2), ("a", 3)] ++ [("c", 4), ("a", 5)]) ∧
      [("c", 4), ("a", 5)].foldl (fun b e => b.insert e.1 e.2)
        (ofList [("a", 1), ("b", 2), ("a", 3)]) = [("a", 5), ("b", 2), ("c", 4)] ∧
      Records [("a", 5), ("b", 2), ("c", 4)]
        ([("a", 1), ("b", 2), ("a", 3)] ++ [("c", 4), ("a", 5)]) ∧
      insert "b" 6 [("a", 5), ("b", 2), ("c", 4)] = [("a", 5), ("b", 6), ("c", 4)] ∧
      Bindings.names (insert "b" 6 [("a", 5), ("b", 2), ("c", 4)]) = ["a", "b", "c"] := by
  have hmem : "b" ∈ Bindings.names ([("a", 1), ("b", 2), ("a", 3)] ++ [("c", 4), ("a", 5)]) := by
    decide
  obtain ⟨-, hrecords, hinsert⟩ :=
    foldl_insert_ofList [("a", 1), ("b", 2), ("a", 3)] [("c", 4), ("a", 5)]
  exact ⟨hmem, rfl, hrecords, rfl, (hinsert "b" 6 hmem).1⟩

end Bindings

end NixSource
