import NixSource.Proofs.Value.WellFormed

/-! Entries bound one after the other. Nothing but the entries is bound, each name in the place
where it comes first, and entries with distinct names stay as they are. -/

namespace NixSource

namespace Bindings

variable {α : Type} {b entries : Bindings α}

theorem of_mem_insertMany {p : String × α} (h : p ∈ b.insertMany entries) :
    p ∈ b ∨ p ∈ entries := by
  induction entries generalizing b with
  | nil => exact .inl h
  | cons e entries ih =>
    obtain h | h := ih h
    · obtain rfl | h := of_mem_insert h
      · exact .inr List.mem_cons_self
      · exact .inl h
    · exact .inr (List.mem_cons_of_mem e h)

theorem of_mem_ofList {p : String × α} (h : p ∈ ofList entries) : p ∈ entries :=
  (of_mem_insertMany h).resolve_left nofun

theorem insert_of_not_mem {name : String} (h : name ∉ b.names) (v : α) :
    b.insert name v = b ++ [(name, v)] := by
  induction b with
  | nil => rfl
  | cons e b ih =>
    rw [names_cons, List.mem_cons, not_or] at h
    rw [insert, if_neg (Ne.symm h.1), ih h.2, List.cons_append]

theorem insertMany_eq_append (h : (names (b ++ entries)).Nodup) :
    b.insertMany entries = b ++ entries := by
  induction entries generalizing b with
  | nil => rw [List.append_nil]; rfl
  | cons e entries ih =>
    obtain ⟨name, v⟩ := e
    have hname : name ∉ b.names := by
      intro hmem
      simp only [names, List.map_append, List.map_cons] at h hmem
      exact (List.nodup_append.mp h).2.2 name hmem name List.mem_cons_self rfl
    have hmany : b.insertMany ((name, v) :: entries) = (b.insert name v).insertMany entries := rfl
    rw [hmany, insert_of_not_mem hname, ih (by simpa using h), List.append_assoc,
      List.singleton_append]

/-- Entries with distinct names are their own bindings. -/
theorem ofList_eq_self (h : entries.names.Nodup) : ofList entries = entries :=
  insertMany_eq_append h

/-- The names that were bound before, and behind them the others in the order in which they come
first. -/
theorem names_insertMany (b : Bindings α) (entries : List (String × α)) :
    (b.insertMany entries).names = b.names ++ ((names entries).removeAll b.names).eraseDups := by
  induction entries generalizing b with
  | nil => simp [insertMany, List.removeAll]
  | cons e entries ih =>
    obtain ⟨name, v⟩ := e
    have hmany : b.insertMany ((name, v) :: entries) = (b.insert name v).insertMany entries := rfl
    rw [hmany, ih, names_insert]
    by_cases hname : name ∈ b.names
    · rw [if_pos hname, names_cons, List.cons_removeAll, if_neg (by simpa using hname)]
    · have hfilter : ((names entries).removeAll b.names).filter (fun n => !n == name) =
          (names entries).removeAll (b.names ++ [name]) := by
        rw [List.removeAll, List.removeAll, List.filter_filter]
        refine List.filter_congr fun n _ => ?_
        by_cases hn : n = name <;> simp [hn]
      rw [if_neg hname, names_cons, List.cons_removeAll, if_pos (by simpa using hname),
        List.eraseDups_cons, hfilter, List.append_assoc, List.singleton_append]

theorem names_ofList (entries : List (String × α)) :
    (ofList entries).names = (names entries).eraseDups := by
  rw [ofList, names_insertMany, names_nil, List.removeAll_nil, List.nil_append]

end Bindings

end NixSource
