import NixSource.Proofs.Fixture.Listing
import NixSource.Proofs.Fixture.PathOrder

/-! The test cases that are found at and below a directory: each directory with an input, once, by
the names that lead to it, in the order of these names, and the same ones however the directories
list their entries. -/

namespace NixSource

namespace FileTree

/-- `part` is what names lead to from a tree. -/
inductive Reaches : FileTree → List String → FileTree → Prop where
  | here (t : FileTree) : Reaches t [] t
  | entry {entries : List (String × FileTree)} {name : String} {t part : FileTree}
      {names : List String} : (name, t) ∈ entries → Reaches t names part →
        Reaches (directory entries) (name :: names) part

/-- A directory in which the input of a test case is a file. -/
inductive IsCase : FileTree → Prop where
  | mk {entries : List (String × FileTree)} {content : ByteArray} :
      Bindings.get? inputFile entries = some (file content) → IsCase (directory entries)

theorem hasInput_iff (entries : List (String × FileTree)) :
    hasInput entries = true ↔ IsCase (directory entries) := by
  unfold hasInput
  constructor
  · intro h
    split at h
    · next content hget => exact .mk hget
    · cases h
  · intro h
    cases h with
    | mk hget => rw [hget]

theorem mem_cases_directory {c : List String × FileTree} (entries : List (String × FileTree)) :
    c ∈ (directory entries).cases ↔
      (c = ([], directory entries) ∧ IsCase (directory entries)) ∨ c ∈ casesIn entries := by
  rw [cases, ← hasInput_iff]
  split <;> simp_all

mutual

/-- The test cases of a tree are the directories with an input that names lead to. -/
theorem mem_cases_iff (names : List String) (d : FileTree) : (t : FileTree) →
    ((names, d) ∈ t.cases ↔ Reaches t names d ∧ IsCase d)
  | file content => by
    rw [cases]
    constructor
    · nofun
    · rintro ⟨hreach, hcase⟩
      cases hreach
      cases hcase
  | directory entries => by
    rw [mem_cases_directory, mem_casesIn_iff names d entries]
    constructor
    · rintro (⟨h, hcase⟩ | ⟨name, t, rest, hmem, rfl, hreach, hcase⟩)
      · cases h
        exact ⟨.here _, hcase⟩
      · exact ⟨.entry hmem hreach, hcase⟩
    · rintro ⟨hreach, hcase⟩
      cases hreach with
      | here => exact .inl ⟨rfl, hcase⟩
      | entry hmem hreach => exact .inr ⟨_, _, _, hmem, rfl, hreach, hcase⟩

theorem mem_casesIn_iff (names : List String) (d : FileTree) :
    (entries : List (String × FileTree)) →
    ((names, d) ∈ casesIn entries ↔ ∃ name t rest, (name, t) ∈ entries ∧ names = name :: rest ∧
      Reaches t rest d ∧ IsCase d)
  | [] => by simp [casesIn]
  | (name, t) :: entries => by
    have hmap : (names, d) ∈ t.cases.map (fun c => (name :: c.1, c.2)) ↔
        ∃ rest, names = name :: rest ∧ Reaches t rest d ∧ IsCase d := by
      simp only [List.mem_map, Prod.exists, Prod.mk.injEq, ← mem_cases_iff _ d t]
      constructor
      · rintro ⟨rest, _, hmem, rfl, rfl⟩
        exact ⟨rest, rfl, hmem⟩
      · rintro ⟨rest, rfl, hmem⟩
        exact ⟨rest, d, hmem, rfl, rfl⟩
    rw [casesIn, List.mem_append, hmap, mem_casesIn_iff names d entries]
    constructor
    · rintro (⟨rest, hnames, h⟩ | ⟨n, t', rest, hmem, h⟩)
      · exact ⟨name, t, rest, List.mem_cons_self, hnames, h⟩
      · exact ⟨n, t', rest, List.mem_cons_of_mem _ hmem, h⟩
    · rintro ⟨n, t', rest, hmem, hnames, h⟩
      obtain heq | hmem := List.mem_cons.mp hmem
      · cases heq
        exact .inl ⟨rest, hnames, h⟩
      · exact .inr ⟨n, t', rest, hmem, hnames, h⟩

end

mutual

/-- No two test cases have the same path. -/
theorem nodup_names_cases : (t : FileTree) → t.Distinct → (t.cases.map Prod.fst).Nodup
  | file _, _ => by simp [cases]
  | directory entries, .directory hnames hentries => by
    have hbelow := nodup_names_casesIn entries hnames hentries
    have hroot : [] ∉ (casesIn entries).map Prod.fst := by
      rw [List.mem_map]
      rintro ⟨⟨_, d⟩, hmem, rfl⟩
      obtain ⟨_, _, _, _, h, _⟩ := (mem_casesIn_iff _ d entries).mp hmem
      cases h
    rw [cases]
    split
    · exact List.nodup_cons.mpr ⟨hroot, hbelow⟩
    · exact hbelow

theorem nodup_names_casesIn : (entries : List (String × FileTree)) →
    (Bindings.names entries).Nodup → (∀ p ∈ entries, p.2.Distinct) →
      ((casesIn entries).map Prod.fst).Nodup
  | [], _, _ => by simp [casesIn]
  | (name, t) :: entries, hnames, hentries => by
    obtain ⟨hname, hnames⟩ := List.nodup_cons.mp hnames
    obtain ⟨ht, hentries⟩ := List.forall_mem_cons.mp hentries
    rw [casesIn, List.map_append, List.map_map]
    refine List.nodup_append.mpr ⟨?_, nodup_names_casesIn entries hnames hentries, ?_⟩
    · have hcons : (Prod.fst ∘ fun c : List String × FileTree => (name :: c.1, c.2)) =
          (name :: ·) ∘ Prod.fst := rfl
      rw [hcons, ← List.map_map]
      exact (nodup_names_cases t ht).map (List.cons_injective)
    · intro here hhere there hthere heq
      obtain ⟨c, -, rfl⟩ := List.mem_map.mp hhere
      obtain ⟨⟨_, d⟩, hmem, rfl⟩ := List.mem_map.mp hthere
      obtain ⟨name', t', rest, hmem, hnames', -⟩ := (mem_casesIn_iff _ d entries).mp hmem
      cases heq.trans hnames'
      exact hname (List.mem_map.mpr ⟨_, hmem, rfl⟩)

end

theorem Listings.hasInput {entries entries' : List (String × FileTree)}
    (h : Listings (directory entries) (directory entries')) :
    FileTree.hasInput entries = FileTree.hasInput entries' := by
  have hinput := h.get? inputFile
  unfold FileTree.hasInput
  generalize Bindings.get? inputFile entries = o, Bindings.get? inputFile entries' = o' at hinput
  cases hinput with
  | none => rfl
  | some hinput => cases hinput.relisted <;> rfl

end FileTree

end NixSource
