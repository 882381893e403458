import NixSource.Proofs.Bindings.Matches
import NixSource.Proofs.Description.Agreement
import NixSource.Fixture.Suite

/-! Directory trees whose directories list their entries in another order. What a path names in the
one is what it names in the other, up to the order in which that lists its entries. -/

namespace NixSource

theorem Bindings.forall₂_of_names {α : Type} {R : α → α → Prop} {a b : Bindings α}
    (hnames : a.names = b.names) (h : List.Forall₂ R (a.map Prod.snd) (b.map Prod.snd)) :
    List.Forall₂ (fun p q => p.1 = q.1 ∧ R p.2 q.2) a b := by
  induction a generalizing b with
  | nil =>
    cases b with
    | nil => exact .nil
    | cons q b => cases h
  | cons p a ih =>
    cases b with
    | nil => cases h
    | cons q b =>
      rw [names_cons, names_cons, List.cons.injEq] at hnames
      cases h with
      | cons hpq h => exact .cons ⟨hnames.1, hpq⟩ (ih hnames.2 h)

namespace FileTree

/-- No directory in a tree has two entries of one name. -/
inductive Distinct : FileTree → Prop where
  | file (content : ByteArray) : Distinct (file content)
  | directory {entries : List (String × FileTree)} : (Bindings.names entries).Nodup →
      (∀ p ∈ entries, Distinct p.2) → Distinct (directory entries)

@[simp] theorem distinct_file (content : ByteArray) : (file content).Distinct := .file content

@[simp] theorem distinct_directory_iff (entries : List (String × FileTree)) :
    (directory entries).Distinct ↔
      (Bindings.names entries).Nodup ∧ ∀ p ∈ entries, p.2.Distinct := by
  constructor
  · intro h
    cases h with
    | directory hnames hentries => exact ⟨hnames, hentries⟩
  · exact fun ⟨hnames, hentries⟩ => .directory hnames hentries

/-- The same tree, with the entries of each directory listed in some other order. -/
inductive Relisted : FileTree → FileTree → Prop where
  | file (content : ByteArray) : Relisted (file content) (file content)
  | directory {entries relisted entries' : List (String × FileTree)} :
      Bindings.names entries = Bindings.names relisted →
        List.Forall₂ Relisted (entries.map Prod.snd) (relisted.map Prod.snd) →
          relisted.Perm entries' → Relisted (directory entries) (directory entries')

mutual

theorem Relisted.refl : (t : FileTree) → Relisted t t
  | .file content => .file content
  | .directory entries => .directory rfl (Relisted.refl_entries entries) (.refl entries)

theorem Relisted.refl_entries : (entries : List (String × FileTree)) →
    List.Forall₂ Relisted (entries.map Prod.snd) (entries.map Prod.snd)
  | [] => .nil
  | (_, t) :: rest => .cons (Relisted.refl t) (Relisted.refl_entries rest)

end

/-- A relation that two listings of a directory are in if those of its entries are. -/
structure ListingRelation (R : FileTree → FileTree → Prop) : Prop where
  file : ∀ content, R (file content) (file content)
  directory : ∀ {entries relisted entries' : List (String × FileTree)},
    Bindings.names entries = Bindings.names relisted →
      List.Forall₂ (fun t t' => Relisted t t' ∧ R t t')
          (entries.map Prod.snd) (relisted.map Prod.snd) →
        relisted.Perm entries' → R (directory entries) (directory entries')

section

variable {R : FileTree → FileTree → Prop}

mutual

theorem ListingRelation.of_relisted (hR : ListingRelation R) :
    (t : FileTree) → ∀ {t' : FileTree}, Relisted t t' → R t t'
  | .file content, _, h => by
    cases h
    exact hR.file content
  | .directory entries, _, h => by
    cases h with
    | directory hnames hentries hperm =>
      exact hR.directory hnames (hR.of_relisted_entries entries hentries) hperm

theorem ListingRelation.of_relisted_entries (hR : ListingRelation R) :
    (entries : List (String × FileTree)) → ∀ {trees : List FileTree},
      List.Forall₂ Relisted (entries.map Prod.snd) trees →
        List.Forall₂ (fun t t' => Relisted t t' ∧ R t t') (entries.map Prod.snd) trees
  | [], _, h => by
    cases h
    exact .nil
  | (_, t) :: rest, _, h => by
    cases h with
    | cons ht hrest =>
      exact .cons ⟨ht, hR.of_relisted t ht⟩ (hR.of_relisted_entries rest hrest)

end

end

/-- Two listings of a tree without repeated names. -/
structure Listings (t t' : FileTree) : Prop where
  relisted : Relisted t t'
  distinct : t.Distinct

theorem Listings.matches {entries entries' : List (String × FileTree)}
    (h : Listings (directory entries) (directory entries')) :
    (Bindings.names entries).Nodup ∧ (Bindings.names entries').Nodup ∧
      Bindings.Matches Listings entries entries' := by
  obtain ⟨hrelisted, hdistinct⟩ := h
  cases hrelisted with
  | @directory _ relisted _ hnames hentries hperm =>
    cases hdistinct with
    | directory hnodup hchildren =>
      have hnodup' : (Bindings.names entries').Nodup := by
        rw [hnames] at hnodup
        exact (hperm.map Prod.fst).nodup_iff.mp hnodup
      have hpairs := Bindings.forall₂_of_names hnames hentries
      refine ⟨hnodup, hnodup', ?_⟩
      have hmatches : Bindings.Matches Relisted entries entries' :=
        (Bindings.matches_iff_perm hnodup hnodup').mpr ⟨relisted, hperm, hpairs⟩
      refine hmatches.imp_of_mem fun t ht t' _ h => ⟨h, ?_⟩
      exact List.forall_mem_map.mpr hchildren t ht

/-- A name that is an entry in the one listing of a directory is one in the other. -/
theorem Listings.get? {entries entries' : List (String × FileTree)}
    (h : Listings (directory entries) (directory entries')) (name : String) :
    Option.Rel Listings (Bindings.get? name entries) (Bindings.get? name entries') := by
  obtain ⟨hnodup, hnodup', hmatches⟩ := h.matches
  exact (Bindings.matches_iff_get? hnodup hnodup').mp hmatches name

/-- The same steps lead to the same place. -/
theorem Listings.follow (parts : List String) {above above' : List FileTree} {t t' : FileTree}
    (habove : List.Forall₂ Listings above above') (h : Listings t t') :
    Agree Listings (t.follow above parts) (t'.follow above' parts) := by
  induction parts generalizing above above' t t' with
  | nil => exact .ok h
  | cons part parts ih =>
    cases h.relisted with
    | file content => exact .error _
    | @directory entries _ entries' =>
      simp only [FileTree.follow]
      split
      · exact ih habove h
      · split
        · cases habove with
          | nil => exact .error _
          | cons hparent habove => exact ih habove hparent
        · have hchild := h.get? part
          generalize Bindings.get? part entries = child, Bindings.get? part entries' = child'
            at hchild
          cases hchild with
          | none => exact .error _
          | some hchild => exact ih (.cons h habove) hchild

theorem Listings.entry {t t' : FileTree} (h : Listings t t') (name : String) :
    Agree Listings (t.entry name) (t'.entry name) :=
  Listings.follow [name] .nil h

/-- A path names the same in both listings. -/
theorem Listings.find {t t' : FileTree} (h : Listings t t') (path : String) :
    Agree Listings (t.find path) (t'.find path) := by
  unfold FileTree.find
  split
  · exact .error _
  · exact Listings.follow _ .nil h

theorem Listings.text {t t' : FileTree} (h : Listings t t') : t.text = t'.text := by
  cases h.relisted <;> rfl

end FileTree

end NixSource
