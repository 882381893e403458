import NixSource.Bindings
import Mathlib.Data.List.Forall2
import Mathlib.Data.List.Nodup
import Mathlib.Data.List.Perm.Subperm
import Mathlib.Data.Option.Defs
import Mathlib.Logic.Relation

/-! Bindings compared without their order. Comparing counts and looking up each binding of the one
side in the other is the same as looking up every name in both, and the same as pairing the bindings
off, as long as each side binds every name once. -/

namespace NixSource

section

variable {α β γ : Type} {R : α → β → Prop}

theorem exists_of_forall₂ {l : List α} {m : List β} (h : List.Forall₂ R l m) :
    ∀ x ∈ l, ∃ y ∈ m, R x y := by
  induction h with
  | nil => nofun
  | cons hxy _ ih =>
    refine List.forall_mem_cons.mpr ⟨⟨_, List.mem_cons_self, hxy⟩, fun x hx => ?_⟩
    obtain ⟨y, hy, h⟩ := ih x hx
    exact ⟨y, List.mem_cons_of_mem _ hy, h⟩

theorem forall₂_imp_of_mem {S : α → β → Prop} {l : List α} {m : List β} (h : List.Forall₂ R l m)
    (hRS : ∀ x ∈ l, ∀ y ∈ m, R x y → S x y) : List.Forall₂ S l m := by
  refine List.forall₂_iff_zip.mpr ⟨h.length_eq, fun {x y} hxy => ?_⟩
  obtain ⟨hx, hy⟩ := List.of_mem_zip hxy
  exact hRS x hx y hy (List.forall₂_zip h hxy)

theorem forall₂_comp {S : β → γ → Prop} {l : List α} {m : List β} {n : List γ}
    (h : List.Forall₂ R l m) (h' : List.Forall₂ S m n) :
    List.Forall₂ (Relation.Comp R S) l n := by
  induction h generalizing n with
  | nil =>
    cases h'
    exact .nil
  | cons hxy _ ih =>
    cases h' with
    | cons hyz h' => exact .cons ⟨_, hxy, hyz⟩ (ih h')

theorem optionRel_imp_of_mem {S : α → β → Prop} {o : Option α} {p : Option β}
    (h : Option.Rel R o p) (hRS : ∀ x ∈ o, ∀ y ∈ p, R x y → S x y) : Option.Rel S o p := by
  cases h with
  | none => exact .none
  | some hxy => exact .some (hRS _ rfl _ rfl hxy)

theorem optionRel_flip {o : Option α} {p : Option β} (h : Option.Rel R o p) :
    Option.Rel (flip R) p o := by
  cases h with
  | none => exact .none
  | some hxy => exact .some hxy

theorem optionRel_comp {S : β → γ → Prop} {o : Option α} {p : Option β} {q : Option γ}
    (h : Option.Rel R o p) (h' : Option.Rel S p q) : Option.Rel (Relation.Comp R S) o q := by
  cases h with
  | none =>
    cases h'
    exact .none
  | some hxy =>
    cases h' with
    | some hyz => exact .some ⟨_, hxy, hyz⟩

end

namespace Bindings

variable {α : Type} {R S : α → α → Prop} {a b c : Bindings α}

theorem get?_eq_some_iff (h : a.names.Nodup) (name : String) (v : α) :
    a.get? name = some v ↔ (name, v) ∈ a := by
  induction a with
  | nil => simp
  | cons p a ih =>
    obtain ⟨k, w⟩ := p
    obtain ⟨hk, ha⟩ := List.nodup_cons.mp h
    by_cases hkn : k = name
    · subst hkn
      have hnot : (k, v) ∉ a := fun hm => hk (List.mem_map.mpr ⟨_, hm, rfl⟩)
      simp [get?, hnot, eq_comm]
    · simp [get?, hkn, Ne.symm hkn, ih ha]

theorem mem_of_get? {name : String} {v : α} (h : a.get? name = some v) : (name, v) ∈ a := by
  induction a with
  | nil => cases h
  | cons p a ih =>
    obtain ⟨k, w⟩ := p
    by_cases hk : k = name
    · subst hk
      rw [get?, if_pos rfl] at h
      cases h
      exact List.mem_cons_self
    · rw [get?, if_neg hk] at h
      exact List.mem_cons_of_mem _ (ih h)

/-- Equally many bindings on both sides, and each of `a` has one of the same name in `b`, with a
value that is related to its own. -/
def Matches (R : α → α → Prop) (a b : Bindings α) : Prop :=
  a.length = b.length ∧ ∀ p ∈ a, ∃ w, b.get? p.1 = some w ∧ R p.2 w

/-- Each binding of `a` paired with the one that it has in `b`. -/
theorem Matches.exists_forall₂ (h : ∀ p ∈ a, ∃ w, b.get? p.1 = some w ∧ R p.2 w) :
    ∃ c : Bindings α, List.Forall₂ (fun p q => p.1 = q.1 ∧ R p.2 q.2) a c ∧ ∀ q ∈ c, q ∈ b := by
  induction a with
  | nil => exact ⟨[], .nil, nofun⟩
  | cons p a ih =>
    obtain ⟨⟨w, hw, hR⟩, ha⟩ := List.forall_mem_cons.mp h
    obtain ⟨c, hc, hcb⟩ := ih ha
    exact ⟨(p.1, w) :: c, .cons ⟨rfl, hR⟩ hc, List.forall_mem_cons.mpr ⟨mem_of_get? hw, hcb⟩⟩

theorem names_eq_of_forall₂ {β : Type} {R : α → β → Prop} {c : Bindings β}
    (h : List.Forall₂ (fun p q => p.1 = q.1 ∧ R p.2 q.2) a c) : a.names = c.names := by
  induction h with
  | nil => rfl
  | cons hpq _ ih => rw [names_cons, names_cons, hpq.1, ih]

/-- Bindings match exactly if those of `b`, in some order, are those of `a` with related values. -/
theorem matches_iff_perm (ha : a.names.Nodup) (hb : b.names.Nodup) :
    Matches R a b ↔ ∃ c : Bindings α, c.Perm b ∧
      List.Forall₂ (fun p q => p.1 = q.1 ∧ R p.2 q.2) a c := by
  constructor
  · rintro ⟨hlength, h⟩
    obtain ⟨c, hc, hcb⟩ := Matches.exists_forall₂ h
    have hnames : c.names.Nodup := names_eq_of_forall₂ hc ▸ ha
    have hsub : c.Subperm b := List.subperm_of_subset (.of_map Prod.fst hnames) hcb
    exact ⟨c, hsub.perm_of_length_le (Nat.le_of_eq (hlength.symm.trans hc.length_eq)), hc⟩
  · rintro ⟨c, hperm, hc⟩
    refine ⟨hc.length_eq.trans hperm.length_eq, fun p hp => ?_⟩
    obtain ⟨q, hq, hname, hR⟩ := exists_of_forall₂ hc p hp
    exact ⟨q.2, (get?_eq_some_iff hb p.1 q.2).mpr (hname ▸ hperm.mem_iff.mp hq), hR⟩

theorem Matches.perm_names (ha : a.names.Nodup) (hb : b.names.Nodup) (h : Matches R a b) :
    a.names.Perm b.names := by
  obtain ⟨c, hperm, hc⟩ := (matches_iff_perm ha hb).mp h
  rw [names_eq_of_forall₂ hc]
  exact hperm.map Prod.fst

/-- Bindings match exactly if every name is bound on both sides, to related values, or on none. -/
theorem matches_iff_get? (ha : a.names.Nodup) (hb : b.names.Nodup) :
    Matches R a b ↔ ∀ name, Option.Rel R (a.get? name) (b.get? name) := by
  constructor
  · intro h name
    cases hv : a.get? name with
    | some v =>
      obtain ⟨w, hw, hR⟩ := h.2 (name, v) (mem_of_get? hv)
      rw [hw]
      exact .some hR
    | none =>
      have hnot : name ∉ a.names := by simp [mem_names_iff, hv]
      rw [(h.perm_names ha hb).mem_iff, mem_names_iff, Option.not_isSome_iff_eq_none] at hnot
      rw [hnot]
      exact .none
  · intro h
    have hmem : ∀ name, name ∈ a.names ↔ name ∈ b.names := by
      intro name
      rw [mem_names_iff, mem_names_iff]
      have hrel := h name
      generalize a.get? name = o, b.get? name = p at hrel
      cases hrel <;> simp
    constructor
    · have hperm := (List.perm_ext_iff_of_nodup ha hb).mpr hmem
      simpa [names] using hperm.length_eq
    · intro p hp
      have hrel := h p.1
      rw [(get?_eq_some_iff ha p.1 p.2).mpr hp] at hrel
      generalize b.get? p.1 = o at hrel
      cases hrel with
      | some hR => exact ⟨_, rfl, hR⟩

theorem matches_self_iff (ha : a.names.Nodup) :
    Matches R a a ↔ ∀ v ∈ a.map Prod.snd, R v v := by
  rw [List.forall_mem_map]
  constructor
  · rintro ⟨-, h⟩ p hp
    obtain ⟨w, hw, hR⟩ := h p hp
    rw [(get?_eq_some_iff ha p.1 p.2).mpr hp] at hw
    cases hw
    exact hR
  · exact fun h => ⟨rfl, fun p hp => ⟨p.2, (get?_eq_some_iff ha p.1 p.2).mpr hp, h p hp⟩⟩

theorem Matches.imp_of_mem (h : Matches R a b)
    (hRS : ∀ v ∈ a.map Prod.snd, ∀ w ∈ b.map Prod.snd, R v w → S v w) : Matches S a b := by
  refine ⟨h.1, fun p hp => ?_⟩
  obtain ⟨w, hw, hR⟩ := h.2 p hp
  have hmem := List.mem_map_of_mem (f := Prod.snd) (mem_of_get? hw)
  exact ⟨w, hw, hRS p.2 (List.mem_map_of_mem hp) w hmem hR⟩

theorem Matches.swap (h : Matches R a b) (ha : a.names.Nodup) (hb : b.names.Nodup) :
    Matches (flip R) b a := by
  rw [matches_iff_get? ha hb] at h
  rw [matches_iff_get? hb ha]
  exact fun name => optionRel_flip (h name)

theorem Matches.comp (h : Matches R a b) (h' : Matches S b c) :
    Matches (Relation.Comp R S) a c := by
  refine ⟨h.1.trans h'.1, fun p hp => ?_⟩
  obtain ⟨v, hv, hR⟩ := h.2 p hp
  obtain ⟨w, hw, hS⟩ := h'.2 (p.1, v) (mem_of_get? hv)
  exact ⟨w, hw, v, hR, hS⟩

end Bindings

end NixSource
