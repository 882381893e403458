import NixSource.Expr.Equality
import NixSource.Proofs.Bindings.Matches
import NixSource.Proofs.Expr.Parts

/-! Equality of expressions is an equivalence. One layer of it relates two expressions by a relation
between their parts, and such a layer can be turned round and composed with another; induction
carries this to whole expressions. -/

namespace NixSource

section

variable {α β γ : Type} {R : α → β → Prop}

/-- Formals of the same name, with related defaults or none on either side. -/
def Formal.Matches (R : α → β → Prop) (f : Formal α) (g : Formal β) : Prop :=
  f.name = g.name ∧ Option.Rel R f.default g.default

/-- Parameters that bind the same names in the same order. -/
inductive Params.Matches (R : α → β → Prop) : Params α → Params β → Prop where
  | name (x : String) : Matches R (.name x) (.name x)
  | formals {f : List (Formal α)} {g : List (Formal β)} (ellipsis : Bool) :
      List.Forall₂ (Formal.Matches R) f g → Matches R (.formals f ellipsis) (.formals g ellipsis)

theorem mem_defaults {items : List (Formal α)} {ellipsis : Bool} {f : Formal α} (hf : f ∈ items)
    {d : α} (hd : d ∈ f.default) : d ∈ (Params.formals items ellipsis).defaults :=
  List.mem_filterMap.mpr ⟨f, hf, hd⟩

theorem Params.Matches.refl {R : α → α → Prop} {p : Params α} (hR : ∀ x ∈ p.defaults, R x x) :
    p.Matches R p := by
  cases p with
  | name x => exact .name x
  | formals items ellipsis =>
    refine .formals ellipsis (List.forall₂_same.mpr fun f hf => ⟨rfl, ?_⟩)
    cases hd : f.default with
    | none => exact .none
    | some d => exact .some (hR d (mem_defaults hf hd))

theorem Params.Matches.imp_of_mem {S : α → β → Prop} {p : Params α} {q : Params β}
    (h : p.Matches R q) (hRS : ∀ x ∈ p.defaults, ∀ y ∈ q.defaults, R x y → S x y) :
    p.Matches S q := by
  cases h with
  | name x => exact .name x
  | formals ellipsis h =>
    refine .formals ellipsis (forall₂_imp_of_mem h fun f hf g hg hfg => ⟨hfg.1, ?_⟩)
    exact optionRel_imp_of_mem hfg.2 fun x hx y hy =>
      hRS x (mem_defaults hf hx) y (mem_defaults hg hy)

theorem Params.Matches.swap {p : Params α} {q : Params β} (h : p.Matches R q) :
    q.Matches (flip R) p := by
  cases h with
  | name x => exact .name x
  | formals ellipsis h =>
    have h' := h.imp fun f g hfg => And.intro hfg.1.symm (optionRel_flip hfg.2)
    exact .formals ellipsis h'.flip

theorem Params.Matches.comp {S : β → γ → Prop} {p : Params α} {q : Params β} {r : Params γ}
    (h : p.Matches R q) (h' : q.Matches S r) : p.Matches (Relation.Comp R S) r := by
  cases h with
  | name x =>
    cases h'
    exact .name x
  | formals ellipsis h =>
    cases h' with
    | formals _ h' =>
      exact .formals ellipsis ((forall₂_comp h h').imp fun f k ⟨g, hfg, hgk⟩ =>
        ⟨hfg.1.trans hgk.1, optionRel_comp hfg.2 hgk.2⟩)

end

namespace Expr

variable {R S : Expr → Expr → Prop} {a b c : Expr}

/-- Expressions of the same form that agree in all but their parts, the parts being related by `R`.
Only the bindings of sets may come in another order. -/
inductive Matches (R : Expr → Expr → Prop) : Expr → Expr → Prop where
  | null : Matches R null null
  | bool (b : Bool) : Matches R (bool b) (bool b)
  | int (i : Int64) : Matches R (int i) (int i)
  | float (x : FiniteFloat) : Matches R (float x) (float x)
  | string (s : String) : Matches R (string s) (string s)
  | uri (u : Uri) : Matches R (uri u) (uri u)
  | path (p : PathLiteral) : Matches R (path p) (path p)
  | verbatim (source : String) : Matches R (verbatim source) (verbatim source)
  | inherit (scope : Option String) : Matches R (inherit scope) (inherit scope)
  | attrs {a b : Bindings Expr} : a.Matches R b → Matches R (attrs a) (attrs b)
  | recAttrs {a b : Bindings Expr} : a.Matches R b → Matches R (recAttrs a) (recAttrs b)
  | list {a b : List Expr} : List.Forall₂ R a b → Matches R (list a) (list b)
  | update {l r l' r' : Expr} : R l l' → R r r' → Matches R (update l r) (update l' r')
  | apply {f x f' x' : Expr} : R f f' → R x x' → Matches R (apply f x) (apply f' x')
  | letIn {a b : Bindings Expr} {body body' : Expr} :
      a.Matches R b → R body body' → Matches R (letIn a body) (letIn b body')
  | lambda {p q : Params Expr} {body body' : Expr} :
      p.Matches R q → R body body' → Matches R (lambda p body) (lambda q body')
  | ifThenElse {c y n c' y' n' : Expr} :
      R c c' → R y y' → R n n' → Matches R (ifThenElse c y n) (ifThenElse c' y' n')
  | withScope {s body s' body' : Expr} :
      R s s' → R body body' → Matches R (withScope s body) (withScope s' body')
  | assertThen {c body c' body' : Expr} :
      R c c' → R body body' → Matches R (assertThen c body) (assertThen c' body')
  | importOf {p p' : Expr} : R p p' → Matches R (importOf p) (importOf p')
  | select {s s' : Expr} (p : AttributePath) {d d' : Option Expr} :
      R s s' → Option.Rel R d d' → Matches R (select s p d) (select s' p d')

/-! ### Equality, one layer at a time -/

theorem beq_eq_same (a b : Expr) : (a == b) = a.same b := rfl

theorem bindingsIn_iff (b : Bindings Expr) (l : List (String × Expr)) :
    bindingsIn b l = true ↔ ∀ p ∈ l, ∃ w, b.get? p.1 = some w ∧ (p.2 == w) = true := by
  induction l with
  | nil => simp [bindingsIn]
  | cons p l ih =>
    have hcons : bindingsIn b (p :: l) = ((b.get? p.1).any (p.2 == ·) && bindingsIn b l) := by
      rw [bindingsIn]
      cases b.get? p.1 <;> rfl
    rw [hcons, Bool.and_eq_true, Option.any_eq_true, ih, List.forall_mem_cons]

theorem sameBindings_iff (a b : Bindings Expr) :
    sameBindings a b = true ↔ a.Matches (fun x y => (x == y) = true) b := by
  rw [sameBindings, Bool.and_eq_true, beq_iff_eq, bindingsIn_iff, Bindings.Matches]

theorem sameElements_iff (a b : List Expr) :
    sameElements a b = true ↔ List.Forall₂ (fun x y => (x == y) = true) a b := by
  induction a generalizing b with
  | nil => cases b <;> simp [sameElements]
  | cons x a ih =>
    cases b with
    | nil => simp [sameElements]
    | cons y b =>
      rw [sameElements, Bool.and_eq_true, ih, List.forall₂_cons, beq_eq_same]

theorem sameFormals_iff (a b : List (Formal Expr)) :
    sameFormals a b = true ↔ List.Forall₂ (Formal.Matches fun x y => (x == y) = true) a b := by
  induction a generalizing b with
  | nil => cases b <;> simp [sameFormals]
  | cons f a ih =>
    cases b with
    | nil => simp [sameFormals]
    | cons g b =>
      obtain ⟨n, d⟩ := f
      obtain ⟨m, d'⟩ := g
      rw [List.forall₂_cons, ← ih]
      cases d <;> cases d' <;> simp [sameFormals, Formal.Matches, and_assoc, beq_eq_same]

theorem matches_of_beq (h : (a == b) = true) : a.Matches (fun x y => (x == y) = true) b := by
  rw [beq_eq_same] at h
  unfold same at h
  -- One case for each equation of equality, in their order, and the last one for different forms.
  split at h
  · exact .null
  · exact eq_of_beq h ▸ .bool _
  · exact eq_of_beq h ▸ .int _
  · exact eq_of_beq h ▸ .float _
  · exact eq_of_beq h ▸ .string _
  · exact eq_of_beq h ▸ .uri _
  · exact eq_of_beq h ▸ .path _
  · exact eq_of_beq h ▸ .verbatim _
  · exact eq_of_beq h ▸ .inherit _
  · exact .attrs ((sameBindings_iff _ _).mp h)
  · exact .recAttrs ((sameBindings_iff _ _).mp h)
  · exact .list ((sameElements_iff _ _).mp h)
  · obtain ⟨hl, hr⟩ := Bool.and_eq_true_iff.mp h
    exact .update hl hr
  · obtain ⟨hf, hx⟩ := Bool.and_eq_true_iff.mp h
    exact .apply hf hx
  · obtain ⟨hset, hbody⟩ := Bool.and_eq_true_iff.mp h
    exact .letIn ((sameBindings_iff _ _).mp hset) hbody
  · obtain ⟨hx, hbody⟩ := Bool.and_eq_true_iff.mp h
    exact .lambda (eq_of_beq hx ▸ .name _) hbody
  · obtain ⟨hparams, hbody⟩ := Bool.and_eq_true_iff.mp h
    obtain ⟨hformals, hellipsis⟩ := Bool.and_eq_true_iff.mp hparams
    exact .lambda (eq_of_beq hellipsis ▸ .formals _ ((sameFormals_iff _ _).mp hformals)) hbody
  · obtain ⟨hcy, hn⟩ := Bool.and_eq_true_iff.mp h
    obtain ⟨hc, hy⟩ := Bool.and_eq_true_iff.mp hcy
    exact .ifThenElse hc hy hn
  · obtain ⟨hs, hbody⟩ := Bool.and_eq_true_iff.mp h
    exact .withScope hs hbody
  · obtain ⟨hc, hbody⟩ := Bool.and_eq_true_iff.mp h
    exact .assertThen hc hbody
  · exact .importOf h
  · obtain ⟨hs, hp⟩ := Bool.and_eq_true_iff.mp h
    exact eq_of_beq hp ▸ .select _ hs .none
  · obtain ⟨hsp, hd⟩ := Bool.and_eq_true_iff.mp h
    obtain ⟨hs, hp⟩ := Bool.and_eq_true_iff.mp hsp
    exact eq_of_beq hp ▸ .select _ hs (.some hd)
  · cases h

theorem beq_of_matches (h : a.Matches (fun x y => (x == y) = true) b) : (a == b) = true := by
  cases h with
  | null => rfl
  | bool b => exact beq_self_eq_true b
  | int i => exact beq_self_eq_true i
  | float x => exact beq_self_eq_true x
  | string s => exact beq_self_eq_true s
  | uri u => exact beq_self_eq_true u
  | path p => exact beq_self_eq_true p
  | verbatim source => exact beq_self_eq_true source
  | inherit scope => exact beq_self_eq_true scope
  | attrs h => exact (sameBindings_iff _ _).mpr h
  | recAttrs h => exact (sameBindings_iff _ _).mpr h
  | list h => exact (sameElements_iff _ _).mpr h
  | update hl hr => exact Bool.and_eq_true_iff.mpr ⟨hl, hr⟩
  | apply hf hx => exact Bool.and_eq_true_iff.mpr ⟨hf, hx⟩
  | letIn h hbody => exact Bool.and_eq_true_iff.mpr ⟨(sameBindings_iff _ _).mpr h, hbody⟩
  | lambda h hbody =>
    cases h with
    | name x => exact Bool.and_eq_true_iff.mpr ⟨beq_self_eq_true x, hbody⟩
    | formals ellipsis h =>
      have hparams := Bool.and_eq_true_iff.mpr
        ⟨(sameFormals_iff _ _).mpr h, beq_self_eq_true ellipsis⟩
      exact Bool.and_eq_true_iff.mpr ⟨hparams, hbody⟩
  | ifThenElse hc hy hn =>
    exact Bool.and_eq_true_iff.mpr ⟨Bool.and_eq_true_iff.mpr ⟨hc, hy⟩, hn⟩
  | withScope hs hbody => exact Bool.and_eq_true_iff.mpr ⟨hs, hbody⟩
  | assertThen hc hbody => exact Bool.and_eq_true_iff.mpr ⟨hc, hbody⟩
  | importOf hp => exact hp
  | select p hs hd =>
    have hset := Bool.and_eq_true_iff.mpr ⟨hs, beq_self_eq_true p⟩
    cases hd with
    | none => exact hset
    | some hd => exact Bool.and_eq_true_iff.mpr ⟨hset, hd⟩

theorem beq_iff_matches (a b : Expr) :
    (a == b) = true ↔ a.Matches (fun x y => (x == y) = true) b :=
  ⟨matches_of_beq, beq_of_matches⟩

/-! ### The laws, from the parts to the whole -/

theorem Matches.refl (ha : a.WellFormed) (hR : ∀ x ∈ a.parts, R x x) : a.Matches R a := by
  cases a with
  | null => exact .null
  | bool b => exact .bool b
  | int i => exact .int i
  | float x => exact .float x
  | string s => exact .string s
  | uri u => exact .uri u
  | path p => exact .path p
  | verbatim source => exact .verbatim source
  | inherit scope => exact .inherit scope
  | attrs b => exact .attrs ((Bindings.matches_self_iff ha.1).mpr hR)
  | recAttrs b => exact .recAttrs ((Bindings.matches_self_iff ha.1).mpr hR)
  | list items => exact .list (List.forall₂_same.mpr hR)
  | update l r => exact .update (hR l (by simp [parts])) (hR r (by simp [parts]))
  | apply f x => exact .apply (hR f (by simp [parts])) (hR x (by simp [parts]))
  | letIn b body =>
    obtain ⟨hb, hbody⟩ := List.forall_mem_append.mp hR
    exact .letIn ((Bindings.matches_self_iff ha.1).mpr hb) (hbody body List.mem_cons_self)
  | lambda p body =>
    obtain ⟨hp, hbody⟩ := List.forall_mem_append.mp hR
    exact .lambda (.refl hp) (hbody body List.mem_cons_self)
  | ifThenElse c y n =>
    exact .ifThenElse (hR c (by simp [parts])) (hR y (by simp [parts])) (hR n (by simp [parts]))
  | withScope s body => exact .withScope (hR s (by simp [parts])) (hR body (by simp [parts]))
  | assertThen c body => exact .assertThen (hR c (by simp [parts])) (hR body (by simp [parts]))
  | importOf p => exact .importOf (hR p (by simp [parts]))
  | select s p d =>
    refine .select p (hR s (by simp [parts])) ?_
    cases d with
    | none => exact .none
    | some d => exact .some (hR d (by simp [parts]))

theorem Matches.imp_of_mem (h : a.Matches R b)
    (hRS : ∀ x ∈ a.parts, ∀ y ∈ b.parts, R x y → S x y) : a.Matches S b := by
  cases h with
  | null => exact .null
  | bool b => exact .bool b
  | int i => exact .int i
  | float x => exact .float x
  | string s => exact .string s
  | uri u => exact .uri u
  | path p => exact .path p
  | verbatim source => exact .verbatim source
  | inherit scope => exact .inherit scope
  | attrs h => exact .attrs (h.imp_of_mem hRS)
  | recAttrs h => exact .recAttrs (h.imp_of_mem hRS)
  | list h => exact .list (forall₂_imp_of_mem h hRS)
  | update hl hr =>
    exact .update (hRS _ (by simp [parts]) _ (by simp [parts]) hl)
      (hRS _ (by simp [parts]) _ (by simp [parts]) hr)
  | apply hf hx =>
    exact .apply (hRS _ (by simp [parts]) _ (by simp [parts]) hf)
      (hRS _ (by simp [parts]) _ (by simp [parts]) hx)
  | letIn h hbody =>
    have h' := h.imp_of_mem fun x hx y hy =>
      hRS x (List.mem_append_left _ hx) y (List.mem_append_left _ hy)
    exact .letIn h' (hRS _ (by simp [parts]) _ (by simp [parts]) hbody)
  | lambda h hbody =>
    have h' := h.imp_of_mem fun x hx y hy =>
      hRS x (List.mem_append_left _ hx) y (List.mem_append_left _ hy)
    exact .lambda h' (hRS _ (by simp [parts]) _ (by simp [parts]) hbody)
  | ifThenElse hc hy hn =>
    exact .ifThenElse (hRS _ (by simp [parts]) _ (by simp [parts]) hc)
      (hRS _ (by simp [parts]) _ (by simp [parts]) hy)
      (hRS _ (by simp [parts]) _ (by simp [parts]) hn)
  | withScope hs hbody =>
    exact .withScope (hRS _ (by simp [parts]) _ (by simp [parts]) hs)
      (hRS _ (by simp [parts]) _ (by simp [parts]) hbody)
  | assertThen hc hbody =>
    exact .assertThen (hRS _ (by simp [parts]) _ (by simp [parts]) hc)
      (hRS _ (by simp [parts]) _ (by simp [parts]) hbody)
  | importOf hp => exact .importOf (hRS _ (by simp [parts]) _ (by simp [parts]) hp)
  | select p hs hd =>
    have hd' := optionRel_imp_of_mem hd fun x hx y hy =>
      hRS x (by simp_all [parts]) y (by simp_all [parts])
    exact .select p (hRS _ (by simp [parts]) _ (by simp [parts]) hs) hd'

theorem Matches.swap (h : a.Matches R b) (ha : a.WellFormed) (hb : b.WellFormed) :
    b.Matches (flip R) a := by
  cases h with
  | null => exact .null
  | bool b => exact .bool b
  | int i => exact .int i
  | float x => exact .float x
  | string s => exact .string s
  | uri u => exact .uri u
  | path p => exact .path p
  | verbatim source => exact .verbatim source
  | inherit scope => exact .inherit scope
  | attrs h => exact .attrs (h.swap ha.1 hb.1)
  | recAttrs h => exact .recAttrs (h.swap ha.1 hb.1)
  | list h => exact .list h.flip
  | update hl hr => exact .update hl hr
  | apply hf hx => exact .apply hf hx
  | letIn h hbody => exact .letIn (h.swap ha.1 hb.1) hbody
  | lambda h hbody => exact .lambda h.swap hbody
  | ifThenElse hc hy hn => exact .ifThenElse hc hy hn
  | withScope hs hbody => exact .withScope hs hbody
  | assertThen hc hbody => exact .assertThen hc hbody
  | importOf hp => exact .importOf hp
  | select p hs hd => exact .select p hs (optionRel_flip hd)

theorem Matches.comp (h : a.Matches R b) (h' : b.Matches S c) :
    a.Matches (Relation.Comp R S) c := by
  cases h with
  | null | bool | int | float | string | uri | path | verbatim | inherit =>
    cases h'
    constructor
  | attrs h =>
    cases h' with
    | attrs h' => exact .attrs (h.comp h')
  | recAttrs h =>
    cases h' with
    | recAttrs h' => exact .recAttrs (h.comp h')
  | list h =>
    cases h' with
    | list h' => exact .list (forall₂_comp h h')
  | update hl hr =>
    cases h' with
    | update hl' hr' => exact .update ⟨_, hl, hl'⟩ ⟨_, hr, hr'⟩
  | apply hf hx =>
    cases h' with
    | apply hf' hx' => exact .apply ⟨_, hf, hf'⟩ ⟨_, hx, hx'⟩
  | letIn h hbody =>
    cases h' with
    | letIn h' hbody' => exact .letIn (h.comp h') ⟨_, hbody, hbody'⟩
  | lambda h hbody =>
    cases h' with
    | lambda h' hbody' => exact .lambda (h.comp h') ⟨_, hbody, hbody'⟩
  | ifThenElse hc hy hn =>
    cases h' with
    | ifThenElse hc' hy' hn' => exact .ifThenElse ⟨_, hc, hc'⟩ ⟨_, hy, hy'⟩ ⟨_, hn, hn'⟩
  | withScope hs hbody =>
    cases h' with
    | withScope hs' hbody' => exact .withScope ⟨_, hs, hs'⟩ ⟨_, hbody, hbody'⟩
  | assertThen hc hbody =>
    cases h' with
    | assertThen hc' hbody' => exact .assertThen ⟨_, hc, hc'⟩ ⟨_, hbody, hbody'⟩
  | importOf hp =>
    cases h' with
    | importOf hp' => exact .importOf ⟨_, hp, hp'⟩
  | select p hs hd =>
    cases h' with
    | select _ hs' hd' => exact .select p ⟨_, hs, hs'⟩ (optionRel_comp hd hd')

theorem beq_refl (ha : a.WellFormed) : (a == a) = true := by
  induction a using induction_parts with
  | step a ih =>
    rw [beq_iff_matches]
    exact .refl ha fun x hx => ih x hx (wellFormed_of_mem_parts ha hx)

theorem beq_symm (ha : a.WellFormed) (hb : b.WellFormed) (h : (a == b) = true) :
    (b == a) = true := by
  induction a using induction_parts generalizing b with
  | step a ih =>
    rw [beq_iff_matches] at h ⊢
    refine (h.swap ha hb).imp_of_mem fun y hy x hx hxy => ?_
    exact ih x hx (wellFormed_of_mem_parts ha hx) (wellFormed_of_mem_parts hb hy) hxy

theorem beq_trans (h : (a == b) = true) (h' : (b == c) = true) : (a == c) = true := by
  induction a using induction_parts generalizing b c with
  | step a ih =>
    rw [beq_iff_matches] at h h' ⊢
    refine (h.comp h').imp_of_mem fun x hx z _ hxz => ?_
    obtain ⟨y, hxy, hyz⟩ := hxz
    exact ih x hx hxy hyz

theorem equivalence_beq :
    Equivalence fun a b : { e : Expr // e.WellFormed } => (a.val == b.val) = true where
  refl a := beq_refl a.property
  symm h := beq_symm (Subtype.property _) (Subtype.property _) h
  trans h h' := beq_trans h h'

end Expr

end NixSource
