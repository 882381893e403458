import NixSource.Expr.Printer
import NixSource.Proofs.Equality.Expr

/-! Equal expressions are printed with the same lines. The bindings of a set stand on lines of their
own, so in another order they are the same lines in another order, and what the text of the set is
put into sees only its first and its last line. -/

namespace NixSource

/-! ### Texts up to the order of their lines -/

/-- The lines of a text, without the line feeds between them. -/
def linesOf (text : List Char) : List (List Char) :=
  text.splitOn '\n'

theorem linesOf_append_line_end (t u : List Char) :
    linesOf (t ++ '\n' :: u) = linesOf t ++ linesOf u :=
  List.splitOn_append_cons_self t u

@[simp] theorem linesOf_line_end (t : List Char) : linesOf ('\n' :: t) = [] :: linesOf t :=
  linesOf_append_line_end [] t

theorem linesOf_cons {c : Char} (hc : c ≠ '\n') (t : List Char) :
    linesOf (c :: t) = (linesOf t).modifyHead (c :: ·) := by
  rw [linesOf, List.splitOn_cons_eq_if_modifyHead, if_neg (by simpa using hc)]
  rfl

theorem exists_linesOf_eq_cons (t : List Char) : ∃ first rest, linesOf t = first :: rest :=
  List.exists_cons_of_ne_nil (List.splitOn_ne_nil '\n' t)

/-- A text goes on with the last line of the one before it. -/
theorem exists_linesOf_append (t u : List Char) : ∃ before last first after,
    linesOf t = before ++ [last] ∧ linesOf u = first :: after ∧
      linesOf (t ++ u) = before ++ (last ++ first) :: after := by
  obtain ⟨first, after, hu⟩ := exists_linesOf_eq_cons u
  suffices ∃ before last, linesOf t = before ++ [last] ∧
      linesOf (t ++ u) = before ++ (last ++ first) :: after by
    obtain ⟨before, last, ht, htu⟩ := this
    exact ⟨before, last, first, after, ht, hu, htu⟩
  induction t with
  | nil => exact ⟨[], [], rfl, hu⟩
  | cons c t ih =>
    obtain ⟨before, last, ht, htu⟩ := ih
    by_cases hc : c = '\n'
    · subst hc
      exact ⟨[] :: before, last, by simp [ht], by simp [htu]⟩
    · rw [List.cons_append, linesOf_cons hc, linesOf_cons hc, ht, htu]
      cases before with
      | nil => exact ⟨[], c :: last, rfl, rfl⟩
      | cons x before => exact ⟨(c :: x) :: before, last, rfl, rfl⟩

/-- The same lines, of which the first and the last are in their places. -/
structure Rearranged (t u : List Char) : Prop where
  perm : (linesOf t).Perm (linesOf u)
  first : (linesOf t).head? = (linesOf u).head?
  last : (linesOf t).getLast? = (linesOf u).getLast?

namespace Rearranged

variable {t u v t' u' : List Char}

theorem refl (t : List Char) : Rearranged t t :=
  ⟨.refl _, rfl, rfl⟩

theorem trans (h : Rearranged t u) (h' : Rearranged u v) : Rearranged t v :=
  ⟨h.perm.trans h'.perm, h.first.trans h'.first, h.last.trans h'.last⟩

theorem append (h : Rearranged t u) (h' : Rearranged t' u') :
    Rearranged (t ++ t') (u ++ u') := by
  obtain ⟨before, last, first, after, ht, ht', htt⟩ := exists_linesOf_append t t'
  obtain ⟨before', last', first', after', hu, hu', huu⟩ := exists_linesOf_append u u'
  obtain ⟨hperm, hfirst, hlast⟩ := h
  obtain ⟨hperm', hfirst', hlast'⟩ := h'
  rw [ht, hu] at hperm hfirst hlast
  rw [ht', hu'] at hperm' hfirst' hlast'
  obtain rfl : last = last' := by simpa using hlast
  obtain rfl : first = first' := by simpa using hfirst'
  have hbefore : before.Perm before' := (List.perm_append_right_iff [last]).mp hperm
  have hafter : after.Perm after' := (List.perm_cons first).mp hperm'
  refine ⟨?_, ?_, ?_⟩
  · rw [htt, huu]
    exact hbefore.append (hafter.cons _)
  · rw [htt, huu]
    -- The first line is the one in which the texts meet if nothing is before it.
    cases before with
    | nil => simp [hbefore.nil_eq.symm]
    | cons x before =>
      cases before' with
      | nil => simp at hbefore
      | cons y before' => simpa using hfirst
  · rw [htt, huu]
    cases after with
    | nil => simp [hafter.nil_eq.symm]
    | cons x after =>
      cases after' with
      | nil => simp at hafter
      | cons y after' => simpa [List.getLast?_cons] using hlast'

theorem append_left (a : List Char) (h : Rearranged t u) : Rearranged (a ++ t) (a ++ u) :=
  (refl a).append h

theorem append_right (h : Rearranged t u) (b : List Char) : Rearranged (t ++ b) (u ++ b) :=
  h.append (refl b)

theorem flatMap {α : Type} {R : α → α → Prop} {xs ys : List α} {f g : α → List Char}
    (h : List.Forall₂ R xs ys) (hfg : ∀ x y, R x y → Rearranged (f x) (g y)) :
    Rearranged (xs.flatMap f) (ys.flatMap g) := by
  induction h with
  | nil => exact refl []
  | cons hxy _ ih => exact (hfg _ _ hxy).append ih

theorem intercalate (sep : List Char) {ts us : List (List Char)}
    (h : List.Forall₂ Rearranged ts us) :
    Rearranged (sep.intercalate ts) (sep.intercalate us) := by
  induction h with
  | nil => exact refl _
  | cons htu h ih =>
    cases h with
    | nil => simpa using htu
    | cons _ _ =>
      rw [List.intercalate_cons_cons, List.intercalate_cons_cons]
      exact (htu.append_right sep).append ih

end Rearranged

theorem intercalate_perm_flatten (sep : List Char) (L : List (List Char)) :
    (sep.intercalate L).Perm (L.flatten ++ (List.replicate (L.length - 1) sep).flatten) := by
  induction L with
  | nil => exact .refl _
  | cons l L ih =>
    cases L with
    | nil => simp
    | cons l' L =>
      have hlength : (l :: l' :: L).length - 1 = (l' :: L).length - 1 + 1 := by simp
      rw [List.intercalate_cons_cons, hlength, List.replicate_succ, List.flatten_cons (l := sep),
        List.flatten_cons (l := l), List.append_assoc, List.append_assoc]
      refine .append_left l ((List.Perm.append_left sep ih).trans ?_)
      rw [← List.append_assoc, ← List.append_assoc]
      exact .append_right _ List.perm_append_comm

/-- Every character is there as often as before. -/
theorem Rearranged.perm_chars {t u : List Char} (h : Rearranged t u) : t.Perm u := by
  have hflatten := h.perm.flatten.append_right
    (List.replicate ((linesOf t).length - 1) ['\n']).flatten
  have hperm := (intercalate_perm_flatten ['\n'] (linesOf t)).trans hflatten
  rw [h.perm.length_eq] at hperm
  have hperm := hperm.trans (intercalate_perm_flatten ['\n'] (linesOf u)).symm
  rwa [linesOf, linesOf, List.intercalate_splitOn, List.intercalate_splitOn] at hperm

theorem Rearranged.contains_line_end {t u : List Char} (h : Rearranged t u) :
    t.contains '\n' = u.contains '\n' := by
  simp [h.perm_chars.mem_iff]

theorem linesOf_flatMap (xs : List (List Char)) :
    linesOf (xs.flatMap (· ++ ['\n'])) = xs.flatMap linesOf ++ [[]] := by
  induction xs with
  | nil => rfl
  | cons x xs ih =>
    rw [List.flatMap_cons, List.append_assoc, List.singleton_append, linesOf_append_line_end, ih,
      List.flatMap_cons, List.append_assoc]

/-- Texts of whole lines, behind a line that is there already, may come in any order. -/
theorem rearranged_flatMap_of_perm {xs ys : List (List Char)} (h : xs.Perm ys) :
    Rearranged ('\n' :: xs.flatMap (· ++ ['\n'])) ('\n' :: ys.flatMap (· ++ ['\n'])) := by
  refine ⟨?_, by simp, ?_⟩
  · simp only [linesOf_line_end, linesOf_flatMap]
    exact ((h.flatMap_right linesOf).append_right _).cons _
  · rw [linesOf_line_end, linesOf_line_end, linesOf_flatMap, linesOf_flatMap, ← List.cons_append,
      ← List.cons_append, List.getLast?_concat, List.getLast?_concat]

theorem Newline.dropLast_text_append (newline : Newline) :
    newline.text.dropLast ++ ['\n'] = newline.text := by
  cases newline <;> rfl

section

variable (layout : Layout) (level : Nat) {ts us : List (List Char)}

theorem rearranged_listText (h : List.Forall₂ Rearranged ts us) :
    Rearranged (listText layout level ts) (listText layout level us) := by
  have hempty : ts.isEmpty = us.isEmpty := by cases h <;> rfl
  have hall : (ts.all fun t => !t.contains '\n') = us.all fun u => !u.contains '\n' := by
    clear hempty
    induction h with
    | nil => rfl
    | cons htu _ ih => rw [List.all_cons, List.all_cons, htu.contains_line_end, ih]
  unfold listText
  rw [hempty, hall]
  split
  · exact .refl _
  · split
    · exact ((Rearranged.intercalate [' '] h).append_left _).append_right _
    · have hlines := Rearranged.flatMap h fun t u htu =>
        (htu.append_left (layout.indent (level + 1))).append_right layout.newline.text
      exact ((hlines.append_left ('[' :: layout.newline.text)).append_right _).append_right _

theorem rearranged_formalsText (h : List.Forall₂ Rearranged ts us) (ellipsis : Bool) :
    Rearranged (formalsText ts ellipsis) (formalsText us ellipsis) := by
  have hitems : List.Forall₂ Rearranged (if ellipsis then ts ++ [['.', '.', '.']] else ts)
      (if ellipsis then us ++ [['.', '.', '.']] else us) := by
    split
    · exact List.rel_append h (.cons (.refl _) .nil)
    · exact h
  unfold formalsText
  generalize (if ellipsis then ts ++ [['.', '.', '.']] else ts) = as,
    (if ellipsis then us ++ [['.', '.', '.']] else us) = bs at hitems
  have hempty : as.isEmpty = bs.isEmpty := by cases hitems <;> rfl
  dsimp only
  rw [hempty]
  split
  · exact .refl _
  · exact ((Rearranged.intercalate [',', ' '] hitems).append_left _).append_right _

end

theorem utf8ByteSize_eq_of_perm {t u : List Char} (h : t.Perm u) :
    (String.ofList t).utf8ByteSize = (String.ofList u).utf8ByteSize := by
  induction h with
  | nil => rfl
  | cons c _ ih => rw [String.ofList_cons, String.ofList_cons, String.utf8ByteSize_append,
      String.utf8ByteSize_append, ih]
  | swap c d t => simp only [String.ofList_cons, String.utf8ByteSize_append, Nat.add_left_comm]
  | trans _ _ ih ih' => exact ih.trans ih'

/-! ### Equal expressions -/

namespace Expr

variable {layout : Layout} {a b x y : Expr}

/-- Equal expressions that are printed with the same lines. -/
structure PrintedAlike (layout : Layout) (a b : Expr) : Prop where
  beq : (a == b) = true
  print : ∀ level, Rearranged (a.print layout level) (b.print layout level)

theorem Matches.precedence_eq {R : Expr → Expr → Prop} (h : a.Matches R b) :
    a.precedence = b.precedence := by
  cases h with
  | lambda => rfl
  | select p _ hd => cases hd <;> rfl
  | _ => rfl

theorem PrintedAlike.enclose (h : PrintedAlike layout a b) (loosest : Precedence) (level : Nat) :
    Rearranged (enclose loosest a (a.print layout level))
      (enclose loosest b (b.print layout level)) := by
  rw [Expr.enclose, Expr.enclose, (matches_of_beq h.beq).precedence_eq]
  split
  · exact ((h.print level).append_right [')']).append_left ['(']
  · exact h.print level

theorem Matches.bindingText_cases {R : Expr → Expr → Prop} (h : a.Matches R b) :
    (∃ scope, a = .inherit scope ∧ b = .inherit scope) ∨
      (∀ name text, bindingText name a text = attributeName name ++ [' ', '=', ' '] ++ text) ∧
        ∀ name text, bindingText name b text = attributeName name ++ [' ', '=', ' '] ++ text := by
  cases h with
  | inherit scope => exact .inl ⟨scope, rfl, rfl⟩
  | _ => exact .inr ⟨fun _ _ => rfl, fun _ _ => rfl⟩

theorem PrintedAlike.bindingText (h : PrintedAlike layout a b) (name : String) (level : Nat) :
    Rearranged (bindingText name a (a.print layout level))
      (bindingText name b (b.print layout level)) := by
  obtain ⟨scope, rfl, rfl⟩ | ⟨ha, hb⟩ := (matches_of_beq h.beq).bindingText_cases
  · exact .refl _
  · rw [ha, hb]
    exact (h.print level).append_left _

/-- The lines of a binding, without the line feed that ends the last one. -/
def bindingLines (layout : Layout) (level : Nat) (p : String × Expr) : List Char :=
  layout.indent level ++ bindingText p.1 p.2 (p.2.print layout level) ++
    ';' :: layout.newline.text.dropLast

theorem printBindings_eq_flatMap (layout : Layout) (level : Nat) (b : List (String × Expr)) :
    printBindings layout level b = (b.map (bindingLines layout level)).flatMap (· ++ ['\n']) := by
  induction b with
  | nil => rfl
  | cons p b ih =>
    rw [printBindings, ih, ← layout.newline.dropLast_text_append]
    simp [bindingLines]

theorem isEmpty_printBindings (layout : Layout) (level : Nat) (b : List (String × Expr)) :
    (printBindings layout level b).isEmpty = b.isEmpty := by
  cases b <;> simp [printBindings]

/-- Bindings in another order, with values that are printed with the same lines, are printed with
the same lines behind a line feed. -/
theorem rearranged_printBindings {a b : Bindings Expr} (ha : a.names.Nodup) (hb : b.names.Nodup)
    (h : a.Matches (PrintedAlike layout) b) (level : Nat) :
    Rearranged (layout.newline.text ++ printBindings layout level a)
      (layout.newline.text ++ printBindings layout level b) := by
  obtain ⟨c, hperm, hac⟩ := (Bindings.matches_iff_perm ha hb).mp h
  have hvalues : Rearranged ('\n' :: printBindings layout level a)
      ('\n' :: printBindings layout level c) := by
    rw [printBindings_eq_flatMap, printBindings_eq_flatMap, List.flatMap_map, List.flatMap_map]
    refine .append_left ['\n'] (.flatMap hac fun p q hpq => ?_)
    obtain ⟨name, v⟩ := p
    obtain ⟨name', w⟩ := q
    obtain ⟨rfl, hvw⟩ := hpq
    exact (((hvw.bindingText _ level).append_left _).append_right _).append_right _
  have horder : Rearranged ('\n' :: printBindings layout level c)
      ('\n' :: printBindings layout level b) := by
    rw [printBindings_eq_flatMap, printBindings_eq_flatMap]
    exact rearranged_flatMap_of_perm (hperm.map _)
  rw [← layout.newline.dropLast_text_append, List.append_assoc, List.append_assoc]
  exact (hvalues.trans horder).append_left _

theorem rearranged_setText {a b : Bindings Expr} (ha : a.names.Nodup) (hb : b.names.Nodup)
    (h : a.Matches (PrintedAlike layout) b) (level : Nat) :
    Rearranged (setText layout level (printBindings layout (level + 1) a))
      (setText layout level (printBindings layout (level + 1) b)) := by
  have hempty : List.isEmpty a = List.isEmpty b := by
    have hlength : List.length a = List.length b := h.1
    rw [Bool.eq_iff_iff, List.isEmpty_iff_length_eq_zero, List.isEmpty_iff_length_eq_zero, hlength]
  have hbindings := rearranged_printBindings ha hb h (level + 1)
  unfold setText
  rw [isEmpty_printBindings, isEmpty_printBindings, hempty]
  split
  · exact .refl _
  · exact ((hbindings.append_left ['{']).append_right _).append_right _

theorem forall₂_printElements {a b : List Expr} (h : List.Forall₂ (PrintedAlike layout) a b)
    (level : Nat) :
    List.Forall₂ Rearranged (printElements layout level a) (printElements layout level b) := by
  induction h with
  | nil => exact .nil
  | cons hxy _ ih => exact .cons (hxy.enclose .atom level) ih

theorem forall₂_printFormals {f g : List (Formal Expr)}
    (h : List.Forall₂ (Formal.Matches (PrintedAlike layout)) f g) (level : Nat) :
    List.Forall₂ Rearranged (printFormals layout level f) (printFormals layout level g) := by
  induction h with
  | nil => exact .nil
  | @cons f g _ _ hfg _ ih =>
    obtain ⟨name, d⟩ := f
    obtain ⟨name', d'⟩ := g
    obtain ⟨rfl, hd⟩ := hfg
    cases hd with
    | none => exact .cons (.refl _) ih
    | some hd => exact .cons ((hd.enclose .operator level).append_left _) ih

theorem printedAlike_of_beq (ha : a.WellFormed) (hb : b.WellFormed) (h : (a == b) = true) :
    PrintedAlike layout a b := by
  induction a using induction_parts generalizing b with
  | step a ih =>
    refine ⟨h, fun level => ?_⟩
    have hparts : a.Matches (PrintedAlike layout) b :=
      (matches_of_beq h).imp_of_mem fun x hx y hy hxy =>
        ih x hx (wellFormed_of_mem_parts ha hx) (wellFormed_of_mem_parts hb hy) hxy
    cases hparts with
    | null | bool | int | float | string | uri | path | verbatim | inherit => exact .refl _
    | attrs hset => exact rearranged_setText ha.1 hb.1 hset level
    | recAttrs hset => exact (rearranged_setText ha.1 hb.1 hset level).append_left _
    | list hitems =>
      exact rearranged_listText layout level (forall₂_printElements hitems (level + 1))
    | update hl hr =>
      exact ((hl.enclose .operator level).append_right _).append (hr.enclose .operator level)
    | apply hf hx =>
      exact (hf.enclose .application level).append ((hx.enclose .atom level).append_left [' '])
    | letIn hset hbody =>
      have hbindings := rearranged_printBindings ha.1 hb.1 hset (level + 1)
      have hlet := (hbindings.append_left ['l', 'e', 't']).append_right
        (layout.indent level ++ ['i', 'n'] ++ layout.newline.text ++ layout.indent level)
      simpa [Expr.print] using hlet.append (hbody.print level)
    | lambda hparams hbody =>
      cases hparams with
      | name x => exact (hbody.print level).append_left _
      | formals ellipsis hitems =>
        have hheader := rearranged_formalsText (forall₂_printFormals hitems level) ellipsis
        exact (hheader.append_right _).append (hbody.print level)
    | ifThenElse hc hy hn =>
      have hthen := ((hc.enclose .operator level).append_left ['i', 'f', ' ']).append_right
        [' ', 't', 'h', 'e', 'n', ' ']
      exact ((hthen.append (hy.enclose .operator level)).append_right _).append (hn.print level)
    | withScope hs hbody =>
      have hscope := (hs.enclose .operator level).append_left ['w', 'i', 't', 'h', ' ']
      exact (hscope.append_right (';' :: paragraph layout level)).append (hbody.print level)
    | assertThen hc hbody =>
      have hcondition :=
        (hc.enclose .operator level).append_left ['a', 's', 's', 'e', 'r', 't', ' ']
      exact (hcondition.append_right (';' :: paragraph layout level)).append (hbody.print level)
    | importOf hp => exact (hp.enclose .atom level).append_left _
    | select p hs hd =>
      cases hd with
      | none => exact (hs.enclose .atom level).append_right _
      | some hd =>
        exact (((hs.enclose .atom level).append_right _).append_right _).append
          (hd.enclose .atom level)

/-- Equal expressions have the same lines in their texts, at every level and in every layout, and
the first and the last of them in their places. So the texts are equally long, in characters and
in bytes, and both are on one line or both on several. -/
theorem rearranged_source_of_beq (ha : a.WellFormed) (hb : b.WellFormed) (h : (a == b) = true)
    (level : Nat) (layout : Layout) :
    Rearranged (a.source level layout).toList (b.source level layout).toList ∧
      (a.source level layout).length = (b.source level layout).length ∧
      (a.source level layout).utf8ByteSize = (b.source level layout).utf8ByteSize ∧
      ('\n' ∈ (a.source level layout).toList ↔ '\n' ∈ (b.source level layout).toList) := by
  have halike : PrintedAlike layout a b := printedAlike_of_beq ha hb h
  have hchars := (halike.print level).perm_chars
  simp only [source, String.toList_ofList, String.length_ofList]
  exact ⟨halike.print level, hchars.length_eq, utf8ByteSize_eq_of_perm hchars, hchars.mem_iff⟩

/-- A set in a list, with a set in it, both in another order. -/
theorem rearranged_source_of_beq_nested :
    Rearranged
      ((list [null, attrs [("a", attrs [("x", null), ("y", list [])]), ("b", null)]]).source 0
        {}).toList
      ((list [null, attrs [("b", null), ("a", attrs [("y", list []), ("x", null)])]]).source 0
        {}).toList := by
  have ha : (list [null,
      attrs [("a", attrs [("x", null), ("y", list [])]), ("b", null)]]).WellFormed := by
    simp [WellFormed, WellFormedElements, WellFormedBindings]
  have hb : (list [null,
      attrs [("b", null), ("a", attrs [("y", list []), ("x", null)])]]).WellFormed := by
    simp [WellFormed, WellFormedElements, WellFormedBindings]
  exact (rearranged_source_of_beq ha hb (by decide) 0 {}).1

end Expr

end NixSource
