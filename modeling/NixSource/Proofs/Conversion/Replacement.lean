import NixSource.Proofs.Conversion.Faults
import NixSource.Proofs.Value.WellFormed
import NixSource.Proofs.Bindings.Matches

/-! A part of a value can be converted before the value is. With its expression in the place of the
part, the value is converted to the same as with the part itself, and under the same limit. -/

namespace NixSource

namespace Value

/-- The value with `x` at the end of the steps, or the value itself where they lead nowhere. -/
def put : Value → Location → Value → Value
  | _, [], x => x
  | array items, .index i :: steps, x => array (items.modify i (·.put steps x))
  | object members, .key name :: steps, x =>
    object (members.map fun p => (p.1, if p.1 = name then p.2.put steps x else p.2))
  | v, _, _ => v

theorem imageItems_modify {items : List Value} {i : Nat} {v : Value} {f : Value → Value}
    (hi : items[i]? = some v) (hf : (f v).image = v.image) :
    imageItems (items.modify i f) = imageItems items := by
  induction items generalizing i with
  | nil => simp at hi
  | cons u items ih =>
    cases i with
    | zero =>
      obtain rfl : u = v := by simpa using hi
      rw [List.modify_zero_cons, imageItems, imageItems, hf]
    | succ i => rw [List.modify_succ_cons, imageItems, imageItems, ih (by simpa using hi)]

theorem imageMembers_map {members : List (String × Value)} {f : String × Value → Value}
    (hf : ∀ p ∈ members, (f p).image = p.2.image) :
    imageMembers (members.map fun p => (p.1, f p)) = imageMembers members := by
  induction members with
  | nil => rfl
  | cons p members ih =>
    obtain ⟨hp, hmembers⟩ := List.forall_mem_cons.mp hf
    rw [List.map_cons, imageMembers, imageMembers, hp, ih hmembers]

/-- In a well-formed object a name leads to one member only. -/
theorem WellFormed.eq_of_mem {members : List (String × Value)} (h : (object members).WellFormed)
    {name : String} {v w : Value} (hv : (name, v) ∈ members) (hw : (name, w) ∈ members) :
    v = w := by
  have hnodup := h.nodup (.here _)
  rw [← Bindings.get?_eq_some_iff hnodup] at hv hw
  exact Option.some.inj (hv.symm.trans hw)

section

variable {v w x : Value} {place : Location}

theorem image_put (hv : v.WellFormed) (h : v.Reaches place w) (hx : x.image = w.image) :
    (v.put place x).image = v.image := by
  induction h with
  | here v => exact hx
  | index hi _ ih =>
    have hpart := hv.of_mem_parts (List.mem_of_getElem? hi)
    rw [put, image, image, imageItems_modify hi (ih hpart hx)]
  | @key members name u w steps hmem _ ih =>
    have hpart := hv.of_mem_parts (List.mem_map_of_mem hmem)
    rw [put, image, image, imageMembers_map]
    rintro ⟨name', u'⟩ hmem'
    by_cases hname : name' = name
    · subst hname
      obtain rfl := hv.eq_of_mem hmem hmem'
      rw [if_pos rfl, ih hpart hx]
    · rw [if_neg hname]

/-- With an expression put into a value, every part stands for one that the value has in the same
place, and has no fault that this one does not have. -/
theorem Reaches.of_put {n : Expr} {steps : Location} {part : Value} (hv : v.WellFormed)
    (h : v.Reaches place w) (hpart : (v.put place (expr n)).Reaches steps part) :
    ∃ part', v.Reaches steps part' ∧ (part'.hasLiteral = true → part.hasLiteral = true) ∧
      (part.isContainer = true → part'.isContainer = true) := by
  induction h generalizing steps with
  | here v =>
    cases hpart with
    | here => exact ⟨v, .here v, fun _ => rfl, nofun⟩
  | @index items i v w place hi _ ih =>
    cases hpart with
    | here => exact ⟨_, .here _, fun _ => rfl, fun _ => rfl⟩
    | @index _ j u _ steps hj hreach =>
      rw [List.getElem?_modify] at hj
      obtain ⟨u', hu', rfl⟩ := Option.map_eq_some_iff.mp hj
      by_cases hij : i = j
      · subst hij
        obtain rfl : v = u' := Option.some.inj (hi.symm.trans hu')
        rw [if_pos rfl] at hreach
        obtain ⟨part', hreach', hpart'⟩ := ih (hv.of_mem_parts (List.mem_of_getElem? hi)) hreach
        exact ⟨part', .index hi hreach', hpart'⟩
      · rw [if_neg hij] at hreach
        exact ⟨part, .index hu' hreach, id, id⟩
  | @key members name v w place hmem _ ih =>
    cases hpart with
    | here => exact ⟨_, .here _, fun _ => rfl, fun _ => rfl⟩
    | key hput hreach =>
      obtain ⟨⟨name', u'⟩, hmem', heq⟩ := List.mem_map.mp hput
      cases heq
      dsimp only at hreach ⊢
      by_cases hname : name' = name
      · subst hname
        obtain rfl : v = u' := hv.eq_of_mem hmem hmem'
        rw [if_pos rfl] at hreach
        obtain ⟨part', hreach', hpart'⟩ := ih (hv.of_mem_parts (List.mem_map_of_mem hmem)) hreach
        exact ⟨part', .key hmem hreach', hpart'⟩
      · rw [if_neg hname] at hreach
        exact ⟨part, .key hmem' hreach, id, id⟩

end

/-- Under any limit, each part of a value that is converted, if it is not undefined, is converted on
its own as well, and with its expression in its place the value is converted to the same. -/
theorem toExpr_put {v w : Value} {place : Location} {limit : Nat} {m : Expr} (hv : v.WellFormed)
    (hpart : v.Reaches place w) (hw : w ≠ undefined) (hm : v.toExpr limit = .ok m) :
    ∃ n, w.toExpr limit = .ok n ∧ (v.put place (expr n)).toExpr limit = .ok m ∧
      ∀ level layout, ((v.put place (expr n)).toExpr limit).map (·.source level layout) =
        .ok (m.source level layout) := by
  obtain ⟨hfaults, himage⟩ := toExpr_eq_ok_iff.mp hm
  obtain ⟨n, hn⟩ := exists_image_of_fault?_eq_none hw (hfaults place w hpart)
  have hsame : (v.put place (expr n)).toExpr limit = .ok m := by
    refine toExpr_eq_ok_iff.mpr ⟨fun steps part hreach => ?_, ?_⟩
    · obtain ⟨part', hreach', hliteral, hcontainer⟩ := hpart.of_put hv hreach
      have hfault := fault?_eq_none_iff.mp (hfaults steps part' hreach')
      exact fault?_eq_none_iff.mpr ⟨hliteral hfault.1, fun h => hfault.2 (hcontainer h)⟩
    · have hn' : (expr n).image = w.image := hn.symm
      rw [image_put hv hpart hn', himage]
  refine ⟨n, toExpr_eq_ok_iff.mpr ⟨fun steps part hreach => ?_, hn⟩, hsame, fun level layout => ?_⟩
  · -- The same part is further down in the whole value, so the limit leaves it room here.
    have hfault := fault?_eq_none_iff.mp (hfaults _ part (hpart.append hreach))
    refine fault?_eq_none_iff.mpr ⟨hfault.1, fun h => ?_⟩
    have hdepth := hfault.2 h
    rw [List.length_append] at hdepth
    omega
  · rw [hsame]
    rfl

/-- An array that was converted before, put back behind an undefined element. -/
theorem toExpr_put_element :
    (object [("b", array [undefined, array []]), ("a", null)]).toExpr 3 =
        .ok (.attrs [("b", .list [.list []]), ("a", .null)]) ∧
      ((object [("b", array [undefined, array []]), ("a", null)]).put [.key "b", .index 1]
        (expr (.list []))).toExpr 3 = .ok (.attrs [("b", .list [.list []]), ("a", .null)]) := by
  have hm : (object [("b", array [undefined, array []]), ("a", null)]).toExpr 3 =
      .ok (.attrs [("b", .list [.list []]), ("a", .null)]) := rfl
  have hnull := IsScalar.null.wellFormed
  have hempty : (array []).WellFormed := wellFormed_array (by simp)
  have hitems : (array [undefined, array []]).WellFormed :=
    wellFormed_array (by simp [IsScalar.undefined.wellFormed, hempty])
  have hv : (object [("b", array [undefined, array []]), ("a", null)]).WellFormed :=
    WellFormedMembers.object ⟨by decide, by simp [hitems, hnull]⟩
  have hpart : (object [("b", array [undefined, array []]), ("a", null)]).Reaches
      [.key "b", .index 1] (array []) := .key List.mem_cons_self (.index rfl (.here _))
  obtain ⟨n, hn, hsame, -⟩ := toExpr_put hv hpart (by simp) hm
  obtain rfl : Expr.list [] = n := Except.ok.inj hn
  exact ⟨hm, hsame⟩

end Value

end NixSource
