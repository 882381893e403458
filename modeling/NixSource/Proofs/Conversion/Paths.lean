import NixSource.Proofs.Bindings.Matches
import NixSource.Proofs.Conversion.Faults
import NixSource.Proofs.Syntax.Lexer
import NixSource.Proofs.Text.Numeral
import NixSource.Proofs.Value.WellFormed

/-! Locations read back from their texts. As long as the keys in it are identifiers, a text says
which steps to take, so the location that an error shows leads to what is wrong there and to nothing
else. -/

namespace NixSource

/-! ### Texts of locations -/

/-- Whether the text of a step tells where it ends: a key that is an identifier, reserved or not,
or any index. -/
def Segment.isPlain : Segment → Bool
  | .key name => isIdentifier name.toList
  | .index _ => true

namespace Location

def IsPlain (steps : Location) : Prop :=
  ∀ s ∈ steps, s.isPlain = true

/-- The step that a text starts with, and the text behind it: a point and an identifier as long as
possible, or a number in brackets that is written without needless zeros. -/
def readSegment : List Char → Reading Segment
  | '.' :: cs =>
    let name := cs.takeWhile isIdentifierRest
    if isIdentifier name then some (.key (String.ofList name), cs.dropWhile isIdentifierRest)
    else none
  | '[' :: cs =>
    let digits := cs.takeWhile Char.isDigit
    match cs.dropWhile Char.isDigit with
    | ']' :: rest =>
      if decimalText (digitsValue digits) = digits then some (.index (digitsValue digits), rest)
      else none
    | _ => none
  | _ => none

theorem segmentText_key (name : String) :
    (segmentText (.key name)).toList = '.' :: name.toList := by
  simp [segmentText]

theorem segmentText_index (i : Nat) :
    (segmentText (.index i)).toList = '[' :: (decimalText i ++ [']']) := by
  simp [segmentText]

theorem stepsText_cons (s : Segment) (steps : Location) :
    (stepsText (s :: steps)).toList = (segmentText s).toList ++ (stepsText steps).toList := by
  simp [stepsText]

/-- A text that does not go on with an identifier. -/
def EndsKey (rest : List Char) : Prop :=
  ∀ c, rest.head? = some c → isIdentifierRest c = false

theorem endsKey_stepsText (steps : Location) : EndsKey (stepsText steps).toList := by
  cases steps with
  | nil => nofun
  | cons s steps =>
    rw [stepsText_cons]
    cases s with
    | key name =>
      rw [segmentText_key]
      rintro c ⟨⟩
      decide
    | index i =>
      rw [segmentText_index]
      rintro c ⟨⟩
      decide

theorem readSegment_key {name : String} (h : isIdentifier name.toList = true) {rest : List Char}
    (hr : EndsKey rest) :
    readSegment ((segmentText (.key name)).toList ++ rest) = some (.key name, rest) := by
  have hall : ∀ c ∈ name.toList, isIdentifierRest c = true := isIdentifierRest_of_isIdentifier h
  obtain ⟨htake, hdrop⟩ := takeWhile_dropWhile_append hall hr
  rw [segmentText_key, List.cons_append, readSegment, htake, hdrop]
  simp [h]

theorem readSegment_index (i : Nat) (rest : List Char) :
    readSegment ((segmentText (.index i)).toList ++ rest) = some (.index i, rest) := by
  have hbracket : ∀ c, (']' :: rest).head? = some c → c.isDigit = false := by
    rintro c ⟨⟩
    decide
  obtain ⟨htake, hdrop⟩ :=
    takeWhile_dropWhile_append (fun c hc => isDigit_of_mem_decimalText hc) hbracket
  rw [segmentText_index, List.cons_append, List.append_assoc, List.singleton_append, readSegment,
    htake, hdrop]
  simp

theorem readSegment_append {s : Segment} (hs : s.isPlain = true) {rest : List Char}
    (hr : EndsKey rest) : readSegment ((segmentText s).toList ++ rest) = some (s, rest) := by
  cases s with
  | key name => exact readSegment_key hs hr
  | index i => exact readSegment_index i rest

/-- Nothing is read but what the text of a step is. -/
theorem eq_of_readSegment {cs rest : List Char} {s : Segment}
    (h : readSegment cs = some (s, rest)) :
    s.isPlain = true ∧ cs = (segmentText s).toList ++ rest := by
  unfold readSegment at h
  split at h
  · next cs =>
    dsimp only at h
    split at h
    · next hid =>
      cases h
      refine ⟨by rwa [Segment.isPlain, String.toList_ofList], ?_⟩
      rw [segmentText_key, String.toList_ofList, List.cons_append, List.takeWhile_append_dropWhile]
    · cases h
  · next cs =>
    split at h
    · next more hmore =>
      dsimp only at h
      split at h
      · next hdigits =>
        cases h
        refine ⟨rfl, ?_⟩
        rw [segmentText_index, hdigits, List.cons_append, List.append_assoc, List.singleton_append,
          ← hmore, List.takeWhile_append_dropWhile]
      · cases h
    · cases h
  · cases h

theorem segmentText_ne_nil (s : Segment) : (segmentText s).toList ≠ [] := by
  cases s with
  | key name => simp [segmentText_key]
  | index i => simp [segmentText_index]

theorem length_of_readSegment {cs rest : List Char} {s : Segment}
    (h : readSegment cs = some (s, rest)) : rest.length < cs.length := by
  rw [(eq_of_readSegment h).2, List.length_append]
  exact Nat.lt_add_of_pos_left (List.length_pos_iff.mpr (segmentText_ne_nil s))

/-- The steps that a text is made of, each behind the one before it. -/
def readSteps (cs : List Char) : Option Location :=
  if cs = [] then some []
  else
    match _h : readSegment cs with
    | some (s, rest) => (readSteps rest).map (s :: ·)
    | none => none
termination_by cs.length
decreasing_by exact length_of_readSegment ‹_›

theorem readSteps_of_readSegment {cs rest : List Char} {s : Segment}
    (h : readSegment cs = some (s, rest)) : readSteps cs = (readSteps rest).map (s :: ·) := by
  have hne : cs ≠ [] := List.ne_nil_of_length_pos (Nat.zero_lt_of_lt (length_of_readSegment h))
  rw [readSteps, if_neg hne]
  split
  · next h' =>
    rw [h] at h'
    cases h'
    rfl
  · next h' =>
    rw [h] at h'
    cases h'

theorem readSteps_stepsText {steps : Location} (h : steps.IsPlain) :
    readSteps (stepsText steps).toList = some steps := by
  induction steps with
  | nil =>
    rw [readSteps]
    rfl
  | cons s steps ih =>
    obtain ⟨hs, hsteps⟩ := List.forall_mem_cons.mp h
    rw [stepsText_cons, readSteps_of_readSegment (readSegment_append hs (endsKey_stepsText steps)),
      ih hsteps]
    rfl

/-- The recursion is that of the reader: what is left behind a step is shorter. -/
theorem eq_of_readSteps (cs : List Char) {steps : Location} (h : readSteps cs = some steps) :
    steps.IsPlain ∧ cs = (stepsText steps).toList := by
  rw [readSteps] at h
  split at h
  · next hnil =>
    cases h
    exact ⟨nofun, hnil⟩
  · split at h
    · next s rest hread =>
      have hshorter := length_of_readSegment hread
      obtain ⟨more, hmore, rfl⟩ := Option.map_eq_some_iff.mp h
      obtain ⟨hs, hcs⟩ := eq_of_readSegment hread
      obtain ⟨hsteps, hrest⟩ := eq_of_readSteps rest hmore
      exact ⟨List.forall_mem_cons.mpr ⟨hs, hsteps⟩, by rw [stepsText_cons, ← hrest, hcs]⟩
    · cases h
termination_by cs.length

/-- The location that a message shows as `text`. Where the text starts with a key, the point in
front of it is missing. -/
def ofText? (text : String) : Option Location :=
  if text = "(root)" then some []
  else if text.toList.head? = some '[' then readSteps text.toList
  else readSteps ('.' :: text.toList)

theorem text_key (name : String) (steps : Location) :
    (text (.key name :: steps)).toList = name.toList ++ (stepsText steps).toList := by
  simp [text]

theorem text_index (i : Nat) (steps : Location) :
    (text (.index i :: steps)).toList =
      '[' :: (decimalText i ++ ']' :: (stepsText steps).toList) := by
  simp [text, stepsText, segmentText]

theorem ofText?_of_head? {text : String} {c : Char} (h : text.toList.head? = some c)
    (hc : c ≠ '(') :
    ofText? text =
      if c = '[' then readSteps text.toList else readSteps ('.' :: text.toList) := by
  have hroot : text ≠ "(root)" := by
    rintro rfl
    exact hc (Option.some.inj h).symm
  simp only [ofText?, if_neg hroot, h, Option.some.injEq]

/-- What is written for a location is read as that location. -/
theorem ofText?_text {steps : Location} (h : steps.IsPlain) :
    ofText? steps.text = some steps := by
  have hread := readSteps_stepsText h
  cases steps with
  | nil => rfl
  | cons s steps =>
    cases s with
    | index i =>
      have hhead : (text (.index i :: steps)).toList.head? = some '[' := by rw [text_index]; rfl
      rw [ofText?_of_head? hhead (by decide), if_pos rfl]
      exact hread
    | key name =>
      have hname : isIdentifier name.toList = true := h _ List.mem_cons_self
      obtain ⟨c, hhead, hc⟩ : ∃ c, (text (.key name :: steps)).toList.head? = some c ∧
          isIdentifierStart c = true := by
        rw [text_key]
        cases hcs : name.toList with
        | nil => rw [hcs] at hname; cases hname
        | cons c cs =>
          rw [hcs, isIdentifier, Bool.and_eq_true] at hname
          exact ⟨c, rfl, hname.1⟩
      have hparen : c ≠ '(' := fun h => absurd (h ▸ hc) (by decide)
      have hbracket : c ≠ '[' := fun h => absurd (h ▸ hc) (by decide)
      rw [ofText?_of_head? hhead hparen, if_neg hbracket, text_key, ← List.cons_append,
        ← segmentText_key, ← stepsText_cons]
      exact hread

/-- Nothing else is read: a text that says where something is, is the text of that location. -/
theorem eq_of_ofText? {text : String} {steps : Location} (h : ofText? text = some steps) :
    steps.IsPlain ∧ text = steps.text := by
  rw [ofText?] at h
  split at h
  · next hroot =>
    cases h
    exact ⟨nofun, hroot⟩
  · split at h
    · next hhead =>
      obtain ⟨hplain, htext⟩ := eq_of_readSteps _ h
      refine ⟨hplain, String.toList_inj.mp ?_⟩
      cases steps with
      | nil => rw [htext] at hhead; cases hhead
      | cons s steps =>
        cases s with
        | key name => rw [htext, stepsText_cons, segmentText_key] at hhead; cases hhead
        | index i => exact htext
    · obtain ⟨hplain, htext⟩ := eq_of_readSteps _ h
      refine ⟨hplain, String.toList_inj.mp ?_⟩
      cases steps with
      | nil => cases htext
      | cons s steps =>
        rw [stepsText_cons] at htext
        cases s with
        | key name =>
          rw [segmentText_key] at htext
          rw [text_key]
          exact (List.cons.inj htext).2
        | index i =>
          rw [segmentText_index] at htext
          cases htext

theorem ofText?_eq_some_iff {text : String} {steps : Location} :
    ofText? text = some steps ↔ steps.IsPlain ∧ steps.text = text := by
  constructor
  · intro h
    obtain ⟨hplain, htext⟩ := eq_of_ofText? h
    exact ⟨hplain, htext.symm⟩
  · rintro ⟨hplain, rfl⟩
    exact ofText?_text hplain

/-- Locations whose keys are identifiers have different texts. -/
theorem injOn_text : Set.InjOn text {steps | steps.IsPlain} := by
  intro steps h steps' h' htext
  have hread := ofText?_text h
  rw [htext, ofText?_text h'] at hread
  exact (Option.some.inj hread).symm

/-- Keys that are no identifiers can say the same as others, or as no steps at all. -/
example : text [.key "a.b"] = text [.key "a", .key "b"] ∧ text [.key "(root)"] = text [] := by
  decide

end Location

/-! ### Walking to a part -/

namespace Value

variable {v w part : Value} {steps : Location}

/-- What one step into a value leads to. -/
def step? : Value → Segment → Option Value
  | array items, .index i => items[i]?
  | object members, .key name => Bindings.get? name members
  | _, _ => none

/-- What the steps of a location lead to, one after the other. -/
def at? (v : Value) (steps : Location) : Option Value :=
  steps.foldlM step? v

theorem mem_parts_of_step? {s : Segment} (h : v.step? s = some w) : w ∈ v.parts := by
  unfold step? at h
  split at h
  · exact List.mem_of_getElem? h
  · exact List.mem_map_of_mem (Bindings.mem_of_get? h)
  · cases h

theorem reaches_cons_iff (hv : v.WellFormed) (s : Segment) :
    v.Reaches (s :: steps) part ↔ ∃ w, v.step? s = some w ∧ w.Reaches steps part := by
  constructor
  · rintro (_ | ⟨hi, h⟩ | ⟨hmem, h⟩)
    · exact ⟨_, hi, h⟩
    · exact ⟨_, (Bindings.get?_eq_some_iff (hv.nodup (.here _)) _ _).mpr hmem, h⟩
  · rintro ⟨w, hw, h⟩
    unfold step? at hw
    split at hw
    · exact .index hw h
    · exact .key (Bindings.mem_of_get? hw) h
    · cases hw

/-- In a well-formed value the steps of a location lead to one part, if any. -/
theorem at?_eq_some_iff (hv : v.WellFormed) : v.at? steps = some part ↔ v.Reaches steps part := by
  induction steps generalizing v with
  | nil =>
    constructor
    · rintro ⟨⟩
      exact .here _
    · rintro ⟨⟩
      rfl
  | cons s steps ih =>
    rw [reaches_cons_iff hv, at?, List.foldlM_cons, Option.bind_eq_bind, Option.bind_eq_some_iff]
    constructor
    · rintro ⟨w, hw, h⟩
      exact ⟨w, hw, (ih (hv.of_mem_parts (mem_parts_of_step? hw))).mp h⟩
    · rintro ⟨w, hw, h⟩
      exact ⟨w, hw, (ih (hv.of_mem_parts (mem_parts_of_step? hw))).mpr h⟩

/-- All keys of the objects in a value are identifiers, reserved or not. -/
def HasPlainKeys (v : Value) : Prop :=
  ∀ steps members, v.Reaches steps (object members) →
    ∀ name ∈ Bindings.names members, isIdentifier name.toList = true

theorem Reaches.isPlain (h : v.Reaches steps part) (hv : v.HasPlainKeys) :
    steps.IsPlain := by
  induction h with
  | here => nofun
  | index hi _ ih =>
    have hpart := ih fun steps members hreach => hv _ members (.index hi hreach)
    exact List.forall_mem_cons.mpr ⟨rfl, hpart⟩
  | key hmem _ ih =>
    have hpart := ih fun steps members hreach => hv _ members (.key hmem hreach)
    have hname := hv _ _ (.here _) _ (List.mem_map_of_mem hmem)
    exact List.forall_mem_cons.mpr ⟨hname, hpart⟩

end Value

/-! ### Where errors are -/

namespace ConversionError

/-- Where an error that is about a part of a value was found. -/
def location? : ConversionError → Option Location
  | tooLarge location _ | notFinite location _ | tooDeep location _ => some location
  | undefinedRoot => none

/-- The text of that location, as the message of the error shows it. -/
def path? (e : ConversionError) : Option String :=
  e.location?.map Location.text

end ConversionError

namespace Value

variable {v part : Value} {limit : Nat} {steps : Location} {e : ConversionError}

theorem location?_of_fault? (h : fault? limit (steps, part) = some e) :
    e.location? = some steps := by
  cases part with
  | uint | float | array | object =>
    obtain ⟨-, ⟨⟩⟩ := Option.ite_none_left_eq_some.mp h
    rfl
  | _ => cases h

/-- In a value whose keys are identifiers, the path that an error shows is read as one location, and
the steps lead to the number or the container that the error is about. No other part of the value
has that path or that error. What is read is exactly what is shown, so locations with such keys have
different paths. -/
theorem exists_at?_of_toExpr (hv : v.WellFormed) (hkeys : v.HasPlainKeys)
    (h : v.toExpr limit = .error e) (he : e ≠ .undefinedRoot) :
    (∃ path steps part, e.path? = some path ∧ Location.ofText? path = some steps ∧
      v.at? steps = some part ∧ fault? limit (steps, part) = some e ∧
      ∀ place other, v.Reaches place other →
        place.text = path ∨ fault? limit (place, other) = some e → place = steps ∧ other = part) ∧
      (∀ path steps, Location.ofText? path = some steps ↔ steps.IsPlain ∧ steps.text = path) ∧
      Set.InjOn Location.text {steps | steps.IsPlain} := by
  obtain ⟨steps, part, hreach, hfault⟩ := exists_reaches_of_toExpr h he
  have hlocation := location?_of_fault? hfault
  have hplain := hreach.isPlain hkeys
  refine ⟨⟨steps.text, steps, part, ?_, Location.ofText?_text hplain,
    (at?_eq_some_iff hv).mpr hreach, hfault, fun place other hother hsame => ?_⟩,
    fun _ _ => Location.ofText?_eq_some_iff, Location.injOn_text⟩
  · rw [ConversionError.path?, hlocation]
    rfl
  · have hplace : place = steps := by
      obtain htext | herror := hsame
      · exact Location.injOn_text (hother.isPlain hkeys) hplain htext
      · exact Option.some.inj ((location?_of_fault? herror).symm.trans hlocation)
    subst hplace
    rw [← at?_eq_some_iff hv] at hreach hother
    exact ⟨rfl, Option.some.inj (hother.symm.trans hreach)⟩

/-- An undefined element counts, and a reserved word is a key like any other. -/
theorem exists_at?_of_toExpr_element :
    (object [("in", array [undefined, uint 9223372036854775808])]).WellFormed ∧
      (object [("in", array [undefined, uint 9223372036854775808])]).HasPlainKeys ∧
      (object [("in", array [undefined, uint 9223372036854775808])]).toExpr 2 =
        .error (.tooLarge [.key "in", .index 1] 9223372036854775808) ∧
      Location.ofText? "in[1]" = some [.key "in", .index 1] ∧
      (object [("in", array [undefined, uint 9223372036854775808])]).at?
        [.key "in", .index 1] = some (uint 9223372036854775808) := by
  have harray : (array [undefined, uint 9223372036854775808]).WellFormed := by
    refine wellFormed_array fun v hv => IsScalar.wellFormed ?_
    obtain rfl | rfl := List.mem_pair.mp hv <;> constructor
  have hv : (object [("in", array [undefined, uint 9223372036854775808])]).WellFormed :=
    (WellFormedMembers.nil.insert "in" harray).object
  have hkeys : (object [("in", array [undefined, uint 9223372036854775808])]).HasPlainKeys := by
    intro steps members hreach
    have hposition := (mem_positions_iff _ steps _).mpr hreach
    obtain ⟨rfl, rfl⟩ : steps = [] ∧
        members = [("in", array [undefined, uint 9223372036854775808])] := by
      simpa [positions, positionsAt, memberPositions, itemPositions] using hposition
    decide
  have h : (object [("in", array [undefined, uint 9223372036854775808])]).toExpr 2 =
      .error (.tooLarge [.key "in", .index 1] 9223372036854775808) := rfl
  obtain ⟨path, steps, part, hpath, hread, hat, hfault, -⟩ :=
    (exists_at?_of_toExpr hv hkeys h (by decide)).1
  obtain rfl : "in[1]" = path := Option.some.inj hpath
  obtain rfl : [.key "in", .index 1] = steps := Option.some.inj (location?_of_fault? hfault)
  obtain rfl : uint 9223372036854775808 = part := Option.some.inj hat
  exact ⟨hv, hkeys, h, hread, hat⟩

end Value

end NixSource
