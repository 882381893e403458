import NixSource.Proofs.Syntax.Nesting
import NixSource.Proofs.Syntax.Selection

/-! Named arguments read back from the header of a function: the commas outside of inner groups
divide them, and each has the tokens of its own default. A default that ends in a URI takes the comma
behind it for its own. -/

namespace NixSource

/-- How many groups are open behind a token. -/
def Token.depthAfter (depth : Nat) (t : Token) : Nat :=
  if t.opensGroup then depth + 1 else if t.closesGroup then depth - 1 else depth

/-- What is in a group that was opened before the tokens, divided at the commas outside of inner
groups, and the tokens behind the bracket that closes the group. -/
def groupItems : Nat → List Token → Option (List (List Token) × List Token)
  | _, [] => none
  | depth, t :: ts =>
    if depth = 0 ∧ t.closesGroup = true then some ([[]], ts)
    else if depth = 0 ∧ t = .comma then (groupItems 0 ts).map fun r => ([] :: r.1, r.2)
    else (groupItems (t.depthAfter depth) ts).map fun r => (r.1.modifyHead (t :: ·), r.2)

/-- An argument is a name, with a question mark and a default behind it or not. -/
def readFormal : List Token → Option (Formal (List Token))
  | [.name n] => some ⟨n, none⟩
  | .name n :: .question :: ts => some ⟨n, some ts⟩
  | _ => none

/-- Arguments, and whether an ellipsis is the last of them. -/
def readItems : List (List Token) → Option (List (Formal (List Token)) × Bool)
  | [] => some ([], false)
  | [[.ellipsis]] => some ([], true)
  | item :: items =>
    match readFormal item, readItems items with
    | some f, some (fs, ellipsis) => some (f :: fs, ellipsis)
    | _, _ => none

/-- The header of a function with named arguments. -/
def readFormals : List Token → Option (List (Formal (List Token)) × Bool)
  | .openBrace :: ts =>
    match groupItems 0 ts with
    | some ([[]], [.colon]) => some ([], false)
    | some (items, [.colon]) => readItems items
    | _ => none
  | _ => none

/-- The tokens of an argument, from those of its default. -/
def Formal.tokens (f : Formal (List Token)) : List Token :=
  .name f.name :: match f.default with
    | none => []
    | some ts => .question :: ts

/-- Whether a default ends in a URI. -/
def Formal.EndsInUri (f : Formal (List Token)) : Prop :=
  ∃ ts u, f.default = some ts ∧ ts.getLast? = some (.uri u)

theorem readFormal_tokens (f : Formal (List Token)) : readFormal f.tokens = some f := by
  obtain ⟨name, _ | ts⟩ := f <;> rfl

theorem groupItems_append {depth : Nat} {ts : List Token} (h : Nested depth ts)
    (rest : List Token) :
    groupItems depth (ts ++ rest) =
      (groupItems 0 rest).map fun r => (r.1.modifyHead (ts ++ ·), r.2) := by
  induction h with
  | nil =>
    rw [List.nil_append]
    cases groupItems 0 rest with
    | none => rfl
    | some r =>
      obtain ⟨items, more⟩ := r
      cases items <;> rfl
  | @plain depth t ts hopen hclose hsep h ih =>
    have hcomma : ¬ (depth = 0 ∧ t = .comma) := by
      rintro ⟨rfl, rfl⟩
      exact absurd (hsep rfl) (Nat.lt_irrefl 0)
    have hdepth : t.depthAfter depth = depth := by simp [Token.depthAfter, hopen, hclose]
    rw [List.cons_append, groupItems, if_neg (by simp [hclose]), if_neg hcomma, hdepth, ih]
    simp [Function.comp_def, List.modifyHead_modifyHead]
  | @opening depth t ts hopen h ih =>
    have hclose : t.closesGroup = false := by cases t <;> first | rfl | cases hopen
    have hcomma : t ≠ .comma := by
      rintro rfl
      cases hopen
    have hdepth : t.depthAfter depth = depth + 1 := by simp [Token.depthAfter, hopen]
    rw [List.cons_append, groupItems, if_neg (by simp [hclose]), if_neg (by simp [hcomma]), hdepth,
      ih]
    simp [Function.comp_def, List.modifyHead_modifyHead]
  | @closing depth t ts hclose h ih =>
    have hopen : t.opensGroup = false := by cases t <;> first | rfl | cases hclose
    have hdepth : t.depthAfter (depth + 1) = depth := by simp [Token.depthAfter, hopen, hclose]
    rw [List.cons_append, groupItems, if_neg (by simp), if_neg (by simp), hdepth, ih]
    simp [Function.comp_def, List.modifyHead_modifyHead]

/-- Items with commas between them are told apart again, up to the bracket that closes the group. -/
theorem groupItems_intercalate {items : List (List Token)} (h : ∀ item ∈ items, Nested 0 item)
    (rest : List Token) :
    groupItems 0 ([.comma].intercalate items ++ .closeBrace :: rest) =
      some (if items = [] then [[]] else items, rest) := by
  have hclose : groupItems 0 (.closeBrace :: rest) = some ([[]], rest) := rfl
  induction items with
  | nil => exact hclose
  | cons item items ih =>
    obtain ⟨hitem, hitems⟩ := List.forall_mem_cons.mp h
    cases items with
    | nil =>
      rw [List.intercalate_singleton, groupItems_append hitem, hclose]
      simp
    | cons next items =>
      have hcomma : ∀ ts, groupItems 0 (.comma :: ts) =
          (groupItems 0 ts).map fun r => ([] :: r.1, r.2) := fun _ => rfl
      rw [List.intercalate_cons_cons, List.append_assoc, List.append_assoc,
        groupItems_append hitem, List.singleton_append, hcomma, ih hitems]
      simp

theorem readItems_cons (f : Formal (List Token)) (items : List (List Token)) :
    readItems (f.tokens :: items) =
      (readItems items).map fun r => (f :: r.1, r.2) := by
  have hne : f.tokens :: items ≠ [[.ellipsis]] := by
    intro heq
    cases (List.cons.inj heq).1
  rw [readItems.eq_3 _ _ (by simpa using hne), readFormal_tokens]
  cases readItems items <;> rfl

theorem readItems_tokens (fs : List (Formal (List Token))) (ellipsis : Bool) :
    readItems (if ellipsis then fs.map Formal.tokens ++ [[.ellipsis]] else fs.map Formal.tokens) =
      some (fs, ellipsis) := by
  induction fs with
  | nil => cases ellipsis <;> rfl
  | cons f fs ih =>
    cases ellipsis with
    | false => exact (readItems_cons f _).trans (congrArg _ ih)
    | true => exact (readItems_cons f _).trans (congrArg _ ih)

/-- The arguments are read from the tokens of a header. -/
theorem readFormals_formalsTokens {fs : List (Formal (List Token))}
    (h : ∀ f ∈ fs, Nested 0 f.tokens) (ellipsis : Bool) :
    readFormals (formalsTokens (fs.map Formal.tokens) ellipsis) = some (fs, ellipsis) := by
  have hread := readItems_tokens fs ellipsis
  have hitems : ∀ item ∈ if ellipsis then fs.map Formal.tokens ++ [[.ellipsis]]
      else fs.map Formal.tokens, Nested 0 item := by
    have hfs : ∀ item ∈ fs.map Formal.tokens, Nested 0 item := List.forall_mem_map.mpr h
    cases ellipsis with
    | false => exact hfs
    | true =>
      exact List.forall_mem_append.mpr
        ⟨hfs, List.forall_mem_singleton.mpr (.plain rfl rfl nofun .nil)⟩
  unfold formalsTokens
  generalize (if ellipsis then fs.map Formal.tokens ++ [[.ellipsis]]
    else fs.map Formal.tokens) = items at hread hitems
  rw [readFormals, groupItems_intercalate hitems]
  -- No item is empty, so only a header without any reads as one that has an empty one.
  by_cases hnil : items = []
  · subst hnil
    exact hread
  · have hone : items ≠ [[]] := by
      rintro rfl
      cases hread
    rw [if_neg hnil]
    simp [hread]

/-- Texts with tokens, each but the last such that it can be cut off from a comma. -/
inductive Listed : List (List Char) → List (List Token) → Prop where
  | nil : Listed [] []
  | cons {text : List Char} {ts : List Token} {texts : List (List Char)} {tss : List (List Token)} :
      lex text = some ts → (texts ≠ [] → ∀ rest, Cut text ts (',' :: rest)) → Listed texts tss →
      Listed (text :: texts) (ts :: tss)

theorem Listed.lex_intercalate {texts : List (List Char)} {tss : List (List Token)}
    (h : Listed texts tss) (rest : List Char) :
    lex ([',', ' '].intercalate texts ++ ' ' :: rest) =
      prepend ([.comma].intercalate tss) (lex rest) := by
  induction h with
  | nil => simp
  | @cons text ts texts tss htext hcut h ih =>
    cases h with
    | nil =>
      rw [List.intercalate_singleton, List.intercalate_singleton,
        lex_append htext ((delimited_space true rest).cut text ts), lex_space]
    | cons htext' hcut' h =>
      rw [List.intercalate_cons_cons, List.intercalate_cons_cons]
      simp only [List.cons_append, List.append_assoc, List.nil_append]
      rw [lex_append htext (hcut (List.cons_ne_nil _ _) _), lex_sign (t := .comma) rfl rfl,
        lex_space, ih]
      simp

theorem Listed.length_eq {texts : List (List Char)} {tss : List (List Token)}
    (h : Listed texts tss) : texts.length = tss.length := by
  induction h with
  | nil => rfl
  | cons _ _ _ ih => simp [ih]

theorem eq_of_spells_colon {t : Token} {taken : List Char} (h : t.Spells taken)
    (hlast : taken.getLast? = some ':') : t = .colon ∨ ∃ u, t = .uri u := by
  have hmem := List.mem_of_getLast? hlast
  cases t with
  | keyword k => exact absurd (h _ hmem) (by decide)
  | name s => exact absurd (h _ hmem) (by decide)
  | integer n => exact absurd (h _ hmem) (by decide)
  | decimal d => exact absurd (h _ hmem) (by decide)
  | string s =>
    rw [h.2] at hlast
    cases hlast
  | uri u => exact .inr ⟨u, rfl⟩
  | path p =>
    rcases h with h | ⟨-, hend⟩
    · exact absurd (h _ hmem) (by decide)
    · rw [hend] at hlast
      cases hlast
  | colon => exact .inl rfl
  | _ =>
    cases h
    cases hlast

/-- A colon at the end of a text is a token or belongs to a URI. -/
theorem getLast?_of_colon {text : List Char} {ts : List Token} (h : lex text = some ts)
    (hcolon : text.getLast? = some ':') :
    ts.getLast? = some .colon ∨ ∃ u, ts.getLast? = some (.uri u) := by
  fun_induction lex text generalizing ts with
  | case1 => cases hcolon
  | case2 c cs hblank ih =>
    cases cs with
    | nil =>
      cases hcolon
      cases hblank
    | cons d cs => exact ih h (by rwa [List.getLast?_cons_cons] at hcolon)
  | case3 c cs hblank t r htoken ih =>
    obtain ⟨us, hus, rfl⟩ := Option.map_eq_some_iff.mp h
    obtain ⟨taken, htext, hspells⟩ := exists_spelling htoken
    cases r with
    | nil =>
      rw [lex_nil] at hus
      cases hus
      rw [htext, List.append_nil] at hcolon
      rcases eq_of_spells_colon hspells hcolon with rfl | ⟨u, rfl⟩
      · exact .inl rfl
      · exact .inr ⟨u, rfl⟩
    | cons d r =>
      rw [htext, List.getLast?_append_of_ne_nil _ (List.cons_ne_nil d r)] at hcolon
      have hlast := ih hus hcolon
      cases us with
      | nil => simp at hlast
      | cons u us => rwa [List.getLast?_cons_cons]
  | case4 => cases h

theorem cut_comma {text : List Char} {ts : List Token} (h : lex text = some ts)
    (hnested : Nested 0 ts) (huri : ∀ u, ts.getLast? ≠ some (.uri u)) (rest : List Char) :
    Cut text ts (',' :: rest) := by
  refine ⟨apart_cons rfl rfl rfl (by decide) (by decide) rest, fun t ht => ?_, fun hcolon => ?_,
    fun _ c hc => ?_, fun _ => by simp⟩
  · cases t with
    | integer n =>
      rintro c ⟨⟩
      exact ⟨rfl, by decide⟩
    | decimal d =>
      rintro c ⟨⟩
      rfl
    | uri u => exact absurd ht (huri u)
    | path p => exact .inr rfl
    | _ => trivial
  · rcases getLast?_of_colon h hcolon with hlast | ⟨u, hlast⟩
    · exact absurd hlast hnested.getLast?_ne_colon
    · exact absurd hlast (huri u)
  · cases hc
    rfl

/-- The text of an argument and its own tokens. -/
structure ItemOf (text : List Char) (own : Formal (List Token)) : Prop where
  lexed : lex text = some own.tokens
  nested : Nested 0 own.tokens
  cut : ¬ own.EndsInUri → ∀ rest, Cut text own.tokens (',' :: rest)

theorem itemOf_name {name : String} (h : isBareName name = true) :
    ItemOf name.toList ⟨name, none⟩ := by
  have hlex := lex_name h apart_nil
  rw [List.append_nil, lex_nil] at hlex
  have hnested : Nested 0 [.name name] := .plain rfl rfl nofun .nil
  exact ⟨hlex, hnested, fun _ => cut_comma hlex hnested nofun⟩

theorem itemOf_default {name : String} (h : isBareName name = true) {text : List Char}
    {ts : List Token} (hlex : lex text = some ts) (hnested : Nested 0 ts) :
    ItemOf (name.toList ++ [' ', '?', ' '] ++ text) ⟨name, some ts⟩ := by
  have hitem : lex (name.toList ++ [' ', '?', ' '] ++ text) =
      some (.name name :: .question :: ts) := by
    simp only [List.append_assoc, List.cons_append, List.nil_append]
    rw [lex_name h (apart_space _), lex_space, lex_sign (t := .question) rfl rfl, lex_space, hlex]
    rfl
  have hitemNested : Nested 0 (.name name :: .question :: ts) :=
    .plain rfl rfl nofun (.plain rfl rfl nofun hnested)
  refine ⟨hitem, hitemNested, fun huri => cut_comma hitem hitemNested fun u hlast => huri ?_⟩
  cases ts with
  | nil => cases hlast
  | cons t ts =>
    have hdefault : (Token.name name :: .question :: t :: ts).getLast? = some (.uri u) := hlast
    rw [List.getLast?_cons_cons, List.getLast?_cons_cons] at hdefault
    exact ⟨t :: ts, u, rfl, hdefault⟩

theorem listed_of_itemOf {texts : List (List Char)} {owns : List (Formal (List Token))}
    (h : List.Forall₂ ItemOf texts owns) {more : List (List Char)} {moreTokens : List (List Token)}
    (hmore : Listed more moreTokens)
    (huri : ∀ own ∈ if more = [] then owns.dropLast else owns, ¬ own.EndsInUri) :
    Listed (texts ++ more) (owns.map Formal.tokens ++ moreTokens) := by
  induction h with
  | nil => exact hmore
  | @cons text own texts owns hitem h ih =>
    refine .cons hitem.lexed (fun hne => hitem.cut (huri own ?_)) (ih fun o ho => huri o ?_)
    · split
      · next hnil =>
        subst hnil
        cases h with
        | nil => exact absurd rfl hne
        | cons => exact List.mem_cons_self
      · exact List.mem_cons_self
    · split at ho
      · next hnil =>
        rw [if_pos hnil]
        cases h with
        | nil => cases ho
        | cons => exact List.mem_cons_of_mem _ ho
      · next hnil =>
        rw [if_neg hnil]
        exact List.mem_cons_of_mem _ ho

theorem nested_of_itemOf {texts : List (List Char)} {owns : List (Formal (List Token))}
    (h : List.Forall₂ ItemOf texts owns) : ∀ own ∈ owns, Nested 0 own.tokens := by
  induction h with
  | nil => nofun
  | cons hitem _ ih => exact List.forall_mem_cons.mpr ⟨hitem.nested, ih⟩

theorem listed_dots : Listed [['.', '.', '.']] [[.ellipsis]] := by
  have h : lex ['.', '.', '.'] = prepend [.ellipsis] (lex []) := lex_ellipsis (by simp [pathRun])
  rw [lex_nil] at h
  exact .cons h (fun hne => absurd rfl hne) .nil

namespace Expr

/-- What separates is in groups only among the tokens of an operand. -/
theorem nested_operand {e : Expr} (hw : e.WellFormed) (hb : e.Built) {layout : Layout} {level : Nat}
    {ts : List Token} (h : lex (enclose .operator e (e.print layout level)) = some ts) :
    Nested 0 ts :=
  nested_of_closes ((paired_print layout e hw hb.givenInPairs level).enclose .operator (by decide))
    ((lex_space _).trans h)

/-- An argument with the tokens of its default, if that has tokens. -/
def ownTokens? (layout : Layout) (level : Nat) (f : Formal Expr) : Option (Formal (List Token)) :=
  match f.default with
  | none => some ⟨f.name, none⟩
  | some d => (lex (enclose .operator d (d.print layout level))).map fun ts => ⟨f.name, some ts⟩

theorem forall₂_itemOf {layout : Layout} {level : Nat} {items : List (Formal Expr)}
    {owns : List (Formal (List Token))} (hnames : ∀ f ∈ items, isBareName f.name = true)
    (hd : ∀ f ∈ items, ∀ d, f.default = some d → d.WellFormed ∧ d.Built)
    (howns : items.mapM (ownTokens? layout level) = some owns) :
    List.Forall₂ ItemOf (printFormals layout level items) owns := by
  induction items generalizing owns with
  | nil =>
    cases howns
    exact .nil
  | cons f items ih =>
    obtain ⟨hname, hnames⟩ := List.forall_mem_cons.mp hnames
    obtain ⟨hf, hd⟩ := List.forall_mem_cons.mp hd
    simp only [List.mapM_cons, Option.bind_eq_bind, Option.bind_eq_some_iff, Option.pure_def,
      Option.some.injEq] at howns
    obtain ⟨own, hown, owns, howns, rfl⟩ := howns
    have htail := ih hnames hd howns
    obtain ⟨name, d | d⟩ := f
    · cases hown
      exact .cons (itemOf_name hname) htail
    · obtain ⟨ts, hts, rfl⟩ := Option.map_eq_some_iff.mp hown
      obtain ⟨hw, hb⟩ := hf d rfl
      exact .cons (itemOf_default hname hts (nested_operand hw hb hts)) htail

theorem exists_ownTokens {items : List (Formal Expr)} (layout : Layout) (level : Nat)
    (hr : ∀ f ∈ items, ∀ d, f.default = some d → d.Readable true) :
    ∃ owns, items.mapM (ownTokens? layout level) = some owns := by
  induction items with
  | nil => exact ⟨[], rfl⟩
  | cons f items ih =>
    obtain ⟨hf, hitems⟩ := List.forall_mem_cons.mp hr
    obtain ⟨owns, howns⟩ := ih hitems
    obtain ⟨own, hown⟩ : ∃ own, ownTokens? layout level f = some own := by
      obtain ⟨name, d | d⟩ := f
      · exact ⟨_, rfl⟩
      · have hlex := lex_enclose_print (hf d rfl) .operator layout level
        exact ⟨⟨name, some (encloseTokens .operator d d.tokens)⟩, by simp [ownTokens?, hlex]⟩
    exact ⟨own :: owns, by simp [List.mapM_cons, hown, howns]⟩

/-- Named arguments read back from the header of a function, in order, each with the tokens of its
own default, unless a default with a comma behind it ends in a URI. -/
theorem readFormals_print {items : List (Formal Expr)} (ellipsis : Bool)
    (hnames : checkFormals [] items = .ok ())
    (hd : ∀ f ∈ items, ∀ d, f.default = some d → d.WellFormed ∧ d.Built)
    (layout : Layout) (level : Nat) :
    (∀ owns, items.mapM (ownTokens? layout level) = some owns →
      (∀ own ∈ if ellipsis then owns else owns.dropLast, ¬ own.EndsInUri) →
      ∃ ts, lex (formalsText (printFormals layout level items) ellipsis) = some ts ∧
        readFormals ts = some (owns, ellipsis) ∧
        ∀ body, lex ((lambda (.formals items ellipsis) body).print layout level) =
          prepend ts (lex (body.print layout level))) ∧
      ((∀ f ∈ items, ∀ d, f.default = some d → d.Readable true) →
        ∃ owns, items.mapM (ownTokens? layout level) = some owns) := by
  refine ⟨fun owns howns huri => ?_, exists_ownTokens layout level⟩
  have hitems := forall₂_itemOf (isBareName_of_checkFormals hnames) hd howns
  have hlisted : Listed
      (if ellipsis then printFormals layout level items ++ [['.', '.', '.']]
        else printFormals layout level items)
      (if ellipsis then owns.map Formal.tokens ++ [[.ellipsis]] else owns.map Formal.tokens) := by
    cases ellipsis with
    | false => simpa using listed_of_itemOf hitems .nil huri
    | true => exact listed_of_itemOf hitems listed_dots huri
  have hheader := lex_formalsText_of_items
    (fun hnil => List.length_eq_zero_iff.mp (hlisted.length_eq ▸ List.length_eq_zero_iff.mpr hnil))
    hlisted.lex_intercalate
  refine ⟨formalsTokens (owns.map Formal.tokens) ellipsis, ?_,
    readFormals_formalsTokens (nested_of_itemOf hitems) ellipsis, fun body => ?_⟩
  · have h := hheader []
    rw [List.append_nil, lex_nil] at h
    exact h.trans (by simp [prepend])
  · simp only [print, paragraph, List.append_assoc]
    rw [hheader, lex_newline, lex_newline, lex_indent]

/-- A URI in a list, and one in front of the closing brace, leave the comma and the brace alone. -/
theorem readFormals_print_list :
    (lex (formalsText (printFormals {} 0
        [⟨"x", some (list [uri ⟨"a:b", rfl⟩])⟩, ⟨"y", some (uri ⟨"a:c", rfl⟩)⟩]) false)).bind
      readFormals =
        some ([⟨"x", some [.openBracket, .uri "a:b", .closeBracket]⟩, ⟨"y", some [.uri "a:c"]⟩],
          false) := by
  have huri : ∀ u, (uri u).Built := fun u => built_of_parts (by simp) (by simp) (by simp [parts])
  have hlist : (list [uri ⟨"a:b", rfl⟩]).Built :=
    built_of_parts (by simp) (by simp) (by simpa [parts] using huri _)
  have hr : (list [uri ⟨"a:b", rfl⟩]).Readable true := ⟨rfl, trivial⟩
  have hfirst : lex (enclose .operator (list [uri ⟨"a:b", rfl⟩])
      ((list [uri ⟨"a:b", rfl⟩]).print {} 0)) = some [.openBracket, .uri "a:b", .closeBracket] :=
    (lex_enclose_print hr .operator {} 0).trans (by decide)
  have hr' : (uri ⟨"a:c", rfl⟩).Readable true := rfl
  have hlast : lex (enclose .operator (uri ⟨"a:c", rfl⟩) ((uri ⟨"a:c", rfl⟩).print {} 0)) =
      some [.uri "a:c"] :=
    (lex_enclose_print hr' .operator {} 0).trans (by decide)
  have hd : ∀ f ∈ ([⟨"x", some (list [uri ⟨"a:b", rfl⟩])⟩, ⟨"y", some (uri ⟨"a:c", rfl⟩)⟩] :
      List (Formal Expr)), ∀ d, f.default = some d → d.WellFormed ∧ d.Built := by
    intro f hf d hd
    rcases List.mem_pair.mp hf with rfl | rfl <;> cases hd
    · exact ⟨⟨trivial, trivial⟩, hlist⟩
    · exact ⟨trivial, huri _⟩
  have howns : ([⟨"x", some (list [uri ⟨"a:b", rfl⟩])⟩, ⟨"y", some (uri ⟨"a:c", rfl⟩)⟩] :
      List (Formal Expr)).mapM (ownTokens? {} 0) =
        some [⟨"x", some [.openBracket, .uri "a:b", .closeBracket]⟩, ⟨"y", some [.uri "a:c"]⟩] := by
    simp only [List.mapM_cons, List.mapM_nil, ownTokens?, hfirst, hlast]
    rfl
  obtain ⟨ts, hts, hread, -⟩ := (readFormals_print false rfl hd {} 0).1 _ howns (by
    intro own hown
    rw [List.mem_singleton.mp hown]
    rintro ⟨ts, u, ⟨⟩, hend⟩
    cases hend)
  rw [hts]
  exact hread

/-- A default that ends in a URI takes the comma behind it, and the argument that follows. -/
theorem readFormals_print_absorbed :
    (lex (formalsText (printFormals {} 0 [⟨"x", some (uri ⟨"a:b", rfl⟩)⟩, ⟨"y", none⟩]) false)).bind
      readFormals = some ([⟨"x", some [.uri "a:b,", .name "y"]⟩], false) := by
  have htext : formalsText (printFormals {} 0 [⟨"x", some (uri ⟨"a:b", rfl⟩)⟩, ⟨"y", none⟩]) false =
      ['{', ' ', 'x', ' ', '?', ' ', 'a', ':', 'b', ',', ' ', 'y', ' ', '}', ':'] := by decide
  have huri : token? ['a', ':', 'b', ',', ' ', 'y', ' ', '}', ':'] =
      some (.uri "a:b,", [' ', 'y', ' ', '}', ':']) := by decide
  have hx : token? ['x', ' ', '?', ' ', 'a', ':', 'b', ',', ' ', 'y', ' ', '}', ':'] =
      some (.name "x", [' ', '?', ' ', 'a', ':', 'b', ',', ' ', 'y', ' ', '}', ':']) := by decide
  have hy : token? ['y', ' ', '}', ':'] = some (.name "y", [' ', '}', ':']) := by decide
  have htokens : lex ['{', ' ', 'x', ' ', '?', ' ', 'a', ':', 'b', ',', ' ', 'y', ' ', '}', ':'] =
      some [.openBrace, .name "x", .question, .uri "a:b,", .name "y", .closeBrace, .colon] := by
    rw [lex_sign (t := .openBrace) rfl rfl, lex_space, lex_token rfl hx, lex_space,
      lex_sign (t := .question) rfl rfl, lex_space, lex_token rfl huri, lex_space,
      lex_token rfl hy, lex_space, lex_sign (t := .closeBrace) rfl rfl,
      lex_sign (t := .colon) rfl rfl, lex_nil]
    rfl
  rw [htext, htokens]
  rfl

end Expr

end NixSource
