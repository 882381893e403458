import NixSource.Proofs.Syntax.Token

/-! Reading string literals in two steps: a scan for the quote that closes the literal, in which a
dollar sign and the character behind it go together, and the replacement of escapes and line ends in
the raw content before that quote. The lexer does both in one pass and comes to the same. What is
written for a string reads as that string, whatever follows. -/

namespace NixSource

/-- What comes of reading a string literal: a content and the text behind the closing quote, or an
interpolation that opens before that quote, or no closing quote. -/
inductive LiteralReading where
  | literal (content rest : List Char)
  | interpolation
  | unclosed
deriving DecidableEq

def LiteralReading.map (f : List Char → List Char) : LiteralReading → LiteralReading
  | literal content rest => literal (f content) rest
  | interpolation => interpolation
  | unclosed => unclosed

@[simp] theorem LiteralReading.map_literal (f : List Char → List Char) (content rest : List Char) :
    (literal content rest).map f = literal (f content) rest := rfl

/-- The content with the text behind it, where there is a literal. -/
def LiteralReading.toReading : LiteralReading → Reading (List Char)
  | literal content rest => some (content, rest)
  | interpolation | unclosed => none

@[simp] theorem LiteralReading.toReading_map (f : List Char → List Char) (r : LiteralReading) :
    (r.map f).toReading = r.toReading.map fun p => (f p.1, p.2) := by
  cases r <;> rfl

/-- The raw content of a literal, from behind its opening quote to the closing one. A backslash goes
together with the character behind it. A dollar sign opens an interpolation before a brace, stands
alone before a quote or a backslash, and goes together with any other character. -/
def scanLiteral : List Char → LiteralReading
  | [] => .unclosed
  | '"' :: cs => .literal [] cs
  | '\\' :: c :: cs => (scanLiteral cs).map (['\\', c] ++ ·)
  | '$' :: c :: cs =>
    if c = '{' then .interpolation
    else if c = '"' ∨ c = '\\' then (scanLiteral (c :: cs)).map (['$'] ++ ·)
    else (scanLiteral cs).map (['$', c] ++ ·)
  | c :: cs => (scanLiteral cs).map ([c] ++ ·)

/-- The content that a raw content writes. A line end of any kind is a line feed. -/
def resolveEscapes : List Char → List Char
  | [] => []
  | '\\' :: c :: cs => unescape c :: resolveEscapes cs
  | '\r' :: '\n' :: cs => '\n' :: resolveEscapes cs
  | '\r' :: cs => '\n' :: resolveEscapes cs
  | c :: cs => c :: resolveEscapes cs

/-- The string literal that a text starts with. -/
def readLiteral : List Char → LiteralReading
  | '"' :: cs => (scanLiteral cs).map resolveEscapes
  | _ => .unclosed

/-- A character is written with a backslash before it, or as it is. The latter is not done where a
reader would take it for something else. -/
theorem escape_cons_cases (c : Char) (cs : List Char) :
    (∃ d, escape (c :: cs) = '\\' :: d :: escape cs ∧ unescape d = c) ∨
      (escape (c :: cs) = c :: escape cs ∧ c ≠ '"' ∧ c ≠ '\\' ∧ c ≠ '\r' ∧
        (c = '$' → cs.head? ≠ some '{')) := by
  rw [escape]
  unfold escapeChar
  split
  · exact .inl ⟨'"', rfl, rfl⟩
  · exact .inl ⟨'\\', rfl, rfl⟩
  · exact .inl ⟨'n', rfl, rfl⟩
  · exact .inl ⟨'r', rfl, rfl⟩
  · exact .inl ⟨'t', rfl, rfl⟩
  · split
    · exact .inl ⟨'$', rfl, rfl⟩
    · next hbrace => exact .inr ⟨rfl, by decide, by decide, by decide, fun _ => hbrace⟩
  · next hquote hbackslash _ hreturn _ hdollar =>
    exact .inr ⟨rfl, hquote, hbackslash, hreturn, fun h => absurd h hdollar⟩

theorem scanLiteral_cons {c : Char} (hquote : c ≠ '"') (hbackslash : c ≠ '\\') (hdollar : c ≠ '$')
    (cs : List Char) : scanLiteral (c :: cs) = (scanLiteral cs).map ([c] ++ ·) := by
  rw [scanLiteral.eq_def]
  split <;> simp_all

/-- The scan finds the end of an escaped content and nothing else in it. The recursion takes two
characters where a dollar sign goes together with the one behind it. -/
theorem scanLiteral_escape (rest : List Char) :
    (cs : List Char) → scanLiteral (escape cs ++ '"' :: rest) = .literal (escape cs) rest
  | [] => rfl
  | c :: cs => by
    have ih := scanLiteral_escape rest cs
    obtain ⟨d, hc, -⟩ | ⟨hc, hquote, hbackslash, -, hbrace⟩ := escape_cons_cases c cs
    · rw [hc]
      simp [scanLiteral, ih]
    rw [hc]
    by_cases hdollar : c = '$'
    · subst hdollar
      cases cs with
      | nil => rfl
      | cons d ds =>
        have ih' := scanLiteral_escape rest ds
        have hd : d ≠ '{' := by simpa using hbrace rfl
        obtain ⟨x, hx, -⟩ | ⟨hx, hquote', hbackslash', -⟩ := escape_cons_cases d ds
        · rw [hx] at ih ⊢
          rw [List.cons_append, List.cons_append, scanLiteral, if_neg (by decide),
            if_pos (.inr rfl), ← List.cons_append, ih]
          rfl
        · rw [hx]
          simp [scanLiteral, hd, hquote', hbackslash', ih']
    · simp [scanLiteral_cons hquote hbackslash hdollar, ih]

theorem resolveEscapes_cons {c : Char} (hbackslash : c ≠ '\\') (hreturn : c ≠ '\r')
    (cs : List Char) : resolveEscapes (c :: cs) = c :: resolveEscapes cs := by
  rw [resolveEscapes.eq_def]
  split <;> simp_all

/-- Escaping is undone, so no two contents are escaped alike. -/
theorem resolveEscapes_escape (cs : List Char) : resolveEscapes (escape cs) = cs := by
  induction cs with
  | nil => rfl
  | cons c cs ih =>
    obtain ⟨d, hc, hd⟩ | ⟨hc, -, hbackslash, hreturn, -⟩ := escape_cons_cases c cs
    · rw [hc, resolveEscapes, hd, ih]
    · rw [hc, resolveEscapes_cons hbackslash hreturn, ih]

theorem readLiteral_escape (cs rest : List Char) :
    readLiteral ('"' :: (escape cs ++ '"' :: rest)) = .literal cs rest := by
  rw [readLiteral, scanLiteral_escape, LiteralReading.map_literal, resolveEscapes_escape]

theorem readLiteral_append (s : String) (rest : List Char) :
    readLiteral (stringLiteral s ++ rest) = .literal s.toList rest := by
  rw [stringLiteral, List.cons_append, List.append_assoc, List.singleton_append, readLiteral_escape]

/-! ### The lexer on string literals -/

/-- The raw content is the text before a closing quote. -/
theorem eq_append_of_scanLiteral {cs raw rest : List Char}
    (h : (scanLiteral cs).toReading = some (raw, rest)) : cs = raw ++ '"' :: rest := by
  fun_induction scanLiteral cs generalizing raw with
  | case1 | case4 => cases h
  | case2 => cases h; rfl
  | case3 _ _ ih | case5 _ _ _ _ ih | case6 _ _ _ _ ih | case7 _ _ _ _ _ ih =>
    rw [LiteralReading.toReading_map] at h
    obtain ⟨⟨raw', rest'⟩, hr, heq⟩ := Option.map_eq_some_iff.mp h
    cases heq
    rw [ih hr]
    rfl

theorem resolveEscapes_return {cs : List Char} (h : cs.head? ≠ some '\n') :
    resolveEscapes ('\r' :: cs) = '\n' :: resolveEscapes cs :=
  resolveEscapes.eq_4 cs fun _ hcs => h (hcs ▸ rfl)

theorem readContent_return {dollar : Bool} {cs : List Char} (h : cs.head? ≠ some '\n') :
    readContent dollar ('\r' :: cs) = (readContent false cs).map fun r => ('\n' :: r.1, r.2) :=
  readContent.eq_6 dollar cs fun _ hcs => h (hcs ▸ rfl)

theorem readContent_cons {dollar : Bool} {c : Char} (hquote : c ≠ '"') (hbackslash : c ≠ '\\')
    (hreturn : c ≠ '\r') (hbrace : dollar = true → c ≠ '{') (cs : List Char) :
    readContent dollar (c :: cs) =
      (readContent (c == '$' && !dollar) cs).map fun r => (c :: r.1, r.2) := by
  rw [readContent.eq_def]
  split <;> simp_all

/-- One character that neither closes a literal nor is a backslash, and that no dollar sign before
it makes the start of an interpolation. -/
theorem readContent_eq_of_plain {dollar : Bool} {c : Char} {cs : List Char} (hquote : c ≠ '"')
    (hbackslash : c ≠ '\\') (hbrace : dollar = true → c ≠ '{') (hdollar : c = '$' → dollar = true)
    (h : readContent false cs = ((scanLiteral cs).map resolveEscapes).toReading) :
    readContent dollar (c :: cs) =
      ((scanLiteral cs).map fun raw => resolveEscapes (c :: raw)).toReading := by
  by_cases hreturn : c = '\r'
  · subst hreturn
    by_cases hfeed : cs.head? = some '\n'
    · -- The two make one line end, which the carriage return adds nothing to.
      obtain ⟨ds, rfl⟩ := List.head?_eq_some_iff.mp hfeed
      have hboth : readContent dollar ('\r' :: '\n' :: ds) = readContent false ('\n' :: ds) := by
        simp [readContent]
      rw [hboth, h, scanLiteral_cons (by decide) (by decide) (by decide)]
      simp [resolveEscapes, Function.comp_def]
    · rw [readContent_return hfeed, h, LiteralReading.toReading_map, LiteralReading.toReading_map]
      cases hscan : (scanLiteral cs).toReading with
      | none => rfl
      | some p =>
        have hhead : p.1.head? ≠ some '\n' := by
          intro hp
          rw [eq_append_of_scanLiteral hscan, List.head?_append, hp] at hfeed
          exact hfeed rfl
        simp [resolveEscapes_return hhead]
  · have hnext : (c == '$' && !dollar) = false := by
      cases hd : c == '$' with
      | false => rfl
      | true => simp [hdollar (by simpa using hd)]
    rw [readContent_cons hquote hbackslash hreturn hbrace, hnext, h]
    simp [resolveEscapes_cons hbackslash hreturn, Function.comp_def]

/-- The lexer reads a literal in one go, and comes to what the scan and the replacement of escapes
come to. It reads nothing where an interpolation opens or the literal is not closed. -/
theorem readContent_eq_readLiteral (cs : List Char) :
    readContent false cs = (readLiteral ('"' :: cs)).toReading := by
  rw [readLiteral]
  fun_induction scanLiteral cs with
  | case1 => rfl
  | case2 cs => simp [readContent, LiteralReading.toReading, resolveEscapes]
  | case3 c cs ih =>
    rw [readContent, ih]
    simp [resolveEscapes, Function.comp_def]
  | case4 cs => rfl
  | case5 c cs hbrace hend ih =>
    -- A quote or a backslash is read in one way, whether a dollar sign waits or not.
    have hnext : readContent true (c :: cs) = readContent false (c :: cs) := by
      obtain rfl | rfl := hend
      · rfl
      · cases cs <;> rfl
    rw [readContent_cons (by decide) (by decide) (by decide) (by simp)]
    simp [resolveEscapes_cons, hnext, ih, Function.comp_def]
  | case6 c cs hbrace hend ih =>
    rw [not_or] at hend
    rw [readContent_cons (by decide) (by decide) (by decide) (by simp)]
    show (readContent true (c :: cs)).map _ = _
    rw [readContent_eq_of_plain hend.1 hend.2 (fun _ => hbrace) (fun _ => rfl) ih]
    simp [resolveEscapes_cons, Function.comp_def]
  | case7 c cs hquote hbackslash hdollar ih =>
    cases cs with
    | nil =>
      -- Neither a backslash nor a dollar sign has anything to take along, and nothing is closed.
      have hopen : readContent false [c] = none := by
        clear ih hbackslash hdollar
        rw [readContent.eq_def]
        split <;> simp_all [readContent]
      rw [hopen]
      rfl
    | cons d ds =>
      have hbackslash' : c ≠ '\\' := fun hc => hbackslash d ds hc rfl
      rw [readContent_eq_of_plain hquote hbackslash' (fun h => absurd h Bool.false_ne_true)
        (fun hc => (hdollar d ds hc rfl).elim) ih]
      simp [Function.comp_def]

theorem readContent_escape (cs rest : List Char) :
    readContent false (escape cs ++ '"' :: rest) = some (cs, rest) := by
  rw [readContent_eq_readLiteral, readLiteral_escape, LiteralReading.toReading]

theorem token?_stringLiteral (s : String) (rest : List Char) :
    token? (stringLiteral s ++ rest) = some (.string s, rest) := by
  have hquote : ∀ cs, token? ('"' :: cs) =
      (readContent false cs).map fun r => (.string (String.ofList r.1), r.2) := fun _ => rfl
  rw [stringLiteral, List.cons_append, List.append_assoc, List.singleton_append, hquote,
    readContent_escape, Option.map_some, String.ofList_toList]

/-- The literal of a string is read as one literal without interpolations that says the string, and
what follows it is left as it is; the lexer makes one token of it. So different strings are escaped
differently. -/
theorem readLiteral_stringLiteral (s : String) (rest : List Char) :
    readLiteral (stringLiteral s ++ rest) = .literal s.toList rest ∧
      token? (stringLiteral s ++ rest) = some (.string s, rest) ∧ Function.Injective escape :=
  ⟨readLiteral_append s rest, token?_stringLiteral s rest,
    Function.LeftInverse.injective resolveEscapes_escape⟩

/-- Two dollar signs go together, so a brace behind them opens nothing; behind three it does. -/
example : readLiteral "\"$$\x7b\";".toList = .literal "$$\x7b".toList [';'] ∧
    readLiteral "\"$$$\x7b\";".toList = .interpolation := by
  decide

end NixSource
