import NixSource.Expr.Checked
import NixSource.Expr.Printer
import NixSource.Proofs.Syntax.Literal
import NixSource.Proofs.Text.StringLiteral

/-! URIs in their two notations. A text is accepted for its scheme alone, whatever is behind it, so
some URIs are written as string literals. In either notation a reader finds the text again. -/

namespace NixSource

/-- A scheme with the colon behind it. -/
def IsScheme (cs : List Char) : Prop :=
  ∃ c scheme, cs = c :: (scheme ++ [':']) ∧ isLetter c = true ∧
    ∀ d ∈ scheme, isSchemeChar d = true

/-- The URI that a text starts with, and the text behind it: a bare one as long as possible, or a
string literal without interpolations. -/
def readUriLiteral (cs : List Char) : Reading String :=
  match readUri? cs with
  | some (text, rest) => some (String.ofList text, rest)
  | none =>
    match readLiteral cs with
    | .literal content rest => some (String.ofList content, rest)
    | _ => none

/-! ### What is accepted -/

theorem startsWithScheme_iff (s : String) :
    startsWithScheme s = true ↔ ∃ scheme, scheme <+: s.toList ∧ IsScheme scheme := by
  rw [startsWithScheme, Option.isSome_iff_exists]
  simp only [afterScheme?_eq_some_iff]
  constructor
  · rintro ⟨rest, c, scheme, htext, hletter, hscheme⟩
    refine ⟨c :: (scheme ++ [':']), ⟨rest, ?_⟩, c, scheme, rfl, hletter, hscheme⟩
    rw [htext, List.cons_append, List.append_assoc, List.singleton_append]
  · rintro ⟨_, ⟨rest, htext⟩, c, scheme, rfl, hletter, hscheme⟩
    refine ⟨rest, c, scheme, ?_, hletter, hscheme⟩
    rw [← htext, List.cons_append, List.append_assoc, List.singleton_append]

theorem Uri.checked_eq_ok_iff (s : String) (u : Uri) : Uri.checked s = .ok u ↔ s = u.text := by
  unfold Uri.checked Uri.ofString?
  by_cases h : startsWithScheme s = true
  · rw [dif_pos h]
    exact ⟨fun heq => by cases heq; rfl, fun heq => by cases u; cases heq; rfl⟩
  · rw [dif_neg h]
    exact ⟨nofun, fun heq => absurd (heq ▸ u.scheme) h⟩

theorem Uri.exists_checked_iff (s : String) :
    (∃ u, Uri.checked s = .ok u) ↔ startsWithScheme s = true := by
  simp only [Uri.checked_eq_ok_iff]
  constructor
  · rintro ⟨u, rfl⟩
    exact u.scheme
  · exact fun h => ⟨⟨s, h⟩, rfl⟩

/-! ### What is written -/

namespace Uri

variable (u : Uri)

/-- A URI starts with a letter and a literal with a quote. -/
theorem stringLiteral_ne_text : stringLiteral u.text ≠ u.text.toList := by
  obtain ⟨_, ⟨rest, htext⟩, c, scheme, rfl, hletter, -⟩ := (startsWithScheme_iff u.text).mp u.scheme
  intro h
  rw [← htext] at h
  obtain rfl : '"' = c := (List.cons.inj h).1
  cases hletter

theorem literal_eq_text_iff : u.literal = u.text.toList ↔ IsUriText u.text.toList := by
  rw [← isBare_iff, literal]
  split
  · next h => exact iff_of_true rfl h
  · next h => exact iff_of_false u.stringLiteral_ne_text h

end Uri

theorem longestPrefix_uriText {text : List Char} (h : IsUriText text) {rest : List Char}
    (hr : Delimited true rest) : LongestPrefix IsUriText (text ++ rest) text :=
  longestPrefix_append (fun _ huri => huri.isUriChar_of_mem) h hr.head_not_isUriChar

/-! ### What is read -/

theorem readUriLiteral_text {s : String} (h : IsUriText s.toList) {rest : List Char}
    (hr : Delimited true rest) : readUriLiteral (s.toList ++ rest) = some (s, rest) := by
  obtain ⟨htake, hdrop⟩ := hr.uriRun_eq
  rw [readUriLiteral, h.readUri?_append, htake, hdrop, List.append_nil]
  exact congrArg (fun text => some (text, rest)) String.ofList_toList

theorem readUriLiteral_stringLiteral (s : String) (rest : List Char) :
    readUriLiteral (stringLiteral s ++ rest) = some (s, rest) := by
  have hbare : readUri? (stringLiteral s ++ rest) = none := rfl
  rw [readUriLiteral, hbare, readLiteral_append]
  exact congrArg (fun text => some (text, rest)) String.ofList_toList

theorem readUriLiteral_literal (u : Uri) {rest : List Char} (hr : Delimited true rest) :
    readUriLiteral (u.literal ++ rest) = some (u.text, rest) := by
  unfold Uri.literal
  split
  · next h => exact readUriLiteral_text (u.isBare_iff.mp h) hr
  · exact readUriLiteral_stringLiteral u.text rest

/-- A text is accepted exactly if a scheme and a colon stand at its start. What is accepted is
printed as it is exactly if all of it is one bare URI, which then is the longest one there; in either
notation a reader finds the text again and leaves what follows it as it is. -/
theorem readUriLiteral_print (s : String) :
    ((∃ u, Uri.checked s = .ok u) ↔ ∃ scheme, scheme <+: s.toList ∧ IsScheme scheme) ∧
      ∀ u, Uri.checked s = .ok u → ∀ layout level,
        ((Expr.uri u).print layout level = s.toList ↔ IsUriText s.toList) ∧
        ∀ rest, Delimited true rest →
          readUriLiteral ((Expr.uri u).print layout level ++ rest) = some (s, rest) ∧
          (IsUriText s.toList →
            LongestPrefix IsUriText ((Expr.uri u).print layout level ++ rest) s.toList) := by
  refine ⟨(Uri.exists_checked_iff s).trans (startsWithScheme_iff s), fun u hu layout level => ?_⟩
  obtain rfl := (Uri.checked_eq_ok_iff s u).mp hu
  rw [Expr.print]
  refine ⟨u.literal_eq_text_iff, fun rest hr => ⟨readUriLiteral_literal u hr, fun huri => ?_⟩⟩
  rw [u.literal_eq_text_iff.mpr huri]
  exact longestPrefix_uriText huri hr

/-- What would open an interpolation makes the URI a string literal. A scheme alone is accepted, and
is no URI without something behind it. -/
theorem readUriLiteral_print_dollar :
    Uri.checked "a:$\x7bb" = .ok ⟨"a:$\x7bb", rfl⟩ ∧ Delimited true [')'] ∧
      readUriLiteral ((Expr.uri ⟨"a:$\x7bb", rfl⟩).print {} 0 ++ [')']) = some ("a:$\x7bb", [')']) ∧
      Uri.checked "a:$b" = .ok ⟨"a:$b", rfl⟩ ∧ IsUriText "a:$b".toList ∧
      LongestPrefix IsUriText ((Expr.uri ⟨"a:$b", rfl⟩).print {} 0 ++ [')']) "a:$b".toList := by
  have hquoted : Uri.checked "a:$\x7bb" = .ok ⟨"a:$\x7bb", rfl⟩ := rfl
  have hbare : Uri.checked "a:$b" = .ok ⟨"a:$b", rfl⟩ := rfl
  have hends : Delimited true [')'] := by simp [endsToken]
  have huri : IsUriText "a:$b".toList := (Uri.isBare_iff ⟨"a:$b", rfl⟩).mp rfl
  obtain ⟨-, hread⟩ := (readUriLiteral_print "a:$\x7bb").2 _ hquoted {} 0
  obtain ⟨-, hlongest⟩ := (readUriLiteral_print "a:$b").2 _ hbare {} 0
  exact ⟨hquoted, hends, (hread [')'] hends).1, hbare, huri, (hlongest [')'] hends).2 huri⟩

end NixSource
