import NixSource.Proofs.Syntax.ParserSteps

/-! The first tokens of expressions, which decide how the parser goes on. -/

namespace NixSource

/-- Whether there are tokens and the first is no minus sign, which only numerals in parentheses
start with. -/
def startsExpr : List Token → Bool
  | t :: _ => t != .minus
  | [] => false

theorem ne_nil_of_startsExpr {ts : List Token} (h : startsExpr ts = true) : ts ≠ [] := by
  rintro rfl
  cases h

theorem startsExpr_append {ts : List Token} (h : startsExpr ts = true) (us : List Token) :
    startsExpr (ts ++ us) = true := by
  cases ts with
  | nil => cases h
  | cons t ts => exact h

theorem startsExpr_of_startsOperand {ts : List Token} (h : startsOperand ts = true) :
    startsExpr ts = true := by
  cases ts with
  | nil => cases h
  | cons t ts => cases t <;> first | rfl | cases h

theorem startsLoosest_name (s : String) {ts : List Token} (h : ts.head? ≠ some .colon) :
    startsLoosest (.name s :: ts) = false := by
  cases ts with
  | nil => rfl
  | cons t ts => cases t <;> first | rfl | exact absurd rfl h

theorem head?_ne_colon_of_startsOperand {ts : List Token} (h : startsOperand ts = true) :
    ts.head? ≠ some .colon := by
  intro hcolon
  obtain ⟨us, rfl⟩ := List.head?_eq_some_iff.mp hcolon
  cases h

namespace Expr

theorem encloseTokens_of_lt {loosest : Precedence} {e : Expr}
    (h : loosest.rank < e.precedence.rank) (ts : List Token) :
    e.encloseTokens loosest ts = .openParen :: (ts ++ [.closeParen]) :=
  if_pos h

theorem encloseTokens_of_le {loosest : Precedence} {e : Expr}
    (h : e.precedence.rank ≤ loosest.rank) (ts : List Token) : e.encloseTokens loosest ts = ts :=
  if_neg (by omega)

theorem startsOperand_integerTokens (i : Int64) : startsOperand (integerTokens i) = true := by
  unfold integerTokens
  split
  · rfl
  · split <;> rfl

theorem startsOperand_floatTokens (x : FiniteFloat) : startsOperand x.tokens = true := by
  unfold FiniteFloat.tokens
  split <;> rfl

theorem startsOperand_atom {uris : Bool} : ∀ (e : Expr), e.Readable uris →
    startsOperand (e.encloseTokens .atom e.tokens) = true
  | null, _ | bool true, _ | bool false, _ | string _, _ | path _, _ | verbatim _, _ | attrs _, _
  | recAttrs _, _ | list _, _ | update _ _, _ | apply _ _, _ | letIn _ _, _ | lambda _ _, _
  | ifThenElse _ _ _, _ | withScope _ _, _ | assertThen _ _, _ | importOf _, _
  | select _ _ (some _), _ => rfl
  | int i, _ => startsOperand_integerTokens i
  | float x, _ => startsOperand_floatTokens x
  | uri u, _ => by
    show startsOperand [u.token] = true
    unfold Uri.token
    split <;> rfl
  | select s _ none, hr => startsOperand_append (startsOperand_atom s hr.2) _

theorem startsExpr_encloseTokens {loosest : Precedence} {e : Expr}
    (h : startsExpr e.tokens = true) :
    startsExpr (e.encloseTokens loosest e.tokens) = true := by
  unfold encloseTokens
  split
  · rfl
  · exact h

theorem startsExpr_tokens {uris : Bool} : ∀ (e : Expr), e.Readable uris →
    startsExpr e.tokens = true
  | null, _ | bool true, _ | bool false, _ | string _, _ | path _, _ | verbatim _, _ | attrs _, _
  | recAttrs _, _ | list _, _ | letIn _ _, _ | lambda (.name _) _, _ | lambda (.formals _ _) _, _
  | ifThenElse _ _ _, _ | withScope _ _, _ | assertThen _ _, _ | importOf _, _ => rfl
  | int i, _ => startsExpr_of_startsOperand (startsOperand_integerTokens i)
  | float x, _ => startsExpr_of_startsOperand (startsOperand_floatTokens x)
  | uri u, hr => startsExpr_of_startsOperand (startsOperand_atom (uri u) hr)
  | update l _, hr => startsExpr_append (startsExpr_encloseTokens (startsExpr_tokens l hr.1)) _
  | apply f _, hr => startsExpr_append (startsExpr_encloseTokens (startsExpr_tokens f hr.1)) _
  | select s _ none, hr =>
    startsExpr_append (startsExpr_of_startsOperand (startsOperand_atom s hr.2)) _
  | select s _ (some _), hr =>
    startsExpr_append (startsExpr_of_startsOperand (startsOperand_atom s hr.2.1)) _

theorem startsLoosest_encloseTokens {loosest : Precedence} {e : Expr} {ts : List Token}
    (hl : loosest.rank < Precedence.lowest.rank)
    (h : e.precedence ≠ .lowest → startsLoosest (e.tokens ++ ts) = false) :
    startsLoosest (e.encloseTokens loosest e.tokens ++ ts) = false := by
  unfold encloseTokens
  split
  · rfl
  · next hle =>
    exact h fun he => by
      rw [he] at hle
      omega

/-- The tokens of a set are no header of a function. -/
theorem startsLoosest_bindings (b : List (String × Expr)) {ts : List Token}
    (h : ts.head? ≠ some .colon) :
    startsLoosest (.openBrace :: (bindingsTokens b ++ .closeBrace :: ts)) = false := by
  cases b with
  | nil =>
    cases ts with
    | nil => rfl
    | cons t ts => cases t <;> first | rfl | exact absurd rfl h
  | cons entry b =>
    obtain ⟨name, value⟩ := entry
    rw [bindingsTokens]
    by_cases hinherit : ∃ scope, value = inherit scope
    · obtain ⟨scope, rfl⟩ := hinherit
      cases scope <;> rfl
    · rw [bindingTokens_of_ne_inherit name (not_exists.mp hinherit)]
      unfold nameToken
      split <;> rfl

/-- Only the loosest expressions start as such, unless a colon follows. -/
theorem startsLoosest_tokens {uris : Bool} : ∀ (e : Expr), e.Readable uris →
    e.precedence ≠ .lowest → ∀ ts : List Token, ts.head? ≠ some .colon →
    startsLoosest (e.tokens ++ ts) = false
  | null, _, _, ts, h | bool true, _, _, ts, h | bool false, _, _, ts, h
  | verbatim _, _, _, ts, h => startsLoosest_name _ h
  | string _, _, _, _, _ | path _, _, _, _, _ | recAttrs _, _, _, _, _ | list _, _, _, _, _
  | importOf _, _, _, _, _ => rfl
  | int i, _, _, ts, _ => by
    rw [tokens, integerTokens]
    split
    · rfl
    · split <;> rfl
  | float x, _, _, ts, _ => by
    rw [tokens, FiniteFloat.tokens]
    split <;> rfl
  | uri u, _, _, ts, _ => by
    rw [tokens, Uri.token]
    split <;> rfl
  | attrs b, _, _, ts, h => by
    rw [tokens, List.cons_append, List.append_assoc]
    exact startsLoosest_bindings b h
  | update l r, hr, _, ts, _ => by
    rw [tokens, List.append_assoc]
    exact startsLoosest_encloseTokens (by decide) fun hl =>
      startsLoosest_tokens l hr.1 hl _ (by simp)
  | apply f a, hr, _, ts, _ => by
    rw [tokens, List.append_assoc]
    exact startsLoosest_encloseTokens (by decide) fun hf =>
      startsLoosest_tokens f hr.1 hf _ (head?_ne_colon_of_startsOperand
        (startsOperand_append (startsOperand_atom a hr.2) ts))
  | select s p none, hr, _, ts, _ => by
    rw [tokens, List.append_assoc]
    exact startsLoosest_encloseTokens (by decide) fun hs =>
      startsLoosest_tokens s hr.2 hs _ (by simp [stepTokens, AttributePath.toList])
  | select s p (some d), hr, _, ts, _ => by
    rw [tokens, List.append_assoc]
    exact startsLoosest_encloseTokens (by decide) fun hs =>
      startsLoosest_tokens s hr.2.1 hs _ (by simp [stepTokens, AttributePath.toList])
  | letIn _ _, _, h, _, _ | lambda _ _, _, h, _, _ | ifThenElse _ _ _, _, h, _, _
  | withScope _ _, _, h, _, _ | assertThen _ _, _, h, _, _ => absurd rfl h

end Expr

end NixSource
