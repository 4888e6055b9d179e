import Idula.Library.Parentheses

/-! The operators of the grammar's expressions, with the strengths that PREC and prec give them;
a production without prec has the strength 0. Of return_expression and yield_expression only the
alternatives with an operand are here, not the bare return and yield of prec -1, and of
closure_expression only those without a return type. -/
namespace Idula.Is.Grammar
open Library.Precedence
variable {α β : Type*}

namespace PREC
def call : Int := 14
def field : Int := 13
def unary : Int := 11
def multiplicative : Int := 10
def additive : Int := 9
def shift : Int := 8
def bitand : Int := 7
def bitxor : Int := 6
def bitor : Int := 5
def comparative : Int := 4
def and : Int := 3
def or : Int := 2
def assign : Int := 0
def closure : Int := -1
end PREC

inductive Sign
  | ampAmp | pipePipe | amp | pipe | caret
  | eqEq | exclmEq | lt | ltEq | gt | gtEq
  | ltLt | gtGt
  | plus | dash | star | fslash | percent
  | eq
  | plusEq | dashEq | starEq | fslashEq | percentEq | ampEq | pipeEq | caretEq | ltLtEq | gtGtEq
  | exclm | query
  deriving DecidableEq

/-- The signs, and what else stands before or behind an expression: its own parts, such as the
parameters of a closure or the arguments of a call, are of the type β. -/
inductive Symbol (β : Type*)
  | sign (s : Sign)
  | ampMut
  | returnKw
  | yieldKw
  | closure (parameters : β)
  | asType (type : β)
  | arguments (args : β)
  | index (i : β)
  | field (name : β)
  | await

/-- The table of binary_expression, all of it prec.left. -/
def table : List (Int × List Sign) :=
  [(PREC.and, [.ampAmp]),
    (PREC.or, [.pipePipe]),
    (PREC.bitand, [.amp]),
    (PREC.bitor, [.pipe]),
    (PREC.bitxor, [.caret]),
    (PREC.comparative, [.eqEq, .exclmEq, .lt, .ltEq, .gt, .gtEq]),
    (PREC.shift, [.ltLt, .gtGt]),
    (PREC.additive, [.plus, .dash]),
    (PREC.multiplicative, [.star, .fslash, .percent])]

/-- assignment_expression and compound_assignment_expr, prec.left as well. -/
def assignments : List (Int × List Sign) :=
  [(PREC.assign, [.eq]),
    (PREC.assign, [.plusEq, .dashEq, .starEq, .fslashEq, .percentEq, .ampEq, .pipeEq, .caretEq,
      .ltLtEq, .gtGtEq])]

def lookup (rows : List (Int × List Sign)) (s : Sign) : Option Int :=
  (rows.find? (s ∈ ·.2)).map Prod.fst

def prec : Symbol β → Option Int
  | .sign s => lookup (table ++ assignments) s
  | _ => none

/-- unary_expression, reference_expression, return_expression and yield_expression with an
operand, and closure_expression without a return type. -/
def unary : Symbol β → Option Int
  | .sign .dash | .sign .star | .sign .exclm => some PREC.unary
  | .sign .amp | .ampMut => some PREC.unary
  | .returnKw | .yieldKw => some 0
  | .closure _ => some PREC.closure
  | _ => none

/-- try_expression, type_cast_expression, call_expression, index_expression, field_expression and
await_expression. -/
def post : Symbol β → Option Int
  | .sign .query => some 0
  | .asType _ => some 0
  | .arguments _ | .index _ => some PREC.call
  | .field _ | .await => some PREC.field
  | _ => none

def operators : Operators (Symbol β) where
  unary := unary
  prec := prec
  post := post
  apart {k} p h := by
    cases k with
    | sign s => cases s <;> first | rfl | cases h
    | _ => cases h

variable {ts : List (Token α (Symbol β))} {e : Expr α (Symbol β)} {k : Symbol β} {p : Int}

/-- A text of operands, operators and parentheses is an expression of the grammar in one way at
most, the one that groups by PREC, and that is the one that shifting and reducing finds. -/
theorem parse_iff (ts : List (Token α (Symbol β))) (e : Expr α (Symbol β)) :
    parse operators ts = some e ↔ e.Grouped operators ∧ e.tokens = ts :=
  parse_eq_some_iff

/-- Operators of one row, or of two rows with one strength, are taken from the left, the
assignments among them: a = b + 1 += c assigns to a = b + 1. -/
theorem left_to_right {rest : List (Symbol β × Expr α (Symbol β))} (he : Operand operators p e)
    (h : ∀ x ∈ rest, operators.prec x.1 = some p ∧ Operand operators p x.2) :
    parse operators (e.tokens ++ chainTokens rest) = some (e.chain rest) :=
  parse_chain he h

theorem left_to_right_assign : parse (operators : Operators (Symbol Unit))
    [.atom 1, .op (.sign .eq), .atom 2, .op (.sign .plus), .atom 3, .op (.sign .plusEq), .atom 4] =
    some (.binary (.binary (.atom 1) (.sign .eq) (.binary (.atom 2) (.sign .plus) (.atom 3)))
      (.sign .plusEq) (.atom 4)) := by
  have hatom (a : Nat) : Operand (operators : Operators (Symbol Unit)) PREC.assign (.atom a) :=
    ⟨trivial, rfl, rfl⟩
  have hsum : Operand (operators : Operators (Symbol Unit)) PREC.assign
      (.binary (.atom 2) (.sign .plus) (.atom 3)) := ⟨⟨9, rfl, trivial, trivial, rfl, rfl⟩, rfl, rfl⟩
  let rest : List (Symbol Unit × Expr Nat (Symbol Unit)) :=
    [(.sign .eq, .binary (.atom 2) (.sign .plus) (.atom 3)), (.sign .plusEq, .atom 4)]
  have h : ∀ x ∈ rest, operators.prec x.1 = some PREC.assign ∧ Operand operators PREC.assign x.2 := by
    simp only [rest, List.mem_cons, List.not_mem_nil, or_false]
    rintro x (rfl | rfl)
    · exact ⟨rfl, hsum⟩
    · exact ⟨rfl, hatom 4⟩
  exact left_to_right (hatom 1) h

theorem prec_nonneg (h : prec k = some p) : 0 ≤ p := by
  cases k with
  | sign s => cases s <;> cases h <;> decide
  | _ => cases h

theorem post_nonneg (h : post k = some p) : 0 ≤ p := by
  cases k with
  | sign s => cases s <;> cases h; decide
  | asType t | arguments a | index i | field f | await => cases h; decide
  | _ => cases h

/-- Closures are weaker than everything behind or between expressions. -/
theorem closure_weakest : Weakest (operators (β := β)) PREC.closure := by
  have hlt : PREC.closure < 0 := by decide
  exact ⟨fun _ _ h => Int.lt_of_lt_of_le hlt (prec_nonneg h),
    fun _ _ h => Int.lt_of_lt_of_le hlt (post_nonneg h)⟩

/-- The body of a closure is all that comes after its parameters. -/
theorem closure_takes_all (parameters : β) (ts : List (Token α (Symbol β))) (e : Expr α (Symbol β)) :
    parse operators (.op (.closure parameters) :: ts) = some e ↔
      ∃ body, parse operators ts = some body ∧ e = .unary (.closure parameters) body :=
  parse_weakest closure_weakest rfl

/-- The expression ends in the body of a closure that no parenthesis closes. -/
def endsInClosure : Expr α (Symbol β) → Bool
  | .unary (.closure _) _ => true
  | .unary _ e => endsInClosure e
  | .binary _ _ r => endsInClosure r
  | .atom _ | .paren _ | .post _ _ => false

private theorem unary_nonneg (h : unary k = some p) : (∃ parameters, k = .closure parameters) ∨
    (∀ e : Expr α (Symbol β), endsInClosure (.unary k e) = endsInClosure e) ∧ 0 ≤ p := by
  cases k with
  | closure parameters => exact Or.inl ⟨parameters, rfl⟩
  | sign s =>
    refine Or.inr ⟨fun _ => rfl, ?_⟩
    cases s <;> cases h <;> decide
  | ampMut | returnKw | yieldKw =>
    refine Or.inr ⟨fun _ => rfl, ?_⟩
    cases h
    decide
  | _ => cases h

theorem precedes_zero (h : e.Grouped operators) : e.precedes operators (some 0) = !endsInClosure e := by
  induction e with
  | atom a => rfl
  | paren e ih => rfl
  | post e k ih => rfl
  | unary k e ih =>
    obtain ⟨u, hu, hg, -⟩ := h
    rcases unary_nonneg hu with ⟨parameters, rfl⟩ | ⟨hc, hle⟩
    · rfl
    · have hr : reduces (some 0) u = true := decide_eq_true hle
      rw [Bool.eq_iff_iff, precedes_unary hu, ih hg, hr, hc]
      simp
  | binary l k r ihl ihr =>
    obtain ⟨p, hp, -, hg, -, -⟩ := h
    have hr : reduces (some 0) p = true := decide_eq_true (prec_nonneg hp)
    rw [Bool.eq_iff_iff, precedes_binary hp, ihr hg, hr]
    simp [endsInClosure]

/-- The try and the cast, which have no prec, take everything to their left, operators and
assignments included, up to a parenthesis or a closure. -/
theorem suffix_takes_all_iff (h : e.Grouped operators) (hk : operators.post k = some 0) :
    parse operators (e.tokens ++ [.op k]) = some (.post e k) ↔ endsInClosure e = false := by
  rw [parse_post_iff h hk, precedes_zero h, Bool.not_eq_true']

theorem suffix_takes_all_product : parse (operators : Operators (Symbol Unit))
    [.atom 1, .op (.sign .eq), .atom 2, .op (.sign .star), .atom 3, .op (.sign .query)] =
    some (.post (.binary (.atom 1) (.sign .eq) (.binary (.atom 2) (.sign .star) (.atom 3))) (.sign .query)) := by
  have h : (Expr.binary (.atom 1) (.sign .eq) (.binary (.atom 2) (.sign .star) (.atom 3)) :
      Expr Nat (Symbol Unit)).Grouped operators :=
    ⟨0, rfl, trivial, ⟨10, rfl, trivial, trivial, rfl, rfl⟩, rfl, rfl⟩
  exact (suffix_takes_all_iff h rfl).mpr rfl

end Idula.Is.Grammar
