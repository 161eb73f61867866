import TesLang.Node
import TesLang.Parser.Basic
/-!
# Expressions

    expression = expression op expression | unary expression | expression "?" expression ":" expression | atom

The binary operators have six levels and group to the left.  Unary operators bind tighter than all of them, and the
conditional `?:` tighter still: its condition is an atom, its first branch any expression, and its second branch an
operand.  So `-a ? b : c` is `-(a ? b : c)`, and `a < b ? a : b` is `a < (b ? a : b)`.
-/
namespace TesLang.Parser

/-- The level of a binary operator; a higher one binds tighter. -/
def level? : Kind → Option Nat
  | .or                                         => some 1
  | .and                                        => some 2
  | .equal | .notEqual                          => some 3
  | .less | .greater | .atMost | .atLeast       => some 4
  | .plus | .minus                              => some 5
  | .times | .divide                            => some 6
  | _                                           => none

/-- Takes a binary operator of level `least` or higher, with its level. -/
def takeOperator (least : Nat) : Parser (Option (Token × Nat)) := fun s =>
  match s.tokens with
  | []      => .ok none s
  | t :: ts =>
    match level? t.kind with
    | some l => if least ≤ l then .ok (some (t, l)) { s with tokens := ts } else .ok none s
    | none   => .ok none s

mutual

/-- An expression whose binary operators outside parentheses have level `least` or higher. -/
def expression : Nat → (least : Nat) → Parser Node
  | 0,     _     => spent
  | n + 1, least => do
    let left ← operand n
    chain n least left

/-- The operators and operands that go on after `left`. -/
def chain : Nat → (least : Nat) → (left : Node) → Parser Node
  | 0,     _,     _    => spent
  | n + 1, least, left => do
    match ← takeOperator least with
    | none        => pure left
    | some (t, l) =>
      let right ← expression n (l + 1)
      chain n least (.binary left t.text right t.line)

/-- An operand of a binary operator. -/
def operand : Nat → Parser Node
  | 0     => spent
  | n + 1 => do
    match ← peek with
    | some .plus | some .minus | some .not =>
      let t ← take
      let e ← operand n
      pure (.unary t.text e t.line)
    | _ =>
      let condition ← atom n
      match ← takeIf .question with
      | none   => pure condition
      | some q =>
        let yes ← expression n 0
        let _ ← expect .colon
        let no ← operand n
        pure (.ternary condition yes no q.line)

def atom : Nat → Parser Node
  | 0     => spent
  | n + 1 => do
    match ← peek with
    | some .number                 => do let t ← take; pure (.number t.count t.line)
    | some .string | some .mstring => do let t ← take; pure (.string t.text t.line)
    | some .trueKw | some .falseKw => do let t ← take; pure (.boolean t.text t.line)
    | some .leftParen              => do
      let _ ← take
      let e ← expression n 0
      let _ ← expect .rightParen
      pure e
    | some .leftBracket            => do
      let t ← take
      let es ← arguments n .rightBracket
      pure (.array es t.line)
    | some .printKw                => do
      let t ← take
      let _ ← expect .leftParen
      let args ← arguments n .rightParen
      pure (.call t.text args t.line)
    | some .lengthKw               => do
      let t ← take
      let _ ← expect .leftParen
      let e ← expression n 0
      let _ ← expect .rightParen
      pure (.call t.text [e] t.line)
    | some .id                     => do
      let t ← take
      match ← peek with
      | some .leftParen   => do
        let _ ← take
        let args ← arguments n .rightParen
        pure (.call t.text args t.line)
      | some .leftBracket => do
        let _ ← take
        let index ← expression n 0
        let _ ← expect .rightBracket
        pure (.element t.text index t.line)
      | _                 => pure (.identifier t.text t.line)
    | _                            => stuck

/-- Expressions with commas between them, perhaps none, up to and with the bracket `close`. -/
def arguments : Nat → (close : Kind) → Parser (List Node)
  | 0,     _     => spent
  | n + 1, close => do
    match ← takeIf close with
    | some _ => pure []
    | none   => do
      let e ← expression n 0
      let es ← moreArguments n close
      pure (e :: es)

def moreArguments : Nat → (close : Kind) → Parser (List Node)
  | 0,     _     => spent
  | n + 1, close => do
    match ← takeIf .comma with
    | some _ => do
      let e ← expression n 0
      let es ← moreArguments n close
      pure (e :: es)
    | none   => do
      let _ ← expect close
      pure []

end

end TesLang.Parser
