import TesLang.Proofs.Lines.Reading
/-!
# Through all parsers

A relation between parsers that holds of those that the grammar is built from, and of two after another if it holds of each,
holds of all parsers (`Walk`, `program_walks`).  The parsers that are related get tokens that may be on other lines and at
other positions, and make trees that are alike but for the lines.
-/
namespace TesLang

section
variable (ρ : Renumbering) (π : Nat → Nat)

namespace Token

/-- The same token on another line and at another position. -/
def move (t : Token) : Token := { t.mapLine ρ with pos := π t.pos }

@[simp] theorem kind_move (t : Token) : (t.move ρ π).kind = t.kind := rfl

@[simp] theorem text_move (t : Token) : (t.move ρ π).text = t.text := rfl

@[simp] theorem count_move (t : Token) : (t.move ρ π).count = t.count := rfl

@[simp] theorem line_move (t : Token) : (t.move ρ π).line = ρ.token t.line := rfl

end Token

end

namespace Parser

/-- The relations that go through all parsers.  What a parser makes and what the one makes that is related to it differ by
the function that the relation is given. -/
structure Walk (ρ : Renumbering) (π : Nat → Nat) (R : ∀ {α : Type}, (α → α) → Parser α → Parser α → Prop) : Prop where
  pure : ∀ {α : Type} {F : α → α} {a b : α}, b = F a → R F (pure a) (pure b)
  bind : ∀ {α β : Type} {F : α → α} {G : β → β} {p p' : Parser α} {f f' : α → Parser β}, R F p p' →
    (∀ a, R G (f a) (f' (F a))) → R G (p >>= f) (p' >>= f')
  throw : ∀ {α : Type} {F : α → α} (e : Halt), R F (throw e) (throw e)
  peek : R (fun k => k) peek peek
  take : R (Token.move ρ π) take take
  expect : ∀ k, R (Token.move ρ π) (expect k) (expect k)
  takeIf : ∀ k, R (Option.map (Token.move ρ π)) (takeIf k) (takeIf k)
  takeOperator : ∀ least, R (Option.map fun p => (p.1.move ρ π, p.2)) (takeOperator least) (takeOperator least)
  enter : ∀ name, R (fun u => u) (enter name) (enter name)
  ending : R (fun u => u) ending ending

variable {ρ : Renumbering} {π : Nat → Nat} {R : ∀ {α : Type}, (α → α) → Parser α → Parser α → Prop}

theorem type_walks (h : Walk ρ π R) : R (fun s => s) type type := by
  unfold type
  refine h.bind h.peek fun k => ?_
  split
  all_goals first
    | exact h.throw _
    | exact h.bind h.take fun t => h.pure rfl

/-! ### Expressions -/

mutual

theorem expression_walks (h : Walk ρ π R) : ∀ n least : Nat,
    R (Node.mapLine ρ) (expression n least) (expression n least)
  | 0, _ => by
    rw [expression]
    exact h.throw _
  | n + 1, least => by
    rw [expression]
    exact h.bind (operand_walks h n) fun left => chain_walks h n least left

theorem chain_walks (h : Walk ρ π R) : ∀ (n least : Nat) (left : Node),
    R (Node.mapLine ρ) (chain n least left) (chain n least (left.mapLine ρ))
  | 0, _, _ => by
    rw [chain, chain]
    exact h.throw _
  | n + 1, least, left => by
    rw [chain, chain]
    refine h.bind (h.takeOperator least) fun r => ?_
    cases r with
    | none => exact h.pure rfl
    | some p =>
      refine h.bind (expression_walks h n (p.2 + 1)) fun right => ?_
      have rest := chain_walks h n least (.binary left p.1.text right p.1.line)
      rw [Node.mapLine, ρ.agree] at rest
      exact rest

theorem operand_walks (h : Walk ρ π R) : ∀ n : Nat, R (Node.mapLine ρ) (operand n) (operand n)
  | 0 => by
    rw [operand]
    exact h.throw _
  | n + 1 => by
    rw [operand]
    refine h.bind h.peek fun k => ?_
    split
    case h_4 =>
      refine h.bind (atom_walks h n) fun condition => h.bind (h.takeIf _) fun r => ?_
      cases r with
      | none => exact h.pure rfl
      | some q =>
        exact h.bind (expression_walks h n 0) fun yes => h.bind (h.expect _) fun _ =>
          h.bind (operand_walks h n) fun no => h.pure (by simp [Node.mapLine, ρ.agree])
    all_goals
      exact h.bind h.take fun t => h.bind (operand_walks h n) fun e =>
        h.pure (by simp [Node.mapLine, ρ.agree])

theorem atom_walks (h : Walk ρ π R) : ∀ n : Nat, R (Node.mapLine ρ) (atom n) (atom n)
  | 0 => by
    rw [atom]
    exact h.throw _
  | n + 1 => by
    rw [atom]
    refine h.bind h.peek fun k => ?_
    split
    case h_6 =>
      exact h.bind h.take fun _ => h.bind (expression_walks h n 0) fun e => h.bind (h.expect _) fun _ =>
        h.pure rfl
    case h_7 =>
      exact h.bind h.take fun t => h.bind (arguments_walks h n _) fun es =>
        h.pure (by simp [Node.mapLine, ρ.agree])
    case h_8 =>
      exact h.bind h.take fun t => h.bind (h.expect _) fun _ => h.bind (arguments_walks h n _) fun es =>
        h.pure (by simp [Node.mapLine, ρ.agree])
    case h_9 =>
      exact h.bind h.take fun t => h.bind (h.expect _) fun _ => h.bind (expression_walks h n 0) fun e =>
        h.bind (h.expect _) fun _ => h.pure (by simp [Node.mapLine, ρ.agree])
    case h_10 =>
      refine h.bind h.take fun t => h.bind h.peek fun k => ?_
      split
      · exact h.bind h.take fun _ => h.bind (arguments_walks h n _) fun es =>
          h.pure (by simp [Node.mapLine, ρ.agree])
      · exact h.bind h.take fun _ => h.bind (expression_walks h n 0) fun e => h.bind (h.expect _) fun _ =>
          h.pure (by simp [Node.mapLine, ρ.agree])
      · exact h.pure (by simp [Node.mapLine, ρ.agree])
    case h_11 => exact h.throw _
    all_goals exact h.bind h.take fun t => h.pure (by simp [Node.mapLine, ρ.agree])

theorem arguments_walks (h : Walk ρ π R) : ∀ (n : Nat) (close : Kind),
    R (List.map (Node.mapLine ρ)) (arguments n close) (arguments n close)
  | 0, _ => by
    rw [arguments]
    exact h.throw _
  | n + 1, close => by
    rw [arguments]
    refine h.bind (h.takeIf _) fun r => ?_
    cases r with
    | some _ => exact h.pure rfl
    | none =>
      exact h.bind (expression_walks h n 0) fun e => h.bind (moreArguments_walks h n close) fun es => h.pure rfl

theorem moreArguments_walks (h : Walk ρ π R) : ∀ (n : Nat) (close : Kind),
    R (List.map (Node.mapLine ρ)) (moreArguments n close) (moreArguments n close)
  | 0, _ => by
    rw [moreArguments]
    exact h.throw _
  | n + 1, close => by
    rw [moreArguments]
    refine h.bind (h.takeIf _) fun r => ?_
    cases r with
    | some _ =>
      exact h.bind (expression_walks h n 0) fun e => h.bind (moreArguments_walks h n close) fun es => h.pure rfl
    | none => exact h.bind (h.expect _) fun _ => h.pure rfl

end

/-! ### Statements and functions -/

theorem parameter_walks (h : Walk ρ π R) : R (Node.mapLine ρ) parameter parameter := by
  unfold parameter
  exact h.bind (h.expect _) fun t => h.bind (h.expect _) fun _ => h.bind (type_walks h) fun type =>
    h.pure (by simp [Node.mapLine, ρ.agree])

theorem moreParameters_walks (h : Walk ρ π R) : ∀ n : Nat,
    R (List.map (Node.mapLine ρ)) (moreParameters n) (moreParameters n)
  | 0 => by
    rw [moreParameters]
    exact h.throw _
  | n + 1 => by
    rw [moreParameters]
    refine h.bind (h.takeIf _) fun r => ?_
    cases r with
    | some _ => exact h.bind (parameter_walks h) fun p => h.bind (moreParameters_walks h n) fun ps => h.pure rfl
    | none => exact h.bind (h.expect _) fun _ => h.pure rfl

theorem parameters_walks (h : Walk ρ π R) (n : Nat) :
    R (List.map (Node.mapLine ρ)) (parameters n) (parameters n) := by
  unfold parameters
  refine h.bind (h.takeIf _) fun r => ?_
  cases r with
  | some _ => exact h.pure rfl
  | none => exact h.bind (parameter_walks h) fun p => h.bind (moreParameters_walks h n) fun ps => h.pure rfl

theorem condition_walks (h : Walk ρ π R) (n : Nat) : R (Node.mapLine ρ) (condition n) (condition n) := by
  unfold condition
  exact h.bind (h.expect _) fun _ => h.bind (h.expect _) fun _ => h.bind (expression_walks h n 0) fun e =>
    h.bind (h.expect _) fun _ => h.bind (h.expect _) fun _ => h.pure rfl

theorem noteFirst_walks (h : Walk ρ π R) (first : Node) :
    R (fun u => u) (noteFirst first) (noteFirst (first.mapLine ρ)) := by
  cases first with
  | function name params type body line =>
    rw [Node.mapLine]
    unfold noteFirst
    refine h.bind h.peek fun k => ?_
    cases k with
    | none => exact h.pure rfl
    | some k =>
      dsimp only
      split
      · exact h.enter name
      · exact h.pure rfl
  | _ =>
    rw [Node.mapLine]
    exact h.pure rfl

theorem named_walks (h : Walk ρ π R) (n : Nat) (t : Token) :
    R (Node.mapLine ρ) (named n t) (named n (t.move ρ π)) := by
  unfold named
  refine h.bind h.peek fun k => ?_
  split
  · refine h.bind h.take fun _ => h.bind (type_walks h) fun type => h.bind (h.takeIf _) fun r => ?_
    cases r with
    | some eq =>
      exact h.bind (expression_walks h n 0) fun e => h.bind (h.expect _) fun _ =>
        h.pure (by simp [Node.mapLine, ρ.agree])
    | none => exact h.bind (h.expect _) fun _ => h.pure (by simp [Node.mapLine, ρ.agree])
  · exact h.bind h.take fun eq => h.bind (expression_walks h n 0) fun e => h.bind (h.expect _) fun _ =>
      h.pure (by simp [Node.mapLine, ρ.agree])
  · exact h.bind h.take fun _ => h.bind (expression_walks h n 0) fun index => h.bind (h.expect _) fun _ =>
      h.bind (h.expect _) fun eq => h.bind (expression_walks h n 0) fun e => h.bind (h.expect _) fun _ =>
        h.pure (by simp [Node.mapLine, ρ.agree])
  · exact h.bind h.take fun _ => h.bind (arguments_walks h n _) fun args => h.bind (h.expect _) fun _ =>
      h.pure (by simp [Node.mapLine, ρ.agree])
  · exact h.throw _

mutual

theorem statement_walks (h : Walk ρ π R) : ∀ n : Nat, R (Node.mapLine ρ) (statement n) (statement n)
  | 0 => by
    rw [statement]
    exact h.throw _
  | n + 1 => by
    rw [statement]
    refine h.bind h.peek fun k => ?_
    split
    · exact h.bind h.take fun t => named_walks h n t
    · exact h.bind h.take fun t => h.bind (h.expect _) fun _ => h.bind (arguments_walks h n _) fun args =>
        h.bind (h.expect _) fun _ => h.pure (by simp [Node.mapLine, ρ.agree])
    · exact h.bind h.take fun t => h.bind (h.expect _) fun _ => h.bind (expression_walks h n 0) fun e =>
        h.bind (h.expect _) fun _ => h.bind (h.expect _) fun _ => h.pure (by simp [Node.mapLine, ρ.agree])
    · refine h.bind h.take fun t => h.bind (h.takeIf _) fun r => ?_
      cases r with
      | some _ => exact h.pure (by simp [Node.mapLine, ρ.agree])
      | none =>
        exact h.bind (expression_walks h n 0) fun e => h.bind (h.expect _) fun _ =>
          h.pure (by simp [Node.mapLine, ρ.agree])
    · refine h.bind h.take fun t => h.bind (condition_walks h n) fun e => h.bind (statement_walks h n) fun yes =>
        h.bind (h.takeIf _) fun r => ?_
      cases r with
      | none => exact h.pure (by simp [Node.mapLine, ρ.agree])
      | some _ => exact h.bind (statement_walks h n) fun no => h.pure (by simp [Node.mapLine, ρ.agree])
    · exact h.bind h.take fun t => h.bind (h.expect _) fun _ => h.bind (h.expect _) fun var =>
        h.bind (h.expect _) fun _ => h.bind (expression_walks h n 0) fun start =>
        h.bind (h.expect _) fun _ => h.bind (expression_walks h n 0) fun stop =>
        h.bind (h.expect _) fun _ => h.bind (h.expect _) fun _ => h.bind (statements_walks h n) fun ss =>
        h.bind (h.expect _) fun _ => h.pure (by simp [Node.mapLine, ρ.agree])
    · exact h.bind h.take fun t => h.bind (condition_walks h n) fun e => h.bind (statement_walks h n) fun body =>
        h.pure (by simp [Node.mapLine, ρ.agree])
    · exact h.bind h.take fun t => h.bind (statement_walks h n) fun body => h.bind (h.expect _) fun _ =>
        h.bind (condition_walks h n) fun e => h.bind (h.expect _) fun _ =>
        h.pure (by simp [Node.mapLine, ρ.agree])
    · exact h.bind h.take fun t => h.bind (statements_walks h n) fun ss => h.bind (h.expect _) fun _ =>
        h.pure (by simp [Node.mapLine, ρ.agree])
    · exact function_walks h n
    · exact h.throw _

theorem statements_walks (h : Walk ρ π R) : ∀ n : Nat,
    R (List.map (Node.mapLine ρ)) (statements n) (statements n)
  | 0 => by
    rw [statements]
    exact h.throw _
  | n + 1 => by
    rw [statements]
    refine h.bind h.peek fun k => ?_
    cases k with
    | none => exact h.pure rfl
    | some k =>
      dsimp only
      split
      · exact h.bind (statement_walks h n) fun s => h.bind (noteFirst_walks h s) fun _ =>
          h.bind (moreStatements_walks h n) fun ss => h.pure (by simp [Node.parts_mapLine])
      · exact h.pure rfl

theorem moreStatements_walks (h : Walk ρ π R) : ∀ n : Nat,
    R (List.map (Node.mapLine ρ)) (moreStatements n) (moreStatements n)
  | 0 => by
    rw [moreStatements]
    exact h.throw _
  | n + 1 => by
    rw [moreStatements]
    refine h.bind h.peek fun k => ?_
    cases k with
    | none => exact h.pure rfl
    | some k =>
      dsimp only
      split
      · exact h.bind (statement_walks h n) fun s => h.bind (moreStatements_walks h n) fun ss =>
          h.pure (by simp [Node.parts_mapLine])
      · exact h.pure rfl

theorem function_walks (h : Walk ρ π R) : ∀ n : Nat, R (Node.mapLine ρ) (function n) (function n)
  | 0 => by
    rw [function]
    exact h.throw _
  | n + 1 => by
    rw [function]
    refine h.bind (h.expect _) fun t => h.bind (h.expect _) fun name => h.bind (h.expect _) fun _ =>
      h.bind (parameters_walks h n) fun ps => h.bind (h.expect _) fun _ => h.bind (type_walks h) fun returnType =>
      h.bind (h.expect _) fun _ => h.bind (h.takeIf _) fun r => ?_
    cases r with
    | none =>
      exact h.bind (h.expect _) fun _ => h.bind (statements_walks h n) fun ss => h.bind (h.expect _) fun _ =>
        h.pure (by simp [Node.mapLine, ρ.agree])
    | some _ =>
      refine h.bind (h.expect _) fun ret => h.bind (expression_walks h n 0) fun e =>
        h.bind (h.expect _) fun _ => ?_
      cases ps with
      | nil => exact h.pure (by simp [Node.mapLine, ρ.agree])
      | cons p ps => exact h.pure (by simp [Node.mapLine, ρ.agree])

end

theorem moreFunctions_walks (h : Walk ρ π R) : ∀ n : Nat,
    R (List.map (Node.mapLine ρ)) (moreFunctions n) (moreFunctions n)
  | 0 => by
    rw [moreFunctions]
    exact h.throw _
  | n + 1 => by
    rw [moreFunctions]
    refine h.bind h.peek fun k => ?_
    split
    · exact h.bind (function_walks h n) fun f => h.bind (moreFunctions_walks h n) fun fs => h.pure rfl
    · exact h.bind h.ending fun _ => h.pure rfl

theorem program_walks (h : Walk ρ π R) (n : Nat) : R (List.map (Node.mapLine ρ)) (program n) (program n) := by
  unfold program
  exact h.bind (function_walks h n) fun f => h.bind (moreFunctions_walks h n) fun fs => h.pure rfl

end Parser

end TesLang
