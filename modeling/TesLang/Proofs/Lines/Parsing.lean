import TesLang.Proofs.Carry
import TesLang.Proofs.Parsing.Walk
/-!
# Parsing looks at no line

A parser puts the lines of tokens into the tree and does nothing else with them, and with their positions it does nothing.
So a change of the lines of the tokens makes the same change in the tree and in the syntax errors, and no other: the same
tokens are taken, the same are offending and the same functions are entered (`parse_mapLine`).  A change of their positions
as well makes no further change (`parse_move`).
-/
namespace TesLang

section
variable (ρ : Renumbering) (π : Nat → Nat)

/-- The same input on other lines and at other positions, behind the functions that were entered before. -/
def Input.move (before : List String) (s : Input) : Input :=
  { tokens := s.tokens.map (Token.move ρ π), entered := before ++ s.entered }

def SyntaxError.move : SyntaxError → SyntaxError
  | unexpected t => unexpected (t.move ρ π)
  | endOfInput => endOfInput

/-- What parsing comes to, with other lines and positions. -/
def Parse.move (p : Parse) : Parse :=
  { p with functions := p.functions.map (List.map (Node.mapLine ρ)), errors := p.errors.map (SyntaxError.move ρ π) }

end


namespace Parser

/-- A parser that makes on other lines and at other positions what it makes, with its lines changed. -/
abbrev Renumbers {α : Type} (ρ : Renumbering) (π : Nat → Nat) (before : List String) (F : α → α) (p p' : Parser α) : Prop :=
  Carries (Input.move ρ π before) F p p'

variable {ρ : Renumbering} {π : Nat → Nat} {before : List String}

theorem peek_renumbers : Renumbers ρ π before (fun k => k) peek peek := by
  intro s
  cases h : s.tokens <;> simp [peek, EStateM.run, outcomeMap, Input.move, h]

theorem take_renumbers : Renumbers ρ π before (Token.move ρ π) take take := by
  intro s
  unfold EStateM.run take
  cases h : s.tokens <;> simp [outcomeMap, Input.move, h]

theorem expect_renumbers (k : Kind) : Renumbers ρ π before (Token.move ρ π) (expect k) (expect k) := by
  intro s
  unfold EStateM.run expect
  cases h : s.tokens with
  | nil => simp [outcomeMap, Input.move, h]
  | cons t ts => by_cases hk : t.kind = k <;> simp [outcomeMap, Input.move, h, hk]

theorem takeIf_renumbers (k : Kind) : Renumbers ρ π before (Option.map (Token.move ρ π)) (takeIf k) (takeIf k) := by
  intro s
  unfold EStateM.run takeIf
  cases h : s.tokens with
  | nil => simp [outcomeMap, Input.move, h]
  | cons t ts => by_cases hk : t.kind = k <;> simp [outcomeMap, Input.move, h, hk]

theorem takeOperator_renumbers (least : Nat) :
    Renumbers ρ π before (Option.map fun p => (p.1.move ρ π, p.2)) (takeOperator least) (takeOperator least) := by
  intro s
  unfold EStateM.run takeOperator
  cases h : s.tokens with
  | nil => simp [outcomeMap, Input.move, h]
  | cons t ts =>
    simp only [Input.move, h, List.map_cons, Token.kind_move]
    cases level? t.kind with
    | none => simp [outcomeMap, Input.move, h]
    | some l =>
      dsimp only
      by_cases hl : least ≤ l <;> simp [outcomeMap, Input.move, h, hl]

theorem enter_renumbers (name : String) : Renumbers ρ π before (fun u => u) (enter name) (enter name) := by
  intro s
  simp [enter, EStateM.run, outcomeMap, Input.move]

theorem ending_renumbers : Renumbers ρ π before (fun u => u) ending ending := by
  intro s
  unfold EStateM.run ending
  cases h : s.tokens <;> simp [outcomeMap, Input.move, h]

theorem walk_renumbers : Walk ρ π fun F p p' => Renumbers ρ π before F p p' where
  pure := .pure
  bind := .bind
  throw := .throw
  peek := peek_renumbers
  take := take_renumbers
  expect := expect_renumbers
  takeIf := takeIf_renumbers
  takeOperator := takeOperator_renumbers
  enter := enter_renumbers
  ending := ending_renumbers

theorem program_renumbers (n : Nat) : Renumbers ρ π before (List.map (Node.mapLine ρ)) (program n) (program n) :=
  program_walks walk_renumbers n

end Parser

/-! ### Programs -/

variable (ρ : Renumbering) (π : Nat → Nat)

theorem Parse.after_move (errors : List SyntaxError) (entered : List String) (p : Parse) :
    (p.after errors entered).move ρ π = (p.move ρ π).after (errors.map (SyntaxError.move ρ π)) entered := by
  simp [after, move]

theorem Parse.restarting_move : ∀ (n : Nat) (first : Bool) (ts : List Token) (stop : Token.Stop),
    restarting n first (ts.map (Token.move ρ π)) stop = (restarting n first ts stop).move ρ π
  | 0, _, _, _ => rfl
  | n + 1, first, ts, stop => by
    have run := @Parser.program_renumbers ρ π [] (Parser.depth ts) { tokens := ts }
    have depth : Parser.depth (ts.map (Token.move ρ π)) = Parser.depth ts := by simp [Parser.depth]
    rw [restarting, restarting, depth]
    rw [show Input.move ρ π [] { tokens := ts } = { tokens := ts.map (Token.move ρ π) } from rfl] at run
    rw [run]
    cases (Parser.program (Parser.depth ts)).run { tokens := ts } with
    | ok fs s =>
      dsimp only [outcomeMap]
      cases stop <;> rfl
    | error e s =>
      dsimp only [outcomeMap]
      cases h : s.tokens with
      | cons t rest =>
        simp only [Input.move, h, List.map_cons]
        rw [restarting_move n, after_move]
        simp only [List.length_map, List.length_cons]
        congr 1
        split <;> rfl
      | nil =>
        simp only [Input.move, h, List.map_nil]
        cases stop <;> simp only [List.length_map, List.length_nil]
        all_goals try rfl
        all_goals split <;> rfl

/-- **A change of the lines of the tokens is the same change in the tree and in the syntax errors.**  Their positions show in
nothing but the offending tokens. -/
theorem parse_move (s : Token.Scan) :
    ({ s with tokens := s.tokens.map (Token.move ρ π) } : Token.Scan).parse = s.parse.move ρ π := by
  unfold Token.Scan.parse
  rw [← Parse.restarting_move, List.length_map]

theorem SyntaxError.move_id : SyntaxError.move ρ id = SyntaxError.mapLine ρ := by
  funext e
  cases e <;> rfl

theorem parse_mapLine (s : Token.Scan) : (s.mapLine ρ).parse = s.parse.mapLine ρ := by
  have moved := parse_move ρ id s
  unfold Parse.move at moved
  rw [SyntaxError.move_id] at moved
  exact moved

/-! ### Positions -/

/-- No change of lines. -/
def Renumbering.same : Renumbering := { token := id, node := id, agree := fun _ => rfl }

mutual

theorem Node.mapLine_same : ∀ n : Node, n.mapLine .same = n
  | .program fs => by rw [mapLine, mapLines_same fs]
  | .function _ params _ body _ => by rw [mapLine, mapLine_same params, mapLine_same body]; rfl
  | .parameter _ _ _ => rfl
  | .declaration _ _ _ => rfl
  | .assignment target value _ => by rw [mapLine, mapLine_same target, mapLine_same value]; rfl
  | .call _ args _ => by rw [mapLine, mapLines_same args]; rfl
  | .ret value _ => by rw [mapLine, mapLine_same value]; rfl
  | .branch condition yes no _ => by rw [mapLine, mapLine_same condition, mapLine_same yes, mapLine_same no]; rfl
  | .forLoop _ start stop body _ => by rw [mapLine, mapLine_same start, mapLine_same stop, mapLine_same body]; rfl
  | .whileLoop condition body _ => by rw [mapLine, mapLine_same condition, mapLine_same body]; rfl
  | .doLoop body condition _ => by rw [mapLine, mapLine_same body, mapLine_same condition]; rfl
  | .block ss _ => by rw [mapLine, mapLines_same ss]; rfl
  | .binary left _ right _ => by rw [mapLine, mapLine_same left, mapLine_same right]; rfl
  | .unary _ operand _ => by rw [mapLine, mapLine_same operand]; rfl
  | .identifier _ _ => rfl
  | .number _ _ => rfl
  | .string _ _ => rfl
  | .boolean _ _ => rfl
  | .ternary condition yes no _ => by rw [mapLine, mapLine_same condition, mapLine_same yes, mapLine_same no]; rfl
  | .element _ index _ => by rw [mapLine, mapLine_same index]; rfl
  | .array es _ => by rw [mapLine, mapLines_same es]; rfl
  | .listOf size _ => by rw [mapLine, mapLine_same size]; rfl
  | .bare => rfl
  | .nothing => rfl
  | .text _ => rfl
  | .integer _ => rfl
  | .several ns => by rw [mapLine, mapLines_same ns]

theorem Node.mapLines_same : ∀ ns : List Node, mapLines .same ns = ns
  | [] => rfl
  | n :: ns => by rw [mapLines, mapLine_same n, mapLines_same ns]

end

/-- A token without its position. -/
def Token.unplaced (t : Token) : Token := { t with pos := 0 }

theorem SyntaxError.message_move (e : SyntaxError) : (e.move .same π).message = e.message := by
  cases e <;> rfl

theorem Parse.errors_move_same (p : Parse) :
    (p.move .same π).errors.map SyntaxError.message = p.errors.map SyntaxError.message := by
  simp [move, SyntaxError.message_move]

theorem Parse.functions_move_same (p : Parse) : (p.move .same π).functions = p.functions := by
  have same : Node.mapLine .same = id := funext Node.mapLine_same
  simp [move, same]

/-- What parsing comes to is the same, but for the positions of offending tokens. -/
structure Parse.Alike (p q : Parse) : Prop where
  functions : p.functions = q.functions
  errors : p.errors.map SyntaxError.message = q.errors.map SyntaxError.message
  entered : p.entered = q.entered
  fault : p.fault = q.fault

/-- **Positions do not show** in what parsing comes to. -/
theorem parse_alike {s s' : Token.Scan} (tokens : s.tokens.map Token.unplaced = s'.tokens.map Token.unplaced)
    (stop : s.stop = s'.stop) : s.parse.Alike s'.parse := by
  have moved : s.parse.move .same (fun _ => 0) = s'.parse.move .same (fun _ => 0) := by
    have length := congrArg List.length tokens
    rw [List.length_map, List.length_map] at length
    unfold Token.Scan.parse
    rw [← Parse.restarting_move, ← Parse.restarting_move, stop, length]
    exact congrArg (Parse.restarting _ true · _) tokens
  constructor
  · rw [← Parse.functions_move_same (fun _ => 0), moved, Parse.functions_move_same]
  · rw [← Parse.errors_move_same (fun _ => 0), moved, Parse.errors_move_same]
  · exact congrArg (·.entered) moved
  · exact congrArg (·.fault) moved

end TesLang
