import TesLang.Proofs.Lines.Reading
import TesLang.Proofs.Parsing.Derivation
import TesLang.Proofs.Parsing.Grammar
/-!
# Trees in writing

How a tree is written as tokens.  A token in writing has a kind and a value and no place (`Lexeme`), so that the tokens of
a text may stand on any lines.

`precedence` says how tight the binary operators bind, the loosest first.  Unary operators bind tighter than all of them,
the conditional `?:` tighter still, and atoms tightest (`tightness`).  Each place beside an operator has a bound, and what
stands there has to bind at least as tight, or parentheses are put around it (`Place.demands`).  Beyond that a `Style` may
put parentheses where it likes: `Style.sparing` puts none that are not demanded, and `Style.ample` puts them around each
operand that is no atom.

`isExpression`, `isStatement` and `isProgram` say which trees can be written.
-/
namespace TesLang

/-! ### Tokens without a place -/

/-- A token without its place. -/
structure Lexeme where
  kind : Kind
  value : Token.Value
  deriving DecidableEq, Repr

def Token.lexeme (t : Token) : Lexeme := ⟨t.kind, t.value⟩

/-- The keyword or symbol of a kind, as the tables spell it. -/
def Kind.spelling (k : Kind) : String := ((keywords ++ symbols).find? fun entry => entry.2 == k).elim "" (·.1)

namespace Lexeme

/-- A keyword or symbol. -/
def mark (k : Kind) : Lexeme := ⟨k, .text k.spelling⟩

/-- A word: a keyword, or else an identifier. -/
def word (w : String) : Lexeme := ⟨.ofWord w, .text w⟩

/-- An operator, by its spelling. -/
def operator (op : String) : Lexeme := ⟨(symbols.lookup op).getD .id, .text op⟩

end Lexeme

/-- All lines are alike. -/
def Renumbering.level : Renumbering := { token := fun _ => 0, node := fun _ => 0, agree := fun _ => rfl }

/-- A tree up to its lines. -/
def Node.unlined : Node → Node := Node.mapLine .level

namespace Writing

/-! ### How tight operators bind -/

/-- The binary operators, from the loosest to the tightest. -/
def precedence : List (List String) :=
  [["||"], ["&&"], ["==", "!="], ["<", ">", "<=", ">="], ["+", "-"], ["*", "/"]]

def unaryOperators : List String := ["!", "-", "+"]

/-- The place of a binary operator in the table, counted from 1. -/
def rank? (op : String) : Option Nat := (precedence.findIdx? (·.contains op)).map (· + 1)

def rank (op : String) : Nat := (rank? op).getD 0

def unaryTightness : Nat := 7

def ternaryTightness : Nat := 8

def atomTightness : Nat := 9

/-- How tight the outermost operator of an expression binds. -/
def tightness : Node → Nat
  | .binary _ op _ _ => rank op
  | .unary .. => unaryTightness
  | .ternary .. => ternaryTightness
  | _ => atomTightness

/-- The places beside an operator. -/
inductive Place where
  | left (op : String)
  | right (op : String)
  | signed
  | condition
  | middle
  | last

namespace Place

/-- How tight the expression in a place has to bind.  Binary operators group to the left, and all others to the right. -/
def least : Place → Nat
  | left op => rank op
  | right op => rank op + 1
  | signed => unaryTightness
  | condition => atomTightness
  | middle => 0
  | last => unaryTightness

/-- Whether an expression needs parentheses in a place. -/
def demands (p : Place) (e : Node) : Bool := decide (tightness e < p.least)

end Place

/-- Where parentheses are put around an operand. -/
abbrev Style := Place → Node → Bool

namespace Style

/-- Parentheses only where they are demanded. -/
def sparing : Style := Place.demands

/-- Parentheses around each operand that is no atom. -/
def ample : Style := fun _ e => decide (tightness e < atomTightness)

/-- Parentheses wherever they are demanded. -/
def Sound (style : Style) : Prop := ∀ p e, p.demands e = true → style p e = true

end Style

/-! ### Expressions -/

def enclosed (parentheses : Bool) (ws : List Lexeme) : List Lexeme :=
  if parentheses then .mark .leftParen :: ws ++ [.mark .rightParen] else ws

mutual

/-- An expression, with no parentheses around the whole. -/
def expression (style : Style) : Node → List Lexeme
  | .number value _ => [⟨.number, .number value.toNat⟩]
  | .string value _ => [⟨.string, .text value⟩]
  | .boolean value _ => [.word value]
  | .identifier x _ => [.word x]
  | .element x index _ => .word x :: .mark .leftBracket :: expression style index ++ [.mark .rightBracket]
  | .array es _ => .mark .leftBracket :: arguments style es ++ [.mark .rightBracket]
  | .call f args _ => .word f :: .mark .leftParen :: arguments style args ++ [.mark .rightParen]
  | .unary op e _ => .operator op :: enclosed (style .signed e) (expression style e)
  | .binary a op b _ =>
    enclosed (style (.left op) a) (expression style a) ++
      .operator op :: enclosed (style (.right op) b) (expression style b)
  | .ternary c yes no _ =>
    enclosed (style .condition c) (expression style c) ++
      .mark .question :: enclosed (style .middle yes) (expression style yes) ++
      .mark .colon :: enclosed (style .last no) (expression style no)
  | _ => []

/-- Expressions with commas between them. -/
def arguments (style : Style) : List Node → List Lexeme
  | [] => []
  | e :: es => expression style e ++ moreArguments style es

def moreArguments (style : Style) : List Node → List Lexeme
  | [] => []
  | e :: es => .mark .comma :: expression style e ++ moreArguments style es

end

/-- A name that may be given to a variable, a parameter or a function. -/
def isName (x : String) : Bool := Kind.ofWord x == .id

def isType (t : String) : Bool := Grammar.typeKinds.contains (.ofWord t)

/-- Whether a function of this name may have this many arguments: `length` has one, all others have any number. -/
def isCallee (f : String) (args : Nat) : Bool :=
  Grammar.calleeKinds.contains (.ofWord f) || (Kind.ofWord f == .lengthKw && args == 1)

mutual

/-- Whether a tree is an expression that can be written. -/
def isExpression : Node → Bool
  | .number value _ => decide (0 ≤ value)
  | .string .. => true
  | .boolean value _ => value == "true" || value == "false"
  | .identifier x _ => isName x
  | .element x index _ => isName x && isExpression index
  | .array es _ => areExpressions es
  | .call f args _ => isCallee f args.length && areExpressions args
  | .unary op e _ => unaryOperators.contains op && isExpression e
  | .binary a op b _ => (rank? op).isSome && isExpression a && isExpression b
  | .ternary c yes no _ => isExpression c && isExpression yes && isExpression no
  | _ => false

def areExpressions : List Node → Bool
  | [] => true
  | e :: es => isExpression e && areExpressions es

end

/-! ### Statements and programs -/

def parameter : Node → List Lexeme
  | .parameter x type _ => [.word x, .mark .asKw, .word type]
  | _ => []

def moreParameters : List Node → List Lexeme
  | [] => []
  | p :: ps => .mark .comma :: parameter p ++ moreParameters ps

/-- Parameters with commas between them. -/
def parameters : List Node → List Lexeme
  | [] => []
  | p :: ps => parameter p ++ moreParameters ps

/-- A condition between double brackets. -/
def condition (style : Style) (e : Node) : List Lexeme :=
  .mark .leftBracket :: .mark .leftBracket :: expression style e ++ [.mark .rightBracket, .mark .rightBracket]

mutual

/-- A statement.  A declaration with an initial value is one statement where the tree has both in the place of one. -/
def statement (style : Style) : Node → List Lexeme
  | .declaration x type _ => [.word x, .mark .doubleColon, .word type, .mark .semicolon]
  | .assignment (.text x) value _ => .word x :: .mark .assign :: expression style value ++ [.mark .semicolon]
  | .assignment target value _ =>
    expression style target ++ .mark .assign :: expression style value ++ [.mark .semicolon]
  | .several [.declaration x type _, .assignment _ value _] =>
    .word x :: .mark .doubleColon :: .word type :: .mark .assign :: expression style value ++ [.mark .semicolon]
  | .call f args line => expression style (.call f args line) ++ [.mark .semicolon]
  | .ret .nothing _ => [.mark .returnKw, .mark .semicolon]
  | .ret value _ => .mark .returnKw :: expression style value ++ [.mark .semicolon]
  | .branch c yes .nothing _ => .mark .ifKw :: condition style c ++ statement style yes
  | .branch c yes no _ =>
    .mark .ifKw :: condition style c ++ statement style yes ++ .mark .elseKw :: statement style no
  | .forLoop x start stop (.several ss) _ =>
    .mark .forKw :: .mark .leftParen :: .word x :: .mark .assign :: expression style start ++
      .mark .toKw :: expression style stop ++ .mark .rightParen :: .mark .beginKw :: statements style ss ++ [.mark .endKw]
  | .whileLoop c body _ => .mark .whileKw :: condition style c ++ statement style body
  | .doLoop body c _ =>
    .mark .doKw :: statement style body ++ .mark .whileKw :: condition style c ++ [.mark .semicolon]
  | .block ss _ => .mark .beginKw :: statements style ss ++ [.mark .endKw]
  | .function f (.several ps) type (.several ss) _ =>
    .mark .funkKw :: .word f :: .mark .leftParen :: parameters ps ++
      .mark .rightParen :: .mark .less :: .word type :: .mark .greater :: .mark .leftBrace :: statements style ss ++
      [.mark .rightBrace]
  | _ => []

def statements (style : Style) : List Node → List Lexeme
  | [] => []
  | s :: ss => statement style s ++ statements style ss

end

/-- A program. -/
def program (style : Style) : Node → List Lexeme
  | .program fs => statements style fs
  | _ => []

/-- Whether a statement ends in an `if` without `else`, so that an `else` behind it would belong to that. -/
def isOpen : Node → Bool
  | .branch _ _ .nothing _ => true
  | .branch _ _ no _ => isOpen no
  | .whileLoop _ body _ => isOpen body
  | _ => false

def isParameter : Node → Bool
  | .parameter x type _ => isName x && isType type
  | _ => false

mutual

/-- Whether a tree is a statement that can be written.  What stands in front of an `else` is not open. -/
def isStatement : Node → Bool
  | .declaration x type _ => isName x && isType type
  | .assignment (.text x) value _ => isName x && isExpression value
  | .assignment (.element x index _) value _ => isName x && isExpression index && isExpression value
  | .several [.declaration x type _, .assignment (.text y) value _] =>
    x == y && isName x && isType type && isExpression value
  | .call f args _ => isCallee f args.length && areExpressions args
  | .ret .nothing _ => true
  | .ret value _ => isExpression value
  | .branch c yes .nothing _ => isExpression c && isStatement yes
  | .branch c yes no _ => isExpression c && isStatement yes && !isOpen yes && isStatement no
  | .forLoop x start stop (.several ss) _ =>
    isName x && isExpression start && isExpression stop && areStatements ss
  | .whileLoop c body _ => isExpression c && isStatement body
  | .doLoop body c _ => isStatement body && isExpression c
  | .block ss _ => areStatements ss
  | .function f (.several ps) type (.several ss) _ => isName f && ps.all isParameter && isType type && areStatements ss
  | _ => false

/-- Whether some trees are statements that can be written one after another. -/
def areStatements : List Node → Bool
  | [] => true
  | s :: ss => !Grammar.isSeveral s && isStatement s && areStatements ss

end

/-- Whether a tree is a program that can be written: it has one function at least. -/
def isProgram : Node → Bool
  | .program fs => !fs.isEmpty && fs.all Node.isFunction && areStatements fs
  | _ => false

end Writing
end TesLang
