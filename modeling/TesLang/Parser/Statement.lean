import TesLang.Parser.Expression
/-!
# Statements and functions

    function  = "funk" id "(" [ id "as" type { "," id "as" type } ] ")" "<" type ">" ( block | arrow )
    block     = "{" { statement } "}"
    arrow     = "=>" "return" expression ";"
    statement = id "::" type [ "=" expression ] ";"  |  id "=" expression ";"  |  id "[" expression "]" "=" expression ";"
              | call ";"  |  "return" [ expression ] ";"
              | "if" "[[" expression "]]" statement [ "else" statement ]
              | "for" "(" id "=" expression "to" expression ")" "begin" { statement } "end"
              | "while" "[[" expression "]]" statement
              | "do" statement "while" "[[" expression "]]" ";"
              | "begin" { statement } "end"  |  function

An `else` belongs to the nearest `if` that can take it.  A declaration with an initial value is two statements, the
declaration and an assignment.

The arrow form stands for a body that returns the expression, if the function has parameters.  Without parameters
its parts are read one place off: the closing parenthesis is taken for the parameters, the closing angle bracket for
the return type, and the expression itself for the body.
-/
namespace TesLang.Parser

/-- The name of a type. -/
def type : Parser String := do
  match ← peek with
  | some .intKw | some .strKw | some .mstrKw | some .boolKw | some .vectorKw | some .nullKw => do
    let t ← take
    pure t.text
  | _ => stuck

def parameter : Parser Node := do
  let t ← expect .id
  let _ ← expect .asKw
  let type ← type
  pure (.parameter t.text type t.line)

/-- The parameters after the first, up to and with the closing parenthesis. -/
def moreParameters : Nat → Parser (List Node)
  | 0     => spent
  | n + 1 => do
    match ← takeIf .comma with
    | some _ => do
      let p ← parameter
      let ps ← moreParameters n
      pure (p :: ps)
    | none   => do
      let _ ← expect .rightParen
      pure []

/-- The parameters of a function, up to and with the closing parenthesis. -/
def parameters (n : Nat) : Parser (List Node) := do
  match ← takeIf .rightParen with
  | some _ => pure []
  | none   => do
    let p ← parameter
    let ps ← moreParameters n
    pure (p :: ps)

/-- A condition between double brackets. -/
def condition (n : Nat) : Parser Node := do
  let _ ← expect .leftBracket
  let _ ← expect .leftBracket
  let e ← expression n 0
  let _ ← expect .rightBracket
  let _ ← expect .rightBracket
  pure e

/-- The kinds of token that start a statement. -/
def startsStatement : Kind → Bool
  | .id | .printKw | .lengthKw | .returnKw | .ifKw | .forKw | .whileKw | .doKw | .beginKw | .funkKw => true
  | _ => false

/-- The kinds of token that may follow the first statement of a list, whatever the list is closed by. -/
def followsFirst (k : Kind) : Bool :=
  startsStatement k || k == .endKw || k == .rightBrace

/-- A nested function at the head of a list of statements counts as entered once the token after it is known to go on
with a list. -/
def noteFirst (first : Node) : Parser Unit := do
  match first with
  | .function name .. =>
    match ← peek with
    | some k => if followsFirst k then enter name else pure ()
    | none   => pure ()
  | _ => pure ()

/-- A statement that starts with the identifier `t`. -/
def named (n : Nat) (t : Token) : Parser Node := do
  match ← peek with
  | some .doubleColon => do
    let _ ← take
    let type ← type
    match ← takeIf .assign with
    | some eq => do
      let e ← expression n 0
      let _ ← expect .semicolon
      pure (.several [.declaration t.text type t.line, .assignment (.text t.text) e eq.line])
    | none    => do
      let _ ← expect .semicolon
      pure (.declaration t.text type t.line)
  | some .assign      => do
    let eq ← take
    let e ← expression n 0
    let _ ← expect .semicolon
    pure (.assignment (.text t.text) e eq.line)
  | some .leftBracket => do
    let _ ← take
    let index ← expression n 0
    let _ ← expect .rightBracket
    let eq ← expect .assign
    let e ← expression n 0
    let _ ← expect .semicolon
    pure (.assignment (.element t.text index t.line) e eq.line)
  | some .leftParen   => do
    let _ ← take
    let args ← arguments n .rightParen
    let _ ← expect .semicolon
    pure (.call t.text args t.line)
  | _                 => stuck

mutual

def statement : Nat → Parser Node
  | 0     => spent
  | n + 1 => do
    match ← peek with
    | some .id       => do
      let t ← take
      named n t
    | some .printKw  => do
      let t ← take
      let _ ← expect .leftParen
      let args ← arguments n .rightParen
      let _ ← expect .semicolon
      pure (.call t.text args t.line)
    | some .lengthKw => do
      let t ← take
      let _ ← expect .leftParen
      let e ← expression n 0
      let _ ← expect .rightParen
      let _ ← expect .semicolon
      pure (.call t.text [e] t.line)
    | some .returnKw => do
      let t ← take
      match ← takeIf .semicolon with
      | some _ => pure (.ret .nothing t.line)
      | none   => do
        let e ← expression n 0
        let _ ← expect .semicolon
        pure (.ret e t.line)
    | some .ifKw     => do
      let t ← take
      let e ← condition n
      let yes ← statement n
      match ← takeIf .elseKw with
      | none   => pure (.branch e yes .nothing t.line)
      | some _ => do
        let no ← statement n
        pure (.branch e yes no t.line)
    | some .forKw    => do
      let t ← take
      let _ ← expect .leftParen
      let var ← expect .id
      let _ ← expect .assign
      let start ← expression n 0
      let _ ← expect .toKw
      let stop ← expression n 0
      let _ ← expect .rightParen
      let _ ← expect .beginKw
      let ss ← statements n
      let _ ← expect .endKw
      pure (.forLoop var.text start stop (.several ss) t.line)
    | some .whileKw  => do
      let t ← take
      let e ← condition n
      let body ← statement n
      pure (.whileLoop e body t.line)
    | some .doKw     => do
      let t ← take
      let body ← statement n
      let _ ← expect .whileKw
      let e ← condition n
      let _ ← expect .semicolon
      pure (.doLoop body e t.line)
    | some .beginKw  => do
      let t ← take
      let ss ← statements n
      let _ ← expect .endKw
      pure (.block ss t.line)
    | some .funkKw   => function n
    | _              => stuck

/-- The statements of a list, perhaps none, up to the token that closes it. -/
def statements : Nat → Parser (List Node)
  | 0     => spent
  | n + 1 => do
    match ← peek with
    | some k =>
      if startsStatement k then do
        let s ← statement n
        noteFirst s
        let ss ← moreStatements n
        pure (s.parts ++ ss)
      else pure []
    | none   => pure []

def moreStatements : Nat → Parser (List Node)
  | 0     => spent
  | n + 1 => do
    match ← peek with
    | some k =>
      if startsStatement k then do
        let s ← statement n
        let ss ← moreStatements n
        pure (s.parts ++ ss)
      else pure []
    | none   => pure []

def function : Nat → Parser Node
  | 0     => spent
  | n + 1 => do
    let t ← expect .funkKw
    let name ← expect .id
    let _ ← expect .leftParen
    let ps ← parameters n
    let _ ← expect .less
    let returnType ← type
    let _ ← expect .greater
    match ← takeIf .arrow with
    | none   => do
      let _ ← expect .leftBrace
      let ss ← statements n
      let _ ← expect .rightBrace
      pure (.function name.text (.several ps) returnType (.several ss) t.line)
    | some _ => do
      let ret ← expect .returnKw
      let e ← expression n 0
      let _ ← expect .semicolon
      if ps.isEmpty then pure (.function name.text (.text ")") ">" e t.line)
      else pure (.function name.text (.several ps) returnType (.several [.ret e ret.line]) t.line)

end

/-- The functions after the first, up to the end of the input. -/
def moreFunctions : Nat → Parser (List Node)
  | 0     => spent
  | n + 1 => do
    match ← peek with
    | some .funkKw => do
      let f ← function n
      let fs ← moreFunctions n
      pure (f :: fs)
    | _            => do
      ending
      pure []

/-- A program: one function at least. -/
def program (n : Nat) : Parser (List Node) := do
  let f ← function n
  let fs ← moreFunctions n
  pure (f :: fs)

end TesLang.Parser
