import TesLang.Bindings
import TesLang.Builtin
import TesLang.Code.Line
import TesLang.Fault
import TesLang.Node
import TesLang.Text.Blank
/-!
# Generating code

Each function becomes a procedure, and all procedures stand side by side: a function that stands directly in the body
of another one follows it.  A procedure starts with all registers free but the first.  Its parameters take the
registers from 1 on, and every variable, every literal and every intermediate result takes a register of its own.

An expression leaves its value in a register, which is the result of `visit`.  Some nodes have no code of their own;
then a warning is noted, the nodes in them are visited for the sake of what *they* may generate, and no register holds
a value.

A procedure whose last line does not end in `ret` gets one.
-/
namespace TesLang.Code

/-- Variables and their registers, in the order in which they got them. -/
abbrev Places := Bindings Reg

/-- The state of code generation. -/
structure Generator where
  code : Array Line := #[]
  bank : Bank := {}
  function : Option String := none
  vars : Places := []
  params : Places := []
  labels : Nat := 0
  /-- the kinds of node that had no code of their own -/
  warnings : Array String := #[]

abbrev Gen := EStateM Fault Generator

namespace Gen

def emit (l : Line) : Gen Unit := modify fun s => { s with code := s.code.push l }

def allocate : Gen Reg := modifyGet fun s => let (r, bank) := s.bank.allocate; (r, { s with bank })

/-- A label that no other one is like. -/
def freshLabel (stem : String) : Gen Label :=
  modifyGet fun s => (⟨stem, s.labels⟩, { s with labels := s.labels + 1 })

def warn (kind : String) : Gen Unit := modify fun s => { s with warnings := s.warnings.push kind }

/-- The register of a parameter or a variable. -/
def place? (name : String) : Gen (Option Reg) := do
  let s ← get
  pure ((s.params.find? name).or (s.vars.find? name))

/-- The register of a variable; one that has none gets one. -/
def place (name : String) : Gen Reg := do
  match ← place? name with
  | some r => pure r
  | none   => do
    let r ← allocate
    modify fun s => { s with vars := s.vars.insert name r }
    pure r

/-- The register of a local variable.  One that has none gets a register that is taken for it in either case. -/
def ownPlace (name : String) : Gen Reg := do
  let r ← allocate
  match (← get).vars.find? name with
  | some old => pure old
  | none     => do
    modify fun s => { s with vars := s.vars.insert name r }
    pure r

def declare (name : String) : Gen Unit := do
  match ← place? name with
  | some _ => pure ()
  | none   => do
    let r ← place name
    emit (.comment ("Declare " ++ name ++ " in " ++ r.text))

/-- Moves a value into a variable. -/
def assign (name : String) (value : Option Reg) : Gen Unit := do
  let target ←
    match (← get).params.find? name with
    | some r => pure r
    | none   => ownPlace name
  if value ≠ some target then emit (.mov target (.ofReg value))

/-- Gives the parameters the registers from `i` on, and returns the texts that name them. -/
def placeParams (i : Nat) : List Node → Gen (List String)
  | []      => pure []
  | p :: ps => do
    match p.name? with
    | none      => throw (.lacks p.kind "name")
    | some name =>
      let r : Reg := ⟨i⟩
      modify fun s =>
        { s with params := s.params.insert name r, bank := (s.bank.reserve r).moveTo (max s.bank.current (i + 1)) }
      let texts ← placeParams (i + 1) ps
      pure ((name ++ " => " ++ r.text) :: texts)

/-- Places the parameters of a function.  A piece of text in their place is as many as it has characters. -/
def placeParameters (params : Node) : Gen Unit :=
  if params.isEmpty then pure ()
  else do
    let ps ←
      match params with
      | .several ps => pure ps
      | .text s     => pure (s.toList.map fun c => .text c.toString)
      | n           => throw (.noList n.kind)
    let texts ← placeParams 1 ps
    emit (.comment ("Parameters: " ++ ", ".intercalate texts))

/-- Starts a procedure. -/
def openProc (name : String) (params : Node) : Gen Unit := do
  modify fun s => { s with function := some name, vars := [], params := [], bank := s.bank.clear }
  emit (.proc name)
  placeParameters params

/-- Whether a line ends in `ret`, blanks apart. -/
def endsInRet (l : Line) : Bool := "ret".toList.isSuffixOf (Text.trim l.text.toList)

/-- Ends a procedure. -/
def closeProc (returnType : String) : Gen Unit := do
  if !((← get).code.back?.any endsInRet) then do
    if returnType = "null" then emit (.mov .result (.literal 0))
    emit .ret
  emit .blank

/-- A procedure around the code of its statements. -/
def procedure (name : String) (params : Node) (returnType : String) (code : Gen Unit) : Gen (Option Reg) := do
  openProc name params
  code
  closeProc returnType
  pure none

/-- The arguments of a call, all of which have to be in registers. -/
def argumentRegs (i : Nat) : List (Option Reg) → Gen (List Reg)
  | []             => pure []
  | none :: _      => throw (.noArgument i)
  | some r :: rest => do
    let rs ← argumentRegs (i + 1) rest
    pure (r :: rs)

/-! ### Calls

A built-in function looks at its first argument only, and `none` stands for a call without arguments.
-/

def readNumber : Gen (Option Reg) := do
  let r ← allocate
  emit (.input r)
  pure (some r)

/-- Writes the argument, or zero.  A call leaves no value in any register. -/
def writeNumber : Option (Option Reg) → Gen (Option Reg)
  | some r => do
    emit (.output r)
    pure none
  | none   => do
    let zero ← allocate
    emit (.mov zero (.literal 0))
    emit (.output (some zero))
    pure none

/-- Asks for a list as long as the argument says, or of no length. -/
def makeList : Option (Option Reg) → Gen (Option Reg)
  | some size => do
    let r ← allocate
    emit (.memory r size)
    pure (some r)
  | none      => do
    let r ← allocate
    let zero ← allocate
    emit (.mov zero (.literal 0))
    emit (.memory r (some zero))
    pure (some r)

/-- The length of a list is taken to be three; a call without argument has no code. -/
def takeLength : Option (Option Reg) → Gen (Option Reg)
  | some _ => do
    let r ← allocate
    emit (.mov r (.literal 3))
    pure (some r)
  | none   => pure none

/-- A call of a function of the program. -/
def callFunction (name : String) (args : List (Option Reg)) : Gen (Option Reg) := do
  let r ← allocate
  let regs ← argumentRegs 0 args
  emit (.call name r regs)
  pure (some r)

/-! ### Nodes -/

/-- Whether a node has code of its own, or is several. -/
def hasCode : Node → Bool
  | .parameter .. | .string .. | .unary .. | .array .. | .listOf .. | .bare => false
  | .nothing | .text _ | .integer _ => false
  | _ => true

/-- A place that takes an operand, and the code of what stands in it.  Where there is nothing or there are several
nodes, a warning is noted and no register holds a value. -/
def operand (n : Node) (code : Gen (Option Reg)) : Gen (Option Reg) :=
  match n with
  | .nothing   => do warn n.kind; pure none
  | .several _ => do warn n.kind; pure none
  | _          => code

/-- The value of a return statement, which may be left out. -/
def returned (n : Node) (code : Gen (Option Reg)) : Gen (Option Reg) :=
  if n.isEmpty then pure none else operand n code

/-- The body of a `do` loop, which is warned about if there is nothing. -/
def doBody (n : Node) (code : Gen (Option Reg)) : Gen (Option Reg) :=
  match n with
  | .nothing => do warn n.kind; pure none
  | _        => code

/-- Whether a node can stand among the functions of a program: all that has a body can. -/
def hasBody : Node → Bool
  | .function .. | .forLoop .. | .whileLoop .. | .doLoop .. => true
  | _ => false

/-- Refuses a program in which something stands among the functions that has no body. -/
def requireBodies (fs : List Node) : Gen Unit :=
  match fs.find? (!hasBody ·) with
  | some n => throw (.lacks n.kind "body")
  | none   => pure ()

mutual

/-- Generates the code of what stands in a place: nothing has none, and several nodes have theirs one after another.
The result is the register that holds the value of an expression. -/
def visit : Node → Gen (Option Reg)
  | .program fs                      => do
    requireBodies fs
    visitProgram fs
    pure none
  | .function name params returnType (.several ns) _   => procedure name params returnType (visitOwn ns)
  | .function name params returnType (.block ns _) _   => procedure name params returnType (visitOwn ns)
  | .function name params returnType (.function ..) _  => procedure name params returnType (pure ())
  | .function name params returnType body _            => procedure name params returnType (discard (visit body))
  | .block ss _                      => do visitAll ss; pure none
  | .declaration name _ _            => do declare name; pure none
  | .assignment (.text name) value _ => do
    let r ← operand value (visit value)
    assign name r
    pure none
  | .assignment (.element base index _) value _ => do
    let r ← operand value (visit value)
    let b ← place base
    let _ ← operand index (visit index)
    emit (.store r b)
    pure none
  | .assignment _ value _            => do
    let _ ← operand value (visit value)
    pure none
  | .call name args _                =>
    match Builtin.ofName? name with
    | some .scan   => readNumber
    | some .print  => do writeNumber (← visitFirst args)
    | some .list   => do makeList (← visitFirst args)
    | some .length => do takeLength (← visitFirst args)
    | none         => do callFunction name (← visitArguments args)
  | .element base index _            => do
    let b ← place base
    let _ ← operand index (visit index)
    let r ← allocate
    emit (.load r b)
    pure (some r)
  | .ret value _                     => do
    match ← returned value (visit value) with
    | some r => emit (.mov .result (.reg r))
    | none   => emit (.mov .result (.literal 0))
    emit .ret
    pure none
  | .branch condition yes no _       => do
    let test ← operand condition (visit condition)
    let otherwise ← freshLabel "else"
    let done ← freshLabel "endif"
    emit (.jumpIfZero test otherwise)
    let _ ← visit yes
    emit (.jump done)
    emit (.label otherwise)
    let _ ← visit no
    emit (.label done)
    pure none
  | .whileLoop condition body _      => do
    let start ← freshLabel "while_start"
    let done ← freshLabel "while_end"
    emit (.label start)
    let test ← operand condition (visit condition)
    emit (.jumpIfZero test done)
    let _ ← visit body
    emit (.jump start)
    emit (.label done)
    pure none
  | .doLoop body condition _         => do
    let start ← freshLabel "do_start"
    emit (.label start)
    let _ ← doBody body (visit body)
    let test ← operand condition (visit condition)
    emit (.jumpUnlessZero test start)
    pure none
  | .forLoop var start stop body _   => do
    let first ← operand start (visit start)
    let bound ← operand stop (visit stop)
    let v ← ownPlace var
    emit (.mov v (.ofReg first))
    let again ← freshLabel "for_start"
    let done ← freshLabel "for_end"
    emit (.label again)
    let test ← allocate
    emit (.binary .less test (some v) bound)
    emit (.jumpIfZero (some test) done)
    let _ ← visit body
    let one ← allocate
    emit (.mov one (.literal 1))
    emit (.binary .add v (some v) (some one))
    emit (.jump again)
    emit (.label done)
    pure none
  | .identifier name _               => do
    match ← place? name with
    | some r => pure (some r)
    | none   => do
      let r ← allocate
      pure (some r)
  | .number value _                  => do
    let r ← allocate
    emit (.mov r (.literal value))
    pure (some r)
  | .boolean value _                 => do
    let r ← allocate
    emit (.mov r (.literal (if value = "true" then 1 else 0)))
    pure (some r)
  | .ternary condition yes no _      => do
    let test ← operand condition (visit condition)
    let otherwise ← freshLabel "ternary_false"
    let done ← freshLabel "ternary_end"
    let r ← allocate
    emit (.jumpIfZero test otherwise)
    let a ← operand yes (visit yes)
    emit (.mov r (.ofReg a))
    emit (.jump done)
    emit (.label otherwise)
    let b ← operand no (visit no)
    emit (.mov r (.ofReg b))
    emit (.label done)
    pure (some r)
  | .binary left op right _          => do
    let a ← operand left (visit left)
    let b ← operand right (visit right)
    let r ← allocate
    emit (.binary (.ofText op) r a b)
    pure (some r)
  | .unary op n line                 => do
    warn (Node.unary op n line).kind
    if hasCode n then discard (visit n)
    pure none
  | .listOf n line                   => do
    warn (Node.listOf n line).kind
    if hasCode n then discard (visit n)
    pure none
  | .array es line                   => do
    warn (Node.array es line).kind
    visitAll es
    pure none
  | .nothing                         => pure none
  | .several ns                      => do visitAll ns; pure none
  | n@(.parameter ..) | n@(.string ..) | n@.bare | n@(.text _) | n@(.integer _) => do
    warn n.kind
    pure none

/-- The first argument of a call, if there is one. -/
def visitFirst : List Node → Gen (Option (Option Reg))
  | []     => pure none
  | n :: _ => do
    let r ← operand n (visit n)
    pure (some r)

def visitArguments : List Node → Gen (List (Option Reg))
  | []      => pure []
  | n :: ns => do
    let r ← operand n (visit n)
    let rs ← visitArguments ns
    pure (r :: rs)

def visitAll : List Node → Gen Unit
  | []      => pure ()
  | n :: ns => do
    let _ ← operand n (visit n)
    visitAll ns

/-- The statements of a function, without the functions among them. -/
def visitOwn : List Node → Gen Unit
  | []      => pure ()
  | n :: ns => do
    if !n.isFunction then discard (operand n (visit n))
    visitOwn ns

/-- The functions of a program, each followed by the functions that stand directly in its body. -/
def visitProgram : List Node → Gen Unit
  | []      => pure ()
  | f :: fs => do
    let _ ← visit f
    visitNestedIn f
    visitProgram fs

/-- The functions that stand directly in the body of a node, and those in theirs. -/
def visitNestedIn : Node → Gen Unit
  | .function _ _ _ body _ | .forLoop _ _ _ body _ | .whileLoop _ body _ | .doLoop body _ _ => do
    if body.isFunction then discard (visit body)
    visitNestedUnder body
  | _ => pure ()

/-- The functions among the statements of a body, and those in theirs; where the body is itself a function, the
functions in it only. -/
def visitNestedUnder : Node → Gen Unit
  | .several ns            => visitNested ns
  | .block ns _            => visitNested ns
  | .function _ _ _ body _ => do
    if body.isFunction then discard (visit body)
    visitNestedUnder body
  | _                      => pure ()

/-- The functions among some statements, each followed by those in it. -/
def visitNested : List Node → Gen Unit
  | []      => pure ()
  | n :: ns => do
    if n.isFunction then do
      let _ ← visit n
      visitNestedIn n
    visitNested ns

end

/-- Generates the code of a whole tree; a missing one is warned about. -/
def visitTree (tree : Node) : Gen (Option Reg) := operand tree (visit tree)

end Gen

/-- A warning in writing. -/
def warning (kind : String) : String := "Warning: No visitor for " ++ kind

mutual

/-- The functions that stand directly in the body of a node, and those in theirs. -/
def nestedIn : Node → List Node
  | .function _ _ _ body _ | .forLoop _ _ _ body _ | .whileLoop _ body _ | .doLoop body _ _ =>
    (if body.isFunction then [body] else []) ++ nestedUnder body
  | _ => []

def nestedUnder : Node → List Node
  | .several ns            => nestedAmong ns
  | .block ns _            => nestedAmong ns
  | .function _ _ _ body _ => (if body.isFunction then [body] else []) ++ nestedUnder body
  | _                      => []

def nestedAmong : List Node → List Node
  | []      => []
  | n :: ns => (if n.isFunction then n :: nestedIn n else []) ++ nestedAmong ns

end

/-- A node and all functions that stand directly in its body or in theirs, each before those in it. -/
def withNested (n : Node) : List Node := n :: nestedIn n

end TesLang.Code
