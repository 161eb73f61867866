import TesLang.Builtin
import TesLang.Check.Diagnostic
import TesLang.Fault
import TesLang.Node
import TesLang.Scope.Table
/-!
# Checking a program

One walk over the tree, from left to right, binds names in scopes and notes what is wrong.  Only functions open
scopes: blocks, branches and loops do not.  The functions of a program are bound before any of them is walked, and so
are the functions that stand directly in the body of another one, so a function can be called in front of its place.

A variable has a value from the point on where it is a parameter, assigned, or the variable of a loop.  The walk
takes both branches of an `if` and every loop body for executed.

Types are known only in part (`typeOf`), and a type that is not known is never held against the program.  Where a
message names the enclosing function and there is none, the walk ends with a fault, and leaves its state as it was at
that point.  So it does where a function is expected and another node is found, or a parameter and another node.
-/
namespace TesLang

/-- What a walk needs to know about the node it is in, which is a function unless the tree is an odd one. -/
structure Enclosing where
  kind : String
  name : Option String
  returnType : Option String
  deriving DecidableEq, Repr

def Enclosing.of (n : Node) : Enclosing :=
  { kind := n.kind
    name := n.name?
    returnType :=
      match n with
      | .function _ _ returnType _ _ => some returnType
      | _                            => none }

/-- The state of a walk. -/
structure Checker where
  chain : Chain := {}
  enclosing : Option Enclosing := none
  found : List Diagnostic := []
  deriving DecidableEq, Repr

abbrev Check := EStateM Fault Checker

namespace Check

/-- The operators whose result is a truth value; all others give a number. -/
def comparisons : List String := ["==", "!=", "<", ">", "<=", ">=", "&&", "||"]

/-- The type of an expression, as far as it is known. -/
def typeOf (c : Chain) : Node → Option String
  | .number ..           => some "int"
  | .string ..           => some "str"
  | .boolean ..          => some "bool"
  | .identifier name _   => (c.lookup name).bind (·.type)
  | .call name _ _       =>
    match Builtin.ofName? name with
    | some f => some f.returnType
    | none   => (c.lookup name).bind (·.returnType)
  | .element ..          => some "int"
  | .binary _ op _ _     => if comparisons.contains op then some "bool" else some "int"
  | .listOf ..           => some "vector"
  | .ternary _ yes no _  =>
    let t := typeOf c yes
    if t = typeOf c no then t else none
  | _                    => none

/-- A type that is known and has a name. -/
def known (type : Option String) : Option String := type.filter (!·.isEmpty)

def report (cause : Cause) (line : Int) : Check Unit :=
  modify fun s => { s with found := s.found ++ [⟨cause, line⟩] }

def lookup (name : String) : Check (Option Symbol) := do return (← get).chain.lookup name

/-- Binds a name in the innermost scope. -/
def bindName (name : String) (symbol : Symbol) : Check Unit :=
  modify fun s => { s with chain := s.chain.insert name symbol }

/-- Notes that the variable `name` has a value. -/
def assigned (name : String) : Check Unit :=
  modify fun s => { s with chain := s.chain.assigned name }

def expressionType (n : Node) : Check (Option String) := do return typeOf (← get).chain n

/-- The name of the enclosing function. -/
def enclosingName : Check String := do
  match (← get).enclosing with
  | none   => throw .noEnclosing
  | some e =>
    match e.name with
    | some name => pure name
    | none      => throw (.lacks e.kind "name")

def nameOf (n : Node) : Check String :=
  match n.name? with
  | some name => pure name
  | none      => throw (.lacks n.kind "name")

/-- The type of a parameter. -/
def parameterType : Node → Check String
  | .parameter _ type _ => pure type
  | n                   => throw (.lacks n.kind "param_type")

/-- The line of a parameter. -/
def parameterLine : Node → Int
  | .parameter _ _ line => line
  | _                   => 0

/-- The parameters of a function.  A piece of text in their place is as many as it has characters. -/
def parameters : Node → Check (List Node)
  | .several ps => pure ps
  | .text s     => pure (s.toList.map fun c => .text c.toString)
  | n           => throw (.noList n.kind)

/-- Names and types of parameters. -/
def signature : List Node → Check (List (String × String))
  | []      => pure []
  | p :: ps => do
    let name ← nameOf p
    let type ← parameterType p
    let rest ← signature ps
    pure ((name, type) :: rest)

/-- Binds a function under its name. -/
def bindFunction : Node → Check Unit
  | .function name params returnType _ line => do
    let params ← signature (← parameters params)
    bindName name { name, kind := .function, params, returnType := some returnType, line := some line }
  | n => throw (.lacks n.kind "params")

/-- Binds the functions of a program; of two with the same name the first counts. -/
def bindProgram : List Node → Check Unit
  | []      => pure ()
  | f :: fs => do
    let name ← nameOf f
    if ((← get).chain.inner.find? name).isNone then bindFunction f
    bindProgram fs

/-- Binds the parameters of a function. -/
def bindParameters : List Node → Check Unit
  | []      => pure ()
  | p :: ps => do
    let name ← nameOf p
    let type ← parameterType p
    bindName name
      { name, kind := .variable, type := some type, initialized := true, line := some (parameterLine p) }
    bindParameters ps

/-- Binds the functions that stand directly in a body; of two with the same name the last counts. -/
def bindNested : List Node → Check Unit
  | []      => pure ()
  | n :: ns => do
    if n.isFunction then bindFunction n
    bindNested ns

/-- Enters a function, or what stands in the place of one. -/
def enter (e : Enclosing) : Check Unit :=
  modify fun s => { s with enclosing := some e, chain := s.chain.enter }

/-- Leaves a function for what was around it. -/
def leave (outside : Option Enclosing) : Check Unit :=
  modify fun s => { s with enclosing := outside, chain := s.chain.leave }

def declare (name type : String) (line : Int) : Check Unit := do
  match (← get).chain.inner.find? name with
  | some _ => report (.redeclared name) line
  | none   => bindName name { name, kind := .variable, type := some type, line := some line }

/-- Assigns to a variable a value of the given type. -/
def assignVariable (name : String) (value : Node) (line : Int) : Check Unit := do
  match ← lookup name with
  | none        =>
    let function ← enclosingName
    report (.unbound function name) line
  | some symbol =>
    assigned name
    match known (← expressionType value) with
    | none      => pure ()
    | some type =>
      if symbol.type ≠ some type then do
        let function ← enclosingName
        report (.mismatch function name type symbol.type) line

/-- Assigns to a member of a vector. -/
def assignElement (name : String) (line : Int) : Check Unit := do
  match ← lookup name with
  | none        =>
    let function ← enclosingName
    report (.unbound function name) line
  | some symbol =>
    if symbol.type ≠ some "vector" then do
      let function ← enclosingName
      report (.notVector function name symbol.type) line

/-- Compares the arguments of a call with the parameters of the function. -/
def matchArguments (function : String) (line : Int) : List Node → List (String × String) → Check Unit
  | arg :: args, (param, expected) :: params => do
    match known (← expressionType arg) with
    | none        => pure ()
    | some actual => if actual ≠ expected then report (.argument function param expected actual) line
    matchArguments function line args params
  | _, _ => pure ()

/-- A call, whose arguments were walked already; the result is the type that a built-in function returns. -/
def checkCall (name : String) (args : List Node) (line : Int) : Check (Option String) := do
  match Builtin.ofName? name with
  | some f => pure (some f.returnType)
  | none   =>
    match ← lookup name with
    | none        => report (.unknownFunction name) line
    | some symbol =>
      if symbol.params.length ≠ args.length then report (.arity name symbol.params.length args.length) line
      else matchArguments name line args symbol.params
    pure none

/-- Compares a returned value with the return type of the function. -/
def checkReturn (e : Enclosing) (value : Node) (line : Int) : Check Unit := do
  match e.returnType with
  | none          => throw (.lacks e.kind "return_type")
  | some expected =>
    let actual ←
      match value with
      | .nothing => pure (some "null")
      | n        => expressionType n
    match known actual with
    | none        => pure ()
    | some actual =>
      if expected ≠ actual then do
        let function ← enclosingName
        report (.returned function expected actual) line

/-- The variable of a loop has a value; it is bound here if no scope binds it. -/
def bindLoopVariable (var : String) (line : Int) : Check Unit := do
  match ← lookup var with
  | none   => bindName var { name := var, kind := .variable, type := some "int", initialized := true, line := some line }
  | some _ => assigned var

def checkRange (start stop : Node) (line : Int) : Check Unit := do
  let startType ← expressionType start
  let stopType ← expressionType stop
  if startType ≠ some "int" ∨ stopType ≠ some "int" then do
    let function ← enclosingName
    report (.loopRange function) line

def checkIdentifier (name : String) (line : Int) : Check Unit := do
  match ← lookup name with
  | none        =>
    let function ← enclosingName
    report (.unbound function name) line
  | some symbol =>
    if !symbol.initialized then do
      let function ← enclosingName
      report (.unset function name) line

def checkCondition (condition : Node) (line : Int) : Check Unit := do
  match known (← expressionType condition) with
  | none      => pure ()
  | some type => if type ≠ "bool" then report (.condition type) line

/-- A place that takes a single node: several nodes in it are not walked. -/
def single (n : Node) (walk : Check (Option String)) : Check (Option String) :=
  match n with
  | .several _ => pure none
  | _          => walk

mutual

/-- Walks what stands in a place.  The result is the type that a call of a built-in function returns, and nothing for
all else. -/
def visit : Node → Check (Option String)
  | .program fs                              => do bindProgram fs; visitFunctions fs; pure none
  | .function name params returnType body _  => do
    let outside := (← get).enclosing
    enter ⟨"Function", some name, some returnType⟩
    bindParameters (← parameters params)
    bindNested body.statements
    let _ ← visit body
    leave outside
    pure none
  | .parameter ..                            => pure none
  | .declaration name type line              => do declare name type line; pure none
  | .assignment (.text name) value line      => do
    let _ ← single value (visit value)
    assignVariable name value line
    pure none
  | .assignment (.element name index _) value line => do
    let _ ← single value (visit value)
    let _ ← single index (visit index)
    assignElement name line
    pure none
  | .assignment _ value _                    => do
    let _ ← single value (visit value)
    pure none
  | .call name args line                     => do visitAll args; checkCall name args line
  | .ret value line                          => do
    match (← get).enclosing with
    | none   => report .strayReturn line
    | some e => do
      let _ ← single value (visit value)
      checkReturn e value line
    pure none
  | .branch condition yes no _               => do
    let _ ← visit condition
    let _ ← visit yes
    let _ ← visit no
    pure none
  | .forLoop var start stop body line        => do
    bindLoopVariable var line
    let _ ← single start (visit start)
    let _ ← single stop (visit stop)
    checkRange start stop line
    let _ ← visit body
    pure none
  | .whileLoop condition body _              => do
    let _ ← visit condition
    let _ ← visit body
    pure none
  | .doLoop body condition _                 => do
    let _ ← visit body
    let _ ← visit condition
    pure none
  | .block ss _                              => do visitAll ss; pure none
  | .binary left _ right _                   => do
    let _ ← visit left
    let _ ← visit right
    pure none
  | .unary _ operand _                       => do
    let _ ← visit operand
    pure none
  | .identifier name line                    => do checkIdentifier name line; pure none
  | .number ..                               => pure none
  | .string ..                               => pure none
  | .boolean ..                              => pure none
  | .ternary condition yes no line           => do
    let _ ← single condition (visit condition)
    let _ ← single yes (visit yes)
    let _ ← single no (visit no)
    checkCondition condition line
    pure none
  | .element _ index _                       => do
    let _ ← visit index
    pure none
  | .array es _                              => do visitAll es; pure none
  | .listOf size _                           => do
    let _ ← visit size
    pure none
  | .bare                                    => pure none
  | .nothing                                 => pure none
  | .text _                                  => pure none
  | .integer _                               => pure none
  | .several ns                              => do visitAll ns; pure none

/-- Walks the functions of a program.  Another node among them is entered as if it were one. -/
def visitFunctions : List Node → Check Unit
  | []      => pure ()
  | f :: fs => do
    if f.isFunction then do
      let _ ← visit f
    else do
      enter (.of f)
      throw (.lacks f.kind "params")
    visitFunctions fs

def visitAll : List Node → Check Unit
  | []      => pure ()
  | n :: ns => do
    let _ ← single n (visit n)
    visitAll ns

end

/-- Walks a whole tree. -/
def visitTree (tree : Node) : Check (Option String) := single tree (visit tree)

end Check

/-- What is wrong with a program, or the fault that ended the walk. -/
def check (functions : List Node) : Except Fault (List Diagnostic) :=
  match (Check.visit (.program functions)).run {} with
  | .ok _ s    => .ok s.found
  | .error f _ => .error f

end TesLang
