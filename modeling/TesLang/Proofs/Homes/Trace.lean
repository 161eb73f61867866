import TesLang.Proofs.Carry
import TesLang.Proofs.Procedures.Apart
/-!
# Which registers names stand for

Lines of code name registers and not variables.  To say which register the code of a function uses for a variable, the
generator is run with a diary: wherever it reads or writes a variable, the name is noted with the register that goes into the
line (`traced`).  The diary is only kept, never looked at, and without it the run is that of the generator
(`Traces.erases`).

A name is noted in one of four manners.

* It is *declared*.  This is no access: all it does is to see that the name has a register.
* It is *read*.  A name without a register gets one for this once, and it is not remembered.
* It is *settled*: it is assigned, or it is a vector of which a member is wanted.  A name without a register gets one, which
  is remembered.
* It is *looped*: it is the variable of a loop, which is set, tested and counted up.  This is like being settled, except that
  parameters are passed over.

The names that the code of a node comes by, with their manners, can be read off the node (`mentions`).
-/
namespace TesLang.Code

inductive Manner where
  | declared
  | read
  | settled
  | looped
  deriving DecidableEq, Repr

/-- A name in one of its manners. -/
structure Mention where
  name : String
  manner : Manner
  deriving DecidableEq, Repr

/-- A name in one of its manners, and the register that stands for it there. -/
structure NameUse extends Mention where
  reg : Reg
  deriving DecidableEq, Repr

/-- A generator, and the uses that it has made of names. -/
structure Diary where
  gen : Generator
  uses : List NameUse := []

/-- Generating with a diary. -/
abbrev Tracing := EStateM Fault Diary

namespace Gen

/-- Generates without noting anything. -/
def plainly {α : Type} (m : Gen α) : Tracing α := fun d =>
  match m d.gen with
  | .ok a g => .ok a { d with gen := g }
  | .error e g => .error e { d with gen := g }

def note (name : String) (manner : Manner) (reg : Reg) : Tracing Unit :=
  modify fun d => { d with uses := d.uses ++ [⟨⟨name, manner⟩, reg⟩] }

/-! ### Steps with a diary -/

def tracedDeclare (x : String) : Tracing Unit := do
  match ← plainly (place? x) with
  | some r => note x .declared r
  | none => do
    let r ← plainly (place x)
    note x .declared r
    plainly (emit (.comment ("Declare " ++ x ++ " in " ++ r.text)))

def tracedRead (x : String) : Tracing (Option Reg) := do
  match ← plainly (place? x) with
  | some r => do
    note x .read r
    pure (some r)
  | none => do
    let r ← plainly allocate
    note x .read r
    pure (some r)

/-- The register of a vector. -/
def tracedBase (x : String) : Tracing Reg := do
  let r ← plainly (place x)
  note x .settled r
  pure r

def tracedAssign (x : String) (value : Option Reg) : Tracing Unit := do
  let target ←
    match (← plainly get).params.find? x with
    | some r => pure r
    | none => plainly (ownPlace x)
  note x .settled target
  if value ≠ some target then plainly (emit (.mov target (.ofReg value)))

mutual

/-- **Generates the code of a node and notes which registers stand for names.** -/
def traced : Node → Tracing (Option Reg)
  | .block ss _ => do tracedAll ss; pure none
  | .several ss => do tracedAll ss; pure none
  | .declaration x _ _ => do tracedDeclare x; pure none
  | .assignment (.text x) value _ => do
    let r ← traced value
    tracedAssign x r
    pure none
  | .assignment (.element base index _) value _ => do
    let r ← traced value
    let b ← tracedBase base
    let _ ← traced index
    plainly (emit (.store r b))
    pure none
  | .call name args _ =>
    match Builtin.ofName? name with
    | some .scan => plainly readNumber
    | some .print => do
      let r ← tracedFirst args
      plainly (writeNumber r)
    | some .list => do
      let r ← tracedFirst args
      plainly (makeList r)
    | some .length => do
      let r ← tracedFirst args
      plainly (takeLength r)
    | none => do
      let rs ← tracedArguments args
      plainly (callFunction name rs)
  | .element base index _ => do
    let b ← tracedBase base
    let _ ← traced index
    let r ← plainly allocate
    plainly (emit (.load r b))
    pure (some r)
  | .ret value _ => do
    match ← traced value with
    | some r => plainly (emit (.mov .result (.reg r)))
    | none => plainly (emit (.mov .result (.literal 0)))
    plainly (emit .ret)
    pure none
  | .branch condition yes no _ => do
    let test ← traced condition
    let otherwise ← plainly (freshLabel "else")
    let done ← plainly (freshLabel "endif")
    plainly (emit (.jumpIfZero test otherwise))
    let _ ← traced yes
    plainly (emit (.jump done))
    plainly (emit (.label otherwise))
    let _ ← traced no
    plainly (emit (.label done))
    pure none
  | .whileLoop condition body _ => do
    let start ← plainly (freshLabel "while_start")
    let done ← plainly (freshLabel "while_end")
    plainly (emit (.label start))
    let test ← traced condition
    plainly (emit (.jumpIfZero test done))
    let _ ← traced body
    plainly (emit (.jump start))
    plainly (emit (.label done))
    pure none
  | .doLoop body condition _ => do
    let start ← plainly (freshLabel "do_start")
    plainly (emit (.label start))
    let _ ← traced body
    let test ← traced condition
    plainly (emit (.jumpUnlessZero test start))
    pure none
  | .forLoop var start stop body _ => do
    let first ← traced start
    let bound ← traced stop
    let v ← plainly (ownPlace var)
    note var .looped v
    plainly (emit (.mov v (.ofReg first)))
    let again ← plainly (freshLabel "for_start")
    let done ← plainly (freshLabel "for_end")
    plainly (emit (.label again))
    let test ← plainly allocate
    note var .looped v
    plainly (emit (.binary .less test (some v) bound))
    plainly (emit (.jumpIfZero (some test) done))
    let _ ← traced body
    let one ← plainly allocate
    plainly (emit (.mov one (.literal 1)))
    note var .looped v
    plainly (emit (.binary .add v (some v) (some one)))
    plainly (emit (.jump again))
    plainly (emit (.label done))
    pure none
  | .identifier x _ => tracedRead x
  | .ternary condition yes no _ => do
    let test ← traced condition
    let otherwise ← plainly (freshLabel "ternary_false")
    let done ← plainly (freshLabel "ternary_end")
    let r ← plainly allocate
    plainly (emit (.jumpIfZero test otherwise))
    let a ← traced yes
    plainly (emit (.mov r (.ofReg a)))
    plainly (emit (.jump done))
    plainly (emit (.label otherwise))
    let b ← traced no
    plainly (emit (.mov r (.ofReg b)))
    plainly (emit (.label done))
    pure (some r)
  | .binary left op right _ => do
    let a ← traced left
    let b ← traced right
    let r ← plainly allocate
    plainly (emit (.binary (.ofText op) r a b))
    pure (some r)
  | .unary op n line => do
    plainly (warn (Node.unary op n line).kind)
    if hasCode n then discard (traced n)
    pure none
  | .array es line => do
    plainly (warn (Node.array es line).kind)
    tracedAll es
    pure none
  | n@(.number ..) | n@(.string ..) | n@(.boolean ..) | n@.nothing | n@(.program _) | n@(.function ..) | n@(.parameter ..)
  | n@(.listOf ..) | n@.bare | n@(.text _) | n@(.integer _) | n@(.assignment ..) => plainly (visit n)

def tracedFirst : List Node → Tracing (Option (Option Reg))
  | [] => pure none
  | n :: _ => do
    let r ← traced n
    pure (some r)

def tracedArguments : List Node → Tracing (List (Option Reg))
  | [] => pure []
  | n :: ns => do
    let r ← traced n
    let rs ← tracedArguments ns
    pure (r :: rs)

def tracedAll : List Node → Tracing Unit
  | [] => pure ()
  | n :: ns => do
    let _ ← traced n
    tracedAll ns

end

/-- The statements of a function, without the functions among them. -/
def tracedOwn : List Node → Tracing Unit
  | [] => pure ()
  | n :: ns => do
    if !n.isFunction then discard (traced n)
    tracedOwn ns

/-- A function with its own statements. -/
def tracedFunction : Node → Tracing (Option Reg)
  | .function name params returnType body _ => do
    plainly (openProc name params)
    tracedOwn body.statements
    plainly (closeProc returnType)
    pure none
  | n => plainly (visit n)

/-- **The code of a function by itself, with its labels numbered from `k` on, and the uses that it makes of names.** -/
def usesOf (k : Nat) (f : Node) : Option (List Line × List NameUse) :=
  match (tracedFunction f).run { gen := { labels := k } } with
  | .ok _ d => some (d.gen.code.toList, d.uses)
  | .error _ _ => none

end Gen

/-! ### Names in trees -/

mutual

/-- **The names that the code of a node comes by**, in its order. -/
def mentions : Node → List Mention
  | .declaration x _ _ => [⟨x, .declared⟩]
  | .identifier x _ => [⟨x, .read⟩]
  | .element x index _ => ⟨x, .settled⟩ :: mentions index
  | .assignment (.text x) value _ => mentions value ++ [⟨x, .settled⟩]
  | .assignment (.element x index _) value _ => mentions value ++ (⟨x, .settled⟩ :: mentions index)
  | .forLoop x start stop body _ =>
    mentions start ++ (mentions stop ++ (⟨x, .looped⟩ :: ⟨x, .looped⟩ :: (mentions body ++ [⟨x, .looped⟩])))
  | .call f args _ =>
    match Builtin.ofName? f with
    | some .scan => []
    | some _ => mentionsFirst args
    | none => mentionsAll args
  | .ret value _ => mentions value
  | .branch condition yes no _ | .ternary condition yes no _ => mentions condition ++ (mentions yes ++ mentions no)
  | .whileLoop condition body _ => mentions condition ++ mentions body
  | .doLoop body condition _ => mentions body ++ mentions condition
  | .binary left _ right _ => mentions left ++ mentions right
  | .unary _ e _ => if Gen.hasCode e then mentions e else []
  | .array es _ => mentionsAll es
  | .block ss _ | .several ss => mentionsAll ss
  | .number .. | .string .. | .boolean .. | .nothing | .program _ | .function .. | .parameter .. | .listOf .. | .bare
  | .text _ | .integer _ | .assignment .. => []

/-- A built-in function looks at the first argument only. -/
def mentionsFirst : List Node → List Mention
  | [] => []
  | n :: _ => mentions n

def mentionsAll : List Node → List Mention
  | [] => []
  | n :: ns => mentions n ++ mentionsAll ns

end

/-- The names in the statements of a function, without the functions among them. -/
def mentionsOwn : List Node → List Mention
  | [] => []
  | n :: ns => (if n.isFunction then [] else mentions n) ++ mentionsOwn ns

end TesLang.Code
