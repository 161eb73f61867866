import TesLang.Code.Register
/-!
# Lines of intermediate code

Code is a list of lines: procedure heads, labels, comments and instructions.  An operand that should be a register is
`none` where the expression it comes from leaves no value in any register, and is then written `None`.
-/
namespace TesLang.Code

/-- A label: what it is for, and a number that no other label of the program has. -/
structure Label where
  stem : String
  index : Nat
  deriving DecidableEq, Repr

def Label.text (l : Label) : String := l.stem ++ toString l.index

/-- What an instruction moves into a register. -/
inductive Source where
  | reg (r : Reg)
  | literal (n : Int)
  | missing
  deriving DecidableEq, Repr

def Source.text : Source → String
  | reg r     => r.text
  | literal n => toString n
  | missing   => "None"

/-- A register that an expression may have left its value in, as what an instruction moves. -/
def Source.ofReg : Option Reg → Source
  | some r => .reg r
  | none   => .missing

/-- The operations on two registers.  `unknown` is for the operators that the machine has no instruction for. -/
inductive Operation where
  | add | sub | mul | div
  | less | greater | atMost | atLeast | equal | notEqual
  | unknown
  deriving DecidableEq, Repr

def Operation.text : Operation → String
  | add      => "add"
  | sub      => "sub"
  | mul      => "mul"
  | div      => "div"
  | less     => "cmp<"
  | greater  => "cmp>"
  | atMost   => "cmp<="
  | atLeast  => "cmp>="
  | equal    => "cmp=="
  | notEqual => "cmp!="
  | unknown  => "mov"

/-- The operation of a binary operator. -/
def Operation.ofText : String → Operation
  | "+"  => add
  | "-"  => sub
  | "*"  => mul
  | "/"  => div
  | "<"  => less
  | ">"  => greater
  | "<=" => atMost
  | ">=" => atLeast
  | "==" => equal
  | "!=" => notEqual
  | _    => unknown

/-- A line of code. -/
inductive Line where
  | proc (name : String)
  | comment (text : String)
  | label (l : Label)
  | mov (target : Reg) (source : Source)
  | binary (operation : Operation) (target : Reg) (left right : Option Reg)
  | call (function : String) (target : Reg) (args : List Reg)
  /-- reads a number -/
  | input (target : Reg)
  /-- writes a number -/
  | output (source : Option Reg)
  /-- asks for memory of a given size -/
  | memory (target : Reg) (size : Option Reg)
  | load (target base : Reg)
  | store (source : Option Reg) (base : Reg)
  | jumpIfZero (test : Option Reg) (l : Label)
  | jumpUnlessZero (test : Option Reg) (l : Label)
  | jump (l : Label)
  | ret
  | blank
  /-- a line that was given as a text -/
  | raw (text : String)
  deriving DecidableEq, Repr

namespace Line

/-- An operand in writing. -/
def operand (r : Option Reg) : String := (Source.ofReg r).text

def text : Line → String
  | proc name              => "proc " ++ name
  | comment s              => "# " ++ s
  | label l                => l.text ++ ":"
  | mov target source      => "mov " ++ target.text ++ ", " ++ source.text
  | binary o target l r    => o.text ++ " " ++ target.text ++ ", " ++ operand l ++ ", " ++ operand r
  | call f target args     => "call " ++ f ++ ", " ++ target.text ++ String.join (args.map fun r => ", " ++ r.text)
  | input target           => "call iget, " ++ target.text
  | output source          => "call iput, " ++ operand source
  | memory target size     => "call mem, " ++ target.text ++ ", " ++ operand size
  | load target base       => "ld " ++ target.text ++ ", " ++ base.text
  | store source base      => "st " ++ operand source ++ ", " ++ base.text
  | jumpIfZero r l         => "jz " ++ operand r ++ ", " ++ l.text
  | jumpUnlessZero r l     => "jnz " ++ operand r ++ ", " ++ l.text
  | jump l                 => "jmp " ++ l.text
  | ret                    => "ret"
  | blank                  => ""
  | raw s                  => s

end Line

/-- Code as one text. -/
def render (code : List Line) : String := "\n".intercalate (code.map Line.text)

end TesLang.Code
