/-!
# The tree of a program

One type of node serves expressions, statements, functions and whole programs, and every node but a program and the
bare one knows its line.  The type is wider than the grammar: any node may stand where a statement, an operand or a
parameter is expected, and an operator is whatever text it was given.  Trees need not come from a parser, and
checking, code generation and printing have an answer for each of them.

A place of a node need not hold a node at all.  Four *fillers* stand for what else it may hold: `nothing`, a `text`, an
`integer`, or `several` nodes.

* A value that is not returned and an `else` that is not there are `nothing`.
* The target of an assignment to a variable is the `text` of its name.
* The size of a list may be given as an `integer`.
* The statements of a function or a loop, and the parameters of a function, are `several` nodes.  A declaration with an
  initial value is two statements, so a single statement of the grammar may be `several` nodes as well.
-/
namespace TesLang

/-- A node of the tree, or a filler in the place of one. -/
inductive Node where
  | program (functions : List Node)
  | function (name : String) (params : Node) (returnType : String) (body : Node) (line : Int)
  | parameter (name type : String) (line : Int)
  | declaration (name type : String) (line : Int)
  | assignment (target value : Node) (line : Int)
  | call (name : String) (args : List Node) (line : Int)
  | ret (value : Node) (line : Int)
  | branch (condition yes no : Node) (line : Int)
  | forLoop (var : String) (start stop body : Node) (line : Int)
  | whileLoop (condition body : Node) (line : Int)
  | doLoop (body condition : Node) (line : Int)
  | block (statements : List Node) (line : Int)
  | binary (left : Node) (op : String) (right : Node) (line : Int)
  | unary (op : String) (operand : Node) (line : Int)
  | identifier (name : String) (line : Int)
  | number (value : Int) (line : Int)
  | string (value : String) (line : Int)
  | boolean (value : String) (line : Int)
  | ternary (condition yes no : Node) (line : Int)
  | element (array : String) (index : Node) (line : Int)
  | array (elements : List Node) (line : Int)
  | listOf (size : Node) (line : Int)
  | bare
  | nothing
  | text (s : String)
  | integer (n : Int)
  | several (nodes : List Node)
  deriving Repr

instance : Inhabited Node := ⟨.bare⟩

namespace Node

/-- The name of a kind of node, as trees and warnings show it. -/
def kind : Node → String
  | program ..     => "Program"
  | function ..    => "Function"
  | parameter ..   => "Parameter"
  | declaration .. => "VarDeclaration"
  | assignment ..  => "Assignment"
  | call ..        => "FunctionCall"
  | ret ..         => "Return"
  | branch ..      => "If"
  | forLoop ..     => "For"
  | whileLoop ..   => "While"
  | doLoop ..      => "DoWhile"
  | block ..       => "Block"
  | binary ..      => "BinaryOp"
  | unary ..       => "UnaryOp"
  | identifier ..  => "Identifier"
  | number ..      => "Number"
  | string ..      => "String"
  | boolean ..     => "Boolean"
  | ternary ..     => "TernaryOp"
  | element ..     => "ArrayAccess"
  | array ..       => "ArrayLiteral"
  | listOf ..      => "ListCall"
  | bare           => "ASTNode"
  | nothing        => "NoneType"
  | text _         => "str"
  | integer _      => "int"
  | several _      => "list"

/-- The name of a node, if its kind has one. -/
def name? : Node → Option String
  | function name .. | parameter name .. | declaration name .. | call name .. | identifier name _ => some name
  | _ => none

def isFunction : Node → Bool
  | function .. => true
  | _           => false

/-- A place that holds nothing, or nothing but an empty text or no nodes. -/
def isEmpty : Node → Bool
  | nothing    => true
  | text s     => s.isEmpty
  | several ns => ns.isEmpty
  | _          => false

/-- The statements of a body, one after another; a block stands for the statements in it. -/
def statements : Node → List Node
  | nothing    => []
  | several ns => ns
  | block ss _ => ss
  | n          => [n]

/-- What a single statement of the grammar adds to a list of statements. -/
def parts : Node → List Node
  | several ns => ns
  | n          => [n]

end Node

end TesLang
