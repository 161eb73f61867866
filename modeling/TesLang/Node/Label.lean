import TesLang.Node
import TesLang.Text.Quoted
/-!
# Labels

Three short texts about a node.  `describe` names its kind with what tells it from others of its kind; `title` is
the kind with the node's name, value or operator in parentheses; `caption` is the description with the same detail
after it, left out where it is empty.
-/
namespace TesLang.Node

/-- A truth value in writing. -/
def truth (b : Bool) : String := if b then "True" else "False"

/-- Whether a place holds something. -/
def isPresent : Node → Bool
  | nothing => false
  | _       => true

/-- A member of a list in writing, given its description: a text is quoted. -/
def asMember : Node → String → String
  | text s, _ => Text.quoted s
  | _,      d => d

mutual

def describe : Node → String
  | program fs                 => "Program(functions=" ++ toString fs.length ++ ")"
  | function name _ type _ _   => "Function(" ++ name ++ ", " ++ type ++ ")"
  | parameter name type _      => "Parameter(" ++ name ++ ": " ++ type ++ ")"
  | declaration name type _    => "VarDeclaration(" ++ name ++ ": " ++ type ++ ")"
  | assignment target _ _      => "Assignment(" ++ describe target ++ ")"
  | call name args _           => "FunctionCall(" ++ name ++ ", " ++ toString args.length ++ " args)"
  | ret value _                => "Return(" ++ truth value.isPresent ++ ")"
  | branch _ _ no _            => "If(has_else=" ++ truth no.isPresent ++ ")"
  | forLoop var _ _ _ _        => "For(" ++ var ++ ")"
  | whileLoop ..               => "While"
  | doLoop _ _ line            => "DoWhile (line " ++ toString line ++ ")"
  | block ss _                 => "Block(" ++ toString ss.length ++ " statements)"
  | binary _ op _ _            => "BinaryOp(" ++ op ++ ")"
  | unary op _ _               => "UnaryOp(" ++ op ++ ")"
  | identifier name _          => "Identifier(" ++ name ++ ")"
  | number value _             => "Number(" ++ toString value ++ ")"
  | string value _             => "String(" ++ value ++ ")"
  | boolean value _            => "Boolean(" ++ value ++ ")"
  | ternary ..                 => "TernaryOp(?:)"
  | element base _ _           => "ArrayAccess(" ++ base ++ ")"
  | array es _                 => "ArrayLiteral(" ++ toString es.length ++ " elements)"
  | listOf size _              => "ListCall(" ++ describe size ++ ")"
  | bare                       => "ASTNode"
  | nothing                    => "None"
  | text s                     => s
  | integer n                  => toString n
  | several ns                 => "[" ++ describeAll ns ++ "]"

/-- The members of a list, with commas between them. -/
def describeAll : List Node → String
  | []      => ""
  | [n]     => asMember n (describe n)
  | n :: ns => asMember n (describe n) ++ ", " ++ describeAll ns

end

/-- The name of a node, its value or its operator, whichever it has. -/
inductive Detail where
  | none
  | name (s : String)
  | value (s : String)
  | noValue
  | op (s : String)
  deriving DecidableEq, Repr

/-- A place as a detail. -/
def Detail.ofPlace : Node → Detail
  | .nothing => noValue
  | n        => value n.describe

def detail : Node → Detail
  | function name ..       => .name name
  | parameter name ..      => .name name
  | declaration name ..    => .name name
  | call name ..           => .name name
  | identifier name _      => .name name
  | assignment _ value _   => .ofPlace value
  | ret value _            => .ofPlace value
  | number value _         => .value (toString value)
  | string value _         => .value value
  | boolean value _        => .value value
  | binary _ op _ _        => .op op
  | unary op _ _           => .op op
  | _                      => .none

def title (n : Node) : String :=
  match n.detail with
  | .none                        => n.kind
  | .noValue                     => n.kind ++ " (None)"
  | .name s | .value s | .op s   => n.kind ++ " (" ++ s ++ ")"

def caption (n : Node) : String :=
  match n.detail with
  | .none | .noValue  => n.describe
  | .value s          => n.describe ++ " = " ++ s
  | .name s | .op s   => if s.isEmpty then n.describe else n.describe ++ " '" ++ s ++ "'"

end TesLang.Node
