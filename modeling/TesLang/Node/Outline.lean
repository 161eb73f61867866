import TesLang.Node.Label
import TesLang.Text.Blank
import TesLang.Text.Layout
/-!
# Outlines

An outline is what a tree looks like from outside: each node with its two labels, and under it the nodes it holds,
in order, each with the name of its place.  A place that holds a list gives one entry for each member, with its
number in brackets.  Both ways to print a tree start from its outline.

* `diagram` gives every node two lines, one for the place and one for the node, eight columns deeper than the
  node above it.
* `toTree` gives every node one line.  Under each child it writes the grandchildren a second time, by the side of
  what the child itself wrote about them.
-/
namespace TesLang

open Text

inductive Outline where
  | mk (title caption : String) (children : List (String × Outline))

namespace Node

/-- The place of member `i` of a list. -/
def slot (place : String) (i : Nat) : String := place ++ "[" ++ toString i ++ "]"

/-- The entries for a place, given the outline of what it holds: one for a node, one for each of several, and none for
the other fillers. -/
def entriesAt (place : String) (n : Node) : Outline → List (String × Outline)
  | o@(.mk _ _ children) =>
    match n with
    | nothing | text _ | integer _ => []
    | several _                    => children.map fun (slot, child) => (place ++ slot, child)
    | _                            => [(place, o)]

mutual

def outline : Node → Outline
  | n@(program fs)                  => .mk n.title n.caption (entries "functions" 0 fs)
  | n@(function _ params _ body _)  =>
    .mk n.title n.caption (entriesAt "params" params (outline params) ++ entriesAt "body" body (outline body))
  | n@(assignment target value _)   =>
    .mk n.title n.caption (entriesAt "target" target (outline target) ++ entriesAt "value" value (outline value))
  | n@(call _ args _)               => .mk n.title n.caption (entries "args" 0 args)
  | n@(ret value _)                 => .mk n.title n.caption (entriesAt "value" value (outline value))
  | n@(branch condition yes no _)   =>
    .mk n.title n.caption (entriesAt "condition" condition (outline condition) ++
      entriesAt "then_stmt" yes (outline yes) ++ entriesAt "else_stmt" no (outline no))
  | n@(forLoop _ start stop body _) =>
    .mk n.title n.caption (entriesAt "start" start (outline start) ++ entriesAt "end" stop (outline stop) ++
      entriesAt "body" body (outline body))
  | n@(whileLoop condition body _)  =>
    .mk n.title n.caption (entriesAt "condition" condition (outline condition) ++ entriesAt "body" body (outline body))
  | n@(doLoop body condition _)     =>
    .mk n.title n.caption (entriesAt "body" body (outline body) ++ entriesAt "condition" condition (outline condition))
  | n@(block ss _)                  => .mk n.title n.caption (entries "statements" 0 ss)
  | n@(binary left _ right _)       =>
    .mk n.title n.caption (entriesAt "left" left (outline left) ++ entriesAt "right" right (outline right))
  | n@(unary _ operand _)           => .mk n.title n.caption (entriesAt "operand" operand (outline operand))
  | n@(ternary condition yes no _)  =>
    .mk n.title n.caption (entriesAt "condition" condition (outline condition) ++
      entriesAt "true_expr" yes (outline yes) ++ entriesAt "false_expr" no (outline no))
  | n@(element _ index _)           => .mk n.title n.caption (entriesAt "index" index (outline index))
  | n@(array es _)                  => .mk n.title n.caption (entries "elements" 0 es)
  | n@(listOf size _)               => .mk n.title n.caption (entriesAt "size" size (outline size))
  | n@(several ns)                  => .mk n.title n.caption (entries "" 0 ns)
  | n@(parameter ..) | n@(declaration ..) | n@(identifier ..) | n@(number ..) | n@(string ..) | n@(boolean ..)
  | n@bare | n@nothing | n@(text _) | n@(integer _) => .mk n.title n.caption []

/-- The entries for the members of a list from number `i` on.  A filler among them has none. -/
def entries (place : String) (i : Nat) : List Node → List (String × Outline)
  | []      => []
  | n :: ns =>
    match n with
    | nothing | text _ | integer _ | several _ => entries place (i + 1) ns
    | _                                        => (slot place i, outline n) :: entries place (i + 1) ns

end

end Node

namespace Outline

/-- The mark before an entry: the last one under its node has a mark of its own. -/
def mark (last : Bool) : String := if last then "└── " else "├── "

mutual

/-- The lines of a diagram, from column `indent` on. -/
def lines (indent : Nat) : Outline → List String
  | mk _ caption children => (spaces indent ++ "└── " ++ caption) :: childLines indent children

def childLines (indent : Nat) : List (String × Outline) → List String
  | []                   => []
  | (place, o) :: rest   =>
    (spaces (indent + 4) ++ mark rest.isEmpty ++ place ++ ":") :: (lines (indent + 8) o ++ childLines indent rest)

end

/-- A diagram under its title. -/
def diagram (title : String) (o : Outline) : List String :=
  "" :: (title ++ ":") :: rule title.length '=' :: lines 0 o ++ [""]

/-- The spaces up to a column. -/
def indentation (column : Int) : String := spaces column.toNat

/-- An entry's text without the blanks around it. -/
def trimmed (s : String) : String := String.ofList (trim s.toList)

mutual

/-- The tree as a text, from column `indent` on, with `lead` before the first line.  A column left of the margin counts
as the margin, for the lines it belongs to. -/
def toTree (indent : Int) (lead : String) : Outline → String
  | mk title _ children => indentation indent ++ lead ++ title ++ "\n" ++ childTexts indent children

def childTexts (indent : Int) : List (String × Outline) → String
  | [] => ""
  | (place, mk title caption grandchildren) :: rest =>
    indentation indent ++ mark rest.isEmpty ++ place ++ ": " ++
      trimmed (toTree (indent + 4) "" (mk title caption grandchildren)) ++ "\n" ++
      grandchildTexts (indentation (indent + 4) ++ (if rest.isEmpty then "    " else "│   ")) (indent + 12) grandchildren ++
      childTexts indent rest

def grandchildTexts (margin : String) (indent : Int) : List (String × Outline) → String
  | []                 => ""
  | (place, o) :: rest =>
    margin ++ mark rest.isEmpty ++ place ++ ": " ++ trimmed (toTree indent "" o) ++ "\n" ++
      grandchildTexts margin indent rest

end

end Outline

/-- A tree as a diagram; a missing tree is named as such. -/
def diagramOf (title : String) : Node → List String
  | .nothing => [title ++ ": None"]
  | n        => n.outline.diagram title

end TesLang
