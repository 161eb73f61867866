/-!
# Diagnostics

What is wrong with a program that the grammar accepts.
-/
namespace TesLang

/-- The cause of a diagnostic.  A type that is not known is `none`. -/
inductive Cause where
  /-- a variable is declared twice in one scope -/
  | redeclared (name : String)
  /-- a variable is used or assigned that no scope binds -/
  | unbound (function name : String)
  /-- a variable is read before it has a value -/
  | unset (function name : String)
  /-- a variable of type `declared` gets a value of type `given` -/
  | mismatch (function name given : String) (declared : Option String)
  /-- a member is assigned of something that is no vector -/
  | notVector (function name : String) (declared : Option String)
  | unknownFunction (name : String)
  | arity (function : String) (expected actual : Nat)
  | argument (function param expected actual : String)
  /-- a return that stands in no function -/
  | strayReturn
  | returned (function expected actual : String)
  | loopRange (function : String)
  | condition (actual : String)
  | other (text : String)
  deriving DecidableEq, Repr

namespace Cause

/-- A type in writing. -/
def written (type : Option String) : String := type.getD "None"

def message : Cause → String
  | redeclared name                  => "variable '" ++ name ++ "' is already defined"
  | unbound function name            => "function '" ++ function ++ "': variable '" ++ name ++ "' is not defined"
  | unset function name              =>
    "function '" ++ function ++ "': Variable '" ++ name ++ "' is used before being assigned"
  | mismatch function name given declared =>
    "function '" ++ function ++ "': variable '" ++ name ++ "' expected to be of type '" ++ given ++ "' but it is '" ++
      written declared ++ "' instead"
  | notVector function name declared =>
    "function '" ++ function ++ "': expected '" ++ name ++ "' to be of type 'vector', but got '" ++ written declared ++
      "' instead"
  | unknownFunction name             => "function '" ++ name ++ "' is not defined"
  | arity function expected actual   =>
    "function '" ++ function ++ "': expects " ++ toString expected ++ " arguments but got " ++ toString actual
  | argument function param expected actual =>
    "function '" ++ function ++ "': expected '" ++ param ++ "' to be of type '" ++ expected ++ "', but got '" ++ actual ++
      "' instead"
  | strayReturn                      => "return statement outside of function"
  | returned function expected actual =>
    "function '" ++ function ++ "': wrong return type. expected '" ++ expected ++ "' but got '" ++ actual ++ "'"
  | loopRange function               => "function '" ++ function ++ "': loop range must be of type 'int'"
  | condition actual                 => "ternary operator condition must be boolean, got '" ++ actual ++ "'"
  | other text                       => text

end Cause

/-- A cause and the line it is found on; line zero stands for none. -/
structure Diagnostic where
  cause : Cause
  line : Int
  deriving DecidableEq, Repr

def Diagnostic.message (d : Diagnostic) : String :=
  (if d.line = 0 then "" else "Line " ++ toString d.line ++ ": ") ++ "Error: " ++ d.cause.message

end TesLang
