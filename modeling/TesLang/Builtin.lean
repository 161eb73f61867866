/-!
# Built-in functions

The functions that every program can call without defining them.
-/
namespace TesLang

inductive Builtin where
  | print
  | list
  | length
  | scan
  deriving DecidableEq, Repr

namespace Builtin

def ofName? (name : String) : Option Builtin :=
  if name = "print" then some print
  else if name = "list" then some list
  else if name = "length" then some length
  else if name = "scan" then some scan
  else none

/-- The type of what a call returns. -/
def returnType : Builtin → String
  | print  => "null"
  | list   => "vector"
  | length => "int"
  | scan   => "int"

end Builtin
end TesLang
