/-!
# Faults

A fault ends an operation before it has an answer.  Each constructor is a cause; `Fault.message` has the wording.
-/
namespace TesLang

/-- What can end an operation early. -/
inductive Fault where
  /-- a stray run of characters reaches the end of the text -/
  | runsOff
  /-- no rule of the language fits `c`, and nothing could be skipped -/
  | noRule (c : Char)
  /-- a number literal of more than 4300 digits -/
  | tooManyDigits (count : Nat)
  /-- reading the text would never end -/
  | endless
  /-- what stands in a place of a tree is asked for a part that its kind does not have -/
  | lacks (kind part : String)
  /-- what stands in the place of a list is none -/
  | noList (kind : String)
  /-- the argument at `index` of a call leaves no value in a register -/
  | noArgument (index : Nat)
  deriving DecidableEq, Repr

namespace Fault

/-- A message needs the name of the enclosing function, and there is none. -/
def noEnclosing : Fault := .lacks "NoneType" "name"

def message : Fault → String
  | runsOff         => "string index out of range"
  | noRule c        => "Scanning error. Illegal character '" ++ c.toString ++ "'"
  | tooManyDigits n =>
    "Exceeds the limit (4300 digits) for integer string conversion: value has " ++ toString n ++
      " digits; use sys.set_int_max_str_digits() to increase the limit"
  | endless         => "reading the text does not end"
  | lacks kind part => "'" ++ kind ++ "' object has no attribute '" ++ part ++ "'"
  | noList kind     => "'" ++ kind ++ "' object is not iterable"
  | noArgument i    => "sequence item " ++ toString i ++ ": expected str instance, NoneType found"

end Fault

end TesLang
