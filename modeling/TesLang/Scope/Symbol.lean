/-!
# Symbols

What a name stands for: a variable with a type, or a function with parameters and a return type.
-/
namespace TesLang

/-- What a symbol is.  Checking makes variables and functions only; a symbol given from outside may be anything. -/
inductive SymbolKind where
  | variable
  | function
  | other (s : String)
  deriving DecidableEq, Repr

namespace SymbolKind

def text : SymbolKind → String
  | .variable => "variable"
  | .function => "function"
  | .other s  => s

def ofText (s : String) : SymbolKind :=
  if s = "variable" then .variable else if s = "function" then .function else .other s

@[simp] theorem text_ofText (s : String) : (ofText s).text = s := by
  unfold ofText
  split
  · next h => exact h.symm
  · split
    · next h => exact h.symm
    · rfl

end SymbolKind

structure Symbol where
  name : String
  kind : SymbolKind
  type : Option String := none
  /-- names and types of the parameters of a function -/
  params : List (String × String) := []
  returnType : Option String := none
  /-- whether the variable has a value by now -/
  initialized : Bool := false
  line : Option Int := none
  deriving DecidableEq, Repr

end TesLang
