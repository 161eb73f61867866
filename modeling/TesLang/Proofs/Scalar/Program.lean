import TesLang.Code.Generator
import TesLang.Proofs.Parsing.Grammar
/-!
# Scalar programs

The part of the language in which every value is a number or a truth value.  Its expressions are literals, variables,
the arithmetic and comparing operators, `?:`, `scan()` and calls of the program's own functions.  Its statements declare
and assign variables, branch, loop, return, print one value, and call functions.  All functions stand side by side.

A loop that counts must leave alone what its range is made of: the range mentions neither the variable of the loop nor a
variable that the body assigns.
-/
namespace TesLang.Scalar

def operators : List String := ["+", "-", "*", "/", "<", ">", "<=", ">=", "==", "!="]

mutual

/-- Whether a node is a scalar expression that calls functions from `fns` only. -/
def isExpr (fns : List String) : Node → Bool
  | .number .. | .boolean .. | .identifier .. => true
  | .binary left op right _ => operators.contains op && isExpr fns left && isExpr fns right
  | .ternary condition yes no _ => isExpr fns condition && isExpr fns yes && isExpr fns no
  | .call name args _ => if name = "scan" then args.isEmpty else fns.contains name && areExprs fns args
  | _ => false

def areExprs (fns : List String) : List Node → Bool
  | [] => true
  | e :: es => isExpr fns e && areExprs fns es

end

mutual

theorem isExpression_of_isExpr {fns : List String} :
    ∀ {e : Node}, isExpr fns e = true → Grammar.isExpression (fun _ => true) e = true
  | .number .., _ | .boolean .., _ | .identifier .., _ => by rw [Grammar.isExpression]
  | .binary .., h => by
    simp only [isExpr, Bool.and_eq_true] at h
    rw [Grammar.isExpression, isExpression_of_isExpr h.1.2, isExpression_of_isExpr h.2]
    rfl
  | .ternary .., h => by
    simp only [isExpr, Bool.and_eq_true] at h
    rw [Grammar.isExpression, isExpression_of_isExpr h.1.1, isExpression_of_isExpr h.1.2, isExpression_of_isExpr h.2]
    rfl
  | .call _ args _, h => by
    rw [Grammar.isExpression, Bool.true_and]
    simp only [isExpr] at h
    split at h
    · obtain rfl := List.isEmpty_iff.1 h
      rw [Grammar.areExpressions]
    · exact areExpressions_of_areExprs (Bool.and_eq_true_iff.1 h).2

theorem areExpressions_of_areExprs {fns : List String} :
    ∀ {es : List Node}, areExprs fns es = true → Grammar.areExpressions (fun _ => true) es = true
  | [], _ => by rw [Grammar.areExpressions]
  | _ :: _, h => by
    simp only [areExprs, Bool.and_eq_true] at h
    rw [Grammar.areExpressions, isExpression_of_isExpr h.1, areExpressions_of_areExprs h.2]
    rfl

end

mutual

/-- The variables that an expression mentions. -/
def reads : Node → List String
  | .identifier name _ => [name]
  | .binary left _ right _ => reads left ++ reads right
  | .ternary condition yes no _ => reads condition ++ reads yes ++ reads no
  | .call _ args _ => readsAll args
  | _ => []

def readsAll : List Node → List String
  | [] => []
  | e :: es => reads e ++ readsAll es

end

mutual

/-- The variables that a statement assigns, be it as the variables of loops. -/
def assigns : Node → List String
  | .assignment (.text name) _ _ => [name]
  | .branch _ yes no _ => assigns yes ++ assigns no
  | .whileLoop _ body _ => assigns body
  | .doLoop body _ _ => assigns body
  | .forLoop var _ _ body _ => var :: assigns body
  | .block ss _ => assignsAll ss
  | .several ss => assignsAll ss
  | _ => []

def assignsAll : List Node → List String
  | [] => []
  | s :: ss => assigns s ++ assignsAll ss

end

mutual

/-- The variables that a statement brings into the function: those it declares and those it assigns. -/
def brings : Node → List String
  | .declaration name _ _ => [name]
  | .assignment (.text name) _ _ => [name]
  | .branch _ yes no _ => brings yes ++ brings no
  | .whileLoop _ body _ => brings body
  | .doLoop body _ _ => brings body
  | .forLoop var _ _ body _ => var :: brings body
  | .block ss _ => bringsAll ss
  | .several ss => bringsAll ss
  | _ => []

def bringsAll : List Node → List String
  | [] => []
  | s :: ss => brings s ++ bringsAll ss

end

/-! ### Names that are known

A variable is known behind the place that brings it, wherever control comes from.
-/

/-- The names are known variables, or names of functions. -/
def Readable (fns known xs : List String) : Prop := ∀ x ∈ xs, x ∈ known ∨ x ∈ fns

theorem Readable.append {fns known xs ys : List String} :
    Readable fns known (xs ++ ys) ↔ Readable fns known xs ∧ Readable fns known ys := by
  unfold Readable
  simp only [List.mem_append]
  exact ⟨fun h => ⟨fun x hx => h x (.inl hx), fun x hx => h x (.inr hx)⟩, fun h x hx => hx.elim (h.1 x) (h.2 x)⟩

mutual

/-- Every name that a statement reads is readable where it stands. -/
def Scoped (fns : List String) : (known : List String) → Node → Prop
  | known, .assignment _ value _ => Readable fns known (reads value)
  | known, .call _ args _ => Readable fns known (readsAll args)
  | known, .ret value _ => Readable fns known (reads value)
  | known, .branch condition yes no _ =>
    Readable fns known (reads condition) ∧ Scoped fns known yes ∧ Scoped fns (brings yes ++ known) no
  | known, .whileLoop condition body _ => Readable fns known (reads condition) ∧ Scoped fns known body
  | known, .doLoop body condition _ => Scoped fns known body ∧ Readable fns (brings body ++ known) (reads condition)
  | known, .forLoop x start stop body _ =>
    Readable fns known (reads start) ∧ Readable fns known (reads stop) ∧ Scoped fns (x :: known) body
  | known, .block ss _ => ScopedAll fns known ss
  | known, .several ss => ScopedAll fns known ss
  | _, _ => True

def ScopedAll (fns : List String) : (known : List String) → List Node → Prop
  | _, [] => True
  | known, s :: ss => Scoped fns known s ∧ ScopedAll fns (brings s ++ known) ss

end

/-! ### Statements and programs -/

/-- Whether a place holds several nodes or none. -/
def isFiller : Node → Bool
  | .nothing | .several _ => true
  | _ => false

mutual

/-- Whether what stands in the place of a statement is scalar, in a function with the parameters `params`. -/
def isStmt (fns params : List String) : Node → Bool
  | .declaration .. => true
  | .assignment (.text _) value _ => isExpr fns value
  | .call name args _ =>
    if name = "print" then args.length == 1 && areExprs fns args else fns.contains name && areExprs fns args
  | .ret .nothing _ => true
  | .ret value _ => isExpr fns value
  | .branch condition yes no _ => isExpr fns condition && isStmt fns params yes && isStmt fns params no
  | .whileLoop condition body _ => isExpr fns condition && isStmt fns params body
  | .doLoop .nothing _ _ => false
  | .doLoop body condition _ => isStmt fns params body && isExpr fns condition
  | .forLoop var start stop body _ =>
    !params.contains var && isExpr fns start && isExpr fns stop && isStmt fns params body &&
      (reads start ++ reads stop).all fun x => x != var && !(assigns body).contains x
  | .block ss _ => areStmts fns params ss
  | .several ss => areStmts fns params ss
  | .nothing => true
  | _ => false

def areStmts (fns params : List String) : List Node → Bool
  | [] => true
  | s :: ss => !isFiller s && isStmt fns params s && areStmts fns params ss

end

section
variable {fns params : List String}

@[simp] theorem isStmt_assignment {target value : Node} {line : Int} :
    isStmt fns params (.assignment target value line) = true ↔ (∃ x, target = .text x) ∧ isExpr fns value = true := by
  cases target <;> simp [isStmt]

@[simp] theorem isStmt_ret {value : Node} {line : Int} :
    isStmt fns params (.ret value line) = true ↔ value = .nothing ∨ isExpr fns value = true := by
  cases value <;> simp [isStmt, isExpr]

@[simp] theorem isStmt_doLoop {body condition : Node} {line : Int} :
    isStmt fns params (.doLoop body condition line) = true ↔
      body ≠ .nothing ∧ isStmt fns params body = true ∧ isExpr fns condition = true := by
  cases body <;> simp [isStmt]

theorem isFunction_of_isStmt {n : Node} (h : isStmt fns params n = true) : n.isFunction = false := by
  cases n with
  | function => cases h
  | _ => rfl

end

/-- The names of a function's parameters. -/
def paramNames : Node → List String
  | .several ps => ps.filterMap Node.name?
  | _ => []

/-- A parameter that is a number or a truth value. -/
def isParam : Node → Bool
  | .parameter _ type _ => type == "int" || type == "bool"
  | _ => false

def areParams : Node → Bool
  | .several ps => ps.all isParam && decide ((ps.filterMap Node.name?).Nodup)
  | _ => false

/-- Names that a function must not have: those of built-in functions and of what the machine does itself. -/
def reserved : List String := ["print", "list", "length", "scan", "iget", "iput", "mem"]

/-- The names of a program's functions. -/
def names (fs : List Node) : List String := fs.filterMap Node.name?

def isFunction (fns : List String) : Node → Bool
  | .function name params _ body _ =>
    !reserved.contains name && !Code.Gen.endsInRet (.proc name) && areParams params &&
      isStmt fns (paramNames params) body
  | _ => false

/-- **Whether a program is scalar**: all its functions are, and no two have the same name. -/
def isProgram (fs : List Node) : Bool := fs.all (isFunction (names fs)) && decide ((names fs).Nodup)

end TesLang.Scalar
