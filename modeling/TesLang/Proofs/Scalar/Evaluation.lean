import TesLang.Proofs.Machine
import TesLang.Proofs.Scalar.Program
/-!
# What scalar programs mean

Expressions are evaluated and statements executed from left to right.  Truth values are numbers, and any number but zero
counts as true.  Variables belong to the function that is being run, and a variable that was assigned has its value from
then on.  Declaring a variable leaves its value alone.  A function gives the number that it returns; one without a value
to return gives zero, and one that ends without returning gives zero if its return type is `null` and nothing at all
otherwise.

The text brings a variable at the place where it first declares or assigns it, be it in a branch or in a loop.  Execution
may come by an earlier place after that, and read the variable there, ahead of the text.  That makes no difference to its
value, but it is noted: the last part of each result is the list of the variables that were read ahead of the text.  The
names that the text has brought by a place are `known`, and a statement adds those that it brings (`brings`).

The number of nested steps is bounded by the first argument.  Execution has no result where that is too small, where a
variable without a value is read, where the input is used up, where a quotient does not exist, where a function is called
with the wrong number of arguments, and where the missing result of a function is used.
-/
namespace TesLang.Scalar

open Code (World Operation truth)

/-- The values of a function's variables. -/
abbrev Env := String → Option Int

/-- How a statement ends: execution goes on behind it, or the function returns. -/
inductive Outcome where
  | next (ρ : Env)
  | returned (v : Int)

/-- The variables of a function that is called with the given arguments. -/
def Env.ofArgs (params : List String) (args : List Int) : Env := fun x => (params.zip args).lookup x

def Env.set (ρ : Env) (x : String) (v : Int) : Env := Function.update ρ x (some v)

/-- What evaluation gives, if anything: a value, what has been read and written, and the variables that were read ahead of
the text. -/
abbrev Result (α : Type) := Option (α × World × List String)

namespace Result

variable {α β : Type} {r : Result α} {k : α → World → Result β} {b : β} {w : World}

def andThen (r : Result α) (k : α → World → Result β) : Result β :=
  r.bind fun (a, w, p) => (k a w).map fun (b, w, q) => (b, w, p ++ q)

theorem andThen_eq_some {q : List String} : r.andThen k = some (b, w, q) ↔
    ∃ a w₁ p, r = some (a, w₁, p) ∧ ∃ p', k a w₁ = some (b, w, p') ∧ p ++ p' = q := by
  simp only [andThen, Option.bind_eq_some_iff, Option.map_eq_some_iff, Prod.mk.injEq, Prod.exists]
  grind

theorem andThen_eq_nil : r.andThen k = some (b, w, []) ↔ ∃ a w₁, r = some (a, w₁, []) ∧ k a w₁ = some (b, w, []) := by
  simp [andThen_eq_some]

end Result

variable (div : Int → Int → Option Int) (fs : List Node)

mutual

def eval : Nat → (known : List String) → Env → Node → World → Result Int
  | 0, _, _, _, _ => none
  | n + 1, known, ρ, node, w =>
    match node with
    | .number v _ => some (v, w, [])
    | .boolean b _ => some (truth (b = "true"), w, [])
    | .identifier x _ => (ρ x).map (·, w, if known.contains x then [] else [x])
    | .binary left op right _ =>
      (eval n known ρ left w).andThen fun a w =>
      (eval n known ρ right w).andThen fun b w =>
      ((Operation.ofText op).apply div a b).map (·, w, [])
    | .ternary condition yes no _ =>
      (eval n known ρ condition w).andThen fun t w =>
      if t = 0 then eval n known ρ no w else eval n known ρ yes w
    | .call name args _ =>
      if name = "scan" then
        match w.input with
        | [] => none
        | v :: vs => some (v, { w with input := vs }, [])
      else
        (evalAll n known ρ args w).andThen fun vs w =>
        (call n name vs w).andThen fun result w =>
        result.map (·, w, [])
    | _ => none

/-- The values of some expressions, one after another. -/
def evalAll : Nat → (known : List String) → Env → List Node → World → Result (List Int)
  | 0, _, _, _, _ => none
  | _ + 1, _, _, [], w => some ([], w, [])
  | n + 1, known, ρ, e :: es, w =>
    (eval n known ρ e w).andThen fun v w =>
    (evalAll n known ρ es w).andThen fun vs w =>
    some (v :: vs, w, [])

/-- What the function `name` gives for some arguments. -/
def call : Nat → String → List Int → World → Result (Option Int)
  | 0, _, _, _ => none
  | n + 1, name, args, w =>
    match fs.find? fun f => f.name? == some name with
    | some (.function _ params returnType body _) =>
      if (paramNames params).length = args.length then
        match exec n (paramNames params) (Env.ofArgs (paramNames params) args) body w with
        | some (.returned v, w, p) => some (some v, w, p)
        | some (.next _, w, p) => some (if returnType = "null" then some 0 else none, w, p)
        | none => none
      else none
    | _ => none

def exec : Nat → (known : List String) → Env → Node → World → Result Outcome
  | 0, _, _, _, _ => none
  | n + 1, known, ρ, node, w =>
    match node with
    | .declaration .. => some (.next ρ, w, [])
    | .assignment (.text x) value _ =>
      (eval n known ρ value w).andThen fun v w =>
      some (.next (ρ.set x v), w, [])
    | .call name args _ =>
      (evalAll n known ρ args w).andThen fun vs w =>
      if name = "print" then some (.next ρ, { w with output := w.output ++ vs }, [])
      else (call n name vs w).andThen fun _ w => some (.next ρ, w, [])
    | .ret .nothing _ => some (.returned 0, w, [])
    | .ret value _ =>
      (eval n known ρ value w).andThen fun v w =>
      some (.returned v, w, [])
    | .branch condition yes no _ =>
      (eval n known ρ condition w).andThen fun t w =>
      if t = 0 then exec n (brings yes ++ known) ρ no w else exec n known ρ yes w
    | .whileLoop condition body line =>
      (eval n known ρ condition w).andThen fun t w =>
      if t = 0 then some (.next ρ, w, [])
      else (exec n known ρ body w).andThen fun
        | .next ρ, w => exec n known ρ (.whileLoop condition body line) w
        | .returned v, w => some (.returned v, w, [])
    | .doLoop body condition line =>
      (exec n known ρ body w).andThen fun
        | .next ρ, w =>
          (eval n (brings body ++ known) ρ condition w).andThen fun t w =>
          if t = 0 then some (.next ρ, w, []) else exec n known ρ (.doLoop body condition line) w
        | .returned v, w => some (.returned v, w, [])
    | .forLoop x start stop body _ =>
      (eval n known ρ start w).andThen fun a w =>
      (eval n known ρ stop w).andThen fun bound w =>
      count n (x :: known) (ρ.set x a) x bound body w
    | .block ss _ => execAll n known ρ ss w
    | .several ss => execAll n known ρ ss w
    | .nothing => some (.next ρ, w, [])
    | _ => none

/-- Executes the body of a loop, and counts `x` up by one, as long as `x` is below `bound`. -/
def count : Nat → (known : List String) → Env → (x : String) → (bound : Int) → Node → World → Result Outcome
  | 0, _, _, _, _, _, _ => none
  | n + 1, known, ρ, x, bound, body, w =>
    (ρ x).bind fun v =>
    if v < bound then
      (exec n known ρ body w).andThen fun
        | .next ρ, w => (ρ x).bind fun u => count n known (ρ.set x (u + 1)) x bound body w
        | .returned v, w => some (.returned v, w, [])
    else some (.next ρ, w, [])

def execAll : Nat → (known : List String) → Env → List Node → World → Result Outcome
  | 0, _, _, _, _ => none
  | _ + 1, _, ρ, [], w => some (.next ρ, w, [])
  | n + 1, known, ρ, s :: ss, w =>
    (exec n known ρ s w).andThen fun
      | .next ρ, w => execAll n (brings s ++ known) ρ ss w
      | .returned v, w => some (.returned v, w, [])

end

/-- **Function `f`, called with `args` and given `input`, gives `result`**, having read and written what `world` says;
`ahead` are the variables that were read ahead of the text. -/
def Gives (f : String) (args input : List Int) (result : Option Int) (world : World) (ahead : List String) : Prop :=
  ∃ n, call div fs n f args { input } = some (result, world, ahead)

end TesLang.Scalar
