import TesLang.Proofs.Checking.History
import TesLang.Proofs.Checking.Scope
/-!
# Functions that are touched like variables

The functions of a program are bound in the scope around all of them, by symbols that can be marked like those of
variables.  A function that assigns to such a name, or runs a loop over it, marks the symbol, and the mark stays when the
function is left.  A function that reads such a name is blamed unless the symbol is marked.

Which functions of the program are touched, and in which order, is read off the events of a tree (`touches`), as long as
one knows which names are hidden by the functions that are open.  A function marks some names (`marks`), and reads some
others before it marks them itself (`exposed`).
-/
namespace TesLang.Check

/-- A function of the program is treated like a variable: it gets a value, or its value is read. -/
inductive Touch where
  | marks (name : String)
  | reads (name : String)
  deriving DecidableEq, Repr

/-! ### Names that are hidden -/

/-- Whether one of the functions that are open binds a name; `frames` are the names that they bind, inside out. -/
def hides (frames : List (List String)) (x : String) : Bool := frames.any (·.contains x)

/-- Binds a name in the innermost function. -/
def bindTop (x : String) : List (List String) → List (List String)
  | [] => []
  | names :: frames => (if x ∈ names then names else names ++ [x]) :: frames

/-- The names that open functions bind after an event, in a program with the functions `program`. -/
def reframe (program : List String) (frames : List (List String)) : NameEvent → List (List String)
  | .enter _ => [] :: frames
  | .leave => frames.tail
  | .bind x _ | .declare x => bindTop x frames
  | .loop x => if hides frames x || program.contains x then frames else bindTop x frames
  | _ => frames

def reframeAll (program : List String) (frames : List (List String)) (es : List NameEvent) : List (List String) :=
  es.foldl (reframe program) frames

/-! ### Names that are touched -/

/-- Whether a name stands for a function of the program. -/
def bare (program : List String) (frames : List (List String)) (x : String) : Bool := !hides frames x && program.contains x

/-- What an event does to a function of the program. -/
def touch (program : List String) (frames : List (List String)) : NameEvent → List Touch
  | .assign x _ | .loop x => if bare program frames x then [.marks x] else []
  | .use x _ => if bare program frames x then [.reads x] else []
  | _ => []

def touches (program : List String) (frames : List (List String)) : List NameEvent → List Touch
  | [] => []
  | e :: es => touch program frames e ++ touches program (reframe program frames e) es

/-- The names that get values. -/
def marks : List Touch → List String
  | [] => []
  | .marks x :: ts => x :: marks ts
  | .reads _ :: ts => marks ts

/-- The names that are read before they get values. -/
def exposed : List Touch → List String
  | [] => []
  | .marks x :: ts => (exposed ts).filter (· != x)
  | .reads x :: ts => x :: exposed ts

section
variable (program : List String) (frames : List (List String)) (es es' : List NameEvent)

theorem reframeAll_append :
    reframeAll program frames (es ++ es') = reframeAll program (reframeAll program frames es) es' := List.foldl_append

theorem touches_append : touches program frames (es ++ es') =
    touches program frames es ++ touches program (reframeAll program frames es) es' := by
  induction es generalizing frames with
  | nil => rfl
  | cons e es ih =>
    rw [List.cons_append, touches, touches, ih, List.append_assoc]
    rfl

theorem touches_singleton (e : NameEvent) : touches program frames [e] = touch program frames e := List.append_nil _

end

theorem marks_append (ts us : List Touch) : marks (ts ++ us) = marks ts ++ marks us := by
  induction ts with
  | nil => rfl
  | cons t ts ih =>
    cases t with
    | marks x => exact congrArg (x :: ·) ih
    | reads x => exact ih

theorem exposed_append (ts us : List Touch) :
    exposed (ts ++ us) = exposed ts ++ (exposed us).filter (!(marks ts).contains ·) := by
  induction ts with
  | nil => exact (List.filter_eq_self.2 fun _ _ => rfl).symm
  | cons t ts ih =>
    cases t with
    | reads x => exact congrArg (x :: ·) ih
    | marks x =>
      rw [List.cons_append, exposed, exposed, ih, List.filter_append, List.filter_filter, marks]
      refine congrArg _ (List.filter_congr fun y _ => ?_)
      rw [List.contains_cons, Bool.not_or]
      rfl

/-! ### Scopes -/

theorem names_insert (x : String) (symbol : Symbol) (scope : Scope) (scopes : List Scope) :
    ((scope.insert x symbol : Scope) :: scopes).map Scope.names = bindTop x ((scope :: scopes).map Scope.names) := by
  rw [List.map_cons, List.map_cons, bindTop]
  exact congrArg (· :: _) (Bindings.map_fst_insert scope x symbol)

theorem names_updateFirst (x : String) (f : Symbol → Symbol) (scopes : List Scope) :
    (Chain.updateFirst x f scopes).map Scope.names = scopes.map Scope.names := by
  induction scopes with
  | nil => rfl
  | cons s ss ih =>
    rw [Chain.updateFirst]
    split
    · exact congrArg (· :: _) (Bindings.map_fst_update s x f)
    · exact congrArg (_ :: ·) ih

theorem hides_iff {scopes : List Scope} {x : String} :
    hides (scopes.map Scope.names) x = (scopes.findSome? (·.find? x)).isSome := by
  rw [Bool.eq_iff_iff, hides, List.any_map, List.any_eq_true, List.findSome?_isSome_iff]
  simp only [Function.comp, List.contains_iff_mem, Scope.isSome_find?]

end TesLang.Check
