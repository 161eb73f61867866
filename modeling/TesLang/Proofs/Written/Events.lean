import TesLang.Proofs.Generation.Outline
/-!
# Writing registers before they are read

Execution finds something in a register only if it was written before: by an earlier line, or by the call, which fills
the registers of the parameters.  `Written.ordered` follows some lines and says whether every register that a line reads
is a parameter of its procedure or was written by an earlier line of it.

The same can be asked of a tree without knowing any registers.  `events` lists what happens to the variables of a
function in the order of its code: a procedure starts, a variable gets a register, is set, is used.  A function inside
another statement starts a procedure in the middle, and the rest of the code belongs to that one.  The events are orderly
(`Variables.orderly`) if every variable is set before it is used.
-/
namespace TesLang.Code

/-! ### Lines -/

namespace Line

/-- The registers that a line reads. -/
def reads : Line → List Reg
  | mov _ (.reg r) => [r]
  | binary _ _ left right => left.toList ++ right.toList
  | call _ _ args => args
  | output r | jumpIfZero r _ | jumpUnlessZero r _ => r.toList
  | memory _ size => size.toList
  | load _ base => [base]
  | store source base => source.toList ++ [base]
  | _ => []

/-- The register that a line writes. -/
def writes : Line → Option Reg
  | mov r _ | binary _ r _ _ | call _ r _ | input r | memory r _ | load r _ => some r
  | _ => none

def isHead : Line → Bool
  | proc _ => true
  | _ => false

end Line

/-- The registers of `n` parameters. -/
def parameterRegs (n : Nat) : List Reg := (List.range n).map fun i => ⟨(i + 1 : Nat)⟩

/-- What has been written at some line of a procedure, and how many parameters the procedures to come have. -/
structure Written where
  coming : List Nat
  regs : List Reg := []

namespace Written

/-- A line has been passed.  At the head of a procedure only its parameters are written. -/
def step (w : Written) : Line → Written
  | .proc _ => ⟨w.coming.tail, parameterRegs (w.coming.headD 0)⟩
  | l => { w with regs := l.writes.toList ++ w.regs }

/-- **Every register that is read has been written before**, in the same procedure. -/
def ordered : Written → List Line → Bool
  | _, [] => true
  | w, l :: ls => l.reads.all w.regs.contains && ordered (w.step l) ls

def after (w : Written) (ls : List Line) : Written := ls.foldl step w

theorem after_append (w : Written) (a b : List Line) : w.after (a ++ b) = (w.after a).after b := List.foldl_append

theorem ordered_append (b : List Line) : ∀ (w : Written) (a : List Line),
    w.ordered (a ++ b) = (w.ordered a && (w.after a).ordered b)
  | _, [] => (Bool.true_and _).symm
  | w, l :: a => by
    rw [List.cons_append, ordered, ordered, ordered_append b (w.step l) a, Bool.and_assoc]
    rfl

theorem step_of_not_head {l : Line} (h : l.isHead = false) (w : Written) :
    w.step l = ⟨w.coming, l.writes.toList ++ w.regs⟩ := by
  cases l with
  | proc _ => cases h
  | _ => rfl

theorem mem_after {r : Reg} : ∀ {ls : List Line} {w : Written}, headsOf (outlineIn ls) = [] → r ∈ w.regs → r ∈ (w.after ls).regs
  | [], _, _, h => h
  | l :: ls, w, hl, h => by
    have isHead : l.isHead = false ∧ headsOf (outlineIn ls) = [] := by
      cases l with
      | proc _ => cases hl
      | _ => exact ⟨rfl, hl⟩
    refine mem_after (w := w.step l) isHead.2 ?_
    rw [step_of_not_head isHead.1]
    exact List.mem_append_right _ h

end Written

/-! ### Variables -/

/-- What happens to a variable in code. -/
inductive Event where
  /-- a procedure starts -/
  | head (name : String) (params : List String)
  /-- a variable has a register from now on -/
  | bind (x : String)
  | set (x : String)
  /-- The value of a variable is read.  It is `plain` unless it is that of a vector of which a member is wanted, or of a
  variable in the range over which it loops. -/
  | use (x : String) (plain : Bool)
  /-- The value of a variable is its own new value, which takes nothing but a register. -/
  | keep (x : String) (plain : Bool)
  deriving DecidableEq, Repr

/-- The variables of a procedure that have registers, and those that have been set. -/
structure Variables where
  bound : List String := []
  set : List String := []

namespace Variables

/-- A variable is set, and has a register. -/
def put (k : Variables) (x : String) : Variables := ⟨x :: k.bound, x :: k.set⟩

def step (k : Variables) : Event → Variables
  | .head _ params => ⟨params, params⟩
  | .bind x => { k with bound := x :: k.bound }
  | .set x => k.put x
  | .use .. => k
  | .keep x _ => if x ∈ k.bound then k else k.put x

/-- Whether nothing is wanted that has not been there before. -/
def fine (k : Variables) : Event → Bool
  | .use x _ => k.set.contains x
  | .keep x _ => k.bound.contains x
  | _ => true

/-- **Every variable is set before it is used**, in the same procedure. -/
def orderly : Variables → List Event → Bool
  | _, [] => true
  | k, e :: es => k.fine e && orderly (k.step e) es

def after (k : Variables) (es : List Event) : Variables := es.foldl step k

theorem after_append (k : Variables) (a b : List Event) : k.after (a ++ b) = (k.after a).after b := List.foldl_append

theorem orderly_append (b : List Event) : ∀ (k : Variables) (a : List Event),
    k.orderly (a ++ b) = (k.orderly a && (k.after a).orderly b)
  | _, [] => (Bool.true_and _).symm
  | k, e :: a => by
    rw [List.cons_append, orderly, orderly, orderly_append b (k.step e) a, Bool.and_assoc]
    rfl

end Variables

/-- The procedures that start, with their parameters. -/
def procedures (es : List Event) : List (String × List String) :=
  es.filterMap fun
    | .head name params => some (name, params)
    | _ => none

theorem procedures_append (a b : List Event) : procedures (a ++ b) = procedures a ++ procedures b := List.filterMap_append

/-- How many parameters the procedures have. -/
def arities (es : List Event) : List Nat := (procedures es).map (·.2.length)

theorem arities_append (a b : List Event) : arities (a ++ b) = arities a ++ arities b := by
  unfold arities
  rw [procedures_append, List.map_append]

/-! ### Trees -/

/-- The use of a value that stands in the register of a variable. -/
def worth : Node → List Event
  | .identifier x _ => [.use x true]
  | _ => []

mutual

/-- What the code of an expression does to variables, up to where its value is in a register. -/
def effects : Node → List Event
  | .call f args _ =>
    match Builtin.ofName? f with
    | some .scan => []
    | some .length => effectsFirst args
    | some _ => effectsFirst args ++ (args.take 1).flatMap worth
    | none => effectsAll args ++ args.flatMap worth
  | .element x index _ => [.bind x] ++ (effects index ++ [.use x false])
  | .binary a _ b _ => effects a ++ (effects b ++ (worth a ++ worth b))
  | .unary _ e _ => if Gen.hasCode e then effects e else []
  | .ternary condition yes no _ =>
    effects condition ++ (worth condition ++ (effects yes ++ (worth yes ++ (effects no ++ worth no))))
  | .array es _ => effectsAll es
  | _ => []

/-- A built-in function looks at the first argument only. -/
def effectsFirst : List Node → List Event
  | [] => []
  | e :: _ => effects e

def effectsAll : List Node → List Event
  | [] => []
  | e :: es => effects e ++ effectsAll es

end

/-- Whether an expression is the variable `x`. -/
def isVariable (x : String) : Node → Bool
  | .identifier y _ => y == x
  | _ => false

/-- A variable is assigned.  One that is assigned to itself is left alone, unless it has no register. -/
def assigning (x : String) (value : Node) : List Event :=
  if isVariable x value then [.keep x true] else effects value ++ (worth value ++ [.set x])

/-- The upper end of a loop is read when the variable of the loop has just been set. -/
def bounding (x : String) (stop : Node) : List Event := if isVariable x stop then [.keep x false] else worth stop

/-- The uses of a variable are no longer plain. -/
def Event.doubt (x : String) : Event → Event
  | .use y plain => .use y (plain && y ≠ x)
  | e => e

/-- The range of a loop, and its variable. -/
def looping (x : String) (start stop : Node) : List Event :=
  (effects start ++ (effects stop ++ (bounding x stop ++ worth start))).map (.doubt x) ++ [.set x]

/-- The names of parameters. -/
def parameterNames (params : Node) : List String := params.statements.filterMap Node.name?

mutual

/-- **What the code of a statement does to variables**, without the functions that stand directly in the body of a
function. -/
def events : Node → List Event
  | .declaration x _ _ => [.bind x]
  | .assignment (.text x) value _ => assigning x value
  | .assignment (.element x index _) value _ =>
    effects value ++ ([.bind x] ++ (effects index ++ (worth value ++ [.use x false])))
  | .ret value _ => effects value ++ worth value
  | .branch condition yes no _ => effects condition ++ (worth condition ++ (events yes ++ events no))
  | .whileLoop condition body _ => effects condition ++ (worth condition ++ events body)
  | .doLoop body condition _ => events body ++ (effects condition ++ worth condition)
  | .forLoop x start stop body _ => looping x start stop ++ events body
  | .block ss _ => eventsAll ss
  | .several ss => eventsAll ss
  | .function f params _ (.several ss) _ => .head f (parameterNames params) :: eventsOwn ss
  | n => effects n

def eventsAll : List Node → List Event
  | [] => []
  | n :: ns => events n ++ eventsAll ns

def eventsOwn : List Node → List Event
  | [] => []
  | n :: ns => (if n.isFunction then [] else events n) ++ eventsOwn ns

end

mutual

/-- The functions among some statements, each followed by those that stand directly in its body. -/
def eventsOf : List Node → List Event
  | [] => []
  | n :: ns => (if n.isFunction then events n ++ eventsInside n else []) ++ eventsOf ns

def eventsInside : Node → List Event
  | .function _ _ _ (.several ss) _ => eventsOf ss
  | _ => []

end

mutual

/-- Whether no function stands in the body of a `for` loop.  The code of such a loop goes on in the procedure of the
function, with a register that has nothing to do with it. -/
def loopsPlain : Node → Bool
  | .branch _ yes no _ => loopsPlain yes && loopsPlain no
  | .whileLoop _ body _ => loopsPlain body
  | .doLoop body _ _ => loopsPlain body
  | .forLoop _ _ _ body _ => plain body
  | .block ss _ => loopsPlainAll ss
  | .several ss => loopsPlainAll ss
  | .function _ _ _ (.several ss) _ => loopsPlainAll ss
  | _ => true

def loopsPlainAll : List Node → Bool
  | [] => true
  | n :: ns => loopsPlain n && loopsPlainAll ns

end

/-! ### Expressions -/

def Event.quiet : Event → Bool
  | .bind _ | .use .. => true
  | _ => false

theorem quiet_worth (e : Node) : (worth e).all Event.quiet = true := by cases e <;> rfl

theorem quiet_flatMap_worth (es : List Node) : (es.flatMap worth).all Event.quiet = true := by
  rw [List.all_flatMap]
  exact List.all_eq_true.2 fun e _ => quiet_worth e

mutual

/-- **Expressions start no procedures and set no variables.** -/
theorem quiet_effects : ∀ e : Node, (effects e).all Event.quiet = true
  | .call f args _ => by
    rw [effects]
    split
    · rfl
    · exact quiet_effectsFirst args
    · rw [List.all_append, quiet_effectsFirst args, quiet_flatMap_worth]
      rfl
    · rw [List.all_append, quiet_effectsAll args, quiet_flatMap_worth]
      rfl
  | .element x index _ => by
    rw [effects, List.all_append, List.all_append, quiet_effects index]
    rfl
  | .binary a _ b _ => by
    simp only [effects, List.all_append, quiet_effects a, quiet_effects b, quiet_worth, Bool.and_self]
  | .unary _ e _ => by
    rw [effects]
    split
    · exact quiet_effects e
    · rfl
  | .ternary condition yes no _ => by
    simp only [effects, List.all_append, quiet_effects condition, quiet_effects yes, quiet_effects no, quiet_worth,
      Bool.and_self]
  | .array es _ => by
    rw [effects]
    exact quiet_effectsAll es
  | .program _ | .function .. | .parameter .. | .block .. | .declaration .. | .assignment .. | .ret .. | .branch ..
  | .forLoop .. | .whileLoop .. | .doLoop .. | .identifier .. | .number .. | .string .. | .boolean .. | .listOf ..
  | .bare | .nothing | .text _ | .integer _ | .several _ => by
    rw [effects] <;> first | rfl | (intros; contradiction)

theorem quiet_effectsFirst : ∀ es : List Node, (effectsFirst es).all Event.quiet = true
  | [] => by rw [effectsFirst]; rfl
  | e :: _ => by
    rw [effectsFirst]
    exact quiet_effects e

theorem quiet_effectsAll : ∀ es : List Node, (effectsAll es).all Event.quiet = true
  | [] => by rw [effectsAll]; rfl
  | e :: es => by
    rw [effectsAll, List.all_append, quiet_effects e, quiet_effectsAll es]
    rfl

end

theorem procedures_of_quiet {es : List Event} (h : es.all Event.quiet = true) : procedures es = [] := by
  refine List.filterMap_eq_nil_iff.2 fun e he => ?_
  have := List.all_eq_true.1 h e he
  cases e with
  | head _ _ => cases this
  | _ => rfl

theorem set_after_of_quiet : ∀ {es : List Event} (k : Variables), es.all Event.quiet = true → (k.after es).set = k.set
  | [], _, _ => rfl
  | e :: es, k, h => by
    rw [List.all_cons, Bool.and_eq_true] at h
    have step : (k.step e).set = k.set := by
      cases e with
      | bind _ | use _ _ => rfl
      | _ => cases h.1
    exact (set_after_of_quiet (k.step e) h.2).trans step

/-! ### Doubts -/

theorem procedures_doubt (x : String) : ∀ es : List Event, procedures (es.map (.doubt x)) = procedures es
  | [] => rfl
  | e :: es => by
    cases e with
    | head name params => exact congrArg ((name, params) :: ·) (procedures_doubt x es)
    | _ => exact procedures_doubt x es

namespace Variables

theorem after_doubt (x : String) : ∀ (k : Variables) (es : List Event), k.after (es.map (.doubt x)) = k.after es
  | _, [] => rfl
  | k, e :: es => by
    cases e with
    | use y plain => exact after_doubt x k es
    | _ => exact after_doubt x (k.step _) es

theorem orderly_doubt (x : String) : ∀ (k : Variables) (es : List Event), k.orderly (es.map (.doubt x)) = k.orderly es
  | _, [] => rfl
  | k, e :: es => by
    cases e with
    | use y plain => exact congrArg (k.set.contains y && ·) (orderly_doubt x k es)
    | _ => exact congrArg (k.fine _ && ·) (orderly_doubt x (k.step _) es)

end Variables

end TesLang.Code
