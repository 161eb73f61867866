import TesLang.Proofs.Generation.Closing
/-!
# What generating code is made of

Generating the code of a node is a sequence of few kinds of steps: a register is drawn, a label is numbered, a kind of node
is noted, a variable is looked up or gets a register, a line is added, or a whole procedure is.  Labels occur in five shapes
only, those of branches, of loops and of the conditional operator.  The course of a computation says how it is put together
out of these steps and shapes (`Course`), and generating any node has one, by recursion on the tree (`Course.visit`).

So a property of computations that all other steps and these shapes have, and that a sequence has if its parts do, is a
property of generating any node whatever (`Shaped.has`).  A property that the steps with labels have as well is one of the
shapes (`Stepwise.shaped`).

The lines that are added outside the head and the end of a procedure are inner lines: instructions, labels, returns and
comments.  Among them only a return ends a procedure (`endsInRet_of_inner`).
-/
namespace TesLang.Code

/-- The lines inside procedures: all but their heads and the blank lines at their ends.  Comments end in a register. -/
inductive Line.Inner : Line → Prop where
  | instruction {l : Line} (h : l.isInstruction = true) : Inner l
  | ret : Inner .ret
  | comment {text : String} (h : Unclosing text) : Inner (.comment text)

namespace Line

/-- The label that a line defines. -/
def label? : Line → Option Label
  | label l => some l
  | _ => none

/-- The label that a line jumps to. -/
def target? : Line → Option Label
  | jumpIfZero _ l => some l
  | jumpUnlessZero _ l => some l
  | jump l => some l
  | _ => none

end Line

namespace Gen

theorem endsInRet_of_inner {l : Line} (h : l.Inner) : endsInRet l = true ↔ l = .ret := by
  cases h with
  | instruction h =>
    rw [endsInRet_of_isInstruction h]
    constructor
    · intro h
      cases h
    · rintro rfl
      cases h
  | ret => exact ⟨fun _ => rfl, fun _ => by decide⟩
  | comment h =>
    rw [endsInRet_comment h]
    simp

/-! ### Shapes with labels

Five kinds of node have labels.  The labels are numbered before the lines that mention them, and each label is defined once.
-/

def branching (test yes no : Gen (Option Reg)) : Gen (Option Reg) := do
  let t ← test
  let otherwise ← freshLabel "else"
  let done ← freshLabel "endif"
  emit (.jumpIfZero t otherwise)
  let _ ← yes
  emit (.jump done)
  emit (.label otherwise)
  let _ ← no
  emit (.label done)
  pure none

def repeating (test body : Gen (Option Reg)) : Gen (Option Reg) := do
  let start ← freshLabel "while_start"
  let done ← freshLabel "while_end"
  emit (.label start)
  let t ← test
  emit (.jumpIfZero t done)
  let _ ← body
  emit (.jump start)
  emit (.label done)
  pure none

def retrying (body test : Gen (Option Reg)) : Gen (Option Reg) := do
  let start ← freshLabel "do_start"
  emit (.label start)
  let _ ← body
  let t ← test
  emit (.jumpUnlessZero t start)
  pure none

/-- The part of a loop with a variable that starts at its first label. -/
def counting (v : Reg) (bound : Option Reg) (body : Gen (Option Reg)) : Gen (Option Reg) := do
  let again ← freshLabel "for_start"
  let done ← freshLabel "for_end"
  emit (.label again)
  let test ← allocate
  emit (.binary .less test (some v) bound)
  emit (.jumpIfZero (some test) done)
  let _ ← body
  let one ← allocate
  emit (.mov one (.literal 1))
  emit (.binary .add v (some v) (some one))
  emit (.jump again)
  emit (.label done)
  pure none

def choosing (test yes no : Gen (Option Reg)) : Gen (Option Reg) := do
  let t ← test
  let otherwise ← freshLabel "ternary_false"
  let done ← freshLabel "ternary_end"
  let r ← allocate
  emit (.jumpIfZero t otherwise)
  let a ← yes
  emit (.mov r (.ofReg a))
  emit (.jump done)
  emit (.label otherwise)
  let b ← no
  emit (.mov r (.ofReg b))
  emit (.label done)
  pure (some r)

/-! ### The course of a computation -/

/-- **How a computation is put together** out of the steps and shapes of generating code.  What a variable is looked up in are
the homes of names, so a step may depend on these and on nothing else of the generator. -/
inductive Course : {α : Type} → Gen α → Type 1 where
  | pure {α : Type} (a : α) : Course (pure a)
  | throw {α : Type} (f : Fault) : Course (throw f : Gen α)
  | bind {α β : Type} {m : Gen α} {f : α → Gen β} (first : Course m) (rest : ∀ a, Course (f a)) : Course (m >>= f)
  | discard {α : Type} {m : Gen α} (code : Course m) : Course (discard m)
  | say {l : Line} (inner : l.Inner) (label : l.label? = none) (target : l.target? = none) : Course (emit l)
  | allocate : Course allocate
  | warn (kind : String) : Course (warn kind)
  /-- a look at the homes of names -/
  | ask {α : Type} {f : Generator → Gen α}
    (same : ∀ s t : Generator, s.params = t.params → s.vars = t.vars → f s = f t) (rest : ∀ s, Course (f s)) :
    Course (get >>= f)
  /-- a variable without a register gets one -/
  | place (x : String) : Course (place x)
  | ownPlace (x : String) : Course (ownPlace x)
  | procedure (name : String) (params : Node) (returnType : String) {m : Gen Unit} (code : Course m) :
    Course (procedure name params returnType m)
  | branching {t y n : Gen (Option Reg)} (test : Course t) (yes : Course y) (no : Course n) : Course (branching t y n)
  | repeating {t m : Gen (Option Reg)} (test : Course t) (body : Course m) : Course (repeating t m)
  | retrying {m t : Gen (Option Reg)} (body : Course m) (test : Course t) : Course (retrying m t)
  | counting (v : Reg) (bound : Option Reg) {m : Gen (Option Reg)} (body : Course m) : Course (counting v bound m)
  | choosing {t y n : Gen (Option Reg)} (test : Course t) (yes : Course y) (no : Course n) : Course (choosing t y n)

namespace Course

/-- An instruction without a label. -/
def line {l : Line} (h : (l.isInstruction && l.label?.isNone && l.target?.isNone) = true) : Course (Gen.emit l) := by
  rw [Bool.and_eq_true, Bool.and_eq_true, Option.isNone_iff_eq_none, Option.isNone_iff_eq_none] at h
  exact .say (.instruction h.1.1) h.1.2 h.2

def ifElse (c : Prop) [Decidable c] {α : Type} {m m' : Gen α} (yes : Course m) (no : Course m') :
    Course (if c then m else m') := by
  split
  · exact yes
  · exact no

def place? (x : String) : Course (Gen.place? x) := .ask (fun s t hp hv => by rw [hp, hv]) fun _ => .pure _

def declare (x : String) : Course (Gen.declare x) := .bind (place? x) fun
  | some _ => .pure ()
  | none => .bind (.place x) fun r => .say (.comment (.append _ (.reg r))) rfl rfl

def assign (x : String) (value : Option Reg) : Course (Gen.assign x value) := by
  have move (r : Reg) : Course (if value ≠ some r then Gen.emit (.mov r (.ofReg value)) else Pure.pure ()) :=
    ifElse _ (line rfl) (.pure ())
  refine .ask (fun s t hp _ => by rw [hp]) fun s => ?_
  cases s.params.find? x with
  | some r => exact move r
  | none => exact .bind (.ownPlace x) move

def operand (n : Node) {m : Gen (Option Reg)} (code : Course m) : Course (Gen.operand n m) := by
  cases n
  case nothing | several => exact .bind (.warn _) fun _ => .pure none
  all_goals exact code

def returned (n : Node) {m : Gen (Option Reg)} (code : Course m) : Course (Gen.returned n m) :=
  ifElse _ (.pure none) (operand n code)

def doBody (n : Node) {m : Gen (Option Reg)} (code : Course m) : Course (Gen.doBody n m) := by
  cases n
  case nothing => exact .bind (.warn _) fun _ => .pure none
  all_goals exact code

def argumentRegs : ∀ (i : Nat) (args : List (Option Reg)), Course (Gen.argumentRegs i args)
  | _, [] => .pure []
  | i, none :: _ => .throw (.noArgument i)
  | i, some r :: rest => .bind (argumentRegs (i + 1) rest) fun rs => .pure (r :: rs)

def writeNumber : ∀ r : Option (Option Reg), Course (Gen.writeNumber r)
  | some _ => .bind (line rfl) fun _ => .pure none
  | none => .bind .allocate fun _ => .bind (line rfl) fun _ => .bind (line rfl) fun _ => .pure none

def makeList : ∀ r : Option (Option Reg), Course (Gen.makeList r)
  | some _ => .bind .allocate fun r => .bind (line rfl) fun _ => .pure (some r)
  | none => .bind .allocate fun r => .bind .allocate fun _ => .bind (line rfl) fun _ => .bind (line rfl) fun _ => .pure (some r)

def takeLength : ∀ r : Option (Option Reg), Course (Gen.takeLength r)
  | some _ => .bind .allocate fun r => .bind (line rfl) fun _ => .pure (some r)
  | none => .pure none

def callFunction (name : String) (args : List (Option Reg)) : Course (Gen.callFunction name args) :=
  .bind .allocate fun r => .bind (argumentRegs 0 args) fun _ => .bind (line rfl) fun _ => .pure (some r)

def requireBodies (fs : List Node) : Course (Gen.requireBodies fs) := by
  unfold Gen.requireBodies
  split
  · exact .throw _
  · exact .pure ()

mutual

/-- **The course of generating the code of a node.** -/
def visit : ∀ n : Node, Course (Gen.visit n)
  | .program fs => .bind (requireBodies fs) fun _ => .bind (visitProgram fs) fun _ => .pure none
  | .function name params returnType body _ => by
    rw [visit_procedure]
    refine .procedure name params returnType ?_
    have whole := visit body
    cases body with
    | several ns | block ns _ => exact visitOwn ns
    | function => exact .pure ()
    | _ => exact .discard whole
  | .block ss _ | .several ss => .bind (visitAll ss) fun _ => .pure none
  | .declaration name _ _ => .bind (declare name) fun _ => .pure none
  | .assignment target value _ => by
    have first := operand value (visit value)
    cases target with
    | text name => exact .bind first fun r => .bind (assign name r) fun _ => .pure none
    | element base index _ =>
      exact .bind first fun _ => .bind (.place base) fun _ => .bind (operand index (visit index)) fun _ =>
        .bind (line rfl) fun _ => .pure none
    | _ => exact .bind first fun _ => .pure none
  | .call name args _ => by
    unfold Gen.visit
    cases Builtin.ofName? name with
    | none => exact .bind (visitArguments args) (callFunction name)
    | some b =>
      cases b with
      | scan => exact .bind .allocate fun r => .bind (line rfl) fun _ => .pure (some r)
      | print => exact .bind (visitFirst args) writeNumber
      | list => exact .bind (visitFirst args) makeList
      | length => exact .bind (visitFirst args) takeLength
  | .element base index _ => .bind (.place base) fun _ => .bind (operand index (visit index)) fun _ => .bind .allocate fun r =>
    .bind (line rfl) fun _ => .pure (some r)
  | .ret value _ => .bind (returned value (visit value)) fun
    | some _ => .bind (line rfl) fun _ => .bind (.say .ret rfl rfl) fun _ => .pure none
    | none => .bind (line rfl) fun _ => .bind (.say .ret rfl rfl) fun _ => .pure none
  | .branch condition yes no _ => .branching (operand condition (visit condition)) (visit yes) (visit no)
  | .whileLoop condition body _ => .repeating (operand condition (visit condition)) (visit body)
  | .doLoop body condition _ => .retrying (doBody body (visit body)) (operand condition (visit condition))
  | .forLoop var start stop body _ => .bind (operand start (visit start)) fun _ => .bind (operand stop (visit stop)) fun bound =>
    .bind (.ownPlace var) fun v => .bind (line rfl) fun _ => .counting v bound (visit body)
  | .identifier x _ => .bind (place? x) fun
    | some r => .pure (some r)
    | none => .bind .allocate fun r => .pure (some r)
  | .number .. | .boolean .. => .bind .allocate fun r => .bind (line rfl) fun _ => .pure (some r)
  | .ternary condition yes no _ =>
    .choosing (operand condition (visit condition)) (operand yes (visit yes)) (operand no (visit no))
  | .binary left _ right _ => .bind (operand left (visit left)) fun _ => .bind (operand right (visit right)) fun _ =>
    .bind .allocate fun r => .bind (line rfl) fun _ => .pure (some r)
  | .unary _ n _ | .listOf n _ =>
    .bind (.warn _) fun _ => ifElse _ (.bind (.discard (visit n)) fun _ => .pure none) (.pure none)
  | .array es _ => .bind (.warn _) fun _ => .bind (visitAll es) fun _ => .pure none
  | .nothing => .pure none
  | .parameter .. | .string .. | .bare | .text _ | .integer _ => .bind (.warn _) fun _ => .pure none

def visitFirst : ∀ ns : List Node, Course (Gen.visitFirst ns)
  | [] => .pure none
  | n :: _ => .bind (operand n (visit n)) fun r => .pure (some r)

def visitArguments : ∀ ns : List Node, Course (Gen.visitArguments ns)
  | [] => .pure []
  | n :: ns => .bind (operand n (visit n)) fun r => .bind (visitArguments ns) fun rs => .pure (r :: rs)

def visitAll : ∀ ns : List Node, Course (Gen.visitAll ns)
  | [] => .pure ()
  | n :: ns => .bind (operand n (visit n)) fun _ => visitAll ns

def visitOwn : ∀ ns : List Node, Course (Gen.visitOwn ns)
  | [] => .pure ()
  | n :: ns => ifElse _ (.bind (.discard (operand n (visit n))) fun _ => visitOwn ns) (visitOwn ns)

def visitProgram : ∀ fs : List Node, Course (Gen.visitProgram fs)
  | [] => .pure ()
  | f :: fs => .bind (visit f) fun _ => .bind (visitNestedIn f) fun _ => visitProgram fs

def visitNestedIn : ∀ n : Node, Course (Gen.visitNestedIn n)
  | .function _ _ _ body _ | .forLoop _ _ _ body _ | .whileLoop _ body _ | .doLoop body _ _ =>
    ifElse _ (.bind (.discard (visit body)) fun _ => visitNestedUnder body) (visitNestedUnder body)
  | .program _ | .parameter .. | .declaration .. | .assignment .. | .call .. | .ret .. | .branch .. | .block .. | .binary ..
  | .unary .. | .identifier .. | .number .. | .string .. | .boolean .. | .ternary .. | .element .. | .array .. | .listOf ..
  | .bare | .nothing | .text _ | .integer _ | .several _ => .pure ()

def visitNestedUnder : ∀ n : Node, Course (Gen.visitNestedUnder n)
  | .several ns | .block ns _ => visitNested ns
  | .function _ _ _ body _ =>
    ifElse _ (.bind (.discard (visit body)) fun _ => visitNestedUnder body) (visitNestedUnder body)
  | .program _ | .parameter .. | .declaration .. | .assignment .. | .call .. | .ret .. | .branch .. | .forLoop ..
  | .whileLoop .. | .doLoop .. | .binary .. | .unary .. | .identifier .. | .number .. | .string .. | .boolean ..
  | .ternary .. | .element .. | .array .. | .listOf .. | .bare | .nothing | .text _ | .integer _ => .pure ()

def visitNested : ∀ ns : List Node, Course (Gen.visitNested ns)
  | [] => .pure ()
  | n :: ns => ifElse _ (.bind (visit n) fun _ => .bind (visitNestedIn n) fun _ => visitNested ns) (visitNested ns)

end

/-- The course of generating the code of a whole tree. -/
def visitTree (tree : Node) : Course (Gen.visitTree tree) := operand tree (visit tree)

end Course

/-! ### Properties of steps and of shapes -/

/-- The properties of computations that all steps of generating code have in which no label plays a part, and all sequences
of computations that have them.  What a variable is looked up in are the homes of names, so a step may depend on these and
on nothing else of the generator. -/
structure Basic (P : ∀ {α : Type}, Gen α → Prop) : Prop where
  pure : ∀ {α : Type} (a : α), P (pure a)
  throw : ∀ {α : Type} (f : Fault), P (throw f : Gen α)
  bind : ∀ {α β : Type} {m : Gen α} {f : α → Gen β}, P m → (∀ a, P (f a)) → P (m >>= f)
  discard : ∀ {α : Type} {m : Gen α}, P m → P (discard m)
  say : ∀ {l : Line}, l.Inner → l.label? = none → l.target? = none → P (emit l)
  allocate : P allocate
  warn : ∀ kind, P (warn kind)
  /-- a look at the homes of names -/
  ask : ∀ {α : Type} {f : Generator → Gen α},
    (∀ s t : Generator, s.params = t.params → s.vars = t.vars → f s = f t) → (∀ s, P (f s)) → P (get >>= f)
  /-- a variable without a register gets one -/
  place : ∀ x, P (place x)
  ownPlace : ∀ x, P (ownPlace x)
  procedure : ∀ (name : String) (params : Node) (returnType : String) {code : Gen Unit}, P code →
    P (procedure name params returnType code)

/-- **The properties of computations that the steps and shapes of generating code have, and all sequences of them.** -/
structure Shaped (P : ∀ {α : Type}, Gen α → Prop) : Prop extends Basic P where
  branching : ∀ {test yes no : Gen (Option Reg)}, P test → P yes → P no → P (branching test yes no)
  repeating : ∀ {test body : Gen (Option Reg)}, P test → P body → P (repeating test body)
  retrying : ∀ {body test : Gen (Option Reg)}, P body → P test → P (retrying body test)
  counting : ∀ (v : Reg) (bound : Option Reg) {body : Gen (Option Reg)}, P body → P (counting v bound body)
  choosing : ∀ {test yes no : Gen (Option Reg)}, P test → P yes → P no → P (choosing test yes no)

/-! ### Procedures -/

/-- The lines that stand around the code of a procedure. -/
def isFraming : Line → Bool
  | .proc _ | .comment _ | .mov .. | .ret | .blank => true
  | _ => false

section
variable {P : ∀ {α : Type}, Gen α → Prop} (pure : ∀ {α : Type} (a : α), P (Pure.pure a))
  (throw : ∀ {α : Type} (f : Fault), P (MonadExcept.throw f : Gen α))
  (bind : ∀ {α β : Type} {m : Gen α} {f : α → Gen β}, P m → (∀ a, P (f a)) → P (m >>= f))
  (param : ∀ (x : String) (i : Nat), P (modify fun s => { s with
    params := s.params.insert x ⟨i⟩
    bank := (s.bank.reserve ⟨i⟩).moveTo (max s.bank.current (i + 1)) }))
include pure throw bind param

theorem placeParams_of_steps : ∀ (i : Nat) (ps : List Node), P (placeParams i ps)
  | _, [] => pure _
  | i, p :: ps => by
    rw [placeParams]
    cases p.name? with
    | none => exact throw _
    | some x => exact bind (param x i) fun _ => bind (placeParams_of_steps (i + 1) ps) fun _ => pure _

variable (say : ∀ {l : Line}, isFraming l = true → P (emit l))
include say

theorem placeParameters_of_steps (params : Node) : P (placeParameters params) := by
  have place (ps : List Node) : P (do
      let texts ← placeParams 1 ps
      emit (.comment ("Parameters: " ++ ", ".intercalate texts))) :=
    bind (placeParams_of_steps pure throw bind param 1 ps) fun _ => say rfl
  unfold placeParameters
  split
  · exact pure _
  · cases params
    case several => exact bind (pure _) place
    case text => exact bind (pure _) place
    all_goals exact bind (throw _) place

variable (look : ∀ {α : Type} {f : Generator → Gen α}, (∀ s, P (f s)) → P (get >>= f))

omit pure throw param in
include look in
theorem closeProc_of_steps (returnType : String) : P (closeProc returnType) := by
  unfold closeProc
  refine look fun s => ?_
  dsimp only
  split
  · split
    · exact bind (say rfl) fun _ => bind (say rfl) fun _ => say rfl
    · exact bind (say rfl) fun _ => say rfl
  · exact say rfl

variable (start : ∀ name : String, P (modify fun s => { s with function := some name, vars := [], params := [], bank := s.bank.clear }))
include look start

/-- **A procedure has every property that its code and the steps around it have.** -/
theorem procedure_of_steps (name : String) (params : Node) (returnType : String) {code : Gen Unit} (h : P code) :
    P (procedure name params returnType code) := by
  have opening : P (openProc name params) :=
    bind (start name) fun _ => bind (say rfl) fun _ => placeParameters_of_steps pure throw bind param say params
  exact bind opening fun _ => bind h fun _ => bind (closeProc_of_steps bind say look returnType) fun _ => pure _

end

/-! ### Steps that settle variables, and steps with labels -/

section
variable {P : ∀ {α : Type}, Gen α → Prop} (pure : ∀ {α : Type} (a : α), P (Pure.pure a))
  (bind : ∀ {α β : Type} {m : Gen α} {f : α → Gen β}, P m → (∀ a, P (f a)) → P (m >>= f)) (allocate : P allocate)
  (ask : ∀ {α : Type} {f : Generator → Gen α},
    (∀ s t : Generator, s.params = t.params → s.vars = t.vars → f s = f t) → (∀ s, P (f s)) → P (get >>= f))
  (settle : ∀ (x : String) (r : Reg), P (modify fun s => { s with vars := s.vars.insert x r }))
include pure bind allocate ask settle

theorem place_of_settle (x : String) : P (place x) := by
  refine bind (ask (fun s t hp hv => by rw [hp, hv]) fun _ => pure _) fun r => ?_
  cases r with
  | some r => exact pure r
  | none => exact bind allocate fun r => bind (settle x r) fun _ => pure r

theorem ownPlace_of_settle (x : String) : P (ownPlace x) := by
  refine bind allocate fun r => ask (fun s t _ hv => by rw [hv]) fun s => ?_
  cases s.vars.find? x with
  | some old => exact pure old
  | none => exact bind (settle x r) fun _ => pure r

end

/-- The properties that are kept also where a variable gets any register at all. -/
structure Settling (P : ∀ {α : Type}, Gen α → Prop) : Prop extends Shaped P where
  settle : ∀ (x : String) (r : Reg), P (modify fun s => { s with vars := s.vars.insert x r })
  place := place_of_settle pure bind allocate ask settle
  ownPlace := ownPlace_of_settle pure bind allocate ask settle

structure Stepwise (P : ∀ {α : Type}, Gen α → Prop) : Prop extends Basic P where
  emit : ∀ {l : Line}, l.Inner → P (emit l)
  freshLabel : ∀ stem, P (freshLabel stem)

/-- The properties that each step with a label has, and that are kept also where a variable gets any register at all. -/
structure Closed (P : ∀ {α : Type}, Gen α → Prop) : Prop extends Basic P where
  emit : ∀ {l : Line}, l.Inner → P (emit l)
  freshLabel : ∀ stem, P (freshLabel stem)
  settle : ∀ (x : String) (r : Reg), P (modify fun s => { s with vars := s.vars.insert x r })
  say hl _ _ := emit hl
  place := place_of_settle pure bind allocate ask settle
  ownPlace := ownPlace_of_settle pure bind allocate ask settle

/-- **A computation has every property that the steps and shapes of its course have.** -/
theorem Shaped.has {P : ∀ {α : Type}, Gen α → Prop} (h : Shaped P) : ∀ {α : Type} {m : Gen α}, Course m → P m
  | _, _, .pure a => h.pure a
  | _, _, .throw f => h.throw f
  | _, _, .bind first rest => h.bind (h.has first) fun a => h.has (rest a)
  | _, _, .discard code => h.discard (h.has code)
  | _, _, .say inner label target => h.say inner label target
  | _, _, .allocate => h.allocate
  | _, _, .warn kind => h.warn kind
  | _, _, .ask same rest => h.ask same fun s => h.has (rest s)
  | _, _, .place x => h.place x
  | _, _, .ownPlace x => h.ownPlace x
  | _, _, .procedure name params returnType code => h.procedure name params returnType (h.has code)
  | _, _, .branching test yes no => h.branching (h.has test) (h.has yes) (h.has no)
  | _, _, .repeating test body => h.repeating (h.has test) (h.has body)
  | _, _, .retrying body test => h.retrying (h.has body) (h.has test)
  | _, _, .counting v bound body => h.counting v bound (h.has body)
  | _, _, .choosing test yes no => h.choosing (h.has test) (h.has yes) (h.has no)

namespace Stepwise

variable {P : ∀ {α : Type}, Gen α → Prop} (h : Stepwise P)
include h

theorem shaped : Shaped P := by
  have step {l : Line} (hl : l.isInstruction = true) : P (Gen.emit l) := h.emit (.instruction hl)
  have label (stem : String) : P (Gen.freshLabel stem) := h.freshLabel stem
  refine { h.toBasic with branching := ?_, repeating := ?_, retrying := ?_, counting := ?_, choosing := ?_ }
  · intro test yes no ht hy hn
    exact h.bind ht fun _ => h.bind (label _) fun _ => h.bind (label _) fun _ => h.bind (step rfl) fun _ => h.bind hy fun _ =>
      h.bind (step rfl) fun _ => h.bind (step rfl) fun _ => h.bind hn fun _ => h.bind (step rfl) fun _ => h.pure none
  · intro test body ht hb
    exact h.bind (label _) fun _ => h.bind (label _) fun _ => h.bind (step rfl) fun _ => h.bind ht fun _ =>
      h.bind (step rfl) fun _ => h.bind hb fun _ => h.bind (step rfl) fun _ => h.bind (step rfl) fun _ => h.pure none
  · intro body test hb ht
    exact h.bind (label _) fun _ => h.bind (step rfl) fun _ => h.bind hb fun _ => h.bind ht fun _ =>
      h.bind (step rfl) fun _ => h.pure none
  · intro v bound body hb
    exact h.bind (label _) fun _ => h.bind (label _) fun _ => h.bind (step rfl) fun _ => h.bind h.allocate fun _ =>
      h.bind (step rfl) fun _ => h.bind (step rfl) fun _ => h.bind hb fun _ => h.bind h.allocate fun _ =>
      h.bind (step rfl) fun _ => h.bind (step rfl) fun _ => h.bind (step rfl) fun _ => h.bind (step rfl) fun _ => h.pure none
  · intro test yes no ht hy hn
    exact h.bind ht fun _ => h.bind (label _) fun _ => h.bind (label _) fun _ => h.bind h.allocate fun r =>
      h.bind (step rfl) fun _ => h.bind hy fun _ => h.bind (step rfl) fun _ => h.bind (step rfl) fun _ =>
      h.bind (step rfl) fun _ => h.bind hn fun _ => h.bind (step rfl) fun _ => h.bind (step rfl) fun _ => h.pure (some r)

end Stepwise

namespace Closed

variable {P : ∀ {α : Type}, Gen α → Prop} (h : Closed P)
include h

theorem shaped : Shaped P := Stepwise.shaped { h with }

theorem has {α : Type} {m : Gen α} (c : Course m) : P m := h.shaped.has c

end Closed

end Gen
end TesLang.Code
