import Mathlib.Logic.Function.Basic
import Mathlib.Logic.Relation
import TesLang.Code.Line
/-!
# The machine that runs the code

Each procedure that is being run has registers of its own.  A call passes its arguments in the registers from 1 on and
leaves all others of the called procedure without a value; what that procedure has in its first register when it
returns goes to the register that the call names.  Reading a register without a value is no step, and neither is a line
whose operand is missing: the machine is stuck there.

Labels, comments and heads of procedures are passed over.  A jump goes on at the line of its label, a call at the head of
its procedure (`linesFrom?`).  Memory is handed out in consecutive cells.

What division means is left open: `div` gives the quotient of two numbers, or nothing.
-/
namespace TesLang.Code

/-- What a run reads and writes: the numbers still to be read, and those written so far. -/
structure World where
  input : List Int
  output : List Int := []
  deriving DecidableEq, Repr

/-- The cells of memory, and the address of the first one that is not handed out. -/
structure Heap where
  cells : Int → Option Int := fun _ => none
  bound : Int := 1

abbrev Regs := Reg → Option Int

/-- A procedure that waits for another one: where its result goes, and how it goes on. -/
structure Caller where
  target : Reg
  rest : List Line
  regs : Regs

/-- A machine at work: the lines that are still to be run, and all it works on. -/
structure Machine where
  rest : List Line
  regs : Regs
  callers : List Caller := []
  world : World
  heap : Heap := {}

inductive Config where
  | running (m : Machine)
  /-- the first procedure has returned -/
  | halted (result : Option Int) (world : World)

/-- The lines from the first one on that is `l`. -/
def linesFrom? (l : Line) : List Line → Option (List Line)
  | [] => none
  | k :: ks => if k = l then some (k :: ks) else linesFrom? l ks

theorem linesFrom?_append {l : Line} : ∀ {before after : List Line}, l ∉ before →
    linesFrom? l (before ++ l :: after) = some (l :: after)
  | [], _, _ => by rw [List.nil_append, linesFrom?, if_pos rfl]
  | k :: ks, _, h => by
    have hk : k ≠ l := fun e => h (e ▸ List.mem_cons_self)
    rw [List.cons_append, linesFrom?, if_neg hk]
    exact linesFrom?_append fun hm => h (List.mem_cons_of_mem _ hm)

/-- The number that stands for a truth value. -/
def truth (p : Prop) [Decidable p] : Int := if p then 1 else 0

/-- What an operation gives. -/
def Operation.apply (div : Int → Int → Option Int) : Operation → Int → Int → Option Int
  | add, a, b => some (a + b)
  | sub, a, b => some (a - b)
  | mul, a, b => some (a * b)
  | .div, a, b => div a b
  | less, a, b => some (truth (a < b))
  | greater, a, b => some (truth (a > b))
  | atMost, a, b => some (truth (a ≤ b))
  | atLeast, a, b => some (truth (a ≥ b))
  | equal, a, b => some (truth (a = b))
  | notEqual, a, b => some (truth (a ≠ b))
  | unknown, _, _ => none

/-- The registers of a procedure that is called with the given arguments. -/
def passed (args : List Int) : Regs := fun r => if r.index ≤ 0 then none else args[(r.index - 1).toNat]?

namespace Machine

/-- The machine that goes on at other lines. -/
def goto (m : Machine) (rest : List Line) : Config := .running { m with rest }

/-- The machine that goes on with a new value in a register. -/
def put (m : Machine) (r : Reg) (v : Option Int) (rest : List Line) : Config :=
  .running { m with rest, regs := Function.update m.regs r v }

/-- The machine after a return. -/
def back (m : Machine) (result : Option Int) : Config :=
  match m.callers with
  | [] => .halted result m.world
  | c :: cs => .running { m with rest := c.rest, regs := Function.update c.regs c.target result, callers := cs }

variable (div : Int → Int → Option Int) (prog : List Line)

/-- One step of a machine that runs the program `prog`. -/
def step (m : Machine) : Option Config :=
  match m.rest with
  | [] => none
  | l :: rest =>
    match l with
    | .proc _ | .comment _ | .label _ | .blank => some (m.goto rest)
    | .mov t (.literal n) => some (m.put t n rest)
    | .mov t (.reg r) => do
      let v ← m.regs r
      some (m.put t v rest)
    | .binary o t (some a) (some b) => do
      let x ← m.regs a
      let y ← m.regs b
      let v ← o.apply div x y
      some (m.put t v rest)
    | .call f t args => do
      let vs ← args.mapM m.regs
      let head ← linesFrom? (.proc f) prog
      some (.running { m with rest := head, regs := passed vs, callers := ⟨t, rest, m.regs⟩ :: m.callers })
    | .input t =>
      match m.world.input with
      | [] => none
      | v :: vs => some ({ m with world := { m.world with input := vs } }.put t v rest)
    | .output (some r) => do
      let v ← m.regs r
      some ({ m with world := { m.world with output := m.world.output ++ [v] } }.goto rest)
    | .memory t (some r) => do
      let n ← m.regs r
      some ({ m with heap := { m.heap with bound := m.heap.bound + max n 0 } }.put t m.heap.bound rest)
    | .load t b => do
      let a ← m.regs b
      let v ← m.heap.cells a
      some (m.put t v rest)
    | .store (some r) b => do
      let v ← m.regs r
      let a ← m.regs b
      some ({ m with heap := { m.heap with cells := Function.update m.heap.cells a (some v) } }.goto rest)
    | .jumpIfZero (some r) target => do
      let v ← m.regs r
      if v = 0 then (linesFrom? (.label target) prog).map m.goto else some (m.goto rest)
    | .jumpUnlessZero (some r) target => do
      let v ← m.regs r
      if v = 0 then some (m.goto rest) else (linesFrom? (.label target) prog).map m.goto
    | .jump target => (linesFrom? (.label target) prog).map m.goto
    | .ret => some (m.back (m.regs .result))
    | _ => none

/-- Finitely many steps lead from one configuration to another. -/
def Steps : Config → Config → Prop :=
  Relation.ReflTransGen fun c c' => ∃ m, c = .running m ∧ m.step div prog = some c'

/-- The machine that is about to run procedure `f`. -/
def entering (f : String) (args input : List Int) : Option Machine := do
  let head ← linesFrom? (.proc f) prog
  some { rest := head, regs := passed args, world := { input } }

/-- **Procedure `f`, called with `args`, returns `result`**, having read and written what `world` says. -/
def Returns (f : String) (args input : List Int) (result : Option Int) (world : World) : Prop :=
  ∃ m, entering prog f args input = some m ∧ Steps div prog (.running m) (.halted result world)

/-- **The machine gets stuck**: it comes to a line that it cannot run. -/
def Stuck (c : Config) : Prop := ∃ m, Steps div prog c (.running m) ∧ m.step div prog = none

/-- What a machine returns after at most `n` steps, and the world it leaves. -/
def outcome : Nat → Config → Option (Option Int × World)
  | _, .halted result world => some (result, world)
  | 0, .running _ => none
  | n + 1, .running m => (m.step div prog).bind (outcome n)

/-- Whether a machine gets stuck within `n` steps. -/
def sticks : Nat → Config → Bool
  | 0, _ | _, .halted .. => false
  | n + 1, .running m => (m.step div prog).elim true (sticks n)

/-! ### Single steps

`m.on rest σ w` is the machine `m` with other lines to run, other registers and another world; callers and memory are
those of `m`.
-/

/-- The machine at the given lines, with the given registers, in the given world. -/
def on (m : Machine) (rest : List Line) (σ : Regs) (w : World) : Config :=
  .running { m with rest, regs := σ, world := w }

/-- The machine after a return in the given world. -/
def returning (m : Machine) (result : Option Int) (w : World) : Config := { m with world := w }.back result

section
variable {div : Int → Int → Option Int} {prog : List Line} {m : Machine} {k : List Line} {σ : Regs} {w : World}

theorem Steps.refl (c : Config) : Steps div prog c c := Relation.ReflTransGen.refl

theorem Steps.trans {a b c : Config} (h : Steps div prog a b) (h' : Steps div prog b c) : Steps div prog a c :=
  Relation.ReflTransGen.trans h h'

theorem Steps.of_step {m : Machine} {c : Config} (h : m.step div prog = some c) : Steps div prog (.running m) c :=
  Relation.ReflTransGen.single ⟨m, rfl, h⟩

theorem steps_of_outcome : ∀ {n : Nat} {c : Config} {result : Option Int}, outcome div prog n c = some (result, w) →
    Steps div prog c (.halted result w)
  | _, .halted _ _, _, h => by
    rw [outcome] at h
    obtain ⟨rfl, rfl⟩ := Prod.mk.inj (Option.some.inj h)
    exact .refl _
  | n + 1, .running _, _, h => by
    obtain ⟨c, step, h⟩ := Option.bind_eq_some_iff.1 h
    exact (Steps.of_step step).trans (steps_of_outcome h)

theorem Stuck.after {c c' : Config} (h : Stuck div prog c') (steps : Steps div prog c c') : Stuck div prog c :=
  h.imp fun _ h => ⟨steps.trans h.1, h.2⟩

theorem stuck_of_sticks : ∀ {n : Nat} {c : Config}, sticks div prog n c = true → Stuck div prog c
  | n + 1, .running m, h => by
    unfold sticks at h
    cases step : m.step div prog with
    | none => exact ⟨m, .refl _, step⟩
    | some c =>
      rw [step] at h
      exact (stuck_of_sticks h).after (.of_step step)

/-- Of two configurations that a machine comes to, one comes later. -/
theorem Steps.total {a b c : Config} (h : Steps div prog a b) (h' : Steps div prog a c) :
    Steps div prog b c ∨ Steps div prog c b := by
  refine Relation.ReflTransGen.total_of_right_unique ?_ h h'
  rintro _ _ _ ⟨m, rfl, step⟩ ⟨_, same, step'⟩
  cases same
  exact Option.some.inj (step.symm.trans step')

theorem Steps.of_halted {c : Config} {result : Option Int} (h : Steps div prog (.halted result w) c) :
    c = .halted result w := by
  obtain same | ⟨_, ⟨_, running, _⟩, _⟩ := h.cases_head
  · exact same.symm
  · cases running

/-- **A machine returns in one way only.** -/
theorem Steps.unique {c : Config} {result result' : Option Int} {w' : World} (h : Steps div prog c (.halted result w))
    (h' : Steps div prog c (.halted result' w')) : result = result' ∧ w = w' := by
  obtain later | later := h.total h'
  · cases later.of_halted
    exact ⟨rfl, rfl⟩
  · cases later.of_halted
    exact ⟨rfl, rfl⟩

/-- **A machine that gets stuck does not return.** -/
theorem Stuck.not_halted {c : Config} {result : Option Int} (h : Stuck div prog c) :
    ¬ Steps div prog c (.halted result w) := by
  intro h'
  obtain ⟨m, steps, none⟩ := h
  obtain later | later := steps.total h'
  · obtain same | ⟨_, ⟨_, running, step⟩, _⟩ := later.cases_head
    · cases same
    · cases running
      cases none.symm.trans step
  · cases later.of_halted

def isPassed : Line → Bool
  | .proc _ | .comment _ | .label _ | .blank => true
  | _ => false

theorem steps_pass {l : Line} (h : isPassed l = true) : Steps div prog (m.on (l :: k) σ w) (m.on k σ w) := by
  refine .of_step ?_
  cases l <;> first | rfl | cases h

theorem steps_literal (t : Reg) (n : Int) :
    Steps div prog (m.on (.mov t (.literal n) :: k) σ w) (m.on k (Function.update σ t (some n)) w) :=
  .of_step rfl

theorem steps_move {t r : Reg} {v : Int} (h : σ r = some v) :
    Steps div prog (m.on (.mov t (.reg r) :: k) σ w) (m.on k (Function.update σ t (some v)) w) := by
  refine .of_step ?_
  simp only [step, h]
  rfl

theorem steps_binary {o : Operation} {t a b : Reg} {x y v : Int} (ha : σ a = some x) (hb : σ b = some y)
    (ho : o.apply div x y = some v) :
    Steps div prog (m.on (.binary o t (some a) (some b) :: k) σ w) (m.on k (Function.update σ t (some v)) w) := by
  refine .of_step ?_
  simp only [step, ha, hb]
  show (o.apply div x y).bind _ = _
  rw [ho]
  rfl

theorem steps_input (t : Reg) {v : Int} {vs out : List Int} :
    Steps div prog (m.on (.input t :: k) σ ⟨v :: vs, out⟩) (m.on k (Function.update σ t (some v)) ⟨vs, out⟩) :=
  .of_step rfl

theorem steps_output {r : Reg} {v : Int} (h : σ r = some v) :
    Steps div prog (m.on (.output (some r) :: k) σ w) (m.on k σ { w with output := w.output ++ [v] }) := by
  refine .of_step ?_
  simp only [step, h]
  rfl

theorem steps_jump {l : Label} {there : List Line} (h : linesFrom? (.label l) prog = some there) :
    Steps div prog (m.on (.jump l :: k) σ w) (m.on there σ w) := by
  refine .of_step ?_
  simp only [step, h]
  rfl

theorem steps_zero {r : Reg} {l : Label} {there : List Line} (hr : σ r = some 0)
    (h : linesFrom? (.label l) prog = some there) :
    Steps div prog (m.on (.jumpIfZero (some r) l :: k) σ w) (m.on there σ w) := by
  refine .of_step ?_
  simp only [step, hr, h]
  rfl

theorem steps_nonzero {r : Reg} {l : Label} {v : Int} (hr : σ r = some v) (hv : v ≠ 0) :
    Steps div prog (m.on (.jumpIfZero (some r) l :: k) σ w) (m.on k σ w) := by
  refine .of_step ?_
  simp only [step, hr]
  show (if v = 0 then _ else some _) = _
  rw [if_neg hv]
  rfl

theorem steps_again {r : Reg} {l : Label} {v : Int} {there : List Line} (hr : σ r = some v) (hv : v ≠ 0)
    (h : linesFrom? (.label l) prog = some there) :
    Steps div prog (m.on (.jumpUnlessZero (some r) l :: k) σ w) (m.on there σ w) := by
  refine .of_step ?_
  simp only [step, hr, h]
  show (if v = 0 then some _ else _) = _
  rw [if_neg hv]
  rfl

theorem steps_leave {r : Reg} {l : Label} (hr : σ r = some 0) :
    Steps div prog (m.on (.jumpUnlessZero (some r) l :: k) σ w) (m.on k σ w) := by
  refine .of_step ?_
  simp only [step, hr]
  rfl

theorem steps_ret : Steps div prog (m.on (.ret :: k) σ w) (m.returning (σ .result) w) := .of_step rfl

theorem steps_call {f : String} {t : Reg} {args : List Reg} {vs : List Int} {head : List Line} {result : Option Int}
    {w' : World} (ha : args.mapM σ = some vs) (hf : linesFrom? (.proc f) prog = some head)
    (body : ∀ m : Machine, Steps div prog (m.on head (passed vs) w) (m.returning result w')) :
    Steps div prog (m.on (.call f t args :: k) σ w) (m.on k (Function.update σ t result) w') := by
  refine .trans (.of_step ?_) (body { m with callers := ⟨t, k, σ⟩ :: m.callers })
  simp only [step, ha, hf]
  rfl

end
end Machine
end TesLang.Code
