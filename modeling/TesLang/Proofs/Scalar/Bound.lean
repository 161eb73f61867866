import TesLang.Proofs.Scalar.Correctness
import TesLang.Proofs.Session.Running
/-!
# What the bound of a loop is

The test of a loop compares with the register in which the value of the bound was left.  For a variable that is the register
of the variable itself, so the variable is read again at each test; for a sum it is a register of its own, which is set
before the first test and then left alone.

So the machine that runs the code of a loop up to a variable does what the loop means whose bound is the variable, and the
machine that runs the code of the same loop up to the sum of the variable and zero does what the loop means whose bound is a
number.  Two such loops do the same if and only if their tests always turn out alike (`Loop.same_iff`), and so they can be
told apart if the body changes the variable (`bound_matters_iff`).
-/
namespace TesLang.Scalar

open Code Code.Gen Code.Generator Code.Machine

namespace Loop

section
variable (div : Int → Int → Option Int) (fs : List Node) (n : Nat) (L : Loop)

/-- What the loop comes to after `k` whole turns. -/
def after : Nat → Env × World → Option (Env × World)
  | 0, p => some p
  | k + 1, p => (L.turn div fs n p).bind (after k)

/-- **Two loops do the same**: one makes a turn where the other does, and they end alike after as many turns. -/
def Same (L' : Loop) (p : Env × World) : Prop := ∀ k,
  ((L.after div fs n k p).bind fun q => L.goesOn q.1) = ((L'.after div fs n k p).bind fun q => L'.goesOn q.1) ∧
    (L.after div fs n k p).bind (L.leaves div fs n) = (L'.after div fs n k p).bind (L'.leaves div fs n)

end

variable {div : Int → Int → Option Int} {fs : List Node} {n : Nat} {L : Loop} {c : Env → Option Int} {p q : Env × World}

theorem turn_congr (h : L.goesOn p.1 = { L with bound := c }.goesOn p.1) :
    L.turn div fs n p = { L with bound := c }.turn div fs n p := by
  unfold turn
  rw [h]

theorem leaves_congr (h : L.goesOn p.1 = { L with bound := c }.goesOn p.1) :
    L.leaves div fs n p = { L with bound := c }.leaves div fs n p := by
  unfold leaves
  rw [h]

/-- Loops whose tests turn out alike get to the same. -/
theorem after_congr : ∀ (k : Nat) {p : Env × World},
    (∀ j < k, ∀ q, L.after div fs n j p = some q → L.goesOn q.1 = { L with bound := c }.goesOn q.1) →
    L.after div fs n k p = { L with bound := c }.after div fs n k p
  | 0, _, _ => rfl
  | k + 1, p, h => by
    rw [after, after, ← turn_congr (h 0 k.succ_pos p rfl)]
    cases e : L.turn div fs n p with
    | none => rfl
    | some q =>
      refine after_congr k fun j hj r hr => h (j + 1) (Nat.succ_lt_succ hj) r ?_
      rw [after, e]
      exact hr

/-- **Loops that differ in the bound do the same if and only if their tests turn out alike.** -/
theorem same_iff : L.Same div fs n { L with bound := c } p ↔
    ∀ k q, L.after div fs n k p = some q → L.goesOn q.1 = { L with bound := c }.goesOn q.1 := by
  constructor
  · intro same k
    -- the tests before this one turn out alike, so both loops have come to the same
    induction k using Nat.strongRecOn with
    | _ k ih =>
      intro q hq
      have alike := (same k).1
      rw [← after_congr k ih, hq] at alike
      exact alike
  · intro alike k
    rw [← after_congr k fun j _ q hq => alike j q hq]
    cases e : L.after div fs n k p with
    | none => exact ⟨rfl, rfl⟩
    | some q => exact ⟨alike k q e, leaves_congr (alike k q e)⟩

end Loop

variable {div : Int → Int → Option Int} {fs : List Node} {prog : List Line} {n : Nat} {known params : List String} {L : Loop}
  {ρ ρ' : Env} {w w' : World} {o : Outcome} {sf s s' : Generator} {v b : Reg} {m : Machine} {σ : Regs}

/-- The machine makes `k` turns: from the test it goes inside, and from there it comes back to the test. -/
inductive Turns (div : Int → Int → Option Int) (prog : List Line) (m : Machine) (test inside : List Line) :
    Nat → Regs → World → Regs → World → Prop
  | none {σ : Regs} {w : World} : Turns div prog m test inside 0 σ w σ w
  | turn {k : Nat} {σ τ σ₁ σ' : Regs} {w w₁ w' : World} (into : Steps div prog (m.on test σ w) (m.on inside τ w))
    (back : Steps div prog (m.on inside τ w) (m.on test σ₁ w₁)) (rest : Turns div prog m test inside k σ₁ w₁ σ' w') :
    Turns div prog m test inside (k + 1) σ w σ' w'

/-- **After each turn of the loop the machine is back at the test.** -/
theorem Stands.steps_after (h : Stands fs prog sf params L v b s s') (sim : Simulates div fs prog n) : ∀ (k : Nat) {ρ ρ' : Env}
    {w w' : World} {σ : Regs}, Represents sf σ ρ → Holds sf s L b σ → L.after div fs n k (ρ, w) = some (ρ', w') →
    ∃ σ', Turns div prog m (here prog s) (here prog (entry s v b)) k σ w σ' w' ∧ Represents sf σ' ρ' ∧
      Keeps sf s (L.var :: assigns L.body) σ σ'
  | 0, _, _, _, _, σ, hσ, _, he => by
    cases he
    exact ⟨σ, .none, hσ, .refl _ _ _ _⟩
  | k + 1, _, _, _, _, _, hσ, holds, he => by
    obtain ⟨⟨ρ₁, w₁⟩, turn, rest⟩ := Option.bind_eq_some_iff.1 he
    obtain ⟨τ, σ₁, into, back, hσ₁, k₁⟩ := h.steps_turn sim hσ holds turn
    obtain ⟨σ', st', hσ', k'⟩ := h.steps_after sim k hσ₁ (holds.keeps k₁) rest
    exact ⟨σ', .turn into back st', hσ', k₁.trans k' (.refl s)⟩

/-! ### Up to a variable, and up to a number -/

/-- Code of the statement `node` is part of a program, and so is code of the functions `fs`. -/
structure Coded (fs : List Node) (prog : List Line) (known params : List String) (node : Node) (sf s s' : Generator) : Prop where
  compiled : Compiled fs prog
  site : Site prog sf known s s'
  locals : Locals sf params
  run : ∃ t, Ran (visit node) s t s'

variable (div fs n prog L) in
/-- **The machine at the first label of a loop does what the loop does.**  After `k` turns it is at the test again, where it
goes on into the body if the loop does, and it ends as the loop ends. -/
structure Runs (sf s s' : Generator) (v b : Reg) (m : Machine) (σ : Regs) (p : Env × World) : Prop where
  values : Represents sf σ p.1
  turns : ∀ k ρ w, L.after div fs n k p = some (ρ, w) → ∃ σ',
    Turns div prog m (here prog s) (here prog (entry s v b)) k σ p.2 σ' w ∧ Represents sf σ' ρ ∧
      (L.goesOn ρ = some true → ∃ τ, Steps div prog (m.on (here prog s) σ' w) (m.on (here prog (entry s v b)) τ w))
  ends : ∀ k o w, (L.after div fs n k p).bind (L.leaves div fs n) = some (o, w) →
    Ends div prog sf s s' (L.var :: assigns L.body) m σ p.2 w o

theorem Turns.steps {test inside : List Line} {k : Nat} {σ' : Regs} (h : Turns div prog m test inside k σ w σ' w') :
    Steps div prog (m.on test σ w) (m.on test σ' w') := by
  induction h with
  | none => exact .refl _
  | turn into back _ ih => exact into.trans (back.trans ih)

theorem Stands.runs (h : Stands fs prog sf params L v b s s') (sim : Simulates div fs prog n) {p : Env × World}
    (hσ : Represents sf σ p.1) (holds : Holds sf s L b σ) : Runs div fs prog n L sf s s' v b m σ p where
  values := hσ
  turns k ρ w he := by
    obtain ⟨σ', turns, hσ', kept⟩ := h.steps_after (m := m) sim k hσ holds he
    exact ⟨σ', turns, hσ', fun on => ⟨_, h.enters hσ' (holds.keeps kept) on⟩⟩
  ends k o w he := by
    obtain ⟨⟨ρ₁, w₁⟩, after, leaves⟩ := Option.bind_eq_some_iff.1 he
    obtain ⟨σ', turns, hσ', kept⟩ := h.steps_after (m := m) sim k hσ holds after
    exact (h.ends_leaves sim hσ' (holds.keeps kept) leaves).after turns.steps kept (.refl s) (List.Subset.refl _)

/-- A loop over scalar statements up to what `bound` gives. -/
def upTo (i : String) (body : Node) (known : List String) (bound : Env → Option Int) : Loop := ⟨i, bound, body, i :: known⟩

/-- The sum of a variable and zero. -/
def plusZero (x : String) (l₁ l₂ l₃ : Int) : Node := .binary (.identifier x l₁) "+" (.number 0 l₂) l₃

section
variable {i x : String} {start body : Node} {l l₁ l₂ l₃ : Int}

/-- **The code of a loop up to a variable reads the variable again at each test.** -/
theorem runs_upTo_variable (program : isProgram fs = true)
    (coded : Coded fs prog known params (.forLoop i start (.identifier x l₁) body l) sf s s') (own : i ∉ params)
    (hs : isExpr (names fs) start = true) (hb : isStmt (names fs) params body = true)
    (hx : x ∈ known) (differ : x ≠ i) :
    ∃ v b h, ∀ (div : Int → Int → Option Int) (j n : Nat) (ρ : Env) (w w₁ : World) (a c : Int),
      eval div fs j known ρ start w = some (a, w₁, []) → ρ x = some c → ∀ (m : Machine) (σ : Regs), Represents sf σ ρ →
      ∃ τ, Steps div prog (m.on (here prog s) σ w) (m.on (here prog h) τ w₁) ∧
        Runs div fs prog n (upTo i body known (· x)) sf h s' v b m τ (ρ.set i a, w₁) := by
  have hf := callable_of_isProgram program
  have sim : ∀ {div : Int → Int → Option Int} (n : Nat), Simulates div fs prog n :=
    simulates coded.compiled program hf
  obtain ⟨t, hr⟩ := coded.run
  obtain ⟨v, b, s₁, s₂, h, run, -, -, g₁, -, w₂, -, -, stands, starts⟩ :=
    starts_for hf coded.site coded.locals own hs rfl hb hr
  have home : sf.home x = some b := by
    obtain ⟨r, hr⟩ := coded.site.housed x hx
    rcases ran_identifier.1 run with ⟨q, hq, e, rfl⟩ | ⟨none, -⟩
    · cases e
      exact w₂.keep hq
    · cases (g₁.keep hr).symm.trans none
  have ne : b ≠ v := by
    rintro rfl
    exact differ (coded.site.final.home_inj home (stands fun _ => none).home)
  refine ⟨v, b, h, fun div j n ρ w w₁ a c e₁ hc m σ hσ => ?_⟩
  have e₂ : eval div fs 1 known ρ (.identifier x l₁) w₁ = some (c, w₁, []) := by simp [eval, hx, hc]
  obtain ⟨τ, steps, hτ, -⟩ := starts (sim j) (sim 1) e₁ e₂ m σ hσ
  exact ⟨τ, steps, (stands (· x)).runs (sim n) hτ fun σ' ρ' _ hσ' z hz => hσ'.at_home home hz⟩

/-- **The code of a loop up to a sum has its bound in a register of its own.** -/
theorem runs_upTo_sum (program : isProgram fs = true)
    (coded : Coded fs prog known params (.forLoop i start (plusZero x l₁ l₂ l₃) body l) sf s s') (own : i ∉ params)
    (hs : isExpr (names fs) start = true) (hb : isStmt (names fs) params body = true)
    (hx : x ∈ known) :
    ∃ v b h, ∀ (div : Int → Int → Option Int) (j n : Nat) (ρ : Env) (w w₁ : World) (a c : Int),
      eval div fs j known ρ start w = some (a, w₁, []) → ρ x = some c → ∀ (m : Machine) (σ : Regs), Represents sf σ ρ →
      ∃ τ, Steps div prog (m.on (here prog s) σ w) (m.on (here prog h) τ w₁) ∧
        Runs div fs prog n (upTo i body known fun _ => some c) sf h s' v b m τ (ρ.set i a, w₁) := by
  have hf := callable_of_isProgram program
  have sim : ∀ {div : Int → Int → Option Int} (n : Nat), Simulates div fs prog n :=
    simulates coded.compiled program hf
  obtain ⟨t, hr⟩ := coded.run
  obtain ⟨v, b, s₁, s₂, h, run, -, hs₁, -, -, w₂, -, taken, stands, starts⟩ :=
    starts_for hf coded.site coded.locals own hs rfl hb hr
  have fresh : ∀ y, sf.home y ≠ some b := by
    have reads : isExpr (names fs) (.identifier x l₁) = true := rfl
    obtain ⟨_, g₁, h₁, _, g₂, h₂, e, rfl⟩ := (ran_binary reads rfl).1 run
    cases e
    obtain ⟨sound₁, -⟩ := visit_advances _ rfl _ _ _ h₁ hs₁
    obtain ⟨sound₂, -⟩ := visit_advances _ rfl _ _ _ h₂ sound₁
    exact w₂.of_add.home_ne_next sound₂
  refine ⟨v, b, h, fun div j n ρ w w₁ a c e₁ hc m σ hσ => ?_⟩
  have e₂ : eval div fs 2 known ρ (plusZero x l₁ l₂ l₃) w₁ = some (c, w₁, []) := by
    simp [eval, plusZero, hx, hc, Result.andThen, Operation.ofText, Operation.apply]
  obtain ⟨τ, steps, hτ, -, held⟩ := starts (sim j) (sim 2) e₁ e₂ m σ hσ
  have ne : b ≠ v := fun e => fresh i (e ▸ (stands fun _ => none).home)
  refine ⟨τ, steps, (stands fun _ => some c).runs (sim n) hτ fun σ' ρ' kept _ z hz => ?_⟩
  cases hz
  rw [kept b taken fun y _ => fresh y, held ne]

/-- At each test the variable of the loop has a value. -/
theorem exists_var_of_after : ∀ (k : Nat) {p q : Env × World}, (∃ u, p.1 L.var = some u) → L.after div fs n k p = some q →
    ∃ u, q.1 L.var = some u
  | 0, _, _, h, he => by
    cases he
    exact h
  | k + 1, p, q, _, he => by
    obtain ⟨r, turn, rest⟩ := Option.bind_eq_some_iff.1 he
    refine exists_var_of_after k ?_ rest
    unfold Loop.turn at turn
    split at turn
    · split at turn
      · obtain ⟨u, -, rfl⟩ := Option.map_eq_some_iff.1 turn
        exact ⟨u + 1, Function.update_self ..⟩
      · cases turn
    · cases turn

/-- A test against a variable turns out as one against a number. -/
theorem goesOn_eq_iff {u c : Int} (hu : ρ i = some u) :
    (upTo i body known (· x)).goesOn ρ = (upTo i body known fun _ => some c).goesOn ρ ↔
      ∃ z, ρ x = some z ∧ (u < z ↔ u < c) := by
  simp only [Loop.goesOn, upTo, hu, Option.bind_eq_bind, Option.bind_some]
  cases ρ x with
  | none => simp
  | some z => simp

/-- **When a loop up to a variable can be told apart from the loop up to its sum with zero.**  Let `fs` be scalar
functions, and let code of the loop over `i` up to the variable `x` be part of one program and code of the same loop up
to `x + 0` part of another.  From equal values of the variables, at which the start of the loops has a value and `x` too,
the machines get to the tests of their loops.  The first machine then does what the loop does that compares with `x` at each
test, and the second what the loop does that compares with the value that `x` had at first.  These two make the same turns
and end alike, with the same values, result and output, if and only if at each test of the first the value of `x` decides as
the one that it had at first. -/
theorem bound_matters_iff (program : isProgram fs = true)
    {prog' : List Line} {sf' g g' : Generator}
    (coded : Coded fs prog known params (.forLoop i start (.identifier x l₁) body l) sf s s')
    (coded' : Coded fs prog' known params (.forLoop i start (plusZero x l₁ l₂ l₃) body l) sf' g g') (own : i ∉ params)
    (hs : isExpr (names fs) start = true) (hb : isStmt (names fs) params body = true)
    (hx : x ∈ known) (differ : x ≠ i) :
    ∃ v b h v' b' h', ∀ (div : Int → Int → Option Int) (j n : Nat) (ρ : Env) (w w₁ : World) (a c : Int),
      eval div fs j known ρ start w = some (a, w₁, []) → ρ x = some c →
      ∀ (m m' : Machine) (σ σ' : Regs), Represents sf σ ρ → Represents sf' σ' ρ →
      (∃ τ, Steps div prog (m.on (here prog s) σ w) (m.on (here prog h) τ w₁) ∧
        Runs div fs prog n (upTo i body known (· x)) sf h s' v b m τ (ρ.set i a, w₁)) ∧
      (∃ τ', Steps div prog' (m'.on (here prog' g) σ' w) (m'.on (here prog' h') τ' w₁) ∧
        Runs div fs prog' n (upTo i body known fun _ => some c) sf' h' g' v' b' m' τ' (ρ.set i a, w₁)) ∧
      ((upTo i body known (· x)).Same div fs n (upTo i body known fun _ => some c) (ρ.set i a, w₁) ↔
        ∀ k ρ' w', (upTo i body known (· x)).after div fs n k (ρ.set i a, w₁) = some (ρ', w') →
          ∃ u z, ρ' i = some u ∧ ρ' x = some z ∧ (u < z ↔ u < c)) := by
  obtain ⟨v, b, h, first⟩ := runs_upTo_variable program coded own hs hb hx differ
  obtain ⟨v', b', h', second⟩ := runs_upTo_sum program coded' own hs hb hx
  refine ⟨v, b, h, v', b', h', fun div j n ρ w w₁ a c e hc m m' σ σ' hσ hσ' => ⟨first div j n ρ w w₁ a c e hc m σ hσ,
    second div j n ρ w w₁ a c e hc m' σ' hσ', ?_⟩⟩
  have same : (upTo i body known (· x)).Same div fs n (upTo i body known fun _ => some c) (ρ.set i a, w₁) ↔ _ :=
    Loop.same_iff
  refine same.trans ⟨fun alike k ρ' w' he => ?_, fun decides k q he => ?_⟩
  · obtain ⟨u, hu⟩ := exists_var_of_after k ⟨a, Function.update_self ..⟩ he
    obtain ⟨z, hz, iff⟩ := (goesOn_eq_iff hu).1 (alike k _ he)
    exact ⟨u, z, hu, hz, iff⟩
  · obtain ⟨u, z, hu, hz, iff⟩ := decides k q.1 q.2 he
    exact (goesOn_eq_iff hu).2 ⟨z, hz, iff⟩

end

/-- A loop up to some bound whose body changes the variable `x`. -/
def changing (bound : Node) : Node :=
  .forLoop "i" (.number 0 2) bound (.block [.assignment (.text "x") (.number 1 2) 2, .call "print" [.identifier "i" 2] 2] 2) 2

/-- Code can be generated for it where `x` is declared. -/
theorem exists_coded_changing (bound : Node) (hz : isExpr [] bound = true) :
    ∃ prog sf s s', Coded [] prog ["x"] [] (changing bound) sf s s' ∧ s.Grows s' := by
  have hf : Callable [] := nofun
  have declares : isStmt [] [] (.declaration "x" "int" 1) = true := rfl
  have scalar : isStmt [] [] (.block [.assignment (.text "x") (.number 1 2) 2, .call "print" [.identifier "i" 2] 2] 2) = true :=
    by decide
  have sound : ({} : Generator).Sound := ⟨by decide, nofun, nofun, nofun, nofun, nofun⟩
  obtain ⟨_, s, declared⟩ := visit_stmt hf declares {}
  obtain ⟨_, s₁, start, -⟩ := visit_expr hf (e := .number 0 2) rfl s
  obtain ⟨_, s₂, stop, -⟩ := visit_expr hf hz s₁
  obtain ⟨v, s₃, place⟩ := exists_ownPlace "i" s₂
  obtain ⟨_, s₄, body⟩ := visit_stmt hf scalar _
  obtain ⟨s', run⟩ : ∃ s', Ran (visit (changing bound)) s none s' :=
    ⟨_, (ran_for rfl hz).2 ⟨_, _, start, _, _, stop, v, _, place, rfl, _, _, body, rfl⟩⟩
  have plain : Code.plain (changing bound) = true := by simp [changing, Code.plain, plainAll, plain_of_isExpr hz]
  obtain ⟨hs, g⟩ := visit_advances _ (plain_of_isStmt declares) _ _ _ declared sound
  obtain ⟨final, grows⟩ := visit_advances _ plain _ _ _ run hs
  have whole : Ran (visit (.several [.declaration "x" "int" 1, changing bound])) {} none _ :=
    ran_several.2 ⟨rfl, (ran_cons rfl).2 ⟨_, _, declared, (ran_cons rfl).2 ⟨_, _, run, ran_nil.2 rfl⟩⟩⟩
  obtain ⟨new, code, numbered, -⟩ := visit_labelled _ _ _ _ whole
  have labels : (labelsIn s'.code.toList).Nodup := by
    rw [code]
    exact numbered.nodup.of_map
  refine ⟨s'.code.toList, s', s, s', ⟨⟨labels, ?_, nofun⟩, ⟨final, List.prefix_rfl, labels, hs, .refl _,
    visit_brings hf declares declared sound⟩, fun x _ => ?_, _, run⟩, grows⟩
  · have none : headsOf (outline (.several [.declaration "x" "int" 1, changing bound])) = [] :=
      headsOf_plain (by simp [Code.plain, plainAll, plain])
    rw [visit_outlines _ _ _ _ whole, headsOf_append, none]
    exact List.nodup_nil
  · rw [grows.params, g.params]
    rfl

/-- The loop whose body sets `x` to one, up to `x` and up to a number, where `x` is two at first. -/
def changed (bound : Env → Option Int) : Loop :=
  upTo "i" (.block [.assignment (.text "x") (.number 1 2) 2, .call "print" [.identifier "i" 2] 2] 2) ["x"] bound

/-- A machine that is put to use. -/
def idle : Machine := ⟨[], fun _ => none, [], ⟨[], []⟩, {}⟩

/-- Only `x` has a value. -/
def two : Env := Env.set (fun _ => none) "x" 2

theorem Coded.represents_two {node : Node} (coded : Coded [] prog ["x"] [] node sf s s') (hs : s.Grows s') :
    Represents sf (fun _ => some 2) two := by
  intro y u hy
  obtain rfl : y = "x" := by
    by_contra ne
    rw [two, Env.set, Function.update_of_ne ne] at hy
    cases hy
  rw [two, Env.set, Function.update_self] at hy
  obtain ⟨r, hr⟩ := coded.site.housed "x" List.mem_cons_self
  exact ⟨r, (hs.trans coded.site.grows).keep hr, hy⟩

theorem changing_bound_matters : ∃ prog prog' sf sf' s s' g g', Coded [] prog ["x"] [] (changing (.identifier "x" 2)) sf s s' ∧
    Coded [] prog' ["x"] [] (changing (plusZero "x" 2 2 2)) sf' g g' ∧ ∃ v b h v' b' h' τ τ',
      Steps (fun _ _ => none) prog (idle.on (here prog s) (fun _ => some 2) ⟨[], []⟩)
        (idle.on (here prog h) τ ⟨[], []⟩) ∧
      Runs (fun _ _ => none) [] prog 9 (changed (· "x")) sf h s' v b idle τ
        (two.set "i" 0, ⟨[], []⟩) ∧
      Steps (fun _ _ => none) prog' (idle.on (here prog' g) (fun _ => some 2) ⟨[], []⟩)
        (idle.on (here prog' h') τ' ⟨[], []⟩) ∧
      Runs (fun _ _ => none) [] prog' 9 (changed fun _ => some 2) sf' h' g' v' b' idle τ'
        (two.set "i" 0, ⟨[], []⟩) ∧
      ¬ (changed (· "x")).Same (fun _ _ => none) [] 9 (changed fun _ => some 2) (two.set "i" 0, ⟨[], []⟩) := by
  obtain ⟨prog, sf, s, s', coded, grows⟩ := exists_coded_changing (.identifier "x" 2) rfl
  obtain ⟨prog', sf', g, g', coded', grows'⟩ := exists_coded_changing (plusZero "x" 2 2 2) rfl
  have program : isProgram [] = true := rfl
  obtain ⟨v, b, h, v', b', h', loops⟩ := bound_matters_iff program coded coded' List.not_mem_nil rfl (by decide)
    List.mem_cons_self (by decide)
  obtain ⟨⟨τ, steps, runs⟩, ⟨τ', steps', runs'⟩, iff⟩ := loops (fun _ _ => none) 1 9 two ⟨[], []⟩ ⟨[], []⟩ 0 2 rfl rfl
    idle idle _ _ (coded.represents_two grows)
    (coded'.represents_two grows')
  refine ⟨prog, prog', sf, sf', s, s', g, g', coded, coded', v, b, h, v', b', h', τ, τ', steps, runs, steps', runs', fun same => ?_⟩
  -- after one turn `i` and `x` are both one, which is not below `x` but below two
  obtain ⟨u, z, hu, hz, decides⟩ := iff.1 same 1 _ _ rfl
  cases hu
  cases hz
  revert decides
  decide

end TesLang.Scalar

namespace TesLang.Session

open Code Code.Machine

/-- The body of the loop changes its bound, and the function returns the number of turns. -/
def shrinking : String :=
  "funk main() <int> \x7b n :: int; k :: int; n = 2; k = 0; for (i = 0 to n) begin n = 1; k = k + 1; end return k; \x7d"

/-- The same, up to a copy of the bound. -/
def unshrinking : String :=
  "funk main() <int> \x7b n :: int; k :: int; n = 2; k = 0; for (i = 0 to n + 0) begin n = 1; k = k + 1; end return k; \x7d"

theorem shrinking_returns : ((compile shrinking {}).1 = [] ∧ ∃ lines,
      (compileToCode shrinking {}).1.1 = some (render lines) ∧ ∀ result w,
        Returns (fun _ _ => none) lines "main" [] [] result w ↔ result = some 1 ∧ w = ⟨[], []⟩) ∧
    (compile unshrinking {}).1 = [] ∧ ∃ lines,
      (compileToCode unshrinking {}).1.1 = some (render lines) ∧ ∀ result w,
        Returns (fun _ _ => none) lines "main" [] [] result w ↔ result = some 2 ∧ w = ⟨[], []⟩ := by
  constructor
  · refine returns_iff_of_outcome (n := 60) ?_
    rw [shrinking, reading_ofList]
    decide +kernel
  · refine returns_iff_of_outcome (n := 60) ?_
    rw [unshrinking, reading_ofList]
    decide +kernel

end TesLang.Session
