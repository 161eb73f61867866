import TesLang.Proofs.Scalar.Simulation
/-!
# Turns of a loop

A loop counts a variable up to a bound, which may depend on the values of the variables.  What it does is said for each
test: how the test turns out (`Loop.goesOn`), what a whole turn leads to (`Loop.turn`), and how the loop ends without another
one (`Loop.leaves`).

The code of a loop compares the register of its variable with another register.  As long as this register holds what the
bound gives (`Holds`), the machine makes the turns of the loop (`Stands.steps_turn`), and ends as the loop ends
(`Stands.ends_leaves`).
-/
namespace TesLang.Scalar

open Code Code.Gen Code.Generator Code.Machine

/-- A loop that counts `var` up, as long as it is below what `bound` gives for the values of the variables. -/
structure Loop where
  var : String
  bound : Env → Option Int
  body : Node
  known : List String

namespace Loop

/-- How the test turns out. -/
def goesOn (L : Loop) (ρ : Env) : Option Bool := do
  let v ← ρ L.var
  let b ← L.bound ρ
  some (v < b)

section
variable (div : Int → Int → Option Int) (fs : List Node) (n : Nat) (L : Loop)

/-- One whole turn, from a test to the next.  The body is executed with at most `n` nested steps, and reads nothing ahead of
the text. -/
def turn (p : Env × World) : Option (Env × World) :=
  if L.goesOn p.1 = some true then
    match exec div fs n L.known p.1 L.body p.2 with
    | some (.next ρ, w, []) => (ρ L.var).map fun v => (ρ.set L.var (v + 1), w)
    | _ => none
  else none

/-- How the loop ends at a test: it is not passed, or the function returns in the turn that it opens. -/
def leaves (p : Env × World) : Option (Outcome × World) :=
  match L.goesOn p.1 with
  | none => none
  | some false => some (.next p.1, p.2)
  | some true =>
    match exec div fs n L.known p.1 L.body p.2 with
    | some (.returned v, w, []) => some (.returned v, w)
    | _ => none

end

end Loop

variable {div : Int → Int → Option Int} {fs : List Node} {prog : List Line} {n : Nat} {params : List String} {L : Loop}
  {ρ ρ' : Env} {w w' : World} {o : Outcome} {sf s s' : Generator} {v b : Reg} {m : Machine} {σ : Regs}

/-! ### The code of a loop -/

/-- The place behind the test, at which the body starts. -/
def entry (s : Generator) (v b : Reg) : Generator :=
  ((s.number.number.add (.label ⟨"for_start", s.labels⟩)).draw.add (.binary .less s.next (some v) (some b))).add
    (.jumpIfZero (some s.next) ⟨"for_end", s.labels + 1⟩)

/-- The code of a loop, from its first label on, is part of the program.  It compares `v`, the register of its variable, with
the register `b`. -/
structure Stands (fs : List Node) (prog : List Line) (sf : Generator) (params : List String) (L : Loop) (v b : Reg)
    (s s' : Generator) : Prop where
  site : Site prog sf L.known s s'
  locals : Locals sf params
  scalar : isStmt (names fs) params L.body = true
  counts : Counts L.body v (some b) s s'
  home : sf.home L.var = some v

/-- Whatever a turn of the loop changes, `b` holds what the bound gives. -/
def Holds (sf s : Generator) (L : Loop) (b : Reg) (σ : Regs) : Prop :=
  ∀ σ' ρ, Keeps sf s (L.var :: assigns L.body) σ σ' → Represents sf σ' ρ → ∀ z, L.bound ρ = some z → σ' b = some z

theorem Holds.keeps {σ' : Regs} (h : Holds sf s L b σ) (kept : Keeps sf s (L.var :: assigns L.body) σ σ') :
    Holds sf s L b σ' := fun _ _ kept' => h _ _ (kept.trans kept' (.refl s))

theorem Represents.at_home (h : Represents sf σ ρ) {x : String} {r : Reg} (hx : sf.home x = some r) {u : Int}
    (hu : ρ x = some u) : σ r = some u := by
  obtain ⟨q, hq, hv⟩ := h x u hu
  rw [hx] at hq
  cases hq
  exact hv

namespace Stands

/-- The code in front of the body and behind it. -/
theorem around (h : Stands fs prog sf params L v b s s') : ∃ a s₁, Ran (visit L.body) (entry s v b) a s₁ ∧
    (entry s v b).Sound ∧ (entry s v b).Grows sf ∧ s₁.Sound ∧ s.Grows s₁ ∧ s₁.draw.Grows sf ∧
    (∀ (div : Int → Int → Option Int) (m : Machine) (σ : Regs) (w : World), Steps div prog (m.on (here prog s) σ w) (m.on (.binary .less s.next (some v) (some b) ::
      .jumpIfZero (some s.next) ⟨"for_end", s.labels + 1⟩ :: here prog (entry s v b)) σ w)) ∧
    linesFrom? (.label ⟨"for_end", s.labels + 1⟩) prog = some (.label ⟨"for_end", s.labels + 1⟩ :: here prog s') ∧
    here prog s₁ = .mov s₁.next (.literal 1) :: .binary .add v (some v) (some s₁.next) ::
      .jump ⟨"for_start", s.labels⟩ :: .label ⟨"for_end", s.labels + 1⟩ :: here prog s' ∧
    linesFrom? (.label ⟨"for_start", s.labels⟩) prog = some (here prog s) := by
  obtain ⟨a, s₁, h₁, e⟩ := h.counts
  have hs₀ : (entry s v b).Sound := ((h.site.sound.number.number.add _).draw.add _).add _
  obtain ⟨hs₁, g₁⟩ := visit_advances _ (plain_of_isStmt h.scalar) _ _ _ h₁ hs₀
  have w₂ := e ▸ h.site.grows
  have w₁ : s₁.draw.Grows sf := w₂.of_add.of_add.of_add.of_add
  have w₀ := g₁.trans w₁.of_draw
  have g₀ : s.Grows s₁ := g₁.of_add.of_add.of_draw.of_add.of_number.of_number
  have head := h.site.here_add w₀.of_add.of_add.of_draw
  have back := h.site.label w₀.of_add.of_add.of_draw
  rw [here_number, here_number] at head back
  have compare := h.site.here_add w₀.of_add
  rw [here_draw] at compare
  have advance := h.site.here_add w₂.of_add.of_add.of_add
  rw [here_draw] at advance
  refine ⟨a, s₁, h₁, hs₀, w₀, hs₁, g₀, w₁, fun div m σ w => ?_, ?_, ?_, back⟩
  · rw [head, compare, h.site.here_add w₀]
    exact steps_pass rfl
  · rw [h.site.label w₂, h.site.here_add w₂, e]
  · rw [advance, h.site.here_add w₂.of_add.of_add, h.site.here_add w₂.of_add, h.site.here_add w₂, e]

/-- The register for the outcome of the test belongs to no variable. -/
theorem test_ne (h : Stands fs prog sf params L v b s s') (y : String) : sf.home y ≠ some s.next := by
  obtain ⟨-, -, -, -, w₀, -⟩ := h.around
  exact w₀.of_add.of_add.home_ne_next (h.site.sound.number.number.add _) y

theorem tests (h : Stands fs prog sf params L v b s s') (hσ : Represents sf σ ρ) (holds : Holds sf s L b σ) {on : Bool}
    (test : L.goesOn ρ = some on) : Steps div prog (m.on (here prog s) σ w)
      (m.on (.jumpIfZero (some s.next) ⟨"for_end", s.labels + 1⟩ :: here prog (entry s v b))
        (Function.update σ s.next (some (truth (on = true)))) w) := by
  obtain ⟨-, -, -, -, -, -, -, -, compare, -⟩ := h.around
  simp only [Loop.goesOn, Option.bind_eq_bind, Option.bind_eq_some_iff] at test
  obtain ⟨u, hu, z, hz, e⟩ := test
  cases e
  refine (compare div m σ w).trans (steps_binary (hσ.at_home h.home hu) (holds σ ρ (.refl _ _ _ _) hσ z hz) ?_)
  simp [Operation.apply]

theorem enters (h : Stands fs prog sf params L v b s s') (hσ : Represents sf σ ρ) (holds : Holds sf s L b σ)
    (test : L.goesOn ρ = some true) : Steps div prog (m.on (here prog s) σ w)
      (m.on (here prog (entry s v b)) (Function.update σ s.next (some 1)) w) :=
  (h.tests hσ holds test).trans (steps_nonzero (Function.update_self ..) Int.one_ne_zero)

theorem exits (h : Stands fs prog sf params L v b s s') (hσ : Represents sf σ ρ) (holds : Holds sf s L b σ)
    (test : L.goesOn ρ = some false) : Steps div prog (m.on (here prog s) σ w)
      (m.on (here prog s') (Function.update σ s.next (some 0)) w) := by
  obtain ⟨-, -, -, -, -, -, -, -, -, found, -⟩ := h.around
  exact (h.tests hσ holds test).trans (.trans (steps_zero (Function.update_self ..) found) (steps_pass rfl))

/-- The registers with which the machine goes inside change no more than a turn may. -/
theorem keeps_test (σ : Regs) (u : Int) :
    Keeps sf s (L.var :: assigns L.body) σ (Function.update σ s.next (some u)) := .update _ (.inl s.next_notMem)

/-- The body ends on the machine as it ends by its meaning. -/
theorem ends_body (h : Stands fs prog sf params L v b s s') (sim : Simulates div fs prog n) {a : Option Reg} {s₁ : Generator}
    (body : Ran (visit L.body) (entry s v b) a s₁) (hσ : Represents sf σ ρ)
    (he : exec div fs n L.known ρ L.body w = some (o, w', [])) :
    Ends div prog sf (entry s v b) s₁ (assigns L.body) m (Function.update σ s.next (some 1)) w w' o := by
  obtain ⟨a, s₁, h₁, hs₀, w₀, hs₁, g₀, w₁, -⟩ := h.around
  obtain ⟨rfl, rfl⟩ := h₁.unique body
  exact sim.exec (h.site.part hs₀ w₁.of_draw (h.site.housed.of_home rfl)) h.locals h.scalar body he m _
    (hσ.update (some 1) h.test_ne)

/-- **The machine makes a turn of the loop.** -/
theorem steps_turn (h : Stands fs prog sf params L v b s s') (sim : Simulates div fs prog n) (hσ : Represents sf σ ρ)
    (holds : Holds sf s L b σ) (turn : L.turn div fs n (ρ, w) = some (ρ', w')) :
    ∃ τ σ', Steps div prog (m.on (here prog s) σ w) (m.on (here prog (entry s v b)) τ w) ∧
      Steps div prog (m.on (here prog (entry s v b)) τ w) (m.on (here prog s) σ' w') ∧ Represents sf σ' ρ' ∧
      Keeps sf s (L.var :: assigns L.body) σ σ' := by
  obtain ⟨a, s₁, body, -, -, hs₁, g₀, w₁, -, -, closing, back⟩ := h.around
  unfold Loop.turn at turn
  split at turn
  · next test =>
    split at turn
    · next ρ₁ w₁' he =>
      obtain ⟨u, hu, e⟩ := Option.map_eq_some_iff.1 turn
      obtain ⟨rfl, rfl⟩ := Prod.mk.inj e
      obtain ⟨σ₁, st₁, hσ₁, k₁⟩ := h.ends_body (m := m) sim body hσ he
      have one : ∀ y, sf.home y ≠ some s₁.next := w₁.home_ne_next hs₁
      have hv : v ≠ s₁.next := fun e => one L.var (e ▸ h.home)
      refine ⟨_, _, h.enters hσ holds test, st₁.trans ?_, (hσ₁.update (some 1) one).set h.site.final (u + 1) h.home, ?_⟩
      · rw [closing]
        refine .trans (steps_literal _ _) (.trans (steps_binary (v := u + 1) ?_ (Function.update_self ..) rfl)
          (steps_jump back))
        rw [Function.update_of_ne hv, hσ₁.at_home h.home hu]
      · have body : Keeps sf s (L.var :: assigns L.body) _ σ₁ := k₁.mono
          (Grows.refl _).of_add.of_add.of_draw.of_add.of_number.of_number (List.subset_cons_self _ _)
        have count : Keeps sf s (L.var :: assigns L.body) σ₁ _ :=
          .trans (.update (some 1) (.inl fun ht => s₁.next_notMem (g₀.taken ht)))
            (.update (some (u + 1)) (.inr ⟨L.var, List.mem_cons_self, h.home⟩)) (.refl s)
        exact ((keeps_test σ 1).trans body (.refl s)).trans count (.refl s)
    · cases turn
  · cases turn

/-- **The machine ends as the loop ends.** -/
theorem ends_leaves (h : Stands fs prog sf params L v b s s') (sim : Simulates div fs prog n) (hσ : Represents sf σ ρ)
    (holds : Holds sf s L b σ) (leaves : L.leaves div fs n (ρ, w) = some (o, w')) :
    Ends div prog sf s s' (L.var :: assigns L.body) m σ w w' o := by
  obtain ⟨a, s₁, body, -⟩ := h.around
  unfold Loop.leaves at leaves
  split at leaves
  · cases leaves
  · next test =>
    cases leaves
    exact ⟨_, h.exits hσ holds test, hσ.update (some 0) h.test_ne, keeps_test σ 0⟩
  · next test =>
    split at leaves
    · next he =>
      cases leaves
      have returned := h.ends_body (m := m) sim body hσ he
      exact (h.enters hσ holds test).trans returned
    · cases leaves

end Stands

end TesLang.Scalar
