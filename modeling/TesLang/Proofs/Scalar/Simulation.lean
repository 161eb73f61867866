import TesLang.Proofs.Generation.Position
import TesLang.Proofs.Scalar.Evaluation
import TesLang.Proofs.Scalar.Generation
/-!
# The machine does what scalar programs mean

Where the evaluation of an expression or the execution of a statement ends, and nothing was read ahead of the text, the
machine that starts at the place of its code gets to the place behind it, or returns.  The induction is on the bound of
the evaluation, for all parts of the language at once (`Simulates`).

While a function is run, the register of each variable that has a value holds this value (`Represents`).  Which
registers these are is read off the generator `sf` that is reached at the end of the function: a loop goes back to code
that was generated before later variables got their registers, and yet these variables have values by then.  So an
intermediate result must be kept out of registers that are given away only later.  It is, since registers are never
given back: the code between `s` and `s'` writes intermediate results only into registers that are free in `s` and
taken in `s'` (`Frame`).
-/
namespace TesLang.Scalar

open Code Code.Gen Code.Generator Code.Machine

/-- Every value of a variable is in the register of the variable. -/
def Represents (sf : Generator) (σ : Regs) (ρ : Env) : Prop := ∀ x v, ρ x = some v → ∃ r, sf.home x = some r ∧ σ r = some v

/-- Only registers that are free in `s` and taken in `s'` have changed. -/
def Frame (s s' : Generator) (σ σ' : Regs) : Prop := ∀ q, q ∈ s.bank.taken ∨ q ∉ s'.bank.taken → σ' q = σ q

namespace Frame

variable {s s₁ s' sf : Generator} {σ σ₁ σ' : Regs}

theorem refl (s s' : Generator) (σ : Regs) : Frame s s' σ σ := fun _ _ => rfl

theorem trans (h : Frame s s₁ σ σ₁) (h' : Frame s₁ s' σ₁ σ') (g : s.Grows s₁) (g' : s₁.Grows s') : Frame s s' σ σ' := by
  intro q hq
  rw [h' q (hq.imp_left g.taken), h q (hq.imp_right fun hn ht => hn (g'.taken ht))]

theorem mono {a b : Generator} (h : Frame s s' σ σ') (g : a.Grows s) (g' : s'.Grows b) : Frame a b σ σ' :=
  fun q hq => h q (hq.imp g.taken fun hn ht => hn (g'.taken ht))

theorem update {r : Reg} (v : Option Int) (free : r ∉ s.bank.taken) (taken : r ∈ s'.bank.taken) :
    Frame s s' σ (Function.update σ r v) := by
  intro q hq
  refine Function.update_of_ne ?_ _ _
  rintro rfl
  exact hq.elim free fun hn => hn taken

theorem put {r : Reg} (h : Frame s s' σ σ') (v : Option Int) (free : r ∉ s.bank.taken) (taken : r ∈ s'.bank.taken) :
    Frame s s' σ (Function.update σ' r v) := by
  intro q hq
  rw [update v free taken q hq, h q hq]

theorem represents {ρ : Env} (h : Frame s s' σ σ') (hr : Represents sf σ ρ) (hs : s.Sound) (g : s'.Grows sf)
    (home : s'.home = s.home) : Represents sf σ' ρ := by
  intro x v hx
  obtain ⟨r, hr, hv⟩ := hr x v hx
  refine ⟨r, hr, ?_⟩
  rw [h r, hv]
  rcases g.fresh hr with hh | hn
  · exact .inl (hs.home_taken (home ▸ hh)).1
  · exact .inr hn

end Frame

/-- All registers taken in `s` but those of the variables `xs` are as they were. -/
def Keeps (sf s : Generator) (xs : List String) (σ σ' : Regs) : Prop :=
  ∀ q ∈ s.bank.taken, (∀ x ∈ xs, sf.home x ≠ some q) → σ' q = σ q

namespace Keeps

variable {sf s s₁ : Generator} {xs ys : List String} {σ σ₁ σ' : Regs}

theorem refl (sf s : Generator) (xs : List String) (σ : Regs) : Keeps sf s xs σ σ := fun _ _ _ => rfl

theorem trans (h : Keeps sf s xs σ σ₁) (h' : Keeps sf s₁ xs σ₁ σ') (g : s.Grows s₁) : Keeps sf s xs σ σ' :=
  fun q hq hx => (h' q (g.taken hq) hx).trans (h q hq hx)

theorem mono (h : Keeps sf s₁ xs σ σ') (g : s.Grows s₁) (hxs : xs ⊆ ys) : Keeps sf s ys σ σ' :=
  fun q hq hy => h q (g.taken hq) fun x hx => hy x (hxs hx)

theorem of_frame {s' : Generator} (h : Frame s s' σ σ') : Keeps sf s xs σ σ' := fun q hq _ => h q (.inl hq)

theorem update {r : Reg} (v : Option Int) (h : r ∉ s.bank.taken ∨ ∃ x ∈ xs, sf.home x = some r) :
    Keeps sf s xs σ (Function.update σ r v) := by
  intro q hq hx
  refine Function.update_of_ne ?_ _ _
  rintro rfl
  rcases h with h | ⟨x, hm, hr⟩
  · exact h hq
  · exact hx x hm hr

end Keeps

namespace Represents

variable {sf : Generator} {σ : Regs} {ρ : Env}

theorem update (h : Represents sf σ ρ) {r : Reg} (v : Option Int) (hr : ∀ x, sf.home x ≠ some r) :
    Represents sf (Function.update σ r v) ρ := by
  intro x u hx
  obtain ⟨q, hq, hu⟩ := h x u hx
  refine ⟨q, hq, ?_⟩
  rw [Function.update_of_ne, hu]
  rintro rfl
  exact hr x hq

theorem set (h : Represents sf σ ρ) (hs : sf.Sound) {x : String} {r : Reg} (v : Int) (hx : sf.home x = some r) :
    Represents sf (Function.update σ r (some v)) (ρ.set x v) := by
  intro y u hy
  unfold Env.set at hy
  by_cases hxy : y = x
  · subst hxy
    rw [Function.update_self] at hy
    exact ⟨r, hx, by rw [Function.update_self, hy]⟩
  · rw [Function.update_of_ne hxy] at hy
    obtain ⟨q, hq, hu⟩ := h y u hy
    refine ⟨q, hq, ?_⟩
    rw [Function.update_of_ne, hu]
    rintro rfl
    exact hxy (hs.home_inj hq hx)

theorem set_self (h : Represents sf σ ρ) {x : String} {r : Reg} {v : Int} (hx : sf.home x = some r) (hv : σ r = some v) :
    Represents sf σ (ρ.set x v) := by
  intro y u hy
  unfold Env.set at hy
  by_cases hxy : y = x
  · subst hxy
    rw [Function.update_self] at hy
    exact ⟨r, hx, by rw [hv, hy]⟩
  · rw [Function.update_of_ne hxy] at hy
    exact h y u hy

end Represents

/-- The code between `s` and `s'` is part of the program `prog`, in a function at whose end the generator is `sf`, and the
variables known at its start have registers. -/
structure Site (prog : List Line) (sf : Generator) (known : List String) (s s' : Generator) : Prop where
  final : sf.Sound
  code : sf.code.toList <+: prog
  labels : (labelsIn prog).Nodup
  sound : s.Sound
  grows : s'.Grows sf
  housed : Housed s known

namespace Site

variable {prog : List Line} {sf s s' : Generator} {known : List String}

theorem part {a b : Generator} {names : List String} (h : Site prog sf known s s') (sound : a.Sound) (grows : b.Grows sf)
    (housed : Housed a names) : Site prog sf names a b := ⟨h.final, h.code, h.labels, sound, grows, housed⟩

theorem here_add (h : Site prog sf known s s') {a : Generator} {l : Line} (g : (a.add l).Grows sf) :
    here prog a = l :: here prog (a.add l) := Code.here_add (g.isPrefix h.code)

theorem label (h : Site prog sf known s s') {a : Generator} {l : Label} (g : (a.add (.label l)).Grows sf) :
    linesFrom? (.label l) prog = some (here prog a) := linesFrom?_label h.labels (g.isPrefix h.code)

end Site

variable {div : Int → Int → Option Int} {fs : List Node} {prog : List Line}

variable (div prog) in
/-- From the place `s` on, with the registers `σ`, the machine gets to `s'` with the value `v` in `r`. -/
def Computes (s s' : Generator) (m : Machine) (σ : Regs) (w : World) (r : Reg) (v : Int) (w' : World) : Prop :=
  ∃ σ', Steps div prog (m.on (here prog s) σ w) (m.on (here prog s') σ' w') ∧ σ' r = some v ∧ Frame s s' σ σ'

variable (div prog) in
/-- From the place `s` on, with the registers `σ`, the machine ends as a statement does that may assign `xs`: it gets to
`s'`, or it returns. -/
def Ends (sf s s' : Generator) (xs : List String) (m : Machine) (σ : Regs) (w w' : World) : Outcome → Prop
  | .next ρ => ∃ σ', Steps div prog (m.on (here prog s) σ w) (m.on (here prog s') σ' w') ∧ Represents sf σ' ρ ∧
    Keeps sf s xs σ σ'
  | .returned v => Steps div prog (m.on (here prog s) σ w) (m.returning (some v) w')

theorem Ends.after {sf s s₁ s' : Generator} {xs ys : List String} {m : Machine} {σ σ₁ : Regs} {w w₁ w' : World}
    {o : Outcome} (h : Ends div prog sf s₁ s' xs m σ₁ w₁ w' o)
    (steps : Steps div prog (m.on (here prog s) σ w) (m.on (here prog s₁) σ₁ w₁)) (keeps : Keeps sf s ys σ σ₁)
    (g : s.Grows s₁) (hxs : xs ⊆ ys) : Ends div prog sf s s' ys m σ w w' o := by
  cases o with
  | next ρ =>
    obtain ⟨σ', h, hr, hk⟩ := h
    exact ⟨σ', steps.trans h, hr, keeps.trans (hk.mono (.refl _) hxs) g⟩
  | returned v => exact steps.trans h

/-- Only parameters have registers as such. -/
def Locals (sf : Generator) (params : List String) : Prop := ∀ x, x ∉ params → sf.params.find? x = none

theorem Ends.before {sf s s' s'' : Generator} {xs : List String} {m : Machine} {σ : Regs} {w w' : World} {o : Outcome}
    (h : Ends div prog sf s s' xs m σ w w' o)
    (steps : ∀ σ', Steps div prog (m.on (here prog s') σ' w') (m.on (here prog s'') σ' w')) :
    Ends div prog sf s s'' xs m σ w w' o := by
  cases o with
  | next ρ =>
    obtain ⟨σ', h, hr, hk⟩ := h
    exact ⟨σ', h.trans (steps σ'), hr, hk⟩
  | returned v => exact h

variable (div fs prog) in
/-- **What the machine does for evaluations and executions with the bound `n`.** -/
structure Simulates (n : Nat) : Prop where
  eval : ∀ {known : List String} {ρ : Env} {e : Node} {w w' : World} {v : Int} {sf s s' : Generator} {r : Reg},
    Site prog sf known s s' → isExpr (names fs) e = true → Ran (visit e) s (some r) s' →
    eval div fs n known ρ e w = some (v, w', []) →
    ∀ (m : Machine) (σ : Regs), Represents sf σ ρ → Computes div prog s s' m σ w r v w'
  evalAll : ∀ {known : List String} {ρ : Env} {es : List Node} {w w' : World} {vs : List Int} {sf s s' : Generator}
    {rs : List Reg}, Site prog sf known s s' → areExprs (names fs) es = true →
    Ran (visitArguments es) s (rs.map some) s' → evalAll div fs n known ρ es w = some (vs, w', []) →
    ∀ (m : Machine) (σ : Regs), Represents sf σ ρ → ∃ σ',
      Steps div prog (m.on (here prog s) σ w) (m.on (here prog s') σ' w') ∧ rs.mapM σ' = some vs ∧ Frame s s' σ σ'
  call : ∀ {name : String} {args : List Int} {w w' : World} {result : Option Int},
    call div fs n name args w = some (result, w', []) → ∃ head, linesFrom? (.proc name) prog = some head ∧
    ∀ m : Machine, Steps div prog (m.on head (passed args) w) (m.returning result w')
  exec : ∀ {known params : List String} {ρ : Env} {node : Node} {w w' : World} {o : Outcome} {sf s s' : Generator}
    {t : Option Reg}, Site prog sf known s s' → Locals sf params → isStmt (names fs) params node = true →
    Ran (visit node) s t s' → exec div fs n known ρ node w = some (o, w', []) →
    ∀ (m : Machine) (σ : Regs), Represents sf σ ρ → Ends div prog sf s s' (assigns node) m σ w w' o
  execAll : ∀ {known params : List String} {ρ : Env} {nodes : List Node} {w w' : World} {o : Outcome}
    {sf s s' : Generator}, Site prog sf known s s' → Locals sf params → areStmts (names fs) params nodes = true →
    Ran (visitAll nodes) s () s' → execAll div fs n known ρ nodes w = some (o, w', []) →
    ∀ (m : Machine) (σ : Regs), Represents sf σ ρ → Ends div prog sf s s' (assignsAll nodes) m σ w w' o
  count : ∀ {known params : List String} {ρ : Env} {x : String} {bound : Int} {body : Node} {w w' : World} {o : Outcome}
    {sf s s' : Generator} {v b : Reg}, Site prog sf known s s' → Locals sf params →
    isStmt (names fs) params body = true → Counts body v (some b) s s' →
    sf.home x = some v → b ∈ s.bank.taken → (∀ y ∈ x :: assigns body, sf.home y ≠ some b) →
    count div fs n known ρ x bound body w = some (o, w', []) → ∀ (m : Machine) (σ : Regs), Represents sf σ ρ →
    σ b = some bound → Ends div prog sf s s' (x :: assigns body) m σ w w' o

end TesLang.Scalar
