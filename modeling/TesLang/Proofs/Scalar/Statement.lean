import TesLang.Proofs.Scalar.Expression
import TesLang.Proofs.Scalar.Loop
/-!
# Statements on the machine

Each kind of scalar statement ends on the machine as it ends by its meaning, once its parts do (`exec_step`,
`execAll_step`, `count_step`).  A loop goes back to its first label, from where the machine runs the same code again: the
rest of the loop is the same statement with a smaller bound.  What a turn of a loop over a variable does, and how the loop
starts (`starts_for`), is said for any bound.
-/
namespace TesLang.Scalar

open Code Code.Gen Code.Generator Code.Machine

variable {div : Int → Int → Option Int} {fs : List Node} {prog : List Line}

variable {n : Nat} {known params : List String} {ρ : Env} {w w' : World} {o : Outcome} {sf s s' : Generator}
  {t : Option Reg} {m : Machine} {σ : Regs} {line : Int}

theorem ends_declaration {x type : String} (site : Site prog sf known s s')
    (hr : Ran (visit (.declaration x type line)) s t s') (hσ : Represents sf σ ρ) :
    Ends div prog sf s s' [] m σ w w (.next ρ) := by
  refine ⟨σ, ?_, hσ, .refl _ _ _ _⟩
  obtain ⟨-, ⟨r, -, rfl⟩ | ⟨-, rfl⟩⟩ := ran_declaration.1 hr
  · exact .refl _
  · rw [← here_settle prog s x, site.here_add site.grows]
    exact steps_pass rfl

theorem ends_assignment (ih : Simulates div fs prog n) (hf : Callable (names fs)) {x : String} {value : Node}
    (site : Site prog sf known s s') (h : isExpr (names fs) value = true)
    (hr : Ran (visit (.assignment (.text x) value line)) s t s')
    (he : exec div fs (n + 1) known ρ (.assignment (.text x) value line) w = some (o, w', [])) (hσ : Represents sf σ ρ) :
    Ends div prog sf s s' [x] m σ w w' o := by
  obtain ⟨-, a, s₁, h₁, r, s₂, ho, e⟩ := (ran_assignment h).1 hr
  obtain ⟨a, rfl, d₁⟩ := visit_expr_draws hf h h₁ site.sound
  obtain ⟨hs₁, g₁⟩ := visit_advances _ (plain_of_isExpr h) _ _ _ h₁ site.sound
  obtain ⟨hs₂, g₂⟩ := ho.advances hs₁
  have same : here prog s₂ = here prog s₁ := by unfold here; rw [ho.code]
  simp only [exec, Result.andThen_eq_nil] at he
  obtain ⟨v, w₁, e₁, e₂⟩ := he
  cases e₂
  have w₂ : s₂.Grows sf := by
    have g := site.grows
    rw [e] at g
    split at g
    · exact g
    · exact g.of_add
  obtain ⟨σ₁, st₁, v₁, f₁⟩ := ih.eval (site.part site.sound (g₂.trans w₂) site.housed) h h₁ e₁ m σ hσ
  have hσ₁ := f₁.represents hσ site.sound (g₂.trans w₂) d₁.home
  have hx : sf.home x = some r := w₂.keep ho.home
  split at e
  · next har =>
    cases har
    subst e
    exact ⟨σ₁, same ▸ st₁, hσ₁.set_self hx v₁, .of_frame f₁⟩
  · subst e
    refine ⟨Function.update σ₁ r (some v), st₁.trans ?_, hσ₁.set site.final v hx, ?_⟩
    · rw [← same, site.here_add site.grows]
      exact steps_move v₁
    · exact .trans (.of_frame f₁) (.update _ (.inr ⟨x, List.mem_cons_self, hx⟩)) g₁

theorem ends_print (ih : Simulates div fs prog n) (hf : Callable (names fs)) {e : Node}
    (site : Site prog sf known s s') (h : isExpr (names fs) e = true)
    (hr : Ran (visit (.call "print" [e] line)) s t s')
    (he : exec div fs (n + 1) known ρ (.call "print" [e] line) w = some (o, w', [])) (hσ : Represents sf σ ρ) :
    Ends div prog sf s s' [] m σ w w' o := by
  obtain ⟨r, s₁, h₁, -, rfl⟩ := (ran_print h).1 hr
  obtain ⟨r, rfl, d₁⟩ := visit_expr_draws hf h h₁ site.sound
  simp only [exec, if_true, Result.andThen_eq_nil] at he
  obtain ⟨vs, w₁, e₁, e₂⟩ := he
  cases e₂
  have args : Ran (visitArguments [e]) s ([r].map some) s₁ :=
    (ran_arguments_cons h).2 ⟨_, _, h₁, [], by rw [visitArguments]; exact ran_pure.2 ⟨rfl, rfl⟩, rfl⟩
  obtain ⟨σ₁, st₁, v₁, f₁⟩ := ih.evalAll (site.part site.sound site.grows.of_add site.housed)
    (by simp [areExprs, h]) args e₁ m σ hσ
  refine ⟨σ₁, st₁.trans ?_, f₁.represents hσ site.sound site.grows.of_add d₁.home, .of_frame f₁⟩
  rw [site.here_add site.grows]
  rw [List.mapM_cons, List.mapM_nil] at v₁
  obtain ⟨v, hv, e⟩ := Option.bind_eq_some_iff.1 v₁
  cases e
  exact steps_output hv

theorem ends_call (ih : Simulates div fs prog n) (hf : Callable (names fs)) {name : String} {args : List Node}
    (site : Site prog sf known s s') (hp : name ≠ "print") (hn : name ∈ names fs)
    (h : areExprs (names fs) args = true)
    (hr : Ran (visit (.call name args line)) s t s')
    (he : exec div fs (n + 1) known ρ (.call name args line) w = some (o, w', [])) (hσ : Represents sf σ ρ) :
    Ends div prog sf s s' [] m σ w w' o := by
  simp only [exec, if_neg hp, Result.andThen_eq_nil] at he
  obtain ⟨vs, w₁, e₁, result, w₂, e₂, e⟩ := he
  cases e
  obtain ⟨σ', r, rfl, st, -, f⟩ := steps_callFunction (m := m) ih hf site hn h hr e₁ e₂ hσ
  obtain ⟨rs, s₁, h₁, d₁⟩ := visit_exprs hf h s
  obtain ⟨-, rfl⟩ := (ran_call (hf name hn) h₁).1 hr
  exact ⟨σ', st, f.represents hσ site.sound site.grows (d₁ site.sound).1, .of_frame f⟩

theorem ends_ret (ih : Simulates div fs prog n) (hf : Callable (names fs)) {value : Node}
    (site : Site prog sf known s s') (h : value = .nothing ∨ isExpr (names fs) value = true)
    (hr : Ran (visit (.ret value line)) s t s')
    (he : exec div fs (n + 1) known ρ (.ret value line) w = some (o, w', [])) (hσ : Represents sf σ ρ) :
    Ends div prog sf s s' [] m σ w w' o := by
  rcases h with rfl | h
  · obtain ⟨-, rfl⟩ := ran_ret_nothing.1 hr
    cases he
    show Steps div prog _ _
    rw [site.here_add site.grows.of_add, site.here_add site.grows]
    exact .trans (steps_literal _ _) (Function.update_self Reg.result (some 0) σ ▸ steps_ret)
  · obtain ⟨r, s₁, h₁, -⟩ := visit_expr hf h s
    obtain ⟨-, rfl⟩ := (ran_ret h h₁).1 hr
    have he : ((eval div fs n known ρ value w).andThen fun v w => some (.returned v, w, [])) = some (o, w', []) := by
      cases value <;> first | exact he | cases h
    obtain ⟨v, w₁, e₁, e₂⟩ := Result.andThen_eq_nil.1 he
    cases e₂
    obtain ⟨σ₁, st₁, v₁, -⟩ := ih.eval (site.part site.sound site.grows.of_add.of_add site.housed) h h₁ e₁ m σ hσ
    show Steps div prog _ _
    refine st₁.trans ?_
    rw [site.here_add site.grows.of_add, site.here_add site.grows]
    exact .trans (steps_move v₁) (Function.update_self Reg.result (some v) σ₁ ▸ steps_ret)

theorem ends_branch (ih : Simulates div fs prog n) (hf : Callable (names fs)) {condition yes no : Node}
    (site : Site prog sf known s s') (locals : Locals sf params) (hc : isExpr (names fs) condition = true)
    (hy : isStmt (names fs) params yes = true) (hn : isStmt (names fs) params no = true)
    (hr : Ran (visit (.branch condition yes no line)) s t s')
    (he : exec div fs (n + 1) known ρ (.branch condition yes no line) w = some (o, w', [])) (hσ : Represents sf σ ρ) :
    Ends div prog sf s s' (assigns yes ++ assigns no) m σ w w' o := by
  obtain ⟨c, s₁, h₁, a, s₂, h₂, b, s₃, h₃, -, rfl⟩ := (ran_branch hc).1 hr
  obtain ⟨c, rfl, d₁⟩ := visit_expr_draws hf hc h₁ site.sound
  obtain ⟨hs₁, g₁⟩ := visit_advances _ (plain_of_isExpr hc) _ _ _ h₁ site.sound
  obtain ⟨hs₂, g₂⟩ := visit_advances _ (plain_of_isStmt hy) _ _ _ h₂ (hs₁.number.number.add _)
  obtain ⟨hs₃, g₃⟩ := visit_advances _ (plain_of_isStmt hn) _ _ _ h₃ ((hs₂.add _).add _)
  have w₃ : s₃.Grows sf := site.grows.of_add
  have w₂ := g₃.trans w₃
  have w₁ := g₂.trans w₂.of_add.of_add
  have toEnd : ∀ σ', Steps div prog (m.on (here prog s₃) σ' w') (m.on (here prog
      (s₃.add (.label ⟨"endif", s₁.labels + 1⟩))) σ' w') := by
    intro σ'
    rw [site.here_add site.grows]
    exact steps_pass rfl
  have test := site.here_add w₁
  rw [here_number, here_number] at test
  simp only [exec, Result.andThen_eq_nil] at he
  obtain ⟨x, wx, e₁, e₂⟩ := he
  obtain ⟨σ₁, st₁, v₁, f₁⟩ := ih.eval (site.part site.sound w₁.of_add.of_number.of_number site.housed) hc h₁ e₁ m σ hσ
  have hσ₁ := f₁.represents hσ site.sound w₁.of_add.of_number.of_number d₁.home
  have g₁' : s.Grows (s₁.number.number.add (.jumpIfZero (some c) ⟨"else", s₁.labels⟩)) :=
    g₁.trans (Grows.refl _).of_add.of_number.of_number
  split at e₂
  · next hx =>
    subst hx
    have housed := (visit_brings hf hy h₂ (hs₁.number.number.add _)).append (site.housed.mono (g₁'.trans g₂))
    have done := ih.exec (site.part ((hs₂.add _).add _) w₃ (housed.of_home rfl)) locals hn h₃ e₂ m σ₁ hσ₁
    refine (done.after (st₁.trans ?_) (.of_frame f₁) ?_ (List.subset_append_right _ _)).before toEnd
    · rw [test]
      refine .trans (steps_zero v₁ (site.label w₂)) ?_
      rw [site.here_add w₂]
      exact steps_pass rfl
    · exact (g₁'.trans g₂).trans (Grows.refl _).of_add.of_add
  · next hx =>
    have done := ih.exec (site.part (hs₁.number.number.add _) w₂.of_add.of_add (site.housed.of_home d₁.home)) locals hy
      h₂ e₂ m σ₁ hσ₁
    refine (done.after (st₁.trans ?_) (.of_frame f₁) g₁' (List.subset_append_left _ _)).before fun σ' => ?_
    · rw [test]
      exact steps_nonzero v₁ hx
    · rw [site.here_add w₂.of_add]
      exact .trans (steps_jump (site.label site.grows)) (toEnd σ')

theorem ends_while (ih : Simulates div fs prog n) (hf : Callable (names fs)) {condition body : Node}
    (site : Site prog sf known s s') (locals : Locals sf params)
    (h : isStmt (names fs) params (.whileLoop condition body line) = true)
    (hr : Ran (visit (.whileLoop condition body line)) s t s')
    (he : exec div fs (n + 1) known ρ (.whileLoop condition body line) w = some (o, w', [])) (hσ : Represents sf σ ρ) :
    Ends div prog sf s s' (assigns body) m σ w w' o := by
  obtain ⟨hc, hb⟩ := Bool.and_eq_true_iff.1 h
  obtain ⟨c, s₁, h₁, a, s₂, h₂, -, e⟩ := (ran_while hc).1 hr
  have hs₀ : (s.number.number.add (.label ⟨"while_start", s.labels⟩)).Sound := site.sound.number.number.add _
  obtain ⟨c, rfl, d₁⟩ := visit_expr_draws hf hc h₁ hs₀
  obtain ⟨hs₁, g₁⟩ := visit_advances _ (plain_of_isExpr hc) _ _ _ h₁ hs₀
  obtain ⟨hs₂, g₂⟩ := visit_advances _ (plain_of_isStmt hb) _ _ _ h₂ (hs₁.add _)
  have w₃ := e ▸ site.grows
  have w₁ := g₂.trans w₃.of_add.of_add
  have w₀ := g₁.trans w₁.of_add
  have g₀ : s.Grows s₁ := g₁.of_add.of_number.of_number
  have head := site.here_add w₀
  have back := site.label w₀
  rw [here_number, here_number] at head back
  simp only [exec, Result.andThen_eq_nil] at he
  obtain ⟨x, wx, e₁, e₂⟩ := he
  obtain ⟨σ₁, st₁, v₁, f₁⟩ := ih.eval (site.part hs₀ w₁.of_add (site.housed.of_home rfl)) hc h₁ e₁ m σ hσ
  have hσ₁ := f₁.represents hσ hs₀ w₁.of_add d₁.home
  have keeps : Keeps sf s (assigns body) σ σ₁ := .mono (.of_frame f₁) (Grows.refl _).of_add.of_number.of_number
    (List.Subset.refl _)
  have st₁ : Steps div prog (m.on (here prog s) σ w) (m.on (here prog s₁) σ₁ wx) := by
    rw [head]
    exact .trans (steps_pass rfl) st₁
  split at e₂
  · next hx =>
    subst hx
    cases e₂
    refine ⟨σ₁, st₁.trans ?_, hσ₁, keeps⟩
    rw [site.here_add w₁, e]
    refine .trans (steps_zero v₁ (site.label w₃)) ?_
    rw [site.here_add w₃]
    exact steps_pass rfl
  · next hx =>
    obtain ⟨o₁, w₁', e₃, e₄⟩ := Result.andThen_eq_nil.1 e₂
    have once := ih.exec (site.part (hs₁.add _) w₃.of_add.of_add (site.housed.mono (g₀.trans (Grows.refl _).of_add)))
      locals hb h₂ e₃ m σ₁ hσ₁
    have once := once.after (s := s) (st₁.trans (by
      rw [site.here_add w₁]
      exact steps_nonzero v₁ hx)) keeps (g₀.trans (Grows.refl _).of_add) (List.Subset.refl _)
    cases o₁ with
    | returned v =>
      cases e₄
      exact once
    | next ρ₁ =>
      obtain ⟨σ₂, st₂, hσ₂, k₂⟩ := once
      refine (ih.exec site locals h hr e₄ m σ₂ hσ₂).after (st₂.trans ?_) k₂ (.refl s) (List.Subset.refl _)
      rw [site.here_add w₃.of_add]
      exact steps_jump back

theorem ends_do (ih : Simulates div fs prog n) (hf : Callable (names fs)) {condition body : Node}
    (site : Site prog sf known s s') (locals : Locals sf params)
    (h : isStmt (names fs) params (.doLoop body condition line) = true)
    (hr : Ran (visit (.doLoop body condition line)) s t s')
    (he : exec div fs (n + 1) known ρ (.doLoop body condition line) w = some (o, w', [])) (hσ : Represents sf σ ρ) :
    Ends div prog sf s s' (assigns body) m σ w w' o := by
  obtain ⟨hne, hb, hc⟩ := isStmt_doLoop.1 h
  obtain ⟨a, s₁, h₁, c, s₂, h₂, -, e⟩ := (ran_do hne hc).1 hr
  have hs₀ : (s.number.add (.label ⟨"do_start", s.labels⟩)).Sound := site.sound.number.add _
  obtain ⟨hs₁, g₁⟩ := visit_advances _ (plain_of_isStmt hb) _ _ _ h₁ hs₀
  obtain ⟨c, rfl, d₂⟩ := visit_expr_draws hf hc h₂ hs₁
  obtain ⟨hs₂, g₂⟩ := visit_advances _ (plain_of_isExpr hc) _ _ _ h₂ hs₁
  have w₃ := e ▸ site.grows
  have w₁ := g₂.trans w₃.of_add
  have w₀ := g₁.trans w₁
  have g₀ : s.Grows s₁ := g₁.of_add.of_number
  have head := site.here_add w₀
  have back := site.label w₀
  rw [here_number] at head back
  simp only [exec, Result.andThen_eq_nil] at he
  obtain ⟨o₁, wo, e₁, e₂⟩ := he
  have once := ih.exec (site.part hs₀ w₁ (site.housed.of_home rfl)) locals hb h₁ e₁ m σ hσ
  have once := once.after (by rw [head]; exact steps_pass rfl) (.refl sf s (assigns body) σ)
    (Grows.refl _).of_add.of_number (List.Subset.refl _)
  cases o₁ with
  | returned v =>
    cases e₂
    exact once
  | next ρ₁ =>
    obtain ⟨σ₁, st₁, hσ₁, k₁⟩ := once
    obtain ⟨x, wx, e₃, e₄⟩ := Result.andThen_eq_nil.1 e₂
    have housed := (visit_brings hf hb h₁ hs₀).append (site.housed.mono g₀)
    obtain ⟨σ₂, st₂, v₂, f₂⟩ := ih.eval (site.part hs₁ w₃.of_add housed) hc h₂ e₃ m σ₁ hσ₁
    have hσ₂ := f₂.represents hσ₁ hs₁ w₃.of_add d₂.home
    have k₂ : Keeps sf s (assigns body) σ σ₂ := k₁.trans (.of_frame f₂) g₀
    split at e₄
    · next hx =>
      subst hx
      cases e₄
      refine ⟨σ₂, st₁.trans (st₂.trans ?_), hσ₂, k₂⟩
      rw [site.here_add w₃, e]
      exact steps_leave v₂
    · next hx =>
      refine (ih.exec site locals h hr e₄ m σ₂ hσ₂).after (st₁.trans (st₂.trans ?_)) k₂ (.refl s)
        (List.Subset.refl _)
      rw [site.here_add w₃]
      exact steps_again v₂ hx back

theorem count_step (ih : Simulates div fs prog n) {x : String} {bound : Int} {body : Node} {v b : Reg}
    (site : Site prog sf known s s') (locals : Locals sf params) (hb : isStmt (names fs) params body = true)
    (hr : Counts body v (some b) s s') (hx : sf.home x = some v)
    (hbt : b ∈ s.bank.taken) (hbx : ∀ y ∈ x :: assigns body, sf.home y ≠ some b)
    (he : count div fs (n + 1) known ρ x bound body w = some (o, w', [])) (hσ : Represents sf σ ρ) (hσb : σ b = some bound) :
    Ends div prog sf s s' (x :: assigns body) m σ w w' o := by
  have stands : Stands fs prog sf params ⟨x, fun _ => some bound, body, known⟩ v b s s' :=
    ⟨site, locals, hb, hr, hx⟩
  have holds : Holds sf s ⟨x, fun _ => some bound, body, known⟩ b σ := by
    rintro σ' - kept - z ⟨⟩
    rw [kept b hbt hbx, hσb]
  simp only [count, Option.bind_eq_some_iff] at he
  obtain ⟨u, hu, he⟩ := he
  split at he
  · next hlt =>
    obtain ⟨o₁, w₁, e₁, e₂⟩ := Result.andThen_eq_nil.1 he
    cases o₁ with
    | returned u =>
      cases e₂
      exact stands.ends_leaves ih hσ holds (by simp [Loop.leaves, Loop.goesOn, hu, hlt, e₁])
    | next ρ₁ =>
      obtain ⟨u₁, hu₁, e₃⟩ := Option.bind_eq_some_iff.1 e₂
      obtain ⟨_, σ₁, into, back, hσ₁, kept⟩ := stands.steps_turn (m := m) ih hσ holds
        (by simp [Loop.turn, Loop.goesOn, hu, hlt, e₁, hu₁] : Loop.turn div fs n _ (ρ, w) = some (ρ₁.set x (u₁ + 1), w₁))
      exact (ih.count site locals hb hr hx hbt hbx e₃ m σ₁ hσ₁ (by rw [kept b hbt hbx, hσb])).after
        (into.trans back) kept (.refl s) (List.Subset.refl _)
  · next hge =>
    cases he
    exact stands.ends_leaves ih hσ holds (by simp [Loop.leaves, Loop.goesOn, hu, hge])

theorem Draws.home_ne {s₁ s₂ : Generator} {xs ys : List String} {b : Reg} (d : Draws s₁ s₂ xs b) (hs : s₁.Sound)
    (final : sf.Sound) (g₁ : s₁.Grows sf) (g₂ : s₂.Grows sf) (apart : ∀ y ∈ ys, y ∉ xs) :
    ∀ y ∈ ys, sf.home y ≠ some b := by
  intro y hy hb
  rcases d.origin with hn | ⟨z, hz, hzb⟩
  · rcases g₂.fresh hb with hb | hb
    · exact hn (hs.home_taken (d.home ▸ hb)).1
    · exact hb d.taken
  · obtain rfl := final.home_inj hb (g₁.keep hzb)
    exact apart y hy hz

theorem Counts.grows {body : Node} {v : Reg} {b : Option Reg} (h : Counts body v b s s') (hb : plain body = true)
    (hs : s.Sound) : s.Grows s' := by
  obtain ⟨a, s₁, h₁, rfl⟩ := h
  obtain ⟨-, g₁⟩ := visit_advances _ hb _ _ _ h₁ (((hs.number.number.add _).draw.add _).add _)
  exact g₁.of_add.of_add.of_draw.of_add.of_number.of_number.trans (Grows.refl _).of_add.of_add.of_add.of_add.of_draw

/-- **Code of a loop first puts the values of its start and of its bound into registers.** -/
theorem starts_for (hf : Callable (names fs)) {x : String} {start stop body : Node} (site : Site prog sf known s s')
    (locals : Locals sf params) (own : x ∉ params) (ha : isExpr (names fs) start = true) (hz : isExpr (names fs) stop = true)
    (hb : isStmt (names fs) params body = true)
    (hr : Ran (visit (.forLoop x start stop body line)) s t s') :
    ∃ v b s₁ s₂ h, Ran (visit stop) s₁ (some b) s₂ ∧ Draws s₁ s₂ (reads stop) b ∧ s₁.Sound ∧ s.Grows s₁ ∧ s₁.Grows s₂ ∧
      s₂.Grows sf ∧ s.Grows h ∧ b ∈ h.bank.taken ∧
      (∀ bound, Stands fs prog sf params ⟨x, bound, body, x :: known⟩ v b h s') ∧
      ∀ {div : Int → Int → Option Int} {j k : Nat}, Simulates div fs prog j → Simulates div fs prog k →
        ∀ {ρ : Env} {w w₁ w₂ : World} {a z : Int}, eval div fs j known ρ start w = some (a, w₁, []) →
        eval div fs k known ρ stop w₁ = some (z, w₂, []) → ∀ (m : Machine) (σ : Regs), Represents sf σ ρ →
        ∃ τ, Steps div prog (m.on (here prog s) σ w) (m.on (here prog h) τ w₂) ∧ Represents sf τ (ρ.set x a) ∧
          Keeps sf s (x :: assigns body) σ τ ∧ (b ≠ v → τ b = some z) := by
  obtain ⟨first, s₁, h₁, bound, s₂, h₂, v, s₃, h₃, -, counts⟩ := (ran_for ha hz).1 hr
  obtain ⟨f, rfl, d₁⟩ := visit_expr_draws hf ha h₁ site.sound
  obtain ⟨hs₁, g₁⟩ := visit_advances _ (plain_of_isExpr ha) _ _ _ h₁ site.sound
  obtain ⟨b, rfl, d₂⟩ := visit_expr_draws hf hz h₂ hs₁
  obtain ⟨hs₂, g₂⟩ := visit_advances _ (plain_of_isExpr hz) _ _ _ h₂ hs₁
  obtain ⟨hs₃, g₃⟩ := Advancing.ownPlace x _ _ _ h₃ hs₂
  have w₄ := (counts.grows (plain_of_isStmt hb) (hs₃.add _)).trans site.grows
  have w₃ : s₃.Grows sf := w₄.of_add
  have w₂ : s₂.Grows sf := g₃.trans w₃
  have owns : Owns s₂ x v s₃ := .inr ⟨w₂.params ▸ locals x own, h₃⟩
  have hx : sf.home x = some v := w₃.keep owns.home
  have g := (g₁.trans g₂).trans g₃
  have housed : Housed s₃ (x :: known) := .cons owns.home (site.housed.mono g)
  refine ⟨v, b, s₁, s₂, s₃.add (.mov v (.ofReg (some f))), h₂, d₂, hs₁, g₁, g₂, w₂, g.trans (Grows.refl _).of_add,
    g₃.taken d₂.taken, fun bound => ⟨site.part (hs₃.add _) site.grows (housed.of_home rfl), locals, hb, counts, hx⟩, ?_⟩
  intro div j k sim sim' ρ w w₁ w₂' a z e₁ e₂ m σ hσ
  obtain ⟨σ₁, st₁, v₁, f₁⟩ := sim.eval (site.part site.sound (g₂.trans w₂) site.housed) ha h₁ e₁ m σ hσ
  have hσ₁ := f₁.represents hσ site.sound (g₂.trans w₂) d₁.home
  obtain ⟨σ₂, st₂, v₂, f₂⟩ := sim'.eval (site.part hs₁ w₂ (site.housed.of_home d₁.home)) hz h₂ e₂ m σ₁ hσ₁
  have hσ₂ := f₂.represents hσ₁ hs₁ w₂ d₂.home
  have hf₂ : σ₂ f = some a := by rw [f₂ f (.inl d₁.taken), v₁]
  refine ⟨Function.update σ₂ v (some a), st₁.trans (st₂.trans ?_), hσ₂.set site.final a hx, ?_, fun ne => ?_⟩
  · have same : here prog s₃ = here prog s₂ := by unfold here; rw [owns.code]
    rw [← same, site.here_add w₄]
    exact steps_move hf₂
  · exact .trans (.of_frame (f₁.trans f₂ g₁ g₂)) (.update _ (.inr ⟨x, List.mem_cons_self, hx⟩)) (.refl s)
  · rw [Function.update_of_ne ne, v₂]

theorem ends_for (ih : Simulates div fs prog n) (hf : Callable (names fs)) {x : String} {start stop body : Node}
    (site : Site prog sf known s s') (locals : Locals sf params)
    (h : isStmt (names fs) params (.forLoop x start stop body line) = true)
    (hr : Ran (visit (.forLoop x start stop body line)) s t s')
    (he : exec div fs (n + 1) known ρ (.forLoop x start stop body line) w = some (o, w', [])) (hσ : Represents sf σ ρ) :
    Ends div prog sf s s' (x :: assigns body) m σ w w' o := by
  simp only [isStmt, Bool.and_eq_true, Bool.not_eq_true', List.all_eq_true, bne_iff_ne, List.contains_eq_mem,
    decide_eq_false_iff_not] at h
  obtain ⟨⟨⟨⟨hp, ha⟩, hz⟩, hb⟩, range⟩ := h
  obtain ⟨v, b, s₁, s₂, g, -, d₂, hs₁, -, g₂, w₂, grows, taken, stands, starts⟩ :=
    starts_for hf site locals hp ha hz hb hr
  have stands := stands fun _ => none
  have apart : ∀ y ∈ x :: assigns body, sf.home y ≠ some b := by
    refine d₂.home_ne hs₁ site.final (g₂.trans w₂) w₂ fun y hy hyz => ?_
    have := range y (List.mem_append_right _ hyz)
    rcases List.mem_cons.1 hy with rfl | hy
    · exact this.1 rfl
    · exact this.2 hy
  have hvb : b ≠ v := fun h => apart x List.mem_cons_self (h ▸ stands.home)
  simp only [exec, Result.andThen_eq_nil] at he
  obtain ⟨a, wa, e₁, z, wz, e₂, e₃⟩ := he
  obtain ⟨τ, st, hτ, kept, held⟩ := starts ih ih e₁ e₂ m σ hσ
  exact (ih.count stands.site locals hb stands.counts stands.home taken apart e₃ m τ hτ (held hvb)).after st
    kept grows (List.Subset.refl _)

theorem exec_step (ih : Simulates div fs prog n) (hf : Callable (names fs)) {node : Node} (site : Site prog sf known s s')
    (locals : Locals sf params) (h : isStmt (names fs) params node = true)
    (hr : Ran (visit node) s t s') (he : exec div fs (n + 1) known ρ node w = some (o, w', [])) (hσ : Represents sf σ ρ) :
    Ends div prog sf s s' (assigns node) m σ w w' o := by
  cases node with
  | declaration x type _ =>
    cases he
    exact ends_declaration site hr hσ
  | assignment target value _ =>
    obtain ⟨⟨x, rfl⟩, h⟩ := isStmt_assignment.1 h
    exact ends_assignment ih hf site h hr he hσ
  | call name args _ =>
    by_cases hn : name = "print"
    · subst hn
      simp only [isStmt, if_true, Bool.and_eq_true] at h
      obtain ⟨e, rfl⟩ := List.length_eq_one_iff.1 (beq_iff_eq.1 h.1)
      exact ends_print ih hf site (by simpa [areExprs] using h.2) hr he hσ
    · simp only [isStmt, if_neg hn, Bool.and_eq_true, List.contains_iff_mem] at h
      exact ends_call ih hf site hn h.1 h.2 hr he hσ
  | ret value _ => exact ends_ret ih hf site (isStmt_ret.1 h) hr he hσ
  | branch condition yes no _ =>
    simp only [isStmt, Bool.and_eq_true] at h
    rw [assigns]
    exact ends_branch ih hf site locals h.1.1 h.1.2 h.2 hr he hσ
  | whileLoop condition body _ =>
    rw [assigns]
    exact ends_while ih hf site locals h hr he hσ
  | doLoop body condition _ =>
    rw [assigns]
    exact ends_do ih hf site locals h hr he hσ
  | forLoop x start stop body _ =>
    rw [assigns]
    exact ends_for ih hf site locals h hr he hσ
  | block ss _ =>
    rw [assigns]
    simp only [isStmt, exec] at h he
    exact ih.execAll site locals h (ran_block.1 hr).2 he m σ hσ
  | several ss =>
    rw [assigns]
    simp only [isStmt, exec] at h he
    exact ih.execAll site locals h (ran_several.1 hr).2 he m σ hσ
  | nothing =>
    rw [visit] at hr
    obtain ⟨-, rfl⟩ := ran_pure.1 hr
    cases he
    exact ⟨σ, .refl _, hσ, .refl _ _ _ _⟩
  | _ => cases h

theorem execAll_step (ih : Simulates div fs prog n) (hf : Callable (names fs)) {nodes : List Node}
    (site : Site prog sf known s s') (locals : Locals sf params) (h : areStmts (names fs) params nodes = true)
    (hr : Ran (visitAll nodes) s () s')
    (he : execAll div fs (n + 1) known ρ nodes w = some (o, w', [])) (hσ : Represents sf σ ρ) :
    Ends div prog sf s s' (assignsAll nodes) m σ w w' o := by
  cases nodes with
  | nil =>
    obtain rfl := ran_nil.1 hr
    cases he
    exact ⟨σ, .refl _, hσ, .refl _ _ _ _⟩
  | cons node nodes =>
    simp only [areStmts, Bool.and_eq_true, Bool.not_eq_true'] at h
    obtain ⟨⟨hfill, hn⟩, hns⟩ := h
    obtain ⟨t, s₁, h₁, h₂⟩ := (ran_cons hfill).1 hr
    obtain ⟨hs₁, g₁⟩ := visit_advances _ (plain_of_isStmt hn) _ _ _ h₁ site.sound
    obtain ⟨-, g₂⟩ := visitAll_advances _ (plainAll_of_areStmts hns) _ _ _ h₂ hs₁
    simp only [execAll, Result.andThen_eq_nil] at he
    obtain ⟨o₁, w₁, e₁, e₂⟩ := he
    have first := ih.exec (site.part site.sound (g₂.trans site.grows) site.housed) locals hn h₁ e₁ m σ hσ
    cases o₁ with
    | returned v =>
      cases e₂
      exact first
    | next ρ₁ =>
      obtain ⟨σ₁, st₁, hσ₁, k₁⟩ := first
      have housed := (visit_brings hf hn h₁ site.sound).append (site.housed.mono g₁)
      have rest := ih.execAll (site.part hs₁ site.grows housed) locals hns h₂ e₂ m σ₁ hσ₁
      exact rest.after st₁ (k₁.mono (.refl s) (List.subset_append_left _ _)) g₁ (List.subset_append_right _ _)

end TesLang.Scalar
