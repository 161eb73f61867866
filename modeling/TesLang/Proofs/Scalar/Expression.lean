import TesLang.Proofs.Scalar.Simulation
/-!
# Expressions on the machine

Each kind of scalar expression computes its value, once its parts do (`eval_step`, `evalAll_step`).
-/
namespace TesLang.Scalar

open Code Code.Gen Code.Generator Code.Machine

variable {div : Int → Int → Option Int} {fs : List Node} {prog : List Line}

variable {n : Nat} {known : List String} {ρ : Env} {w w' : World} {v : Int} {sf s s' : Generator} {r : Reg}
  {m : Machine} {σ : Regs}

theorem computes_literal (site : Site prog sf known s (s.draw.add (.mov s.next (.literal v)))) :
    Computes div prog s (s.draw.add (.mov s.next (.literal v))) m σ w s.next v w := by
  refine ⟨_, ?_, Function.update_self .., .update _ s.next_notMem ((s.mem_taken_draw _).2 (.inr rfl))⟩
  rw [← here_draw, site.here_add site.grows]
  exact steps_literal s.next v

theorem computes_identifier {x : String} {line : Int} (site : Site prog sf known s s')
    (hr : Ran (visit (.identifier x line)) s (some r) s')
    (he : eval div fs (n + 1) known ρ (.identifier x line) w = some (v, w', [])) (hσ : Represents sf σ ρ) :
    Computes div prog s s' m σ w r v w' := by
  simp only [eval, Option.map_eq_some_iff, Prod.mk.injEq] at he
  obtain ⟨u, hu, rfl, rfl, hx⟩ := he
  have hx : x ∈ known := by simpa using hx
  obtain ⟨q, hq⟩ := site.housed x hx
  rcases ran_identifier.1 hr with ⟨q', hq', e, rfl⟩ | ⟨hn, -, -⟩
  · obtain ⟨r', hr', hv⟩ := hσ x u hu
    have : some r' = some r := by rw [← hr', site.grows.keep hq', e]
    cases this
    exact ⟨σ, .refl _, hv, .refl _ _ _⟩
  · rw [hn] at hq
    cases hq

theorem computes_binary (ih : Simulates div fs prog n) (hf : Callable (names fs)) {left right : Node} {op : String}
    {line : Int} (site : Site prog sf known s s') (h : isExpr (names fs) (.binary left op right line) = true)
    (hr : Ran (visit (.binary left op right line)) s (some r) s')
    (he : eval div fs (n + 1) known ρ (.binary left op right line) w = some (v, w', [])) (hσ : Represents sf σ ρ) :
    Computes div prog s s' m σ w r v w' := by
  simp only [isExpr, Bool.and_eq_true] at h
  obtain ⟨⟨-, hl⟩, hn⟩ := h
  obtain ⟨a, s₁, h₁, b, s₂, h₂, e, rfl⟩ := (ran_binary hl hn).1 hr
  cases e
  obtain ⟨a, rfl, d₁⟩ := visit_expr_draws hf hl h₁ site.sound
  obtain ⟨hs₁, g₁⟩ := visit_advances _ (plain_of_isExpr hl) _ _ _ h₁ site.sound
  obtain ⟨b, rfl, d₂⟩ := visit_expr_draws hf hn h₂ hs₁
  obtain ⟨-, g₂⟩ := visit_advances _ (plain_of_isExpr hn) _ _ _ h₂ hs₁
  have w₂ : s₂.Grows sf := site.grows.of_add.of_draw
  have w₁ : s₁.Grows sf := g₂.trans w₂
  simp only [eval, Result.andThen_eq_nil, Option.map_eq_some_iff] at he
  obtain ⟨x, wx, e₁, y, wy, e₂, u, ho, e⟩ := he
  cases e
  obtain ⟨σ₁, st₁, v₁, f₁⟩ := ih.eval (site.part site.sound w₁ site.housed) hl h₁ e₁ m σ hσ
  have hσ₁ := f₁.represents hσ site.sound w₁ d₁.home
  obtain ⟨σ₂, st₂, v₂, f₂⟩ := ih.eval (site.part hs₁ w₂ (site.housed.of_home d₁.home)) hn h₂ e₂ m σ₁ hσ₁
  have hx : σ₂ a = some x := by rw [f₂ a (.inl d₁.taken), v₁]
  refine ⟨Function.update σ₂ s₂.next (some v), st₁.trans (st₂.trans ?_), Function.update_self .., ?_⟩
  · rw [← here_draw prog s₂, site.here_add site.grows]
    exact steps_binary hx v₂ ho
  · refine .put ((f₁.trans f₂ g₁ g₂).mono (.refl s) (Grows.refl _).of_add.of_draw) _ ?_ ((s₂.mem_taken_draw _).2 (.inr rfl))
    exact fun ht => s₂.next_notMem (g₂.taken (g₁.taken ht))

theorem computes_ternary (ih : Simulates div fs prog n) (hf : Callable (names fs)) {condition yes no : Node} {line : Int}
    (site : Site prog sf known s s') (h : isExpr (names fs) (.ternary condition yes no line) = true)
    (hr : Ran (visit (.ternary condition yes no line)) s (some r) s')
    (he : eval div fs (n + 1) known ρ (.ternary condition yes no line) w = some (v, w', [])) (hσ : Represents sf σ ρ) :
    Computes div prog s s' m σ w r v w' := by
  simp only [isExpr, Bool.and_eq_true] at h
  obtain ⟨⟨hc, hy⟩, hn⟩ := h
  obtain ⟨c, s₁, h₁, a, s₂, h₂, b, s₃, h₃, e, rfl⟩ := (ran_ternary hc hy hn).1 hr
  cases e
  obtain ⟨c, rfl, d₁⟩ := visit_expr_draws hf hc h₁ site.sound
  obtain ⟨hs₁, g₁⟩ := visit_advances _ (plain_of_isExpr hc) _ _ _ h₁ site.sound
  obtain ⟨a, rfl, d₂⟩ := visit_expr_draws hf hy h₂ (hs₁.number.number.draw.add _)
  obtain ⟨hs₂, g₂⟩ := visit_advances _ (plain_of_isExpr hy) _ _ _ h₂ (hs₁.number.number.draw.add _)
  obtain ⟨b, rfl, d₃⟩ := visit_expr_draws hf hn h₃ (((hs₂.add _).add _).add _)
  obtain ⟨hs₃, g₃⟩ := visit_advances _ (plain_of_isExpr hn) _ _ _ h₃ (((hs₂.add _).add _).add _)
  have w₃ : s₃.Grows sf := site.grows.of_add.of_add
  have w₂ := g₃.trans w₃
  have w₁ := g₂.trans w₂.of_add.of_add.of_add
  -- the result register, drawn between the condition and the two values
  have free : s₁.next ∉ s.bank.taken := fun ht => s₁.next_notMem (g₁.taken ht)
  have taken₂ : s₁.next ∈ s₂.bank.taken := g₂.taken ((s₁.mem_taken_draw _).2 (.inr rfl))
  have taken₃ : s₁.next ∈ s₃.bank.taken := g₃.taken taken₂
  have toEnd : ∀ σ, Steps div prog (m.on (here prog (s₃.add (.mov s₁.next (.ofReg (some b))))) σ w') (m.on (here prog
      ((s₃.add (.mov s₁.next (.ofReg (some b)))).add (.label ⟨"ternary_end", s₁.labels + 1⟩))) σ w') := by
    intro σ
    rw [site.here_add site.grows]
    exact steps_pass rfl
  simp only [eval, Result.andThen_eq_nil] at he
  obtain ⟨x, wx, e₁, e₂⟩ := he
  obtain ⟨σ₁, st₁, v₁, f₁⟩ := ih.eval (site.part site.sound w₁.of_add.of_draw.of_number.of_number site.housed) hc h₁ e₁ m
    σ hσ
  have hσ₁ := f₁.represents hσ site.sound w₁.of_add.of_draw.of_number.of_number d₁.home
  have f₁' := f₁.mono (.refl s) (Grows.refl _ : Grows (s₁.number.number.draw.add
    (.jumpIfZero (some c) ⟨"ternary_false", s₁.labels⟩)) _).of_add.of_draw.of_number.of_number
  have g₁' := g₁.trans (Grows.refl _ : Grows (s₁.number.number.draw.add
    (.jumpIfZero (some c) ⟨"ternary_false", s₁.labels⟩)) _).of_add.of_draw.of_number.of_number
  have test := site.here_add w₁
  rw [here_draw, here_number, here_number] at test
  split at e₂
  · next hx =>
    subst hx
    obtain ⟨σ₃, st₃, v₃, f₃⟩ := ih.eval (site.part (((hs₂.add _).add _).add _) w₃ (site.housed.of_home
      (d₂.home.trans d₁.home))) hn h₃ e₂ m σ₁ hσ₁
    refine ⟨Function.update σ₃ s₁.next (some v), st₁.trans (.trans ?_ (st₃.trans (.trans ?_ (toEnd _)))), Function.update_self .., ?_⟩
    · rw [test]
      refine .trans (steps_zero v₁ (site.label w₂)) ?_
      rw [site.here_add w₂]
      exact steps_pass rfl
    · rw [site.here_add site.grows.of_add]
      exact steps_move v₃
    · refine .put ?_ _ free taken₃
      refine (f₁'.trans (f₃.mono ?_ (.refl _)) g₁' ?_).mono (.refl s) (Grows.refl _).of_add.of_add
      · exact g₂.trans (Grows.refl _).of_add.of_add.of_add
      · exact g₂.trans g₃.of_add.of_add.of_add
  · next hx =>
    obtain ⟨σ₂, st₂, v₂, f₂⟩ := ih.eval (site.part (hs₁.number.number.draw.add _) w₂.of_add.of_add.of_add
      (site.housed.of_home d₁.home)) hy h₂ e₂ m σ₁ hσ₁
    refine ⟨Function.update σ₂ s₁.next (some v), st₁.trans (.trans ?_ (st₂.trans (.trans ?_ (toEnd _)))), Function.update_self .., ?_⟩
    · rw [test]
      exact steps_nonzero v₁ hx
    · rw [site.here_add w₂.of_add.of_add, site.here_add w₂.of_add]
      exact .trans (steps_move v₂) (steps_jump (site.label site.grows))
    · refine .put ?_ _ free taken₃
      exact (f₁'.trans f₂ g₁' g₂).mono (.refl s) (g₃.of_add.of_add.of_add.trans (Grows.refl _).of_add.of_add)

theorem computes_scan {args : List Node} {line : Int} (site : Site prog sf known s s')
    (hr : Ran (visit (.call "scan" args line)) s (some r) s')
    (he : eval div fs (n + 1) known ρ (.call "scan" args line) w = some (v, w', [])) :
    Computes div prog s s' m σ w r v w' := by
  obtain ⟨e, rfl⟩ := ran_scan.1 hr
  cases e
  obtain ⟨input, output⟩ := w
  simp only [eval, if_true] at he
  cases input with
  | nil => cases he
  | cons u us =>
    cases he
    refine ⟨Function.update σ s.next (some v), ?_, Function.update_self .., ?_⟩
    · rw [← here_draw, site.here_add site.grows]
      exact steps_input s.next
    · exact .update _ s.next_notMem ((s.mem_taken_draw _).2 (.inr rfl))

theorem steps_callFunction (ih : Simulates div fs prog n) (hf : Callable (names fs)) {name : String} {args : List Node}
    {line : Int} {t : Option Reg} {vs : List Int} {w₁ : World} {result : Option Int} (site : Site prog sf known s s')
    (hn : name ∈ names fs) (ha : areExprs (names fs) args = true)
    (hr : Ran (visit (.call name args line)) s t s') (e₁ : evalAll div fs n known ρ args w = some (vs, w₁, []))
    (e₂ : call div fs n name vs w₁ = some (result, w', [])) (hσ : Represents sf σ ρ) :
    ∃ σ' r, t = some r ∧ Steps div prog (m.on (here prog s) σ w) (m.on (here prog s') σ' w') ∧ σ' r = result ∧
      Frame s s' σ σ' := by
  obtain ⟨rs, s₁, h₁, d₁⟩ := visit_exprs hf ha s
  obtain ⟨rfl, rfl⟩ := (ran_call (hf name hn) h₁).1 hr
  obtain ⟨-, g₁⟩ := visitArguments_advances _ (plainAll_of_areExprs ha) _ _ _ h₁ site.sound
  have w₁ : s₁.Grows sf := site.grows.of_add.of_draw
  obtain ⟨σ₁, st₁, v₁, f₁⟩ := ih.evalAll (site.part site.sound w₁ site.housed) ha h₁ e₁ m σ hσ
  obtain ⟨head, hh, body⟩ := ih.call e₂
  refine ⟨Function.update σ₁ s₁.next result, s₁.next, rfl, st₁.trans ?_, Function.update_self .., ?_⟩
  · rw [← here_draw prog s₁, site.here_add site.grows]
    exact steps_call v₁ hh body
  · refine .put (f₁.mono (.refl s) (Grows.refl _).of_add.of_draw) _ ?_ ((s₁.mem_taken_draw _).2 (.inr rfl))
    exact fun ht => s₁.next_notMem (g₁.taken ht)

theorem eval_step (ih : Simulates div fs prog n) (hf : Callable (names fs)) {e : Node} (site : Site prog sf known s s')
    (h : isExpr (names fs) e = true) (hr : Ran (visit e) s (some r) s')
    (he : eval div fs (n + 1) known ρ e w = some (v, w', [])) (hσ : Represents sf σ ρ) :
    Computes div prog s s' m σ w r v w' := by
  cases e with
  | number u _ =>
    obtain ⟨e, rfl⟩ := ran_number.1 hr
    simp only [eval] at he
    cases e
    cases he
    exact computes_literal site
  | boolean b _ =>
    obtain ⟨e, rfl⟩ := ran_boolean.1 hr
    simp only [eval] at he
    cases e
    cases he
    exact computes_literal site
  | identifier x _ => exact computes_identifier site hr he hσ
  | binary left op right _ => exact computes_binary ih hf site h hr he hσ
  | ternary condition yes no _ => exact computes_ternary ih hf site h hr he hσ
  | call name args _ =>
    by_cases hn : name = "scan"
    · subst hn
      exact computes_scan site hr he
    · simp only [isExpr, if_neg hn, Bool.and_eq_true, List.contains_iff_mem] at h
      simp only [eval, if_neg hn, Result.andThen_eq_nil, Option.map_eq_some_iff] at he
      obtain ⟨vs, w₁, e₁, result, w₂, e₂, u, rfl, e⟩ := he
      cases e
      obtain ⟨σ', q, e, st, hv, f⟩ := steps_callFunction (m := m) ih hf site h.1 h.2 hr e₁ e₂ hσ
      cases e
      exact ⟨σ', st, hv, f⟩
  | _ => cases h

theorem evalAll_step (ih : Simulates div fs prog n) (hf : Callable (names fs)) {es : List Node} {vs : List Int}
    {rs : List Reg} (site : Site prog sf known s s') (h : areExprs (names fs) es = true)
    (hr : Ran (visitArguments es) s (rs.map some) s')
    (he : evalAll div fs (n + 1) known ρ es w = some (vs, w', [])) (hσ : Represents sf σ ρ) :
    ∃ σ', Steps div prog (m.on (here prog s) σ w) (m.on (here prog s') σ' w') ∧ rs.mapM σ' = some vs ∧
      Frame s s' σ σ' := by
  cases es with
  | nil =>
    rw [visitArguments] at hr
    obtain ⟨hrs, rfl⟩ := ran_pure.1 hr
    obtain rfl := List.map_eq_nil_iff.1 hrs
    cases he
    exact ⟨σ, .refl _, rfl, .refl _ _ _⟩
  | cons e es =>
    simp only [areExprs, Bool.and_eq_true] at h
    obtain ⟨a, s₁, h₁, as, h₂, e'⟩ := (ran_arguments_cons h.1).1 hr
    obtain ⟨a, rfl, d₁⟩ := visit_expr_draws hf h.1 h₁ site.sound
    obtain ⟨hs₁, g₁⟩ := visit_advances _ (plain_of_isExpr h.1) _ _ _ h₁ site.sound
    obtain ⟨-, g₂⟩ := visitArguments_advances _ (plainAll_of_areExprs h.2) _ _ _ h₂ hs₁
    cases rs with
    | nil => cases e'
    | cons r rs =>
      rw [List.map_cons, List.cons.injEq] at e'
      obtain ⟨e', rfl⟩ := e'
      cases e'
      have w₁ : s₁.Grows sf := g₂.trans site.grows
      simp only [evalAll, Result.andThen_eq_nil] at he
      obtain ⟨u, wu, e₁, us, wus, e₂, e⟩ := he
      cases e
      obtain ⟨σ₁, st₁, v₁, f₁⟩ := ih.eval (site.part site.sound w₁ site.housed) h.1 h₁ e₁ m σ hσ
      have hσ₁ := f₁.represents hσ site.sound w₁ d₁.home
      obtain ⟨σ₂, st₂, v₂, f₂⟩ := ih.evalAll (site.part hs₁ site.grows (site.housed.of_home d₁.home)) h.2 h₂ e₂ m σ₁ hσ₁
      refine ⟨σ₂, st₁.trans st₂, ?_, f₁.trans f₂ g₁ g₂⟩
      rw [List.mapM_cons, f₂ a (.inl d₁.taken), v₁, v₂]
      rfl

end TesLang.Scalar
