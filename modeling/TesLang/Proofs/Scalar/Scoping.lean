import Mathlib.Data.List.Perm.Basic
import TesLang.Proofs.Checking.Names
import TesLang.Proofs.Scalar.Evaluation
/-!
# Names in scalar programs that pass the check

In a program without errors every name that is read is a variable that is known there, or the name of a function
(`scoped_of_check`).  The walk keeps the variables of the function in the innermost scope and the functions of the
program around it (`InFunction`).

So when such a program is run, a variable that is read ahead of the text has the name of a function (`staysWithin`).
-/
namespace TesLang.Scalar

open Check Checker

variable {fns params known : List String}

/-- The innermost scope binds known names only, and the one around it names of functions. -/
structure InFunction (fns known : List String) (c : Chain) : Prop where
  inner : c.inner.names ⊆ known
  outer : ∃ g : Scope, c.outer = [g] ∧ g.names ⊆ fns

namespace InFunction

variable {c : Chain}

theorem mono {more : List String} (h : InFunction fns known c) (sub : known ⊆ more) : InFunction fns more c :=
  ⟨fun _ hx => sub (h.inner hx), h.outer⟩

theorem lookup (h : InFunction fns known c) {x : String} (hx : (c.lookup x).isSome = true) : x ∈ known ∨ x ∈ fns := by
  obtain ⟨g, hg, hgx⟩ := h.outer
  obtain ⟨scope, hs, hm⟩ := Chain.isSome_lookup.1 hx
  unfold Chain.scopes at hs
  rw [hg] at hs
  rcases List.mem_cons.1 hs with rfl | hs
  · exact .inl (h.inner hm)
  · obtain rfl := List.mem_singleton.1 hs
    exact .inr (hgx hm)

theorem insert (h : InFunction fns known c) (x : String) (symbol : Symbol) :
    InFunction fns (x :: known) (c.insert x symbol) := by
  refine ⟨fun y hy => ?_, h.outer⟩
  rcases Scope.mem_names_insert.1 hy with rfl | hy
  · exact List.mem_cons_self
  · exact List.mem_cons_of_mem _ (h.inner hy)

theorem assigned (h : InFunction fns known c) (x : String) : InFunction fns known (c.assigned x) := by
  obtain ⟨g, hg, hgx⟩ := h.outer
  have same := Chain.names_assigned c x
  unfold Chain.scopes at same
  rw [hg, List.map_cons, List.map_cons, List.cons.injEq] at same
  obtain ⟨hi, ho⟩ := same
  obtain ⟨g', hg', e⟩ := List.map_eq_singleton_iff.1 ho
  exact ⟨hi ▸ h.inner, g', hg', e ▸ hgx⟩

end InFunction

/-! ### Expressions -/

theorem single_expr {e : Node} (h : isExpr fns e = true) (walk : Check (Option String)) : single e walk = walk :=
  single_expression (isExpression_of_isExpr h) walk

theorem single_stmt {n : Node} (h : isFiller n = false) (walk : Check (Option String)) : single n walk = walk := by
  cases n <;> first | rfl | cases h

theorem noting_expr {e : Node} (h : isExpr fns e = true) : Noting (visit e) := visit_noting (isExpression_of_isExpr h)

theorem noting_exprs {es : List Node} (h : areExprs fns es = true) : Noting (visitAll es) :=
  visitAll_noting (areExpressions_of_areExprs h)

def Bound (c : Chain) (xs : List String) : Prop := ∀ x ∈ xs, (c.lookup x).isSome = true

theorem Bound.append {c : Chain} {xs ys : List String} (h : Bound c xs) (h' : Bound c ys) : Bound c (xs ++ ys) :=
  fun x hx => (List.mem_append.1 hx).elim (h x) (h' x)

theorem Bound.readable {c : Chain} {xs : List String} (h : Bound c xs) (hc : InFunction fns known c) :
    Readable fns known xs := fun x hx => hc.lookup (h x hx)

mutual

/-- **Every name that an expression reads is bound**, if it has no errors. -/
theorem bound_expr : ∀ {e : Node}, isExpr fns e = true → ∀ ⦃s s' : Checker⦄ ⦃t : Option String⦄,
    Ran (visit e) s t s' → s'.found = [] → Bound s.chain (reads e)
  | .number .., _ | .boolean .., _ => fun _ _ _ _ _ _ hx => by cases hx
  | .identifier x _, _ => by
    intro s s' t hr hn y hy
    obtain rfl := List.mem_singleton.1 hy
    rw [visit] at hr
    simp only [ran_bind, ran_pure] at hr
    obtain ⟨_, _, hr, -, rfl⟩ := hr
    obtain ⟨symbol, found, -⟩ := passes_identifier hr hn
    exact Option.isSome_iff_exists.2 ⟨symbol, found⟩
  | .binary left _ right _, h => by
    intro s s' t hr hn
    simp only [isExpr, Bool.and_eq_true] at h
    rw [visit] at hr
    simp only [ran_bind, ran_pure] at hr
    obtain ⟨_, s₁, h₁, _, s₂, h₂, -, rfl⟩ := hr
    have hc : s₁.chain = s.chain := (noting_expr h.1.2 _ _ _ h₁).chain
    have left := bound_expr h.1.2 h₁ (found_of_ran h₂ hn)
    have right := bound_expr h.2 h₂ hn
    rw [reads]
    exact left.append (hc ▸ right)
  | .ternary condition yes no _, h => by
    intro s s' t hr hn
    simp only [isExpr, Bool.and_eq_true] at h
    rw [visit, single_expr h.1.1, single_expr h.1.2, single_expr h.2] at hr
    simp only [ran_bind, ran_pure] at hr
    obtain ⟨_, s₁, h₁, _, s₂, h₂, _, s₃, h₃, _, s₄, h₄, -, rfl⟩ := hr
    have hn₃ := (Noting.checkCondition _ _ _ _ _ h₄).reports.nil hn
    have hn₂ := found_of_ran h₃ hn₃
    have hc₁ : s₁.chain = s.chain := (noting_expr h.1.1 _ _ _ h₁).chain
    have hc₂ : s₂.chain = s₁.chain := (noting_expr h.1.2 _ _ _ h₂).chain
    have hc := bound_expr h.1.1 h₁ (found_of_ran h₂ hn₂)
    have hy := bound_expr h.1.2 h₂ hn₂
    have hno := bound_expr h.2 h₃ hn₃
    rw [reads]
    exact (hc.append (hc₁ ▸ hy)).append (hc₁ ▸ hc₂ ▸ hno)
  | .call _ args _, h => by
    intro s s' t hr hn
    rw [visit] at hr
    obtain ⟨_, s₁, h₁, h₂⟩ := ran_bind.1 hr
    have hn₁ := (Noting.checkCall _ _ _ _ _ _ h₂).reports.nil hn
    rw [reads]
    simp only [isExpr] at h
    split at h
    · obtain rfl := List.isEmpty_iff.1 h
      exact fun x hx => by cases hx
    · exact bound_exprs (Bool.and_eq_true_iff.1 h).2 h₁ hn₁

theorem bound_exprs : ∀ {es : List Node}, areExprs fns es = true → ∀ ⦃s s' : Checker⦄ ⦃u : Unit⦄,
    Ran (visitAll es) s u s' → s'.found = [] → Bound s.chain (readsAll es)
  | [], _ => fun _ _ _ _ _ _ hx => by cases hx
  | e :: es, h => by
    intro s s' u hr hn
    simp only [areExprs, Bool.and_eq_true] at h
    rw [visitAll, single_expr h.1] at hr
    obtain ⟨_, s₁, h₁, h₂⟩ := ran_bind.1 hr
    have hc : s₁.chain = s.chain := (noting_expr h.1 _ _ _ h₁).chain
    have first := bound_expr h.1 h₁ ((allows_reports.visitAll es _ _ _ h₂).nil hn)
    have rest := bound_exprs h.2 h₂ hn
    rw [readsAll]
    exact first.append (hc ▸ rest)

end

/-! ### Statements -/

theorem InFunction.withLoop {c : Chain} (h : InFunction fns known c) (x : String) (line : Int) :
    InFunction fns (x :: known) (withLoop c x line) := by
  unfold Check.withLoop
  split
  · exact h.insert x _
  · exact (h.assigned x).mono (List.subset_cons_self _ _)

mutual

/-- **Every name that a statement reads is known or that of a function**, if the statement has no errors. -/
theorem scoped_stmt : ∀ {n : Node}, isStmt fns params n = true → ∀ ⦃known : List String⦄ ⦃s s' : Checker⦄
    ⦃t : Option String⦄, Ran (visit n) s t s' → s'.found = [] → InFunction fns known s.chain →
    Scoped fns known n ∧ InFunction fns (brings n ++ known) s'.chain
  | .declaration x type line, _ => by
    intro known s s' t hr hn hc
    rw [visit] at hr
    simp only [ran_bind, ran_pure] at hr
    obtain ⟨_, _, hr, -, rfl⟩ := hr
    rw [declare_chain hr hn, after]
    exact ⟨trivial, hc.insert x _⟩
  | .assignment _ value _, h => by
    intro known s s' t hr hn hc
    obtain ⟨⟨x, rfl⟩, h⟩ := isStmt_assignment.1 h
    rw [visit, single_expr h] at hr
    simp only [ran_bind, ran_pure] at hr
    obtain ⟨_, s₁, h₁, _, s₂, h₂, -, rfl⟩ := hr
    have hc₁ := (noting_expr h _ _ _ h₁).chain
    have hn₁ := (allows_reports.assignVariable _ _ _ _ _ _ h₂).nil hn
    refine ⟨(bound_expr h h₁ hn₁).readable hc, ?_⟩
    rw [(passes_target h₂ hn).2, hc₁]
    exact (hc.assigned x).mono (List.subset_append_right _ _)
  | .call name args _, h => by
    intro known s s' t hr hn hc
    rw [visit] at hr
    obtain ⟨_, s₁, h₁, h₂⟩ := ran_bind.1 hr
    have ha : areExprs fns args = true := by
      simp only [isStmt] at h
      split at h <;> exact (Bool.and_eq_true_iff.1 h).2
    have hn₁ := (Noting.checkCall _ _ _ _ _ _ h₂).reports.nil hn
    refine ⟨(bound_exprs ha h₁ hn₁).readable hc, ?_⟩
    rw [(Noting.checkCall _ _ _ _ _ _ h₂).chain, (noting_exprs ha _ _ _ h₁).chain]
    exact hc
  | .ret value line, h => by
    intro known s s' t hr hn hc
    rw [visit, (ran_get.2 ⟨rfl, rfl⟩ : Ran get s s s).bind_iff] at hr
    cases he : s.enclosing with
    | none =>
      rw [he] at hr
      simp only [ran_bind, ran_report, ran_pure] at hr
      obtain ⟨_, _, rfl, -, rfl⟩ := hr
      simp at hn
    | some e =>
      rw [he] at hr
      simp only [ran_bind, ran_pure] at hr
      obtain ⟨_, s₁, h₁, _, s₂, h₂, -, rfl⟩ := hr
      have hn₁ := (Noting.checkReturn _ _ _ _ _ _ h₂).reports.nil hn
      have hc₂ := (Noting.checkReturn _ _ _ _ _ _ h₂).chain
      rcases isStmt_ret.1 h with rfl | h
      · rw [single, visit] at h₁
        · obtain ⟨-, rfl⟩ := ran_pure.1 h₁
          exact ⟨fun x hx => (nomatch hx), hc₂ ▸ hc⟩
        · intros
          contradiction
      · rw [single_expr h] at h₁
        refine ⟨(bound_expr h h₁ hn₁).readable hc, ?_⟩
        rw [hc₂, (noting_expr h _ _ _ h₁).chain]
        exact hc
  | .branch condition yes no _, h => by
    intro known s s' t hr hn hc
    simp only [isStmt, Bool.and_eq_true] at h
    rw [visit] at hr
    simp only [ran_bind, ran_pure] at hr
    obtain ⟨_, s₁, h₁, _, s₂, h₂, _, s₃, h₃, -, rfl⟩ := hr
    have hn₂ := found_of_ran h₃ hn
    have hc₁ := (noting_expr h.1.1 _ _ _ h₁).chain ▸ hc
    obtain ⟨sy, hc₂⟩ := scoped_stmt h.1.2 h₂ hn₂ hc₁
    obtain ⟨sn, hc₃⟩ := scoped_stmt h.2 h₃ hn hc₂
    refine ⟨⟨(bound_expr h.1.1 h₁ (found_of_ran h₂ hn₂)).readable hc, sy, sn⟩, hc₃.mono ?_⟩
    simp only [brings, List.append_assoc]
    exact (List.perm_append_comm_assoc ..).subset
  | .whileLoop condition body _, h => by
    intro known s s' t hr hn hc
    simp only [isStmt, Bool.and_eq_true] at h
    rw [visit] at hr
    simp only [ran_bind, ran_pure] at hr
    obtain ⟨_, s₁, h₁, _, s₂, h₂, -, rfl⟩ := hr
    obtain ⟨sb, hc₂⟩ := scoped_stmt h.2 h₂ hn ((noting_expr h.1 _ _ _ h₁).chain ▸ hc)
    exact ⟨⟨(bound_expr h.1 h₁ (found_of_ran h₂ hn)).readable hc, sb⟩, hc₂⟩
  | .doLoop body condition _, h => by
    intro known s s' t hr hn hc
    obtain ⟨-, hb, hcond⟩ := isStmt_doLoop.1 h
    rw [visit] at hr
    simp only [ran_bind, ran_pure] at hr
    obtain ⟨_, s₁, h₁, _, s₂, h₂, -, rfl⟩ := hr
    obtain ⟨sb, hc₁⟩ := scoped_stmt hb h₁ (found_of_ran h₂ hn) hc
    refine ⟨⟨sb, (bound_expr hcond h₂ hn).readable hc₁⟩, ?_⟩
    rw [(noting_expr hcond _ _ _ h₂).chain]
    exact hc₁
  | .forLoop x start stop body _, h => by
    intro known s s' t hr hn hc
    simp only [isStmt, Bool.and_eq_true, List.all_eq_true, bne_iff_ne] at h
    obtain ⟨⟨⟨⟨-, ha⟩, hz⟩, hb⟩, range⟩ := h
    rw [visit, single_expr ha, single_expr hz] at hr
    simp only [ran_bind, ran_pure] at hr
    obtain ⟨_, s₀, h₀, _, s₁, h₁, _, s₂, h₂, _, s₃, h₃, _, s₄, h₄, -, rfl⟩ := hr
    have hn₃ := found_of_ran h₄ hn
    have hn₂ := (Noting.checkRange _ _ _ _ _ _ h₃).reports.nil hn₃
    have hc₀ : InFunction fns (x :: known) s₀.chain := bindLoopVariable_chain h₀ ▸ hc.withLoop x _
    have hc₁ := (noting_expr ha _ _ _ h₁).chain ▸ hc₀
    have hc₂ := (noting_expr hz _ _ _ h₂).chain ▸ hc₁
    obtain ⟨sb, hc₄⟩ := scoped_stmt hb h₄ hn ((Noting.checkRange _ _ _ _ _ _ h₃).chain ▸ hc₂)
    -- the variable of the loop is known in the range already, but the range does not mention it
    have earlier : ∀ {xs : List String}, xs ⊆ reads start ++ reads stop → Readable fns (x :: known) xs →
        Readable fns known xs := by
      intro xs hxs hr y hy
      refine (hr y hy).imp_left fun h => (List.mem_cons.1 h).resolve_left ?_
      exact (range y (hxs hy)).1
    refine ⟨⟨?_, ?_, sb⟩, hc₄.mono ?_⟩
    · exact earlier (List.subset_append_left _ _) ((bound_expr ha h₁ (found_of_ran h₂ hn₂)).readable hc₀)
    · exact earlier (List.subset_append_right _ _) ((bound_expr hz h₂ hn₂).readable hc₁)
    · rw [brings]
      exact List.perm_middle.subset
  | .block ss _, h | .several ss, h => by
    intro known s s' t hr hn hc
    rw [visit] at hr
    simp only [ran_bind, ran_pure] at hr
    obtain ⟨_, _, hr, -, rfl⟩ := hr
    exact scoped_stmts h hr hn hc
  | .nothing, _ => by
    intro known s s' t hr _ hc
    rw [visit] at hr
    obtain ⟨-, rfl⟩ := ran_pure.1 hr
    exact ⟨trivial, hc⟩

theorem scoped_stmts : ∀ {ns : List Node}, areStmts fns params ns = true → ∀ ⦃known : List String⦄ ⦃s s' : Checker⦄
    ⦃u : Unit⦄, Ran (visitAll ns) s u s' → s'.found = [] → InFunction fns known s.chain →
    ScopedAll fns known ns ∧ InFunction fns (bringsAll ns ++ known) s'.chain
  | [], _ => by
    intro known s s' u hr _ hc
    rw [visitAll] at hr
    obtain ⟨-, rfl⟩ := ran_pure.1 hr
    exact ⟨trivial, hc⟩
  | n :: ns, h => by
    intro known s s' u hr hn hc
    simp only [areStmts, Bool.and_eq_true, Bool.not_eq_true'] at h
    rw [visitAll, single_stmt h.1.1] at hr
    obtain ⟨_, s₁, h₁, h₂⟩ := ran_bind.1 hr
    obtain ⟨sn, hc₁⟩ := scoped_stmt h.1.2 h₁ ((allows_reports.visitAll ns _ _ _ h₂).nil hn) hc
    obtain ⟨sns, hc₂⟩ := scoped_stmts h.2 h₂ hn hc₁
    refine ⟨⟨sn, sns⟩, hc₂.mono ?_⟩
    rw [bringsAll, List.append_assoc]
    exact (List.perm_append_comm_assoc ..).subset

end

/-! ### Functions and programs -/

structure Global (fns : List String) (c : Chain) : Prop where
  outer : c.outer = []
  inner : c.inner.names ⊆ fns

theorem inFunction_bindParameters : ∀ {ps : List Node}, ps.all isParam = true → ∀ ⦃known : List String⦄
    ⦃s s' : Checker⦄ ⦃u : Unit⦄, Ran (bindParameters ps) s u s' → InFunction fns known s.chain →
    InFunction fns (ps.filterMap Node.name? ++ known) s'.chain
  | [], _ => by
    intro known s s' u hr hc
    obtain ⟨-, rfl⟩ := ran_pure.1 hr
    exact hc
  | p :: ps, h => by
    intro known s s' u hr hc
    rw [List.all_cons, Bool.and_eq_true] at h
    obtain ⟨hp, h⟩ := h
    cases p with
    | parameter name type line =>
      rw [bindParameters] at hr
      simp only [nameOf, Node.name?, parameterType, pure_bind, ran_bind, ran_bindName] at hr
      obtain ⟨_, _, rfl, hr⟩ := hr
      refine (inFunction_bindParameters h hr (hc.insert name _)).mono ?_
      rw [List.filterMap_cons_some (show Node.name? (.parameter name type line) = some name from rfl)]
      exact List.perm_middle.subset
    | _ => cases hp

theorem isFunction_statements {n : Node} (h : isStmt fns params n = true) : ∀ m ∈ n.statements, m.isFunction = false := by
  have all : ∀ {ns : List Node}, areStmts fns params ns = true → ∀ m ∈ ns, m.isFunction = false := by
    intro ns h m hm
    induction ns with
    | nil => cases hm
    | cons n ns ih =>
      simp only [areStmts, Bool.and_eq_true, Bool.not_eq_true'] at h
      rcases List.mem_cons.1 hm with rfl | hm
      · cases m <;> first | rfl | cases h.1.2
      · exact ih h.2 hm
  intro m hm
  cases n with
  | several ns => exact all h m hm
  | block ns _ => exact all h m hm
  | nothing => cases hm
  | function _ _ _ _ _ => cases h
  | _ =>
    obtain rfl := List.mem_singleton.1 hm
    rfl

theorem ran_bindNested : ∀ {ns : List Node}, (∀ n ∈ ns, n.isFunction = false) → ∀ ⦃s s' : Checker⦄ ⦃u : Unit⦄,
    Ran (bindNested ns) s u s' → s' = s
  | [], _ => fun _ _ _ hr => (ran_pure.1 hr).2
  | n :: ns, h => by
    intro s s' u hr
    rw [bindNested, h n List.mem_cons_self] at hr
    exact ran_bindNested (fun m hm => h m (List.mem_cons_of_mem _ hm)) hr

theorem scoped_function {name returnType : String} {ps body : Node} {line : Int} {s s' : Checker} {t : Option String}
    (hps : areParams ps = true) (hb : isStmt fns (paramNames ps) body = true)
    (hr : Ran (visit (.function name ps returnType body line)) s t s') (hn : s'.found = []) (hg : Global fns s.chain) :
    Scoped fns (paramNames ps) body ∧ Global fns s'.chain := by
  cases ps with
  | several ps =>
    simp only [areParams, Bool.and_eq_true] at hps
    rw [visit] at hr
    simp only [enter, leave, parameters, pure_bind, ran_bind, ran_get, ran_modify, ran_pure] at hr
    obtain ⟨_, s₀, ⟨rfl, rfl⟩, _, _, rfl, _, s₁, h₁, _, s₂, h₂, _, s₃, h₃, _, _, rfl, -, rfl⟩ := hr
    have hc : InFunction fns [] s₀.chain.enter := by
      refine ⟨List.nil_subset _, s₀.chain.inner, ?_, hg.inner⟩
      rw [Chain.enter, Chain.scopes, hg.outer]
    have hc₁ := inFunction_bindParameters hps.1 h₁ hc
    rw [List.append_nil] at hc₁
    obtain rfl := ran_bindNested (isFunction_statements hb) h₂
    obtain ⟨hs, hc₃⟩ := scoped_stmt hb h₃ hn hc₁
    refine ⟨hs, ?_⟩
    obtain ⟨g, ho, hg⟩ := hc₃.outer
    unfold Chain.leave
    rw [ho]
    exact ⟨rfl, hg⟩
  | _ => cases hps

theorem Global.insert {c : Chain} (hg : Global fns c) {x : String} (hx : x ∈ fns) (symbol : Symbol) :
    Global fns (c.insert x symbol) := by
  refine ⟨hg.outer, fun y hy => ?_⟩
  rcases Scope.mem_names_insert.1 hy with rfl | hy
  · exact hx
  · exact hg.inner hy

theorem global_bindFunction {f : Node} {s s' : Checker} {u : Unit} (hr : Ran (bindFunction f) s u s')
    (hg : Global fns s.chain) (hx : ∀ x, f.name? = some x → x ∈ fns) : Global fns s'.chain := by
  cases f with
  | function name params returnType body line =>
    simp only [bindFunction, ran_bind, ran_bindName] at hr
    obtain ⟨ps, s₁, h₁, sig, s₂, h₂, rfl⟩ := hr
    refine Global.insert ?_ (hx name rfl) _
    rw [(Noting.signature _ _ _ _ h₂).chain, (Noting.parameters _ _ _ _ h₁).chain]
    exact hg
  | _ => exact (ran_throw hr).elim

theorem global_bindProgram : ∀ {fs : List Node}, names fs ⊆ fns → ∀ ⦃s s' : Checker⦄ ⦃u : Unit⦄,
    Ran (bindProgram fs) s u s' → Global fns s.chain → Global fns s'.chain
  | [], _ => by
    intro s s' u hr hg
    obtain ⟨-, rfl⟩ := ran_pure.1 hr
    exact hg
  | f :: fs, h => by
    intro s s' u hr hg
    rw [bindProgram] at hr
    obtain ⟨name, s₁, h₁, hr⟩ := ran_bind.1 hr
    have hg₁ : Global fns s₁.chain := (Noting.nameOf f _ _ _ h₁).chain ▸ hg
    have hx : ∀ x, f.name? = some x → x ∈ fns := fun x hx => h (List.mem_filterMap.2 ⟨f, List.mem_cons_self, hx⟩)
    have rest : names fs ⊆ fns := fun x hx => by
      obtain ⟨f', hf', e⟩ := List.mem_filterMap.1 hx
      exact h (List.mem_filterMap.2 ⟨f', List.mem_cons_of_mem _ hf', e⟩)
    rw [(ran_get.2 ⟨rfl, rfl⟩ : Ran get s₁ s₁ s₁).bind_iff] at hr
    split at hr
    · obtain ⟨_, s₂, h₂, hr⟩ := ran_bind.1 hr
      exact global_bindProgram rest hr (global_bindFunction h₂ hg₁ hx)
    · exact global_bindProgram rest hr hg₁

theorem scoped_visitFunctions : ∀ {fs : List Node}, (∀ f ∈ fs, isFunction fns f = true) → ∀ ⦃s s' : Checker⦄ ⦃u : Unit⦄,
    Ran (visitFunctions fs) s u s' → s'.found = [] → Global fns s.chain →
    ∀ {name params returnType body line}, .function name params returnType body line ∈ fs →
      Scoped fns (paramNames params) body
  | [], _ => fun _ _ _ _ _ _ _ _ _ _ _ hm => nomatch hm
  | f :: fs, h => by
    intro s s' u hr hn hg name params returnType body line hm
    have hf := h f List.mem_cons_self
    cases f with
    | function name' ps returnType' body' line' =>
      simp only [isFunction, Bool.and_eq_true, Bool.not_eq_true'] at hf
      rw [visitFunctions] at hr
      simp only [Node.isFunction, if_true, ran_bind] at hr
      obtain ⟨_, s₁, h₁, hr⟩ := hr
      obtain ⟨hs, hg₁⟩ := scoped_function hf.1.2 hf.2 h₁ ((allows_reports.visitFunctions fs _ _ _ hr).nil hn) hg
      rcases List.mem_cons.1 hm with e | hm
      · cases e
        exact hs
      · exact scoped_visitFunctions (fun f hf => h f (List.mem_cons_of_mem _ hf)) hr hn hg₁ hm
    | _ => cases hf

/-- **In a scalar program without errors every name that is read is known or that of a function.** -/
theorem scoped_of_check {fs : List Node} (program : isProgram fs = true) (accepted : check fs = .ok [])
    {name returnType : String} {params body : Node} {line : Int}
    (hm : .function name params returnType body line ∈ fs) : Scoped (names fs) (paramNames params) body := by
  unfold check at accepted
  split at accepted
  · next t s hr =>
    have hn : s.found = [] := Except.ok.inj accepted
    have hr : Ran (visit (.program fs)) {} t s := hr
    rw [visit] at hr
    simp only [ran_bind, ran_pure] at hr
    obtain ⟨_, s₁, h₁, _, s₂, h₂, -, rfl⟩ := hr
    have hg : Global (names fs) s₁.chain := global_bindProgram (List.Subset.refl _) h₁ ⟨rfl, List.nil_subset _⟩
    exact scoped_visitFunctions (List.all_eq_true.1 (Bool.and_eq_true_iff.1 program).1) h₂ hn hg hm
  · cases accepted

/-! ### What is read ahead of the text -/

/-- Every variable that was read ahead of the text has a name from `fns`. -/
def Result.Within {α : Type} (fns : List String) (r : Result α) : Prop := ∀ a w ahead, r = some (a, w, ahead) → ahead ⊆ fns

namespace Result

variable {α β : Type}

theorem within_none : Within fns (none : Result α) := nofun

theorem within_nil (a : α) (w : Code.World) : Within fns (some (a, w, []) : Result α) := by
  rintro _ _ _ ⟨⟩
  exact List.nil_subset _

theorem within_map (v : Option α) (w : Code.World) : Within fns (v.map (·, w, []) : Result α) := by
  cases v with
  | none => exact within_none
  | some a => exact within_nil a w

theorem Within.andThen {r : Result α} {k : α → Code.World → Result β} (h : r.Within fns)
    (h' : ∀ a w, (k a w).Within fns) : (r.andThen k).Within fns := by
  intro b w ahead e
  obtain ⟨a, w₁, p, er, p', ek, rfl⟩ := andThen_eq_some.1 e
  exact List.append_subset.2 ⟨h a w₁ p er, h' a w₁ b w p' ek⟩

end Result

/-- Where names are readable that are known or those of functions, only names of functions are read ahead of the text, with
the bound `n`. -/
structure StaysWithin (div : Int → Int → Option Int) (fs : List Node) (n : Nat) : Prop where
  eval : ∀ {known ρ e} w, Readable (names fs) known (reads e) → (eval div fs n known ρ e w).Within (names fs)
  evalAll : ∀ {known ρ es} w, Readable (names fs) known (readsAll es) → (evalAll div fs n known ρ es w).Within (names fs)
  call : ∀ name args w, (call div fs n name args w).Within (names fs)
  exec : ∀ {known ρ node} w, Scoped (names fs) known node → (exec div fs n known ρ node w).Within (names fs)
  execAll : ∀ {known ρ nodes} w, ScopedAll (names fs) known nodes → (execAll div fs n known ρ nodes w).Within (names fs)
  count : ∀ {known ρ x bound body} w, Scoped (names fs) known body →
    (count div fs n known ρ x bound body w).Within (names fs)

namespace StaysWithin

open Result

variable {div : Int → Int → Option Int} {fs : List Node} {n : Nat} {ρ : Env}

theorem eval_step (ih : StaysWithin div fs n) {e : Node} (w : Code.World) (h : Readable (names fs) known (reads e)) :
    (Scalar.eval div fs (n + 1) known ρ e w).Within (names fs) := by
  unfold Scalar.eval
  cases e with
  | number v _ => exact within_nil _ _
  | boolean b _ => exact within_nil _ _
  | identifier x _ =>
    intro a w' ahead e
    obtain ⟨v, -, e⟩ := Option.map_eq_some_iff.1 e
    cases e
    rcases h x List.mem_cons_self with hx | hx
    · simp [hx]
    · split <;> simp [hx]
  | binary left op right _ =>
    obtain ⟨hl, hr⟩ := Readable.append.1 h
    exact (ih.eval w hl).andThen fun _ w => (ih.eval w hr).andThen fun _ w => within_map _ _
  | ternary condition yes no _ =>
    obtain ⟨h, hn⟩ := Readable.append.1 h
    obtain ⟨hc, hy⟩ := Readable.append.1 h
    refine (ih.eval w hc).andThen fun t w => ?_
    split
    · exact ih.eval w hn
    · exact ih.eval w hy
  | call name args _ =>
    dsimp only
    split
    · split
      · exact within_none
      · exact within_nil _ _
    · exact (ih.evalAll w h).andThen fun vs w => (ih.call name vs w).andThen fun _ w => within_map _ _
  | _ => exact within_none

theorem call_step (ih : StaysWithin div fs n)
    (inScope : ∀ {name params returnType body line}, .function name params returnType body line ∈ fs →
      Scoped (names fs) (paramNames params) body) (name : String) (args : List Int) (w : Code.World) :
    (Scalar.call div fs (n + 1) name args w).Within (names fs) := by
  simp only [Scalar.call]
  split
  · next found =>
    have body := inScope (List.mem_of_find?_eq_some found)
    split
    · split
      · rintro _ _ _ ⟨⟩
        exact ih.exec w body _ _ _ ‹_›
      · rintro _ _ _ ⟨⟩
        exact ih.exec w body _ _ _ ‹_›
      · exact within_none
    · exact within_none
  · exact within_none

theorem exec_step (ih : StaysWithin div fs n) {node : Node} (w : Code.World) (h : Scoped (names fs) known node) :
    (Scalar.exec div fs (n + 1) known ρ node w).Within (names fs) := by
  unfold Scalar.exec
  cases node with
  | declaration => exact within_nil _ _
  | assignment target value _ =>
    cases target with
    | text x => exact (ih.eval w h).andThen fun _ w => within_nil _ _
    | _ => exact within_none
  | call name args _ =>
    refine (ih.evalAll w h).andThen fun vs w => ?_
    split
    · exact within_nil _ _
    · exact (ih.call name vs w).andThen fun _ w => within_nil _ _
  | ret value _ =>
    cases value with
    | nothing => exact within_nil _ _
    | _ => exact (ih.eval w h).andThen fun _ w => within_nil _ _
  | branch condition yes no _ =>
    obtain ⟨hc, hy, hn⟩ := h
    refine (ih.eval w hc).andThen fun t w => ?_
    split
    · exact ih.exec w hn
    · exact ih.exec w hy
  | whileLoop condition body line =>
    refine (ih.eval w h.1).andThen fun t w => ?_
    split
    · exact within_nil _ _
    · refine (ih.exec w h.2).andThen fun o w => ?_
      cases o with
      | next ρ => exact ih.exec w h
      | returned v => exact within_nil _ _
  | doLoop body condition line =>
    refine (ih.exec w h.1).andThen fun o w => ?_
    cases o with
    | next ρ =>
      refine (ih.eval w h.2).andThen fun t w => ?_
      split
      · exact within_nil _ _
      · exact ih.exec w h
    | returned v => exact within_nil _ _
  | forLoop x start stop body _ =>
    obtain ⟨ha, hz, hb⟩ := h
    exact (ih.eval w ha).andThen fun a w => (ih.eval w hz).andThen fun z w => ih.count w hb
  | block ss _ => exact ih.execAll w h
  | several ss => exact ih.execAll w h
  | nothing => exact within_nil _ _
  | _ => exact within_none

theorem count_step (ih : StaysWithin div fs n) {x : String} {bound : Int} {body : Node} (w : Code.World)
    (h : Scoped (names fs) known body) : (Scalar.count div fs (n + 1) known ρ x bound body w).Within (names fs) := by
  simp only [Scalar.count]
  cases ρ x with
  | none => exact within_none
  | some v =>
    rw [Option.bind_some]
    split
    · refine (ih.exec w h).andThen fun o w => ?_
      cases o with
      | next ρ =>
        dsimp only
        cases ρ x with
        | none => exact within_none
        | some u => exact ih.count w h
      | returned v => exact within_nil _ _
    · exact within_nil _ _

end StaysWithin

/-- **When a scalar program without errors is run, a variable that is read ahead of the text has the name of a function.** -/
theorem staysWithin {fs : List Node} (program : isProgram fs = true) (accepted : check fs = .ok [])
    (div : Int → Int → Option Int) (n : Nat) : StaysWithin div fs n := by
  induction n with
  | zero => exact ⟨nofun, nofun, nofun, nofun, nofun, nofun⟩
  | succ n ih =>
    refine
      { eval w h := ih.eval_step w h
        evalAll := fun {_ _ es} w h => ?_
        call := ih.call_step fun hm => scoped_of_check program accepted hm
        exec w h := ih.exec_step w h
        execAll := fun {_ _ nodes} w h => ?_
        count w h := ih.count_step w h }
    · cases es with
      | nil => exact Result.within_nil _ _
      | cons e es =>
        obtain ⟨he, hes⟩ := Readable.append.1 h
        exact (ih.eval w he).andThen fun _ w => (ih.evalAll w hes).andThen fun _ w => Result.within_nil _ _
    · cases nodes with
      | nil => exact Result.within_nil _ _
      | cons node nodes =>
        refine (ih.exec w h.1).andThen fun o w => ?_
        cases o with
        | next ρ => exact ih.execAll w h.2
        | returned v => exact Result.within_nil _ _

end TesLang.Scalar
