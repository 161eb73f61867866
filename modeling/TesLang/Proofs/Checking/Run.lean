import TesLang.Check.Walk
import TesLang.Proofs.Checking.Scope
import TesLang.Proofs.Parsing.Grammar
import TesLang.Proofs.Run
/-!
# Runs of the checker

Single checks look at the state and report what is wrong, and expressions are nothing but such checks, so a property of
computations that goes with this much has all of them (`Plain`, `Full`).  One such property is to add to what was found and
to leave the scopes and the enclosing function alone (`Noting`).  A whole walk also binds names, marks variables as assigned, and enters and leaves functions.  A relation
between states that allows for these steps holds from the start to the end of every walk (`Admits.visit`, `Allows.visit`).
One such relation is that nothing that was found is taken back, so in a program without errors every check on the way has
passed.
-/
namespace TesLang

/-- Whether the cause is a name that nothing binds, or a variable without a value. -/
def Cause.isName : Cause → Bool
  | .unbound .. | .unset .. => true
  | _ => false

namespace Checker

def Notes (s s' : Checker) : Prop := ∃ new, s' = { s with found := s.found ++ new }

theorem Notes.refl (s : Checker) : Notes s s := ⟨[], by rw [List.append_nil]⟩

theorem Notes.trans {s s' s'' : Checker} (h : Notes s s') (h' : Notes s' s'') : Notes s s'' := by
  obtain ⟨a, rfl⟩ := h
  obtain ⟨b, rfl⟩ := h'
  exact ⟨a ++ b, by simp⟩

theorem Notes.chain {s s' : Checker} (h : Notes s s') : s'.chain = s.chain := by
  obtain ⟨_, rfl⟩ := h
  rfl

theorem Notes.enclosing {s s' : Checker} (h : Notes s s') : s'.enclosing = s.enclosing := by
  obtain ⟨_, rfl⟩ := h
  rfl

def Reports (s s' : Checker) : Prop := s.found <+: s'.found

theorem Notes.reports {s s' : Checker} (h : Notes s s') : Reports s s' := by
  obtain ⟨new, rfl⟩ := h
  exact ⟨new, rfl⟩

theorem Reports.refl (s : Checker) : Reports s s := List.prefix_refl _

theorem Reports.trans {s s' s'' : Checker} (h : Reports s s') (h' : Reports s' s'') : Reports s s'' :=
  List.IsPrefix.trans h h'

theorem Reports.nil {s s' : Checker} (h : Reports s s') (hn : s'.found = []) : s.found = [] := by
  unfold Reports at h
  rw [hn] at h
  exact List.prefix_nil.1 h

end Checker

namespace Check

open Checker

@[simp] theorem ran_report {cause : Cause} {line : Int} {s s' : Checker} {u : Unit} :
    Ran (report cause line) s u s' ↔ s' = { s with found := s.found ++ [⟨cause, line⟩] } := ran_modify

@[simp] theorem ran_lookup {x : String} {s s' : Checker} {r : Option Symbol} :
    Ran (lookup x) s r s' ↔ r = s.chain.lookup x ∧ s' = s := by
  unfold lookup
  simp only [ran_bind, ran_get, ran_pure]
  constructor
  · rintro ⟨_, _, ⟨rfl, rfl⟩, rfl, rfl⟩; exact ⟨rfl, rfl⟩
  · rintro ⟨rfl, rfl⟩; exact ⟨_, _, ⟨rfl, rfl⟩, rfl, rfl⟩

@[simp] theorem ran_bindName {x : String} {symbol : Symbol} {s s' : Checker} {u : Unit} :
    Ran (bindName x symbol) s u s' ↔ s' = { s with chain := s.chain.insert x symbol } := ran_modify

@[simp] theorem ran_assigned {x : String} {s s' : Checker} {u : Unit} :
    Ran (assigned x) s u s' ↔ s' = { s with chain := s.chain.assigned x } := ran_modify

@[simp] theorem ran_expressionType {n : Node} {s s' : Checker} {r : Option String} :
    Ran (expressionType n) s r s' ↔ r = typeOf s.chain n ∧ s' = s := by
  unfold expressionType
  simp only [ran_bind, ran_get, ran_pure]
  constructor
  · rintro ⟨_, _, ⟨rfl, rfl⟩, rfl, rfl⟩; exact ⟨rfl, rfl⟩
  · rintro ⟨rfl, rfl⟩; exact ⟨_, _, ⟨rfl, rfl⟩, rfl, rfl⟩

theorem ran_enclosingName {f : String} {s s' : Checker} :
    Ran enclosingName s f s' ↔ s.enclosing.bind (·.name) = some f ∧ s' = s := by
  unfold enclosingName
  rw [(ran_get.2 ⟨rfl, rfl⟩ : Ran get s s s).bind_iff]
  cases s.enclosing with
  | none => simp
  | some e =>
    dsimp only [Option.bind_some]
    cases e.name with
    | none => simp
    | some y => simp [eq_comm]

theorem ran_nameOf {n : Node} {x : String} {s s' : Checker} : Ran (nameOf n) s x s' ↔ n.name? = some x ∧ s' = s := by
  unfold nameOf
  cases n.name? with
  | none => simp
  | some y => simp [eq_comm]

/-! What a function has for parameters is read off the tree, and no state is changed by that. -/

theorem nameOf_same (n : Node) : Steady Eq (nameOf n) := fun _ _ _ h => (ran_nameOf.1 h).2.symm

theorem parameterType_same (n : Node) : Steady Eq (parameterType n) := by
  unfold parameterType
  split
  · exact .pure (fun _ => rfl) _
  · exact .throw _

theorem parameters_same (n : Node) : Steady Eq (parameters n) := by
  unfold parameters
  split
  · exact .pure (fun _ => rfl) _
  · exact .pure (fun _ => rfl) _
  · exact .throw _

theorem signature_same (ps : List Node) : Steady Eq (signature ps) := by
  induction ps with
  | nil => exact .pure (fun _ => rfl) _
  | cons p ps ih =>
    exact Steady.bind (R := Eq) .trans (nameOf_same p) fun _ => Steady.bind (R := Eq) .trans (parameterType_same p)
      fun _ => Steady.bind (R := Eq) .trans ih fun _ => .pure (fun _ => rfl) _

theorem bindFunction_binds {f : Node} {s s' : Checker} {u : Unit} (hr : Ran (bindFunction f) s u s') :
    ∃ x symbol, f.name? = some x ∧ symbol.initialized = false ∧ s' = { s with chain := s.chain.insert x symbol } := by
  cases f with
  | function name params returnType body line =>
    obtain ⟨ps, s₁, h₁, hr⟩ := ran_bind.1 hr
    obtain ⟨sig, s₂, h₂, h₃⟩ := ran_bind.1 hr
    obtain rfl := parameters_same _ _ _ _ h₁
    obtain rfl := signature_same _ _ _ _ h₂
    exact ⟨name, _, rfl, rfl, ran_bindName.1 h₃⟩
  | _ => exact (ran_throw hr).elim

theorem bindProgram_step {f : Node} {fs : List Node} {s s' : Checker} {u : Unit} (hr : Ran (bindProgram (f :: fs)) s u s') :
    (∃ x symbol, f.name? = some x ∧ symbol.initialized = false ∧ s.chain.inner.find? x = none ∧
      Ran (bindProgram fs) { s with chain := s.chain.insert x symbol } u s') ∨
    ∃ x, f.name? = some x ∧ (s.chain.inner.find? x).isSome = true ∧ Ran (bindProgram fs) s u s' := by
  rw [bindProgram] at hr
  obtain ⟨x, _, h₁, h₂⟩ := ran_bind.1 hr
  obtain ⟨hf, rfl⟩ := ran_nameOf.1 h₁
  rename_i s
  rw [(ran_get.2 ⟨rfl, rfl⟩ : Ran get s s s).bind_iff] at h₂
  cases hx : s.chain.inner.find? x with
  | none =>
    rw [hx, if_pos Option.isNone_none] at h₂
    obtain ⟨_, s₁, h₃, h₄⟩ := ran_bind.1 h₂
    obtain ⟨y, symbol, hy, unset, rfl⟩ := bindFunction_binds h₃
    obtain rfl := Option.some.inj (hf.symm.trans hy)
    exact .inl ⟨x, symbol, hf, unset, hx, h₄⟩
  | some _ =>
    rw [hx, if_neg (by simp)] at h₂
    exact .inr ⟨x, hf, by rw [hx]; rfl, h₂⟩

theorem not_signature_text {x : String} {sig : List (String × String)} {s s' : Checker} :
    ¬ Ran (signature [.text x]) s sig s' := by
  intro h
  obtain ⟨_, _, h, -⟩ := ran_bind.1 h
  cases (ran_nameOf.1 h).1

/-! ### Single checks -/

/-- What a property of computations needs so that the checks of types, arguments and results have it.  They ask what a name
stands for, but not whether it has a value. -/
structure Plain (P : ∀ {α : Type}, Check α → Prop) : Prop where
  pure : ∀ {α : Type} (a : α), P (pure a : Check α)
  bind : ∀ {α β : Type} {m : Check α} {f : α → Check β}, P m → (∀ a, P (f a)) → P (m >>= f)
  expressionType : ∀ n : Node, P (expressionType n)
  looking : ∀ (x : String) {α : Type} {f : Option Symbol → Check α}, (∀ symbol, f (symbol.map Symbol.settled) = f symbol) →
    (∀ symbol, P (f symbol)) → P (lookup x >>= f)
  enclosingName : P enclosingName
  report : ∀ {cause : Cause} (line : Int), cause.isName = false → P (report cause line)

namespace Plain

variable {P : ∀ {α : Type}, Check α → Prop}

theorem of_get (pure : ∀ {α : Type} (a : α), P (Pure.pure a : Check α))
    (bind : ∀ {α β : Type} {m : Check α} {f : α → Check β}, P m → (∀ a, P (f a)) → P (m >>= f))
    (get : P (MonadState.get : Check Checker)) (enclosingName : P Check.enclosingName)
    (report : ∀ {cause : Cause} (line : Int), cause.isName = false → P (Check.report cause line)) : Plain P where
  pure := pure
  bind := bind
  expressionType _ := bind get fun _ => pure _
  looking _ _ _ _ rest := bind (bind get fun _ => pure _) rest
  enclosingName := enclosingName
  report := report

variable (plain : Plain P)

include plain

theorem reportIn {cause : String → Cause} (line : Int) (h : ∀ f, (cause f).isName = false) :
    P (do let function ← Check.enclosingName; Check.report (cause function) line) :=
  plain.bind plain.enclosingName fun f => plain.report line (h f)

theorem mismatch (x : String) (symbol : Symbol) (value : Node) (line : Int) : P (do
    match known (← Check.expressionType value) with
    | none => Pure.pure ()
    | some type =>
      if symbol.type ≠ some type then do
        let function ← Check.enclosingName
        Check.report (.mismatch function x type symbol.type) line) := by
  refine plain.bind (plain.expressionType value) fun t => ?_
  cases known t with
  | none => exact plain.pure _
  | some _ =>
    dsimp only
    split
    · exact plain.reportIn line fun _ => rfl
    · exact plain.pure _

theorem notVector (x : String) (symbol : Symbol) (line : Int) : P (do
    if symbol.type ≠ some "vector" then do
      let function ← Check.enclosingName
      Check.report (.notVector function x symbol.type) line) := by
  split
  · exact plain.reportIn line fun _ => rfl
  · exact plain.pure _

theorem assignElement (named : ∀ (cause : Cause) (line : Int), P (Check.report cause line)) (x : String) (line : Int) :
    P (assignElement x line) := by
  refine plain.looking x (fun symbol => by cases symbol <;> rfl) fun symbol => ?_
  cases symbol with
  | none => exact plain.bind plain.enclosingName fun _ => named _ line
  | some _ => exact plain.notVector x _ line

theorem matchArguments (function : String) (line : Int) :
    ∀ (args : List Node) (params : List (String × String)), P (matchArguments function line args params)
  | [], _ => plain.pure _
  | _ :: _, [] => plain.pure _
  | arg :: args, (param, expected) :: params => by
    rw [Check.matchArguments]
    refine plain.bind (plain.expressionType arg) fun t => ?_
    cases known t with
    | none => exact matchArguments function line args params
    | some actual =>
      dsimp only
      split
      · exact plain.bind (plain.report line rfl) fun _ => matchArguments function line args params
      · exact matchArguments function line args params

theorem checkCall (name : String) (args : List Node) (line : Int) : P (checkCall name args line) := by
  unfold Check.checkCall
  cases Builtin.ofName? name with
  | some f => exact plain.pure _
  | none =>
    refine plain.looking name (fun symbol => by cases symbol <;> rfl) fun symbol => ?_
    cases symbol with
    | none => exact plain.bind (plain.report line rfl) fun _ => plain.pure _
    | some symbol =>
      dsimp only
      split
      · exact plain.bind (plain.report line rfl) fun _ => plain.pure _
      · exact plain.bind (plain.matchArguments _ _ _ _) fun _ => plain.pure _

theorem checkReturn {e : Enclosing} {expected : String} (he : e.returnType = some expected) (value : Node) (line : Int) :
    P (checkReturn e value line) := by
  have compare : ∀ actual : Option String, P (match known actual with
      | none => Pure.pure ()
      | some actual =>
        if expected ≠ actual then do
          let function ← Check.enclosingName
          Check.report (.returned function expected actual) line
        else Pure.pure ()) := by
    intro actual
    cases known actual with
    | none => exact plain.pure _
    | some _ =>
      dsimp only
      split
      · exact plain.reportIn line fun _ => rfl
      · exact plain.pure _
  unfold Check.checkReturn
  rw [he]
  cases value
  case nothing => exact plain.bind (plain.pure _) compare
  all_goals exact plain.bind (plain.expressionType _) compare

theorem checkRange (start stop : Node) (line : Int) : P (checkRange start stop line) := by
  refine plain.bind (plain.expressionType start) fun a => plain.bind (plain.expressionType stop) fun b => ?_
  split
  · exact plain.reportIn line fun _ => rfl
  · exact plain.pure _

theorem checkCondition (condition : Node) (line : Int) : P (checkCondition condition line) := by
  refine plain.bind (plain.expressionType condition) fun t => ?_
  cases known t with
  | none => exact plain.pure _
  | some _ =>
    dsimp only
    split
    · exact plain.report line rfl
    · exact plain.pure _

end Plain

theorem single_expression {right : String → Bool} {e : Node} (h : Grammar.isExpression right e = true)
    (walk : Check (Option String)) : single e walk = walk := by
  cases e <;> first | rfl | cases h

theorem single_statement {n : Node} (h : Grammar.isSeveral n = false) (walk : Check (Option String)) :
    single n walk = walk := by
  cases n <;> first | rfl | cases h

/-- What a property of computations needs so that all single checks have it, and all expressions. -/
structure Full (P : ∀ {α : Type}, Check α → Prop) : Prop extends Plain P where
  lookup : ∀ x : String, P (Check.lookup x)
  reportName : ∀ (cause : Cause) (line : Int), P (Check.report cause line)

namespace Full

variable {P : ∀ {α : Type}, Check α → Prop} (full : Full P)

include full

theorem nameIn (cause : String → Cause) (line : Int) :
    P (do let function ← Check.enclosingName; Check.report (cause function) line) :=
  full.bind full.enclosingName fun _ => full.reportName _ line

theorem assignElement (x : String) (line : Int) : P (assignElement x line) :=
  full.toPlain.assignElement full.reportName x line

theorem checkIdentifier (x : String) (line : Int) : P (checkIdentifier x line) := by
  refine full.bind (full.lookup x) fun symbol => ?_
  cases symbol with
  | none => exact full.nameIn _ line
  | some _ =>
    dsimp only
    split
    · exact full.nameIn _ line
    · exact full.pure _

mutual

/-- **An expression is nothing but checks.** -/
theorem visit {right : String → Bool} : ∀ {e : Node}, Grammar.isExpression right e = true → P (visit e)
  | .number .., _ | .string .., _ | .boolean .., _ => by
    rw [Check.visit]
    exact full.pure _
  | .identifier .., _ => by
    rw [Check.visit]
    exact full.bind (full.checkIdentifier _ _) fun _ => full.pure _
  | .call .., h => by
    simp only [Grammar.isExpression, Bool.and_eq_true] at h
    rw [Check.visit]
    exact full.bind (visitAll h.2) fun _ => full.checkCall _ _ _
  | .element .., h => by
    simp only [Grammar.isExpression, Bool.and_eq_true] at h
    rw [Check.visit]
    exact full.bind (visit h.2) fun _ => full.pure _
  | .binary .., h => by
    simp only [Grammar.isExpression, Bool.and_eq_true] at h
    rw [Check.visit]
    exact full.bind (visit h.1) fun _ => full.bind (visit h.2) fun _ => full.pure _
  | .unary .., h => by
    simp only [Grammar.isExpression] at h
    rw [Check.visit]
    exact full.bind (visit h) fun _ => full.pure _
  | .ternary .., h => by
    simp only [Grammar.isExpression, Bool.and_eq_true] at h
    rw [Check.visit, single_expression h.1.1, single_expression h.1.2, single_expression h.2]
    exact full.bind (visit h.1.1) fun _ => full.bind (visit h.1.2) fun _ => full.bind (visit h.2) fun _ =>
      full.bind (full.checkCondition _ _) fun _ => full.pure _
  | .array .., h => by
    simp only [Grammar.isExpression] at h
    rw [Check.visit]
    exact full.bind (visitAll h) fun _ => full.pure _

theorem visitAll {right : String → Bool} : ∀ {es : List Node}, Grammar.areExpressions right es = true → P (visitAll es)
  | [], _ => by
    rw [Check.visitAll]
    exact full.pure _
  | _ :: _, h => by
    simp only [Grammar.areExpressions, Bool.and_eq_true] at h
    rw [Check.visitAll, single_expression h.1]
    exact full.bind (visit h.1) fun _ => visitAll h.2

end

end Full

/-! ### Checks that only add to what was found -/

def Noting {α : Type} (m : Check α) : Prop := Steady Notes m

namespace Noting

variable {α β : Type}

theorem pure (a : α) : Noting (pure a) := Steady.pure Notes.refl a

theorem bind {m : Check α} {f : α → Check β} (first : Noting m) (rest : ∀ a, Noting (f a)) : Noting (m >>= f) :=
  Steady.bind (R := Notes) Notes.trans first rest

theorem throw (f : Fault) : Noting (throw f : Check α) := Steady.throw f

theorem report (cause : Cause) (line : Int) : Noting (report cause line) := by
  intro s u s' h
  obtain rfl := ran_report.1 h
  exact ⟨_, rfl⟩

theorem get : Noting (get : Check Checker) := by
  intro s a s' h
  obtain ⟨-, rfl⟩ := ran_get.1 h
  exact .refl _

theorem enclosingName : Noting enclosingName := by
  intro s f s' h
  obtain ⟨-, rfl⟩ := ran_enclosingName.1 h
  exact .refl _

theorem full : Full Noting where
  toPlain := .of_get .pure .bind .get .enclosingName fun line _ => .report _ line
  lookup _ := .bind .get fun _ => .pure _
  reportName := .report

theorem lookup (x : String) : Noting (lookup x) := full.lookup x

theorem of_same {m : Check α} (h : Steady Eq m) : Noting m := fun s a s' hr => h s a s' hr ▸ .refl s

theorem nameOf (n : Node) : Noting (nameOf n) := .of_same (nameOf_same n)

theorem parameterType (n : Node) : Noting (parameterType n) := .of_same (parameterType_same n)

theorem parameters (n : Node) : Noting (parameters n) := .of_same (parameters_same n)

theorem signature (ps : List Node) : Noting (signature ps) := .of_same (signature_same ps)

theorem reportIn (cause : String → Cause) (line : Int) :
    Noting (do let function ← Check.enclosingName; Check.report (cause function) line) := full.nameIn cause line

theorem mismatch (x : String) (symbol : Symbol) (value : Node) (line : Int) : Noting (do
    match known (← Check.expressionType value) with
    | none => Pure.pure ()
    | some type =>
      if symbol.type ≠ some type then do
        let function ← Check.enclosingName
        Check.report (.mismatch function x type symbol.type) line) := full.mismatch x symbol value line

theorem assignElement (x : String) (line : Int) : Noting (assignElement x line) := full.assignElement x line

theorem checkCall (name : String) (args : List Node) (line : Int) : Noting (checkCall name args line) :=
  full.checkCall name args line

theorem checkReturn (e : Enclosing) (value : Node) (line : Int) : Noting (checkReturn e value line) := by
  cases he : e.returnType with
  | none =>
    unfold Check.checkReturn
    rw [he]
    exact .throw _
  | some _ => exact full.checkReturn he value line

theorem checkRange (start stop : Node) (line : Int) : Noting (checkRange start stop line) := full.checkRange start stop line

theorem checkIdentifier (x : String) (line : Int) : Noting (checkIdentifier x line) := full.checkIdentifier x line

theorem checkCondition (condition : Node) (line : Int) : Noting (checkCondition condition line) :=
  full.checkCondition condition line

end Noting

/-- **An expression binds nothing.** -/
theorem visit_noting {right : String → Bool} {e : Node} (h : Grammar.isExpression right e = true) : Noting (visit e) :=
  Noting.full.visit h

theorem visitAll_noting {right : String → Bool} {es : List Node} (h : Grammar.areExpressions right es = true) :
    Noting (visitAll es) := Noting.full.visitAll h

/-! ### Whole walks -/

def functionWalk {α : Type} (e : Enclosing) (m : Check α) : Check (Option String) := do
  let outside := (← get).enclosing
  enter e
  let _ ← m
  leave outside
  pure none

theorem visit_function (name : String) (params : Node) (returnType : String) (body : Node) (line : Int) :
    visit (.function name params returnType body line) = functionWalk ⟨"Function", some name, some returnType⟩ (do
      bindParameters (← parameters params)
      bindNested body.statements
      visit body) := by
  rw [visit, functionWalk]
  simp only [bind_assoc]

theorem ran_functionWalk {α : Type} {e : Enclosing} {m : Check α} {s s' : Checker} {t : Option String} :
    Ran (functionWalk e m) s t s' ↔ ∃ a s₁, Ran m { s with enclosing := some e, chain := s.chain.enter } a s₁ ∧
      t = none ∧ s' = { s₁ with enclosing := s.enclosing, chain := s₁.chain.leave } := by
  rw [functionWalk, (ran_get.2 ⟨rfl, rfl⟩ : Ran get s s s).bind_iff, enter,
    (ran_modify.2 rfl : Ran (modify _) s () _).bind_iff, ran_bind]
  simp only [leave, ran_bind, ran_modify, ran_pure]
  constructor
  · rintro ⟨a, s₁, hr, _, _, rfl, rfl, rfl⟩
    exact ⟨a, s₁, hr, rfl, rfl⟩
  · rintro ⟨a, s₁, hr, rfl, rfl⟩
    exact ⟨a, s₁, hr, (), _, rfl, rfl, rfl⟩

/-- What a relation between states needs so that it holds from the start to the end of every walk: it allows for the
single steps, and for a function if it does so for its body.  The innermost scope is only given names that it does not bind
yet; what else a function binds, it binds in the scope of its own. -/
structure Admits (R : Checker → Checker → Prop) : Prop where
  trans : ∀ {s s' s''}, R s s' → R s' s'' → R s s''
  notes : ∀ {s s'}, Notes s s' → R s s'
  insert : ∀ {s : Checker} {x : String} (symbol : Symbol), s.chain.inner.find? x = none →
    R s { s with chain := s.chain.insert x symbol }
  assigned : ∀ (s : Checker) (x : String), R s { s with chain := s.chain.assigned x }
  function : ∀ {name returnType : String} {params body : Node} {line : Int}, Steady R (visit body) →
    Steady R (visit (.function name params returnType body line))

namespace Admits

variable {R : Checker → Checker → Prop} (admits : Admits R) {α β : Type}

include admits

theorem of_noting {m : Check α} (h : Noting m) : Steady R m := fun s a s' hr => admits.notes (h s a s' hr)

theorem pure (a : α) : Steady R (Pure.pure a : Check α) := admits.of_noting (.pure a)

theorem bind {m : Check α} {f : α → Check β} (first : Steady R m) (rest : ∀ a, Steady R (f a)) : Steady R (m >>= f) :=
  Steady.bind (R := R) admits.trans first rest

theorem marked (x : String) : Steady R (Check.assigned x) := by
  intro s u s' h
  obtain rfl := ran_assigned.1 h
  exact admits.assigned s x

theorem bindProgram (fs : List Node) : Steady R (bindProgram fs) := by
  induction fs with
  | nil => exact admits.pure _
  | cons f fs ih =>
    intro s u s' hr
    rcases bindProgram_step hr with ⟨x, symbol, hx, -, new, hr⟩ | ⟨x, -, -, hr⟩
    · exact admits.trans (admits.insert symbol new) (ih _ _ _ hr)
    · exact ih _ _ _ hr

theorem declare (name type : String) (line : Int) : Steady R (declare name type line) := by
  intro s u s' hr
  unfold Check.declare at hr
  rw [(ran_get.2 ⟨rfl, rfl⟩ : Ran get s s s).bind_iff] at hr
  cases hx : s.chain.inner.find? name with
  | some _ =>
    rw [hx] at hr
    exact admits.of_noting (.report _ _) _ _ _ hr
  | none =>
    rw [hx] at hr
    obtain rfl := ran_bindName.1 hr
    exact admits.insert _ hx

theorem assignVariable (x : String) (value : Node) (line : Int) : Steady R (assignVariable x value line) := by
  refine admits.bind (admits.of_noting (.lookup x)) fun symbol => ?_
  cases symbol with
  | none => exact admits.of_noting (.reportIn _ _)
  | some _ => exact admits.bind (admits.marked x) fun _ => admits.of_noting (.mismatch x _ value line)

theorem bindLoopVariable (x : String) (line : Int) : Steady R (bindLoopVariable x line) := by
  intro s u s' hr
  obtain ⟨symbol, s₁, h₁, hr⟩ := ran_bind.1 hr
  obtain ⟨hx, rfl⟩ := ran_lookup.1 h₁
  cases symbol with
  | none =>
    obtain rfl := ran_bindName.1 hr
    have new := List.findSome?_eq_none_iff.1 hx.symm s₁.chain.inner List.mem_cons_self
    exact admits.insert _ new
  | some _ => exact admits.marked x _ _ _ hr

theorem single (n : Node) {walk : Check (Option String)} (h : Steady R walk) : Steady R (single n walk) := by
  unfold Check.single
  split
  · exact admits.pure _
  · exact h

mutual

/-- **From the start to the end of a walk all holds that its steps allow for.** -/
theorem visit : ∀ n : Node, Steady R (visit n)
  | .program fs => by
    rw [Check.visit]
    exact admits.bind (admits.bindProgram fs) fun _ => admits.bind (visitFunctions fs) fun _ => admits.pure _
  | .function _ _ _ body _ => admits.function (visit body)
  | .declaration name type line => by
    rw [Check.visit]
    exact admits.bind (admits.declare name type line) fun _ => admits.pure _
  | .assignment target value line => by
    have hv := admits.single value (visit value)
    cases target with
    | text x =>
      rw [Check.visit]
      exact admits.bind hv fun _ => admits.bind (admits.assignVariable x value line) fun _ => admits.pure _
    | element x index _ =>
      rw [Check.visit]
      exact admits.bind hv fun _ => admits.bind (admits.single index (visit index)) fun _ =>
        admits.bind (admits.of_noting (.assignElement x line)) fun _ => admits.pure _
    | _ =>
      rw [Check.visit] <;> first | exact admits.bind hv fun _ => admits.pure _ | (intros; contradiction)
  | .call name args line => by
    rw [Check.visit]
    exact admits.bind (visitAll args) fun _ => admits.of_noting (.checkCall name args line)
  | .ret value line => by
    rw [Check.visit]
    refine admits.bind (admits.of_noting .get) fun s => ?_
    cases s.enclosing with
    | none => exact admits.bind (admits.of_noting (.report _ _)) fun _ => admits.pure _
    | some e =>
      exact admits.bind (admits.single value (visit value)) fun _ =>
        admits.bind (admits.of_noting (.checkReturn e value line)) fun _ => admits.pure _
  | .branch condition yes no _ => by
    rw [Check.visit]
    exact admits.bind (visit condition) fun _ => admits.bind (visit yes) fun _ => admits.bind (visit no) fun _ =>
      admits.pure _
  | .forLoop x start stop body line => by
    rw [Check.visit]
    exact admits.bind (admits.bindLoopVariable x line) fun _ => admits.bind (admits.single start (visit start)) fun _ =>
      admits.bind (admits.single stop (visit stop)) fun _ =>
      admits.bind (admits.of_noting (.checkRange start stop line)) fun _ => admits.bind (visit body) fun _ => admits.pure _
  | .whileLoop a b _ | .doLoop a b _ | .binary a _ b _ => by
    rw [Check.visit]
    exact admits.bind (visit a) fun _ => admits.bind (visit b) fun _ => admits.pure _
  | .block ns _ | .array ns _ | .several ns => by
    rw [Check.visit]
    exact admits.bind (visitAll ns) fun _ => admits.pure _
  | .unary _ n _ | .element _ n _ | .listOf n _ => by
    rw [Check.visit]
    exact admits.bind (visit n) fun _ => admits.pure _
  | .identifier x line => by
    rw [Check.visit]
    exact admits.bind (admits.of_noting (.checkIdentifier x line)) fun _ => admits.pure _
  | .ternary condition yes no line => by
    rw [Check.visit]
    exact admits.bind (admits.single _ (visit condition)) fun _ => admits.bind (admits.single _ (visit yes)) fun _ =>
      admits.bind (admits.single _ (visit no)) fun _ => admits.bind (admits.of_noting (.checkCondition condition line))
      fun _ => admits.pure _
  | .parameter .. | .number .. | .string .. | .boolean .. | .bare | .nothing | .text _ | .integer _ => by
    rw [Check.visit]
    exact admits.pure _

theorem visitFunctions : ∀ fs : List Node, Steady R (visitFunctions fs)
  | [] => by
    rw [Check.visitFunctions]
    exact admits.pure _
  | f :: fs => by
    rw [Check.visitFunctions]
    split
    · exact admits.bind (visit f) fun _ => visitFunctions fs
    · intro s u s' hr
      obtain ⟨_, _, -, hr⟩ := ran_bind.1 hr
      obtain ⟨_, _, hr, -⟩ := ran_bind.1 hr
      exact (ran_throw hr).elim

theorem visitAll : ∀ ns : List Node, Steady R (visitAll ns)
  | [] => by
    rw [Check.visitAll]
    exact admits.pure _
  | n :: ns => by
    rw [Check.visitAll]
    exact admits.bind (admits.single n (visit n)) fun _ => visitAll ns

end

end Admits

/-- What a relation between states needs so that it holds from the start to the end of every walk, if it also allows for
names that are bound anew: it allows for the single steps, and for a function to be entered and left around a walk. -/
structure Allows (R : Checker → Checker → Prop) : Prop where
  trans : ∀ {s s' s''}, R s s' → R s' s'' → R s s''
  notes : ∀ {s s'}, Notes s s' → R s s'
  insert : ∀ (s : Checker) (x : String) (symbol : Symbol), R s { s with chain := s.chain.insert x symbol }
  assigned : ∀ (s : Checker) (x : String), R s { s with chain := s.chain.assigned x }
  around : ∀ {s s' : Checker} {e : Enclosing}, R { s with enclosing := some e, chain := s.chain.enter } s' →
    R s { s' with enclosing := s.enclosing, chain := s'.chain.leave }

namespace Allows

variable {R : Checker → Checker → Prop} (allows : Allows R) {α β : Type}

include allows

theorem of_noting {m : Check α} (h : Noting m) : Steady R m := fun s a s' hr => allows.notes (h s a s' hr)

theorem bind {m : Check α} {f : α → Check β} (first : Steady R m) (rest : ∀ a, Steady R (f a)) : Steady R (m >>= f) :=
  Steady.bind (R := R) allows.trans first rest

theorem bindName (x : String) (symbol : Symbol) : Steady R (bindName x symbol) := by
  intro s u s' h
  obtain rfl := ran_bindName.1 h
  exact allows.insert s x symbol

theorem bindFunction (n : Node) : Steady R (bindFunction n) := by
  cases n
  case function =>
    exact allows.bind (allows.of_noting (.parameters _)) fun _ => allows.bind (allows.of_noting (.signature _)) fun _ =>
      allows.bindName _ _
  all_goals exact .throw _

theorem bindParameters (ps : List Node) : Steady R (bindParameters ps) := by
  induction ps with
  | nil => exact allows.of_noting (.pure _)
  | cons p ps ih =>
    exact allows.bind (allows.of_noting (.nameOf p)) fun _ => allows.bind (allows.of_noting (.parameterType p))
      fun _ => allows.bind (allows.bindName _ _) fun _ => ih

theorem bindNested (ns : List Node) : Steady R (bindNested ns) := by
  induction ns with
  | nil => exact allows.of_noting (.pure _)
  | cons n ns ih =>
    rw [Check.bindNested]
    split
    · exact allows.bind (allows.bindFunction n) fun _ => ih
    · exact ih

theorem function {Q : Checker → Checker → Prop} (around : ∀ {s s' : Checker} {e : Enclosing},
      R { s with enclosing := some e, chain := s.chain.enter } s' →
      Q s { s' with enclosing := s.enclosing, chain := s'.chain.leave })
    {name returnType : String} {params body : Node} {line : Int} (h : Steady R (visit body)) :
    Steady Q (visit (.function name params returnType body line)) := by
  have walk : Steady R (do
      Check.bindParameters (← Check.parameters params)
      Check.bindNested body.statements
      Check.visit body) :=
    allows.bind (allows.of_noting (.parameters params)) fun _ => allows.bind (allows.bindParameters _) fun _ =>
      allows.bind (allows.bindNested _) fun _ => h
  intro s t s' hr
  rw [visit_function] at hr
  obtain ⟨a, s₁, inside, -, rfl⟩ := ran_functionWalk.1 hr
  exact around (walk _ _ _ inside)

theorem admits : Admits R where
  trans := allows.trans
  notes := allows.notes
  insert symbol _ := allows.insert _ _ symbol
  assigned := allows.assigned
  function := allows.function allows.around

theorem assignVariable (x : String) (value : Node) (line : Int) : Steady R (assignVariable x value line) :=
  allows.admits.assignVariable x value line

theorem visit (n : Node) : Steady R (visit n) := allows.admits.visit n

theorem visitFunctions (fs : List Node) : Steady R (visitFunctions fs) := allows.admits.visitFunctions fs

theorem visitAll (ns : List Node) : Steady R (visitAll ns) := allows.admits.visitAll ns

end Allows

/-- **No walk takes back what was found.** -/
theorem allows_reports : Allows Reports where
  trans := Reports.trans
  notes := Notes.reports
  insert _ _ _ := List.prefix_refl _
  assigned _ _ := List.prefix_refl _
  around h := h

theorem found_of_ran {n : Node} {s s' : Checker} {t : Option String} (h : Ran (visit n) s t s') (hn : s'.found = []) :
    s.found = [] := (allows_reports.visit n s t s' h).nil hn

end Check
end TesLang
