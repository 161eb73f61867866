import TesLang.Proofs.Checking.Ending
import TesLang.Proofs.Checking.Marks
/-!
# Use before assignment

The checker complains of a variable that is used and not bound, and of one that is used before it has a value.  It finds
out by marks on symbols, which are set from anywhere inside the function that binds the variable.

What it finds is what the history of names tells (`name_errors_eq_findings`): a walk over the tree of a text comes by the
names in the order that the tree says, and each of them is judged by all that happened before.  Every identifier of the tree
is judged once.
-/
namespace TesLang

open Grammar Checker

namespace Check

variable {I : Option String → Prop}

/-! ### Functions -/

def Entered (f : Option String) : Prop := f.isSome = true

theorem bindParameters_plays : ∀ {ps : List Node}, ps.all isParameter = true →
    Plays I ((ps.filterMap Node.name?).map (.bind · true)) (bindParameters ps)
  | [], _ => .pure _
  | .parameter x type line :: ps, h => by
    simp only [List.all_cons, Bool.and_eq_true] at h
    have bound : Plays I [.bind x true] (bindName x
        { name := x, kind := .variable, type := some type, initialized := true, line := some line }) := by
      refine .single rfl fun {h s u s'} hl hr => ?_
      obtain rfl := ran_bindName.1 hr
      exact ⟨hl.insert rfl fun _ => rfl, (List.append_nil _).symm⟩
    exact bound.bind fun _ => bindParameters_plays h.2

theorem bindFunction_plays {f : Node} {x : String} (hf : f.name? = some x) : Plays I [.bind x false] (bindFunction f) := by
  refine .single rfl fun {h s u s'} hl hr => ?_
  obtain ⟨y, symbol, hy, unset, rfl⟩ := bindFunction_binds hr
  obtain rfl := Option.some.inj (hf.symm.trans hy)
  exact ⟨hl.insert rfl fun _ => by rw [unset, sets], (List.append_nil _).symm⟩

theorem bindNested_plays (ss : List Node) :
    Plays I (((ss.filter Node.isFunction).filterMap Node.name?).map (.bind · false)) (bindNested ss) := by
  induction ss with
  | nil => exact .pure _
  | cons n ss ih =>
    rw [bindNested]
    by_cases hf : n.isFunction = true
    · rw [if_pos hf, List.filter_cons_of_pos hf]
      cases n with
      | function => exact .bind (bindFunction_plays rfl) fun _ => ih
      | _ => cases hf
    · rw [if_neg hf, List.filter_cons_of_neg hf]
      exact ih

theorem bindProgram_plays : ∀ {fs : List Node}, areFunctions fs = true →
    Plays (fun _ => True) ((fs.filterMap Node.name?).map .declare) (bindProgram fs)
  | [], _ => .pure _
  | f :: fs, h => by
    simp only [areFunctions, List.all_cons, Bool.and_eq_true] at h
    have rest := bindProgram_plays h.2
    cases f with
    | function name params returnType body line =>
      show Plays _ (.declare name :: (fs.filterMap Node.name?).map .declare) _
      constructor
      · intro h
        rw [List.reverse_cons, List.append_assoc, rest.functions]
        exact functions_stay rfl h
      · intro h s u s' _ hl hr
        rw [List.reverse_cons, List.append_assoc]
        rcases bindProgram_step hr with ⟨x, symbol, ⟨⟩, unset, new, hr⟩ | ⟨x, ⟨⟩, bound, hr⟩
        · exact rest.leads trivial (hl.declare new unset) hr
        · exact rest.leads trivial (hl.redeclare bound) hr
      · intro h s u s' _ hl hr
        rcases bindProgram_step hr with ⟨x, symbol, ⟨⟩, unset, new, hr⟩ | ⟨x, ⟨⟩, bound, hr⟩
        · have names := rest.finds trivial (hl.declare new unset) hr
          exact names
        · exact rest.finds trivial (hl.redeclare bound) hr
    | _ => cases h.1.1

theorem reverse_entered (f : String) (es : List NameEvent) (h : History) :
    (NameEvent.enter f :: (es ++ [NameEvent.leave])).reverse ++ h = .leave :: (es.reverse ++ .enter f :: h) := by
  simp

theorem functionWalk_plays {α : Type} {es : List NameEvent} {m : Check α} (inside : Plays Entered es m) (kind f : String)
    (returnType : Option String) :
    Plays I (.enter f :: (es ++ [NameEvent.leave])) (functionWalk ⟨kind, some f, returnType⟩ m) where
  functions h := by
    rw [reverse_entered, openFrames, List.map_tail, inside.functions]
    rfl
  leads {h s t s'} _ hl hr := by
    obtain ⟨a, s₁, run, -, rfl⟩ := ran_functionWalk.1 hr
    rw [reverse_entered]
    exact hl.leave (inside.leads rfl (hl.enter kind f returnType) run) (inside.functions _)
  finds {h s t s'} _ hl hr := by
    obtain ⟨a, s₁, run, -, rfl⟩ := ran_functionWalk.1 hr
    have entered : Entered (openFunction (.enter f :: h)) := rfl
    have names := inside.finds entered (hl.enter kind f returnType) run
    rw [findings, findings_append]
    exact names.trans (congrArg (nameErrors s ++ ·) (List.append_nil _).symm)

/-! ### Whole trees -/

mutual

/-- **What happens in an expression is what the tree says.** -/
theorem visit_plays {right : String → Bool} : ∀ {e : Node}, isExpression right e = true → Plays I (nameEvents e) (visit e)
  | .number .., _ | .string .., _ | .boolean .., _ => by
    rw [visit, nameEvents]
    exact .pure _
  | .identifier .., _ => by
    rw [visit, nameEvents]
    exact (checkIdentifier_plays _ _).result none
  | .call .., h => by
    simp only [isExpression, Bool.and_eq_true] at h
    rw [visit, nameEvents]
    exact (visitAll_plays h.2).before fun _ => plain_quiet.checkCall _ _ _
  | .element .., h => by
    simp only [isExpression, Bool.and_eq_true] at h
    rw [visit, nameEvents]
    exact (visit_plays h.2).result none
  | .binary .., h => by
    simp only [isExpression, Bool.and_eq_true] at h
    rw [visit, nameEvents]
    exact (visit_plays h.1).bind fun _ => (visit_plays h.2).result none
  | .unary .., h => by
    simp only [isExpression] at h
    rw [visit, nameEvents]
    exact (visit_plays h).result none
  | .ternary .., h => by
    simp only [isExpression, Bool.and_eq_true] at h
    rw [visit, nameEvents, single_expression h.1.1, single_expression h.1.2, single_expression h.2]
    exact (visit_plays h.1.1).bind fun _ => (visit_plays h.1.2).bind fun _ => (visit_plays h.2).before fun _ =>
      plain_quiet.bind (plain_quiet.checkCondition _ _) fun _ => plain_quiet.pure _
  | .array .., h => by
    simp only [isExpression] at h
    rw [visit, nameEvents]
    exact (visitAll_plays h).result none

theorem visitAll_plays {right : String → Bool} :
    ∀ {es : List Node}, areExpressions right es = true → Plays I (nameEventsIn es) (visitAll es)
  | [], _ => by
    rw [visitAll, nameEventsIn]
    exact .pure _
  | _ :: _, h => by
    simp only [areExpressions, Bool.and_eq_true] at h
    rw [visitAll, nameEventsIn, single_expression h.1]
    exact (visit_plays h.1).bind fun _ => visitAll_plays h.2

end

theorem function_plays {name returnType : String} {params body : Node} {line : Int}
    (h : isStatement (.function name params returnType body line) = true)
    (inside : ∀ ss, areStatements ss = true → body = .several ss → Plays Entered (nameEventsIn ss) (visitAll ss)) :
    Plays I (nameEvents (.function name params returnType body line)) (visit (.function name params returnType body line)) := by
  obtain ⟨-, ⟨ps, ss, rfl, rfl, hps, hss⟩ | ⟨rfl, hb⟩⟩ := isStatement_function.1 h
  · have walk : Plays Entered ((ps.filterMap Node.name?).map (.bind · true) ++
        (((ss.filter Node.isFunction).filterMap Node.name?).map (.bind · false) ++ nameEventsIn ss)) (do
        bindParameters (← parameters (.several ps))
        bindNested ss
        visit (.several ss)) := by
      rw [visit, parameters, pure_bind]
      exact (bindParameters_plays hps).bind fun _ => (bindNested_plays ss).bind fun _ => (inside ss hss rfl).result none
    have whole := functionWalk_plays (I := I) walk "Function" name (some returnType)
    rw [visit_function, nameEvents, nameEvents, Node.parts, Node.statements]
    simpa only [List.append_assoc] using whole
  · -- the walk comes to no end, and all that is left to see is that the function would be left
    have whole := functionWalk_plays (I := I) ((bindNested_plays body.statements).bind fun _ => visit_plays hb) "Function" name
      (some returnType)
    have functions := whole.functions
    rw [List.append_assoc] at functions
    rw [nameEvents]
    exact ⟨functions, fun _ _ hr => (visit_bareArrow_never hr).elim, fun _ _ hr => (visit_bareArrow_never hr).elim⟩

theorem checkReturn_quiet (e : Enclosing) (value : Node) (line : Int) : Steady Quiet (checkReturn e value line) := by
  cases he : e.returnType with
  | none =>
    unfold checkReturn
    rw [he]
    exact .throw _
  | some _ => exact plain_quiet.checkReturn he value line

theorem ran_ret {h : History} {s s' : Checker} {t : Option String} {value : Node} {line : Int}
    (hi : Entered (openFunction h)) (hl : Leads h s) (hr : Ran (visit (.ret value line)) s t s') :
    ∃ e, Ran (do
      let _ ← single value (visit value)
      checkReturn e value line
      pure none) s t s' := by
  rw [visit, (ran_get.2 ⟨rfl, rfl⟩ : Ran get s s s).bind_iff] at hr
  cases he : s.enclosing with
  | some e =>
    rw [he] at hr
    exact ⟨e, hr⟩
  | none =>
    rw [← hl.function, he] at hi
    cases hi

mutual

/-- **What happens in a statement is what the tree says.** -/
theorem statement_plays : ∀ {n : Node}, isStatement n = true → Plays Entered (nameEvents n) (visit n)
  | .declaration x type line, _ => by
    rw [visit, nameEvents]
    exact (declare_plays x type line).result none
  | .assignment target value line, h => by
    obtain ⟨hv, ⟨x, rfl, -⟩ | ⟨x, index, k, rfl, -, hi⟩⟩ := isStatement_assignment.1 h
    · rw [visit, nameEvents, single_expression hv]
      exact (visit_plays hv).bind fun _ => (assignVariable_plays x value line).result none
    · rw [visit, nameEvents, single_expression hv, single_expression hi]
      exact (visit_plays hv).bind fun _ => (visit_plays hi).bind fun _ => (assignElement_plays x line).result none
  | .call f args line, h => by
    simp only [isStatement, Bool.and_eq_true] at h
    rw [visit, nameEvents]
    exact (visitAll_plays h.2).before fun _ => plain_quiet.checkCall f args line
  | .ret value line, h => by
    have walk : Plays Entered (nameEvents value) (single value (visit value)) := by
      rcases isStatement_ret.1 h with rfl | hv
      · rw [visit, nameEvents]
        exact .pure _
      · rw [single_expression hv]
        exact visit_plays hv
    have compared (e : Enclosing) : Plays Entered (nameEvents value) (do
        let _ ← single value (visit value)
        checkReturn e value line
        pure (none : Option String)) :=
      walk.before fun _ => plain_quiet.bind (checkReturn_quiet e value line) fun _ => plain_quiet.pure none
    rw [nameEvents]
    refine ⟨walk.functions, fun hi hl hr => ?_, fun hi hl hr => ?_⟩
    · obtain ⟨e, hr⟩ := ran_ret hi hl hr
      exact (compared e).leads hi hl hr
    · obtain ⟨e, hr⟩ := ran_ret hi hl hr
      exact (compared e).finds hi hl hr
  | .branch condition yes no line, h => by
    obtain ⟨hc, hy, hn⟩ := isStatement_branch.1 h
    have other : Plays Entered (nameEvents no) (visit no) := by
      rcases hn with rfl | hn
      · rw [visit, nameEvents]
        exact .pure _
      · exact statement_plays hn
    rw [visit, nameEvents]
    exact (visit_plays hc).bind fun _ => (statement_plays hy).bind fun _ => other.result none
  | .forLoop x start stop body line, h => by
    obtain ⟨-, hs, ht, ss, rfl, hss⟩ := isStatement_forLoop.1 h
    have inside : Plays Entered (nameEvents (.several ss)) (visit (.several ss)) := statement_plays (by rw [isStatement]; exact hss)
    rw [visit, nameEvents, single_expression hs, single_expression ht]
    exact (bindLoopVariable_plays x line).bind fun _ => (visit_plays hs).bind fun _ => (visit_plays ht).bind fun _ =>
      .after (plain_quiet.checkRange start stop line) fun _ => inside.result none
  | .whileLoop condition body line, h => by
    simp only [isStatement, Bool.and_eq_true] at h
    rw [visit, nameEvents]
    exact (visit_plays h.1).bind fun _ => (statement_plays h.2).result none
  | .doLoop body condition line, h => by
    simp only [isStatement, Bool.and_eq_true] at h
    rw [visit, nameEvents]
    exact (statement_plays h.1).bind fun _ => (visit_plays h.2).result none
  | .block ss line, h | .several ss, h => by
    simp only [isStatement] at h
    rw [visit, nameEvents]
    exact (statements_play h).result none
  | .function name params returnType body line, h => by
    refine function_plays h fun ss hss hb => ?_
    subst hb
    exact statements_play hss
termination_by n => sizeOf n
decreasing_by all_goals (subst_vars; simp +arith)

theorem statements_play : ∀ {ss : List Node}, areStatements ss = true → Plays Entered (nameEventsIn ss) (visitAll ss)
  | [], _ => by
    rw [visitAll, nameEventsIn]
    exact .pure _
  | n :: ss, h => by
    simp only [areStatements, Bool.and_eq_true, Bool.not_eq_true'] at h
    rw [visitAll, nameEventsIn, single_statement h.1.1]
    exact (statement_plays h.1.2).bind fun _ => statements_play h.2
termination_by ss => sizeOf ss
decreasing_by all_goals simp +arith

end

theorem visitFunctions_plays : ∀ {fs : List Node}, areFunctions fs = true →
    Plays (fun _ => True) (nameEventsIn fs) (visitFunctions fs)
  | [], _ => by
    rw [visitFunctions, nameEventsIn]
    exact .pure _
  | f :: fs, h => by
    simp only [areFunctions, List.all_cons, Bool.and_eq_true] at h
    rw [visitFunctions, nameEventsIn, if_pos h.1.1]
    cases f with
    | function => exact (function_plays h.1.2 fun _ hss _ => statements_play hss).bind fun _ => visitFunctions_plays h.2
    | _ => cases h.1.1

theorem program_plays {fs : List Node} (h : areFunctions fs = true) :
    Plays (fun _ => True) (nameEvents (.program fs)) (visit (.program fs)) := by
  rw [visit, nameEvents]
  exact (bindProgram_plays h).bind fun _ => (visitFunctions_plays h).result none

/-! ### Every identifier is looked at once -/

/-- The variable that is used, and the line. -/
def NameEvent.use? : NameEvent → Option (String × Int)
  | .use x line => some (x, line)
  | _ => none

/-- The name of an identifier, and the line. -/
def identifier? : Node → Option (String × Int)
  | .identifier x line => some (x, line)
  | _ => none

def usedIn (es : List NameEvent) : List (String × Int) := es.filterMap NameEvent.use?

def identifiers (n : Node) : List (String × Int) := n.nodes.filterMap identifier?

theorem usedIn_append (es es' : List NameEvent) : usedIn (es ++ es') = usedIn es ++ usedIn es' := List.filterMap_append

theorem usedIn_other {e : NameEvent} (h : e.use? = none) : usedIn [e] = [] := List.filterMap_cons_none h

theorem usedIn_bind (xs : List String) (valued : Bool) : usedIn (xs.map (.bind · valued)) = [] := by
  induction xs with
  | nil => rfl
  | cons x xs ih => exact ih

theorem usedIn_declare (xs : List String) : usedIn (xs.map .declare) = [] := by
  induction xs with
  | nil => rfl
  | cons x xs ih => exact ih

theorem identifiers_eq {n : Node} (h : identifier? n = none) : identifiers n = n.under.filterMap identifier? :=
  List.filterMap_cons_none h

theorem usedIn_function (name : String) (params : Node) (returnType : String) (body : Node) (line : Int) :
    usedIn (nameEvents (.function name params returnType body line)) = usedIn (nameEvents body) := by
  rw [nameEvents, ← List.singleton_append, usedIn_append, usedIn_append, usedIn_append, usedIn_append, usedIn_other rfl,
    usedIn_bind, usedIn_bind, usedIn_other rfl, List.append_nil]
  rfl

theorem identifiers_underAll (ns : List Node) : (Node.underAll ns).filterMap identifier? = ns.flatMap identifiers := by
  rw [Node.underAll_eq, List.filterMap_flatMap]
  rfl

mutual

theorem used_expression {right : String → Bool} :
    ∀ {e : Node}, isExpression right e = true → (usedIn (nameEvents e)).Perm (identifiers e)
  | .number .., _ | .string .., _ | .boolean .., _ => by
    rw [nameEvents, identifiers_eq rfl, Node.under]
    exact .refl _
  | .identifier .., _ => by
    rw [nameEvents]
    exact .refl _
  | .call .., h => by
    simp only [isExpression, Bool.and_eq_true] at h
    rw [nameEvents, identifiers_eq rfl, Node.under, identifiers_underAll]
    exact used_expressions h.2
  | .element .., h => by
    simp only [isExpression, Bool.and_eq_true] at h
    rw [nameEvents, identifiers_eq rfl, Node.under]
    exact used_expression h.2
  | .binary .., h => by
    simp only [isExpression, Bool.and_eq_true] at h
    rw [nameEvents, usedIn_append, identifiers_eq rfl, Node.under, List.filterMap_append]
    exact (used_expression h.1).append (used_expression h.2)
  | .unary .., h => by
    simp only [isExpression] at h
    rw [nameEvents, identifiers_eq rfl, Node.under]
    exact used_expression h
  | .ternary .., h => by
    simp only [isExpression, Bool.and_eq_true] at h
    rw [nameEvents, usedIn_append, usedIn_append, identifiers_eq rfl, Node.under, List.filterMap_append,
      List.filterMap_append, List.append_assoc]
    exact (used_expression h.1.1).append ((used_expression h.1.2).append (used_expression h.2))
  | .array .., h => by
    simp only [isExpression] at h
    rw [nameEvents, identifiers_eq rfl, Node.under, identifiers_underAll]
    exact used_expressions h

theorem used_expressions {right : String → Bool} :
    ∀ {es : List Node}, areExpressions right es = true → (usedIn (nameEventsIn es)).Perm (es.flatMap identifiers)
  | [], _ => by
    rw [nameEventsIn]
    exact .refl _
  | e :: es, h => by
    simp only [areExpressions, Bool.and_eq_true] at h
    rw [nameEventsIn, usedIn_append, List.flatMap_cons]
    exact (used_expression h.1).append (used_expressions h.2)

end

theorem identifiers_params {name returnType : String} {params body : Node} {line : Int}
    (h : isStatement (.function name params returnType body line) = true) : identifiers params = [] := by
  obtain ⟨-, ⟨ps, ss, rfl, -, hps, -⟩ | ⟨rfl, -⟩⟩ := isStatement_function.1 h
  · rw [identifiers_eq rfl, Node.under, identifiers_underAll, List.flatMap_eq_nil_iff]
    intro p hp
    cases p with
    | parameter => rw [identifiers_eq rfl, Node.under]; rfl
    | _ => cases List.all_eq_true.1 hps _ hp
  · rw [identifiers_eq rfl, Node.under]
    rfl

mutual

/-- **Every identifier in a statement is looked at once.**  Of an assignment to a member, the value comes before the
index. -/
theorem used_statement : ∀ {n : Node}, isStatement n = true → (usedIn (nameEvents n)).Perm (identifiers n)
  | .declaration .., _ => by
    rw [nameEvents, identifiers_eq rfl, Node.under]
    exact .refl _
  | .assignment target value line, h => by
    obtain ⟨hv, ⟨x, rfl, -⟩ | ⟨x, index, k, rfl, -, hi⟩⟩ := isStatement_assignment.1 h
    · rw [nameEvents, usedIn_append, usedIn_other rfl, List.append_nil, identifiers_eq rfl, Node.under,
        List.filterMap_append, Node.under]
      exact used_expression hv
    · rw [nameEvents, usedIn_append, usedIn_append, usedIn_other rfl, List.append_nil, identifiers_eq rfl, Node.under,
        List.filterMap_append, Node.under]
      exact ((used_expression hv).append (used_expression hi)).trans List.perm_append_comm
  | .call f args line, h => by
    simp only [isStatement, Bool.and_eq_true] at h
    rw [nameEvents, identifiers_eq rfl, Node.under, identifiers_underAll]
    exact used_expressions h.2
  | .ret value line, h => by
    rw [nameEvents, identifiers_eq rfl, Node.under]
    rcases isStatement_ret.1 h with rfl | hv
    · rw [nameEvents, Node.under]
      exact .refl _
    · exact used_expression hv
  | .branch condition yes no line, h => by
    obtain ⟨hc, hy, hn⟩ := isStatement_branch.1 h
    have other : (usedIn (nameEvents no)).Perm (identifiers no) := by
      rcases hn with rfl | hn
      · rw [nameEvents, identifiers_eq rfl, Node.under]
        exact .refl _
      · exact used_statement hn
    rw [nameEvents, usedIn_append, usedIn_append, identifiers_eq rfl, Node.under, List.filterMap_append,
      List.filterMap_append, List.append_assoc]
    exact (used_expression hc).append ((used_statement hy).append other)
  | .forLoop x start stop body line, h => by
    obtain ⟨-, hs, ht, ss, rfl, hss⟩ := isStatement_forLoop.1 h
    have inside : (usedIn (nameEvents (.several ss))).Perm (identifiers (.several ss)) :=
      used_statement (by rw [isStatement]; exact hss)
    rw [nameEvents, identifiers_eq rfl, Node.under, List.filterMap_append, List.filterMap_append, List.append_assoc]
    show (usedIn (nameEvents start ++ (nameEvents stop ++ nameEvents (.several ss)))).Perm _
    rw [usedIn_append, usedIn_append]
    exact (used_expression hs).append ((used_expression ht).append inside)
  | .whileLoop condition body line, h => by
    simp only [isStatement, Bool.and_eq_true] at h
    rw [nameEvents, usedIn_append, identifiers_eq rfl, Node.under, List.filterMap_append]
    exact (used_expression h.1).append (used_statement h.2)
  | .doLoop body condition line, h => by
    simp only [isStatement, Bool.and_eq_true] at h
    rw [nameEvents, usedIn_append, identifiers_eq rfl, Node.under, List.filterMap_append]
    exact (used_statement h.1).append (used_expression h.2)
  | .block ss line, h | .several ss, h => by
    simp only [isStatement] at h
    rw [nameEvents, identifiers_eq rfl, Node.under, identifiers_underAll]
    exact used_statements h
  | .function name params returnType body line, h => by
    have inside : (usedIn (nameEvents body)).Perm (identifiers body) := by
      obtain ⟨-, ⟨ps, ss, rfl, rfl, hps, hss⟩ | ⟨rfl, hb⟩⟩ := isStatement_function.1 h
      · rw [nameEvents, identifiers_eq rfl, Node.under, identifiers_underAll]
        exact used_statements hss
      · exact used_expression hb
    rw [usedIn_function, identifiers_eq rfl, Node.under, List.filterMap_append]
    show List.Perm _ (identifiers params ++ identifiers body)
    rw [identifiers_params h]
    exact inside
termination_by n => sizeOf n
decreasing_by all_goals (subst_vars; simp +arith)

theorem used_statements : ∀ {ss : List Node}, areStatements ss = true →
    (usedIn (nameEventsIn ss)).Perm (ss.flatMap identifiers)
  | [], _ => by
    rw [nameEventsIn]
    exact .refl _
  | n :: ss, h => by
    simp only [areStatements, Bool.and_eq_true] at h
    rw [nameEventsIn, usedIn_append, List.flatMap_cons]
    exact (used_statement h.1.2).append (used_statements h.2)
termination_by ss => sizeOf ss
decreasing_by all_goals simp +arith

end

theorem used_program {fs : List Node} (h : areFunctions fs = true) :
    (usedIn (nameEvents (.program fs))).Perm (identifiers (.program fs)) := by
  rw [nameEvents, usedIn_append, usedIn_declare, List.nil_append, identifiers_eq rfl, Node.under, identifiers_underAll]
  induction fs with
  | nil =>
    rw [nameEventsIn]
    exact .refl _
  | cons f fs ih =>
    simp only [areFunctions, List.all_cons, Bool.and_eq_true] at h
    rw [nameEventsIn, usedIn_append, List.flatMap_cons]
    exact (used_statement h.1.2).append (ih h.2)

end Check

namespace Session

open Check

/-- **Names are checked against what happened before.**  If the tree of a text is walked to its end, the errors about names
are those that the history of names tells, and every identifier in the tree is looked at once. -/
theorem name_errors_eq_findings (s : Session) (source : String) {t : Option String} {c : Checker}
    (h : Ran (visitTree (parseTree source s).1) {} t c) :
    c.found.filter (·.cause.isName) = findings [] (nameEvents (parseTree source s).1) ∧
      ((nameEvents (parseTree source s).1).filterMap NameEvent.use?).Perm
        ((parseTree source s).1.nodes.filterMap identifier?) := by
  rcases parseTree_cases s source with ht | ⟨fs, hf, ht⟩
  · rw [ht] at h ⊢
    obtain ⟨-, rfl⟩ := ran_pure.1 h
    rw [nameEvents]
    exact ⟨rfl, .refl _⟩
  · rw [ht] at h ⊢
    have shape := parse_areFunctions hf
    exact ⟨(program_plays shape).finds trivial Leads.start h, used_program shape⟩

/-- A loop whose range reads a variable that gets its value in the loop, a function that reads it after that, and that has
the name of a parameter, and a name that nothing binds. -/
def tangled : String :=
  "funk f(a as int) <int> \x7b x :: int; for (i = x to 3) begin x = i; end " ++
  "funk a() <int> \x7b return x; \x7d return a + y; \x7d"

theorem tangled_name_errors : ∃ t c, Ran (visitTree (parseTree tangled {}).1) {} t c ∧
    c.found.filter (·.cause.isName) = [⟨.unset "f" "x", 1⟩, ⟨.unset "f" "a", 1⟩, ⟨.unbound "f" "y", 1⟩] := by
  have told : findings [] (nameEvents (parseTree tangled {}).1) =
        [⟨.unset "f" "x", 1⟩, ⟨.unset "f" "a", 1⟩, ⟨.unbound "f" "y", 1⟩] ∧
      ((visitTree (parseTree tangled {}).1).run' {}).isSome = true := by decide +kernel
  obtain ⟨t, c, run⟩ := exists_ran_of_isSome told.2
  exact ⟨t, c, run, (name_errors_eq_findings {} tangled run).1.trans told.1⟩

end Session
end TesLang
