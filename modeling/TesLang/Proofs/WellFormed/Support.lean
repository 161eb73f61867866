import TesLang.Proofs.WellFormed.Steps
/-!
# What code can be generated for

Not all that a program may hold has code.  A string, a sign, an array and a call of `print` leave no value in any register
(`valued`), and the machine has no instruction for some operators.  `supported` says of a tree that no value is wanted
where there is none, and that the machine has all operations.

That is what it takes: nothing is missing in the code of a node if and only if it is supported, and then there is code
(`writes_statement`, `writes_program`).
-/
namespace TesLang.Code

open Grammar

/-- Whether the code of an expression leaves its value in a register. -/
def valued : Node → Bool
  | .number .. | .boolean .. | .identifier .. | .ternary .. | .binary .. | .element .. => true
  | .call f args _ =>
    match Builtin.ofName? f with
    | some .print => false
    | some .length => !args.isEmpty
    | _ => true
  | _ => false

mutual

/-- **Whether nothing is missing in the code of a node.**  The functions in the body of a function are left to
`supportedFunctions`. -/
def supported : Node → Bool
  | .assignment (.element _ index _) value _ => supported value && valued value && supported index
  | .assignment _ value _ => supported value && valued value
  | .call f args _ =>
    match Builtin.ofName? f with
    | some .scan => true
    | some .length => supportedFirst args
    | some _ => supportedFirst args && args.head?.all valued
    | none => supportedAll args && args.all valued && f ≠ "None"
  | .ret value _ => supported value
  | .branch condition yes no _ => supported condition && valued condition && supported yes && supported no
  | .whileLoop condition body _ => supported condition && valued condition && supported body
  | .doLoop body condition _ => supported body && supported condition && valued condition
  | .forLoop _ start stop body _ =>
    supported start && valued start && supported stop && valued stop && supported body
  | .block ns _ | .several ns | .array ns _ => supportedAll ns
  | .element _ index _ => supported index
  | .binary left op right _ =>
    supported left && valued left && supported right && valued right && Operation.ofText op ≠ .unknown
  -- what has a sign is walked for its own code only
  | .unary _ n _ => !Gen.hasCode n || supported n
  | .ternary condition yes no _ =>
    supported condition && valued condition && supported yes && valued yes && supported no && valued no
  | .function _ (.several _) _ (.several ns) _ => supportedOwn ns
  | .function .. => false
  | _ => true

/-- A built-in function looks at the first argument only. -/
def supportedFirst : List Node → Bool
  | [] => true
  | n :: _ => supported n

def supportedAll : List Node → Bool
  | [] => true
  | n :: ns => supported n && supportedAll ns

/-- The statements of a function, without the functions among them. -/
def supportedOwn : List Node → Bool
  | [] => true
  | n :: ns => (n.isFunction || supported n) && supportedOwn ns

end

mutual

/-- The functions among some statements, each with those that stand directly in its body. -/
def supportedFunctions : List Node → Bool
  | [] => true
  | n :: ns => (!n.isFunction || supported n && supportedInside n) && supportedFunctions ns

def supportedInside : Node → Bool
  | .function _ _ _ (.several ns) _ => supportedFunctions ns
  | _ => true

end

namespace Gen

/-! ### Expressions -/

mutual

/-- **Nothing is missing in the code of an expression if and only if it is supported**, and a register holds its value if it
is valued. -/
theorem writes_expression : ∀ {e : Node}, isExpression isWord e = true → Writes (visit e) (supported e) (Holds (valued e))
  | .number .., _ | .boolean .., _ => by
    rw [visit, supported] <;> first
      | exact .after .allocate fun _ hr => .after (.emit ⟨hr, nofun⟩) fun _ _ => .pure (.some hr)
      | (intros; contradiction)
  | .string .., _ => by
    rw [visit, supported] <;> first | exact .after (.warn _) fun _ _ => .pure .none | (intros; contradiction)
  | .identifier x _, _ => by
    rw [visit, supported] <;> first
      | exact .after (.place? x) fun
          | some r, hr => .pure (.some (hr r rfl))
          | none, _ => .after .allocate fun _ hr => .pure (.some hr)
      | (intros; contradiction)
  | .call f args _, h => by
    simp only [isExpression, Bool.and_eq_true] at h
    rw [visit, supported, valued]
    cases Builtin.ofName? f with
    | none =>
      rw [Bool.and_assoc]
      refine .bind (writes_arguments h.2) fun rs ⟨hv, hu⟩ => ?_
      rw [← hv]
      exact .callFunction h.1 hu
    | some b =>
      cases b with
      | scan => exact .readNumber
      | print =>
        refine .bind (writes_first h.2) fun o ⟨hv, _, hu⟩ => ?_
        rw [← hv]
        exact .writeNumber hu
      | list =>
        refine .bind (writes_first h.2) fun o ⟨hv, _, hu⟩ => ?_
        rw [← hv]
        exact .makeList hu
      | length =>
        refine .before (writes_first h.2) fun o ⟨_, hs, _⟩ => ?_
        show Writes _ true (Holds (!args.isEmpty))
        rw [← hs]
        exact .takeLength o
  | .element x index _, h => by
    simp only [isExpression, Bool.and_eq_true] at h
    rw [visit, supported, operand_expression h.2]
    exact .after (.place x) fun _ hb => .before (writes_expression h.2) fun _ _ => .after .allocate fun _ hr =>
      .after (.emit ⟨hr, hb⟩) fun _ _ => .pure (.some hr)
  | .binary left op right _, h => by
    simp only [isExpression, Bool.and_eq_true] at h
    rw [visit, supported, operand_expression h.1, operand_expression h.2]
    refine .of_eq (.bind (writes_expression h.1) fun a ha => .bind (writes_expression h.2) fun b hb => .after .allocate
      fun r hr => .before (.emit_of ⟨hr, ha.2, hb.2⟩ (by rw [Line.complete, ha.1, hb.1])) fun _ _ =>
      .pure (.some hr)) ?_
    ac_rfl
  | .unary _ n _, h => by
    simp only [isExpression] at h
    rw [visit, supported]
    refine .after (.warn _) fun _ _ => ?_
    cases hasCode n with
    | true => exact .before (.discard (writes_expression h)) fun _ _ => .pure .none
    | false => exact .pure .none
  | .ternary condition yes no _, h => by
    simp only [isExpression, Bool.and_eq_true] at h
    rw [visit, supported, operand_expression h.1.1, operand_expression h.1.2, operand_expression h.2]
    refine .of_eq (.bind (writes_expression h.1.1) fun c hc => .after (.freshLabel (by decide)) fun l hl =>
      .after (.freshLabel (by decide)) fun d hd => .after .allocate fun r hr =>
      .bind (.emit_of ⟨hc.2, hl⟩ hc.1) fun _ _ => .bind (writes_expression h.1.2) fun a ha =>
      .bind (.move hr ha) fun _ _ => .after (.emit hd) fun _ _ => .after (.emit hl) fun _ _ =>
      .bind (writes_expression h.2) fun b hb => .before (.move hr hb) fun _ _ => .after (.emit hd) fun _ _ =>
      .pure (.some hr)) ?_
    ac_rfl
  | .array es _, h => by
    simp only [isExpression] at h
    rw [visit, supported]
    exact .after (.warn _) fun _ _ => .before (writes_expressions h) fun _ _ => .pure .none

theorem writes_first : ∀ {es : List Node}, areExpressions isWord es = true →
    Writes (visitFirst es) (supportedFirst es) fun o =>
      o.all Option.isSome = es.head?.all valued ∧ o.isSome = !es.isEmpty ∧ ∀ r ∈ o, ∀ q ∈ r, q.Unsigned
  | [], _ => by
    rw [visitFirst, supportedFirst]
    exact .pure ⟨rfl, rfl, nofun⟩
  | e :: _, h => by
    simp only [areExpressions, Bool.and_eq_true] at h
    rw [visitFirst, supportedFirst, operand_expression h.1]
    exact .before (writes_expression h.1) fun r hr => .pure ⟨hr.1, rfl, fun q hq => by cases hq; exact hr.2⟩

theorem writes_arguments : ∀ {es : List Node}, areExpressions isWord es = true →
    Writes (visitArguments es) (supportedAll es) fun rs =>
      rs.all Option.isSome = es.all valued ∧ ∀ r ∈ rs, ∀ q ∈ r, q.Unsigned
  | [], _ => by
    rw [visitArguments, supportedAll]
    exact .pure ⟨rfl, nofun⟩
  | e :: es, h => by
    simp only [areExpressions, Bool.and_eq_true] at h
    rw [visitArguments, supportedAll, operand_expression h.1]
    refine .bind (writes_expression h.1) fun r hr => .before (writes_arguments h.2) fun rs hrs =>
      .pure ⟨?_, List.forall_mem_cons.2 ⟨hr.2, hrs.2⟩⟩
    rw [List.all_cons, List.all_cons, hr.1, hrs.1]

theorem writes_expressions : ∀ {es : List Node}, areExpressions isWord es = true →
    Writes (visitAll es) (supportedAll es) fun _ => True
  | [], _ => by
    rw [visitAll, supportedAll]
    exact .pure trivial
  | e :: es, h => by
    simp only [areExpressions, Bool.and_eq_true] at h
    rw [visitAll, supportedAll, operand_expression h.1]
    exact .bind (writes_expression h.1) fun _ _ => writes_expressions h.2

end

/-! ### Statements -/

theorem operand_statement {n : Node} {code : Gen (Option Reg)} (several : isSeveral n = false)
    (h : isStatement n = true) : operand n code = code := by
  cases n with
  | nothing => simp [isStatement] at h
  | several ns => cases several
  | _ => rfl

theorem visit_function (f : String) (params : Node) (returnType : String) (body : Node) (line : Int) :
    ∃ code, visit (.function f params returnType body line) = procedure f params returnType code := by
  cases body with
  | several ns | block ns _ => exact ⟨_, by rw [visit]⟩
  | function _ _ _ _ _ => exact ⟨_, by rw [visit]⟩
  | _ => exact ⟨_, by rw [visit] <;> (intros; contradiction)⟩

theorem writes_returned {value : Node} (h : value = .nothing ∨ isExpression isWord value = true) :
    Writes (returned value (visit value)) (supported value) fun r => ∀ q ∈ r, q.Unsigned := by
  rcases h with rfl | h
  · rw [supported] <;> first | exact .pure (by simp) | (intros; contradiction)
  · rw [returned_expression h]
    exact (writes_expression h).mono fun _ hr => hr.2

mutual

/-- **Nothing is missing in the code of a statement if and only if it is supported.** -/
theorem writes_statement : ∀ {n : Node}, isStatement n = true → Writes (visit n) (supported n) fun _ => True
  | .declaration x _ _, h => by
    simp only [isStatement] at h
    rw [visit, supported] <;> first | exact .after (.declare h) fun _ _ => .pure trivial | (intros; contradiction)
  | .assignment target value _, h => by
    obtain ⟨hv, ⟨x, rfl, hx⟩ | ⟨x, index, k, rfl, hx, hi⟩⟩ := isStatement_assignment.1 h
    · rw [visit, supported, operand_expression hv]
      · exact .bind (writes_expression hv) fun r hr => .before (.assign x hr) fun _ _ => .pure trivial
      · intros
        contradiction
    · rw [visit, supported, operand_expression hv, operand_expression hi]
      refine .of_eq (.bind (writes_expression hv) fun r hr => .after (.place x) fun b hb =>
        .bind (writes_expression hi) fun _ _ => .before (.emit_of ⟨hb, hr.2⟩ hr.1) fun _ _ => .pure trivial) ?_
      ac_rfl
  | .call f args _, h => by
    refine (writes_expression ?_).mono fun _ _ => trivial
    simpa only [isStatement, isExpression] using h
  | .ret value _, h => by
    rw [visit, supported]
    refine .before (writes_returned (isStatement_ret.1 h)) fun
      | some r, hr => .after (.move (Int.le_refl 0) (.some (hr r rfl))) fun _ _ => .after (.emit trivial) fun _ _ => .pure trivial
      | none, _ => .after (.zero (Int.le_refl 0)) fun _ _ => .after (.emit trivial) fun _ _ => .pure trivial
  | .branch condition yes no _, h => by
    obtain ⟨hc, hy, hn⟩ := isStatement_branch.1 h
    have otherwise : Writes (visit no) (supported no) fun _ => True := by
      rcases hn with rfl | hn
      · rw [visit, supported] <;> first | exact .pure trivial | (intros; contradiction)
      · exact writes_statement hn
    rw [visit, supported, operand_expression hc]
    refine .of_eq (.bind (writes_expression hc) fun c hc => .after (.freshLabel (by decide)) fun l hl =>
      .after (.freshLabel (by decide)) fun d hd => .bind (.emit_of ⟨hc.2, hl⟩ hc.1) fun _ _ =>
      .bind (writes_statement hy) fun _ _ => .after (.emit hd) fun _ _ => .after (.emit hl) fun _ _ =>
      .before otherwise fun _ _ => .after (.emit hd) fun _ _ => .pure trivial) ?_
    ac_rfl
  | .whileLoop condition body _, h => by
    simp only [isStatement, Bool.and_eq_true] at h
    rw [visit, supported, operand_expression h.1]
    refine .of_eq (.after (.freshLabel (by decide)) fun l hl => .after (.freshLabel (by decide)) fun d hd =>
      .after (.emit hl) fun _ _ => .bind (writes_expression h.1) fun c hc => .bind (.emit_of ⟨hc.2, hd⟩ hc.1) fun _ _ =>
      .before (writes_statement h.2) fun _ _ => .after (.emit hl) fun _ _ => .after (.emit hd) fun _ _ => .pure trivial) ?_
    ac_rfl
  | .doLoop body condition _, h => by
    simp only [isStatement, Bool.and_eq_true] at h
    have hb : body ≠ .nothing := by
      rintro rfl
      simp [isStatement] at h
    rw [visit, supported, operand_expression h.2, doBody_eq hb]
    refine .of_eq (.after (.freshLabel (by decide)) fun l hl => .after (.emit hl) fun _ _ =>
      .bind (writes_statement h.1) fun _ _ => .bind (writes_expression h.2) fun c hc =>
      .before (.emit_of ⟨hc.2, hl⟩ hc.1) fun _ _ => .pure trivial) ?_
    ac_rfl
  | .forLoop x start stop body _, h => by
    obtain ⟨hx, ha, hb, ss, rfl, hs⟩ := isStatement_forLoop.1 h
    have again : Writes (visit (.several ss)) (supported (.several ss)) fun _ => True := by
      rw [visit, supported]
      exact .before (writes_statements hs) fun _ _ => .pure trivial
    rw [visit, supported, operand_expression ha, operand_expression hb]
    refine .of_eq (.bind (writes_expression ha) fun a ha => .bind (writes_expression hb) fun b hb =>
      .after (.ownPlace x) fun v hv => .bind (.move hv ha) fun _ _ => .after (.freshLabel (by decide)) fun l hl =>
      .after (.freshLabel (by decide)) fun d hd => .after (.emit hl) fun _ _ => .after .allocate fun t ht =>
      .bind (.emit_of ⟨ht, hv.of_mem, hb.2⟩ hb.1) fun _ _ => .after (.emit ⟨ht.of_mem, hd⟩) fun _ _ =>
      .before again fun _ _ => .after .allocate fun o ho => .after (.emit ⟨ho, nofun⟩) fun _ _ =>
      .after (.emit ⟨hv, hv.of_mem, ho.of_mem⟩) fun _ _ => .after (.emit hl) fun _ _ => .after (.emit hd) fun _ _ =>
      .pure trivial) ?_
    ac_rfl
  | .block ss _, h | .several ss, h => by
    simp only [isStatement] at h
    rw [visit, supported]
    exact .before (writes_statements h) fun _ _ => .pure trivial
  | .function f params returnType body line, h => by
    obtain ⟨hf, ⟨ps, ss, rfl, rfl, hp, hs⟩ | ⟨rfl, -⟩⟩ := isStatement_function.1 h
    · rw [visit, supported]
      exact .procedure hf hp returnType (writes_own hs)
    · obtain ⟨code, hv⟩ := visit_function f (.text ")") returnType body line
      rw [hv, supported]
      · exact .procedure_text f returnType code
      · intros
        contradiction
termination_by n => sizeOf n
decreasing_by all_goals (subst_vars; simp +arith)

theorem writes_statements : ∀ {ns : List Node}, areStatements ns = true →
    Writes (visitAll ns) (supportedAll ns) fun _ => True
  | [], _ => by
    rw [visitAll, supportedAll]
    exact .pure trivial
  | n :: ns, h => by
    simp only [areStatements, Bool.and_eq_true, Bool.not_eq_true'] at h
    rw [visitAll, supportedAll, operand_statement h.1.1 h.1.2]
    exact .bind (writes_statement h.1.2) fun _ _ => writes_statements h.2
termination_by ns => sizeOf ns
decreasing_by all_goals simp +arith

theorem writes_own : ∀ {ns : List Node}, areStatements ns = true →
    Writes (visitOwn ns) (supportedOwn ns) fun _ => True
  | [], _ => by
    rw [visitOwn, supportedOwn]
    exact .pure trivial
  | n :: ns, h => by
    simp only [areStatements, Bool.and_eq_true, Bool.not_eq_true'] at h
    rw [visitOwn, supportedOwn, operand_statement h.1.1 h.1.2]
    cases n.isFunction with
    | true => exact writes_own h.2
    | false => exact .bind (.discard (writes_statement h.1.2)) fun _ _ => writes_own h.2
termination_by ns => sizeOf ns
decreasing_by all_goals simp +arith

end

/-! ### Programs -/

theorem isFunction_of_isExpression {right : String → Bool} {e : Node} (h : isExpression right e = true) :
    e.isFunction = false := by
  cases e with
  | function _ _ _ _ _ => simp [isExpression] at h
  | _ => rfl

theorem visitNestedUnder_expression {right : String → Bool} {e : Node} (h : isExpression right e = true) :
    visitNestedUnder e = pure () := by
  cases e with
  | several _ | block _ _ | function _ _ _ _ _ => simp [isExpression] at h
  | _ => rw [visitNestedUnder] <;> (intros; contradiction)

mutual

theorem writes_functions : ∀ {ns : List Node}, areStatements ns = true →
    Writes (visitNested ns) (supportedFunctions ns) fun _ => True
  | [], _ => by
    rw [visitNested, supportedFunctions]
    exact .pure trivial
  | n :: ns, h => by
    simp only [areStatements, Bool.and_eq_true] at h
    rw [visitNested, supportedFunctions]
    cases hn : n.isFunction with
    | false => exact writes_functions h.2
    | true =>
      refine .of_eq (.bind (writes_statement h.1.2) fun _ _ => .bind (writes_inside h.1.2 hn) fun _ _ =>
        writes_functions h.2) ?_
      rw [← Bool.and_assoc]
      rfl
termination_by ns => sizeOf ns
decreasing_by all_goals simp +arith

theorem writes_inside : ∀ {n : Node}, isStatement n = true → n.isFunction = true →
    Writes (visitNestedIn n) (supportedInside n) fun _ => True
  | .function f params returnType body line, h, _ => by
    obtain ⟨-, ⟨ps, ss, rfl, rfl, -, hs⟩ | ⟨rfl, he⟩⟩ := isStatement_function.1 h
    · rw [visitNestedIn, supportedInside, visitNestedUnder]
      exact writes_functions hs
    · rw [visitNestedIn, supportedInside, isFunction_of_isExpression he, visitNestedUnder_expression he]
      · exact .pure trivial
      · rintro _ _ _ ns _ ⟨⟩
        simp [isExpression] at he
termination_by n => sizeOf n
decreasing_by all_goals (subst_vars; simp +arith)

end

theorem writes_allFunctions : ∀ {fs : List Node}, areFunctions fs = true →
    Writes (visitProgram fs) (supportedFunctions fs) fun _ => True
  | [], _ => by
    rw [visitProgram, supportedFunctions]
    exact .pure trivial
  | f :: fs, h => by
    simp only [areFunctions, List.all_cons, Bool.and_eq_true] at h
    obtain ⟨⟨hf, hs⟩, rest⟩ := h
    rw [visitProgram, supportedFunctions, hf]
    refine .of_eq (.bind (writes_statement hs) fun _ _ => .bind (writes_inside hs hf) fun _ _ =>
      writes_allFunctions rest) ?_
    rw [← Bool.and_assoc]
    rfl

theorem requireBodies_of_areFunctions {fs : List Node} (h : areFunctions fs = true) : requireBodies fs = pure () :=
  requireBodies_of_isFunction fun f hf => (Bool.and_eq_true_iff.1 (List.all_eq_true.1 h f hf)).1

/-- **Nothing is missing in the code of a program if and only if all functions that have code are supported.** -/
theorem writes_program {fs : List Node} (h : areFunctions fs = true) :
    Writes (visitTree (.program fs)) (supportedFunctions fs) fun _ => True := by
  show Writes (visit (.program fs)) _ _
  rw [visit, requireBodies_of_areFunctions h, pure_bind]
  exact .before (writes_allFunctions h) fun _ _ => .pure trivial

end Gen
end TesLang.Code
