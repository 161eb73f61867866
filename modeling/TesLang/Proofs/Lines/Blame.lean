import TesLang.Proofs.Lines.Extent
/-!
# What a diagnostic points at

The checker reports what is wrong at the node that it is walking, on the line of that node.  `Diagnostic.PointsAt` says of
which nodes a cause can be told, and that the line is theirs: a name that nothing binds is that of an identifier or of the
target of an assignment, and a call has the wrong number of arguments only if it is a call.  Everything that a walk over a
tree finds points at a node of the tree (`visit_points`).

A node of a text has the line of a token in its extent.  So for a text without syntax errors a diagnostic names a line
that is taken up by what it complains about (`lines_within_extents`).
-/
namespace TesLang

/-- Whether the cause can be found at a node. -/
def Cause.concerns : Cause → Node → Bool
  | .redeclared x, .declaration y _ _ => x == y
  | .unbound _ x, .identifier y _ => x == y
  | .unbound _ x, .assignment (.text y) _ _ => x == y
  | .unbound _ x, .assignment (.element y _ _) _ _ => x == y
  | .unset _ x, .identifier y _ => x == y
  | .mismatch _ x _ _, .assignment (.text y) _ _ => x == y
  | .notVector _ x _, .assignment (.element y _ _) _ _ => x == y
  | .unknownFunction f, .call g _ _ => f == g
  | .arity f _ n, .call g args _ => f == g && n == args.length
  | .argument f _ _ _, .call g _ _ => f == g
  | .strayReturn, .ret _ _ => true
  | .returned _ _ _, .ret _ _ => true
  | .loopRange _, .forLoop _ _ _ _ _ => true
  | .condition _, .ternary _ _ _ _ => true
  | _, _ => false

def Diagnostic.PointsAt (x : Diagnostic) (n : Node) : Prop := x.cause.concerns n = true ∧ n.line? = some x.line

namespace Checker

def Retains (P : Diagnostic → Prop) (s s' : Checker) : Prop := (∀ x ∈ s.found, P x) → ∀ x ∈ s'.found, P x

end Checker

namespace Check

open Checker

def Keeping (P : Diagnostic → Prop) {α : Type} (m : Check α) : Prop := Steady (Retains P) m

def Tells (P : Diagnostic → Prop) (n : Node) : Prop := ∀ x : Diagnostic, x.PointsAt n → P x

namespace Keeping

variable {P : Diagnostic → Prop} {α β : Type}

theorem of_found {m : Check α} (h : ∀ s a s', Ran m s a s' → s'.found = s.found) : Keeping P m := by
  intro s a s' hr before
  rw [h s a s' hr]
  exact before

theorem of_same {m : Check α} (h : Steady Eq m) : Keeping P m := .of_found fun s a s' hr => by rw [h s a s' hr]

theorem pure (a : α) : Keeping P (pure a) := .of_same (.pure (fun _ => rfl) a)

theorem bind {m : Check α} {f : α → Check β} (first : Keeping P m) (rest : ∀ a, Keeping P (f a)) : Keeping P (m >>= f) :=
  Steady.bind (R := Retains P) (fun h h' before => h' (h before)) first rest

theorem get : Keeping P (get : Check Checker) := .of_found fun _ _ _ hr => by rw [(ran_get.1 hr).2]

theorem lookup (x : String) : Keeping P (lookup x) := .of_found fun _ _ _ hr => by rw [(ran_lookup.1 hr).2]

theorem expressionType (n : Node) : Keeping P (expressionType n) :=
  .of_found fun _ _ _ hr => by rw [(ran_expressionType.1 hr).2]

theorem enclosingName : Keeping P enclosingName := .of_found fun _ _ _ hr => by rw [(ran_enclosingName.1 hr).2]

theorem bindName (x : String) (symbol : Symbol) : Keeping P (bindName x symbol) :=
  .of_found fun _ _ _ hr => by rw [ran_bindName.1 hr]

theorem assigned (x : String) : Keeping P (assigned x) := .of_found fun _ _ _ hr => by rw [ran_assigned.1 hr]

theorem bindFunction (f : Node) : Keeping P (bindFunction f) := .of_found fun _ _ _ hr => by
  obtain ⟨_, _, -, -, rfl⟩ := bindFunction_binds hr
  rfl

theorem bindProgram (fs : List Node) : Keeping P (bindProgram fs) := by
  induction fs with
  | nil => exact .pure _
  | cons f fs ih =>
    refine .bind (.of_same (nameOf_same f)) fun x => .bind .get fun s => ?_
    split
    · exact .bind (.bindFunction f) fun _ => ih
    · exact ih

theorem bindParameters (ps : List Node) : Keeping P (bindParameters ps) := by
  induction ps with
  | nil => exact .pure _
  | cons p ps ih =>
    exact .bind (.of_same (nameOf_same p)) fun _ => .bind (.of_same (parameterType_same p)) fun _ =>
      .bind (.bindName _ _) fun _ => ih

theorem bindNested (ns : List Node) : Keeping P (bindNested ns) := by
  induction ns with
  | nil => exact .pure _
  | cons n ns ih =>
    rw [Check.bindNested]
    split
    · exact .bind (.bindFunction n) fun _ => ih
    · exact ih

theorem single (n : Node) {walk : Check (Option String)} (h : Keeping P walk) : Keeping P (single n walk) := by
  unfold Check.single
  split
  · exact .pure _
  · exact h

theorem functionWalk (e : Enclosing) {m : Check α} (h : Keeping P m) : Keeping P (functionWalk e m) := by
  intro s t s' hr before
  obtain ⟨_, s₁, inside, -, rfl⟩ := ran_functionWalk.1 hr
  have after : ∀ x ∈ s₁.found, P x := h _ _ _ inside before
  exact after

/-! ### Single checks -/

theorem report {n : Node} (tells : Tells P n) {cause : Cause} {line : Int} (concerns : cause.concerns n = true)
    (place : n.line? = some line) : Keeping P (report cause line) := by
  intro s u s' hr before x hx
  obtain rfl := ran_report.1 hr
  rcases List.mem_append.1 hx with hx | hx
  · exact before x hx
  · obtain rfl := List.mem_singleton.1 hx
    exact tells _ ⟨concerns, place⟩

theorem reportIn {n : Node} (tells : Tells P n) {cause : String → Cause} {line : Int}
    (concerns : ∀ f, (cause f).concerns n = true) (place : n.line? = some line) :
    Keeping P (do let function ← Check.enclosingName; Check.report (cause function) line) :=
  .bind .enclosingName fun f => .report tells (concerns f) place

theorem declare {name type : String} {line : Int} (tells : Tells P (.declaration name type line)) :
    Keeping P (declare name type line) := by
  refine .bind .get fun s => ?_
  cases s.chain.inner.find? name with
  | some _ => exact .report tells (beq_self_eq_true name) rfl
  | none => exact .bindName _ _

theorem assignVariable {x : String} {value : Node} {line : Int} (tells : Tells P (.assignment (.text x) value line)) :
    Keeping P (assignVariable x value line) := by
  refine .bind (.lookup x) fun symbol => ?_
  cases symbol with
  | none => exact .reportIn tells (fun _ => beq_self_eq_true x) rfl
  | some symbol =>
    refine .bind (.assigned x) fun _ => .bind (.expressionType value) fun t => ?_
    cases known t with
    | none => exact .pure _
    | some type =>
      dsimp only
      split
      · exact .reportIn tells (fun _ => beq_self_eq_true x) rfl
      · exact .pure _

theorem assignElement {x : String} {index value : Node} {l line : Int}
    (tells : Tells P (.assignment (.element x index l) value line)) : Keeping P (assignElement x line) := by
  refine .bind (.lookup x) fun symbol => ?_
  cases symbol with
  | none => exact .reportIn tells (fun _ => beq_self_eq_true x) rfl
  | some symbol =>
    dsimp only
    split
    · exact .reportIn tells (fun _ => beq_self_eq_true x) rfl
    · exact .pure _

theorem matchArguments {f : String} {all : List Node} {line : Int} (tells : Tells P (.call f all line)) :
    ∀ (args : List Node) (params : List (String × String)), Keeping P (matchArguments f line args params)
  | [], _ => .pure _
  | _ :: _, [] => .pure _
  | arg :: args, (param, expected) :: params => by
    rw [Check.matchArguments]
    refine .bind (.expressionType arg) fun t => ?_
    cases known t with
    | none => exact matchArguments tells args params
    | some actual =>
      dsimp only
      split
      · exact .bind (.report tells (beq_self_eq_true f) rfl) fun _ => matchArguments tells args params
      · exact matchArguments tells args params

theorem checkCall {f : String} {args : List Node} {line : Int} (tells : Tells P (.call f args line)) :
    Keeping P (checkCall f args line) := by
  unfold Check.checkCall
  cases Builtin.ofName? f with
  | some b => exact .pure _
  | none =>
    refine .bind (.lookup f) fun symbol => ?_
    cases symbol with
    | none => exact .bind (.report tells (beq_self_eq_true f) rfl) fun _ => .pure _
    | some symbol =>
      dsimp only
      split
      · exact .bind (.report tells (by simp [Cause.concerns]) rfl) fun _ => .pure _
      · exact .bind (.matchArguments tells args symbol.params) fun _ => .pure _

theorem checkReturn {value : Node} {line : Int} (tells : Tells P (.ret value line)) (e : Enclosing) :
    Keeping P (checkReturn e value line) := by
  unfold Check.checkReturn
  cases e.returnType with
  | none => exact .throw _
  | some expected =>
    -- Whether the type is asked for or is that of no value, it is compared in the same way.
    cases value
    all_goals
      refine .bind (by first | exact .pure _ | exact .expressionType _) fun t => ?_
      dsimp only
      cases known t with
      | none => exact .pure _
      | some _ =>
        dsimp only
        split
        · exact .reportIn tells (fun _ => rfl) rfl
        · exact .pure _

theorem checkRange {x : String} {start stop body : Node} {line : Int} (tells : Tells P (.forLoop x start stop body line)) :
    Keeping P (checkRange start stop line) := by
  refine .bind (.expressionType start) fun _ => .bind (.expressionType stop) fun _ => ?_
  split
  · exact .reportIn tells (fun _ => rfl) rfl
  · exact .pure _

theorem bindLoopVariable (x : String) (line : Int) : Keeping P (bindLoopVariable x line) := by
  refine .bind (.lookup x) fun symbol => ?_
  cases symbol with
  | none => exact .bindName _ _
  | some _ => exact .assigned x

theorem checkIdentifier {x : String} {line : Int} (tells : Tells P (.identifier x line)) :
    Keeping P (checkIdentifier x line) := by
  refine .bind (.lookup x) fun symbol => ?_
  cases symbol with
  | none => exact .reportIn tells (fun _ => beq_self_eq_true x) rfl
  | some _ =>
    dsimp only
    split
    · exact .reportIn tells (fun _ => beq_self_eq_true x) rfl
    · exact .pure _

theorem checkCondition {condition yes no : Node} {line : Int} (tells : Tells P (.ternary condition yes no line)) :
    Keeping P (checkCondition condition line) := by
  refine .bind (.expressionType condition) fun t => ?_
  cases known t with
  | none => exact .pure _
  | some _ =>
    dsimp only
    split
    · exact .report tells rfl rfl
    · exact .pure _

/-! ### Whole walks -/

theorem tells_nodes {n : Node} : (∀ m ∈ n.nodes, Tells P m) ↔ Tells P n ∧ ∀ m ∈ n.under, Tells P m := List.forall_mem_cons

mutual

theorem visit : ∀ n : Node, (∀ m ∈ n.nodes, Tells P m) → Keeping P (visit n)
  | .program fs, tells => by
    rw [Check.visit]
    exact .bind (.bindProgram fs) fun _ => .bind (visitFunctions fs (tells_nodes.1 tells).2) fun _ => .pure _
  | .function _ params _ body _, tells => by
    rw [tells_nodes, Node.under, List.forall_mem_append] at tells
    rw [visit_function]
    exact .functionWalk _ (.bind (.of_same (parameters_same params)) fun _ => .bind (.bindParameters _) fun _ =>
      .bind (.bindNested _) fun _ => visit body tells.2.2)
  | .declaration name type line, tells => by
    rw [Check.visit]
    exact .bind (.declare (tells_nodes.1 tells).1) fun _ => .pure _
  | .assignment target value line, tells => by
    rw [tells_nodes, Node.under, List.forall_mem_append] at tells
    have hv := single value (visit value tells.2.2)
    cases target with
    | text x =>
      rw [Check.visit]
      exact .bind hv fun _ => .bind (.assignVariable tells.1) fun _ => .pure _
    | element x index l =>
      rw [Check.visit]
      have hi := (tells_nodes.1 tells.2.1).2
      exact .bind hv fun _ => .bind (.single index (visit index hi)) fun _ => .bind (.assignElement tells.1) fun _ => .pure _
    | _ =>
      rw [Check.visit] <;> first | exact .bind hv fun _ => .pure _ | (intros; contradiction)
  | .call name args line, tells => by
    rw [Check.visit]
    exact .bind (visitAll args (tells_nodes.1 tells).2) fun _ => .checkCall (tells_nodes.1 tells).1
  | .ret value line, tells => by
    rw [tells_nodes, Node.under] at tells
    rw [Check.visit]
    refine .bind .get fun s => ?_
    cases s.enclosing with
    | none => exact .bind (.report tells.1 rfl rfl) fun _ => .pure _
    | some e => exact .bind (.single value (visit value tells.2)) fun _ => .bind (.checkReturn tells.1 e) fun _ => .pure _
  | .branch condition yes no _, tells => by
    rw [tells_nodes, Node.under, List.forall_mem_append, List.forall_mem_append] at tells
    obtain ⟨-, ⟨hc, hy⟩, hn⟩ := tells
    rw [Check.visit]
    exact .bind (visit condition hc) fun _ => .bind (visit yes hy) fun _ => .bind (visit no hn) fun _ => .pure _
  | .forLoop x start stop body line, tells => by
    rw [tells_nodes, Node.under, List.forall_mem_append, List.forall_mem_append] at tells
    obtain ⟨here, ⟨hs, ht⟩, hb⟩ := tells
    rw [Check.visit]
    exact .bind (.bindLoopVariable x line) fun _ => .bind (.single start (visit start hs)) fun _ =>
      .bind (.single stop (visit stop ht)) fun _ => .bind (.checkRange here) fun _ => .bind (visit body hb) fun _ => .pure _
  | .whileLoop a b _, tells | .doLoop a b _, tells | .binary a _ b _, tells => by
    rw [tells_nodes, Node.under, List.forall_mem_append] at tells
    rw [Check.visit]
    exact .bind (visit a tells.2.1) fun _ => .bind (visit b tells.2.2) fun _ => .pure _
  | .block ns _, tells | .array ns _, tells | .several ns, tells => by
    rw [Check.visit]
    exact .bind (visitAll ns (tells_nodes.1 tells).2) fun _ => .pure _
  | .unary _ n _, tells | .element _ n _, tells | .listOf n _, tells => by
    rw [Check.visit]
    exact .bind (visit n (tells_nodes.1 tells).2) fun _ => .pure _
  | .identifier x line, tells => by
    rw [Check.visit]
    exact .bind (.checkIdentifier (tells_nodes.1 tells).1) fun _ => .pure _
  | .ternary condition yes no line, tells => by
    rw [tells_nodes, Node.under, List.forall_mem_append, List.forall_mem_append] at tells
    obtain ⟨here, ⟨hc, hy⟩, hn⟩ := tells
    rw [Check.visit]
    exact .bind (.single condition (visit condition hc)) fun _ => .bind (.single yes (visit yes hy)) fun _ =>
      .bind (.single no (visit no hn)) fun _ => .bind (.checkCondition here) fun _ => .pure _
  | .parameter .., _ | .number .., _ | .string .., _ | .boolean .., _ | .bare, _ | .nothing, _ | .text _, _
  | .integer _, _ => by
    rw [Check.visit]
    exact .pure _

theorem visitFunctions : ∀ fs : List Node, (∀ m ∈ Node.underAll fs, Tells P m) → Keeping P (visitFunctions fs)
  | [], _ => by
    rw [Check.visitFunctions]
    exact .pure _
  | f :: fs, tells => by
    rw [Node.underAll, List.forall_mem_append] at tells
    rw [Check.visitFunctions]
    split
    · exact .bind (visit f tells.1) fun _ => visitFunctions fs tells.2
    · intro s u s' hr
      obtain ⟨_, _, -, hr⟩ := ran_bind.1 hr
      obtain ⟨_, _, hr, -⟩ := ran_bind.1 hr
      exact (ran_throw hr).elim

theorem visitAll : ∀ ns : List Node, (∀ m ∈ Node.underAll ns, Tells P m) → Keeping P (visitAll ns)
  | [], _ => by
    rw [Check.visitAll]
    exact .pure _
  | n :: ns, tells => by
    rw [Node.underAll, List.forall_mem_append] at tells
    rw [Check.visitAll]
    exact .bind (.single n (visit n tells.1)) fun _ => visitAll ns tells.2

end

end Keeping

/-- **All that a walk over a tree finds points at a node of the tree.** -/
theorem visit_points {n : Node} {s s' : Checker} {t : Option String} (none : s.found = []) (run : Ran (visit n) s t s') :
    ∀ x ∈ s'.found, ∃ m ∈ n.nodes, x.PointsAt m := by
  refine Keeping.visit n (fun m hm x points => ⟨m, hm, points⟩) s t s' run ?_
  rw [none]
  exact List.forall_mem_nil _

end Check

namespace Session

open Grammar

variable {s : Session} {source : String} {fs : List Node}

theorem message_of_line {x : Diagnostic} {line : Nat} (place : x.line = line) (shown : 0 < line) :
    x.message = "Line " ++ toString line ++ ": Error: " ++ x.cause.message := by
  have written : toString x.line = toString line := by rw [place]; rfl
  have some_line : ¬ x.line = 0 := by omega
  rw [Diagnostic.message, if_neg some_line, written]
  simp only [String.append_assoc]
  rfl

/-- **Lines point into what they are about.**  Take a text that is read without fault and without syntax errors, in which
all comments are closed.  Its tree is derived from its tokens, and every node below the program has an extent in this
derivation: the tokens, next to each other, of a phrase that makes it.  The line of the node is that of a token there, so
it is not above the line where the text starts.  If no function has an arrow and no parameters, the text is checked to
the end, and all that is wrong with it is what the check finds.  Each diagnostic is about a node, and is shown with the line
of a token in the extent of that node. -/
theorem lines_within_extents (starts : 0 < s.line) (unbroken : (reading s source).fault = none)
    (tree : (reading s source).functions = some fs) (clean : (reading s source).errors = [])
    (closed : ∀ n, .unclosed n ∉ (read source s).1.notices) :
    ∃ d : Tree (.phrase .program), d.leaves = (read source s).1.tokens ∧ d.value = .program fs ∧
      (∀ m ∈ (Node.program fs).under, m.isProper = true → (∃ ts, d.Extent m ts) ∧ ∀ ts, d.Extent m ts →
        ts <:+: (read source s).1.tokens ∧ ∃ t ∈ ts, m.line? = some (t.line : Int) ∧ s.line ≤ t.line) ∧
      ((Node.program fs).Unarrowed → ∃ found, check fs = .ok found ∧ (compile source s).1 = found.map (·.message) ∧
        ∀ x ∈ found, ∃ m ∈ (Node.program fs).under, x.cause.concerns m = true ∧ ∃ ts, d.Extent m ts ∧
          ∃ t ∈ ts, m.line? = some (t.line : Int) ∧
            x.message = "Line " ++ toString t.line ++ ": Error: " ++ x.cause.message) := by
  have scanned : (read source s).1 = Token.lex source.toList s.line := rfl
  rw [scanned] at closed ⊢
  obtain ⟨s', run⟩ := Parse.program_of_errors_eq_nil tree clean
  have leads := Parser.program_leads (Parser.depth (Token.lex source.toList s.line).tokens)
    (Token.lex source.toList s.line).tokens []
  rw [run] at leads
  obtain ⟨rest, d, leaves, value⟩ := leads
  rw [rest, List.append_nil] at leaves
  have value := value fun t ht => Token.lex_spelled _ _ t (by rw [leaves]; exact ht)
  have extents : ∀ m ∈ (Node.program fs).under, m.isProper = true → (∃ ts, d.Extent m ts) ∧ ∀ ts, d.Extent m ts →
      ts <:+: (Token.lex source.toList s.line).tokens ∧ ∃ t ∈ ts, m.line? = some (t.line : Int) ∧ s.line ≤ t.line := by
    intro m hm proper
    obtain ⟨made, within⟩ := Tree.extent_of_under value hm proper
    refine ⟨made, fun ts extent => ?_⟩
    obtain ⟨inside, t, ht, line⟩ := within ts extent
    rw [← leaves] at inside
    exact ⟨inside, t, ht, line, Token.le_line closed (inside.subset ht)⟩
  refine ⟨d, leaves.symm, value, extents, fun unarrowed => ?_⟩
  obtain ⟨t, c, walk⟩ := (Check.program_ends_iff (parse_areFunctions tree) {}).2 unarrowed
  have checked : check fs = .ok c.found := by
    unfold check
    rw [walk]
  have complained : (compile source s).1 = c.found.map (·.message) := by
    rw [compile_fst, clean, complaints, unbroken, tree]
    simp only [checked, List.map_nil, List.nil_append]
  refine ⟨c.found, checked, complained, fun x hx => ?_⟩
  obtain ⟨m, hm, concerns, place⟩ := Check.visit_points rfl walk x hx
  have below : m ∈ (Node.program fs).under := by
    rcases List.mem_cons.1 hm with rfl | hm
    · cases place
    · exact hm
  obtain ⟨⟨ts, extent⟩, within⟩ := extents m below (Node.isProper_of_line? place)
  obtain ⟨-, t, ht, line, starting⟩ := within ts extent
  have same : x.line = t.line := Option.some.inj (place.symm.trans line)
  exact ⟨m, below, concerns, ts, extent, t, ht, line, message_of_line same (by omega)⟩

/-- A text that starts on line 3, with a sum over three lines in it, and an operand that nothing binds. -/
def spread : String := "funk f(n as int) <int> \x7b\n  x :: int = n\n    +\n    (y);\n  return x;\n\x7d"

def spreadTree : List Node :=
  [.function "f" (.several [.parameter "n" "int" 3]) "int"
    (.several [.declaration "x" "int" 4,
      .assignment (.text "x") (.binary (.identifier "n" 4) "+" (.identifier "y" 6) 5) 4, .ret (.identifier "x" 7) 7]) 3]

theorem spread_lines : (reading { line := 3 } spread).functions = some spreadTree ∧
    (compile spread { line := 3 }).1 = ["Line 6: Error: function 'f': variable 'y' is not defined"] ∧
    ∃ d : Tree (.phrase .program), d.leaves = (read spread { line := 3 }).1.tokens ∧
      (∃ ts, d.Extent (.binary (.identifier "n" 4) "+" (.identifier "y" 6) 5) ts ∧ ∃ t ∈ ts, t.line = 5) ∧
      ∃ ts, d.Extent (.identifier "y" 6) ts ∧ ∃ t ∈ ts, t.line = 6 := by
  have tree : (reading { line := 3 } spread).functions = some spreadTree := by
    rw [spread, reading_ofList]
    rfl
  have evaluated : (read spread { line := 3 }).1.notices = [] ∧ (reading { line := 3 } spread).fault = none ∧
      (reading { line := 3 } spread).errors = [] ∧
      (compile spread { line := 3 }).1 = ["Line 6: Error: function 'f': variable 'y' is not defined"] := by
    rw [compile_fst, spread, reading_ofList]
    decide +kernel
  have closed : ∀ n, .unclosed n ∉ (read spread { line := 3 }).1.notices := by simp [evaluated.1]
  obtain ⟨d, leaves, -, extents, -⟩ :=
    lines_within_extents (by decide) evaluated.2.1 tree evaluated.2.2.1 closed
  have inside {m : Node} {line : Nat} (hm : m ∈ (Node.program spreadTree).under) (place : m.line? = some (line : Int)) :
      ∃ ts, d.Extent m ts ∧ ∃ t ∈ ts, t.line = line := by
    obtain ⟨⟨ts, extent⟩, within⟩ := extents m hm (Node.isProper_of_line? place)
    obtain ⟨-, t, ht, there, -⟩ := within ts extent
    exact ⟨ts, extent, t, ht, Int.ofNat.inj (Option.some.inj (there.symm.trans place))⟩
  refine ⟨tree, evaluated.2.2.2, d, leaves, inside ?_ rfl, inside ?_ rfl⟩
  · simp [spreadTree, Node.under, Node.underAll]
  · simp [spreadTree, Node.under, Node.underAll]

end Session
end TesLang
