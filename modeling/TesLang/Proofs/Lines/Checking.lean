import TesLang.Check.Walk
import TesLang.Proofs.Carry
import TesLang.Proofs.Lines.Reading
/-!
# Checking looks at no line

A walk puts the lines of nodes into symbols and diagnostics and does nothing else with them.  So on a tree with other lines
it notes the same diagnostics in the same order, on the other lines, or ends with the same fault (`check_mapLine`).
-/
namespace TesLang

variable (ρ : Renumbering)

/-! ### Symbols and scopes -/

def Symbol.mapLine (s : Symbol) : Symbol := { s with line := s.line.map ρ.node }

def Scope.mapLine (s : Scope) : Scope := s.map fun entry => (entry.1, entry.2.mapLine ρ)

def Chain.mapLine (c : Chain) : Chain := { inner := Scope.mapLine ρ c.inner, outer := c.outer.map (Scope.mapLine ρ) }

def Diagnostic.mapLine (d : Diagnostic) : Diagnostic := { d with line := ρ.node d.line }

/-- The state of a walk with other lines. -/
def Checker.mapLine (s : Checker) : Checker :=
  { s with chain := s.chain.mapLine ρ, found := s.found.map (Diagnostic.mapLine ρ) }

namespace Scope

theorem mapLine_cons (entry : String × Symbol) (s : Scope) :
    mapLine ρ (entry :: s) = (entry.1, entry.2.mapLine ρ) :: mapLine ρ s := rfl

theorem find?_mapLine (s : Scope) (name : String) :
    Bindings.find? (mapLine ρ s) name = (Bindings.find? s name).map (Symbol.mapLine ρ) := by
  induction s with
  | nil => rfl
  | cons entry s ih =>
    rw [mapLine_cons, Bindings.find?_cons, Bindings.find?_cons, ih]
    by_cases h : entry.1 = name
    · rw [if_pos h, if_pos h]
      rfl
    · rw [if_neg h, if_neg h]

theorem insert_mapLine (s : Scope) (name : String) (symbol : Symbol) :
    mapLine ρ (Bindings.insert name symbol s) = Bindings.insert name (symbol.mapLine ρ) (mapLine ρ s) := by
  induction s with
  | nil => rfl
  | cons entry s ih =>
    rw [mapLine_cons, Bindings.insert, Bindings.insert, ← ih]
    by_cases h : entry.1 = name
    · rw [if_pos h, if_pos h, mapLine_cons]
    · rw [if_neg h, if_neg h, mapLine_cons]

theorem update_mapLine (s : Scope) (name : String) {f : Symbol → Symbol} (h : ∀ x, f (x.mapLine ρ) = (f x).mapLine ρ) :
    mapLine ρ (Bindings.update name f s) = Bindings.update name f (mapLine ρ s) := by
  induction s with
  | nil => rfl
  | cons entry s ih =>
    rw [mapLine_cons, Bindings.update, Bindings.update, ← ih]
    by_cases hn : entry.1 = name
    · rw [if_pos hn, if_pos hn, mapLine_cons, h]
    · rw [if_neg hn, if_neg hn, mapLine_cons]

end Scope

namespace Chain

theorem scopes_mapLine (c : Chain) : (c.mapLine ρ).scopes = c.scopes.map (Scope.mapLine ρ) := rfl

theorem lookup_mapLine (c : Chain) (name : String) :
    (c.mapLine ρ).lookup name = (c.lookup name).map (Symbol.mapLine ρ) := by
  unfold lookup
  rw [scopes_mapLine]
  induction c.scopes with
  | nil => rfl
  | cons s ss ih =>
    rw [List.map_cons, List.findSome?_cons, List.findSome?_cons, Scope.find?_mapLine, ih]
    cases Bindings.find? s name <;> rfl

theorem insert_mapLine (c : Chain) (name : String) (symbol : Symbol) :
    (c.insert name symbol).mapLine ρ = (c.mapLine ρ).insert name (symbol.mapLine ρ) := by
  simp [insert, mapLine, Scope.insert_mapLine]

theorem leave_mapLine (c : Chain) : c.leave.mapLine ρ = (c.mapLine ρ).leave := by
  cases h : c.outer <;> simp [leave, mapLine, h]

theorem assigned_mapLine (c : Chain) (name : String) : (c.assigned name).mapLine ρ = (c.mapLine ρ).assigned name := by
  have update : ∀ ss : List Scope,
      updateFirst name (fun s => { s with initialized := true }) (ss.map (Scope.mapLine ρ)) =
        (updateFirst name (fun s => { s with initialized := true }) ss).map (Scope.mapLine ρ) := by
    intro ss
    induction ss with
    | nil => rfl
    | cons s ss ih =>
      rw [List.map_cons, updateFirst, updateFirst, Scope.find?_mapLine, Option.isSome_map, ih]
      by_cases h : (Bindings.find? s name).isSome = true
      · rw [if_pos h, if_pos h, List.map_cons, Scope.update_mapLine]
        exact fun _ => rfl
      · rw [if_neg h, if_neg h, List.map_cons]
  unfold assigned
  rw [scopes_mapLine, update]
  cases updateFirst name (fun s => { s with initialized := true }) c.scopes <;> rfl

end Chain

/-! ### The walk -/

namespace Check

theorem typeOf_mapLine (c : Chain) : ∀ n : Node, typeOf (c.mapLine ρ) (n.mapLine ρ) = typeOf c n
  | .ternary condition yes no line => by
    rw [Node.mapLine, typeOf, typeOf, typeOf_mapLine c yes, typeOf_mapLine c no]
  | .identifier name line => by
    rw [Node.mapLine, typeOf, typeOf, Chain.lookup_mapLine]
    cases c.lookup name <;> rfl
  | .call name args line => by
    rw [Node.mapLine, typeOf, typeOf, Chain.lookup_mapLine]
    cases Builtin.ofName? name with
    | some f => rfl
    | none => cases c.lookup name <;> rfl
  | .program _ | .function .. | .parameter .. | .declaration .. | .assignment .. | .ret .. | .branch .. | .forLoop ..
  | .whileLoop .. | .doLoop .. | .block .. | .binary .. | .unary .. | .number .. | .string .. | .boolean ..
  | .element .. | .array .. | .listOf .. | .bare | .nothing | .text _ | .integer _ | .several _ => by
    simp [Node.mapLine, typeOf]

abbrev Renumbers {α β : Type} (ρ : Renumbering) (F : α → β) (m : Check α) (m' : Check β) : Prop :=
  Carries (Checker.mapLine ρ) F m m'

variable {ρ}

theorem report_renumbers (cause : Cause) (line : Int) :
    Renumbers ρ (fun u => u) (report cause line) (report cause (ρ.node line)) :=
  .modify fun s => by simp [Checker.mapLine, Diagnostic.mapLine]

theorem lookup_renumbers (name : String) :
    Renumbers ρ (Option.map (Symbol.mapLine ρ)) (lookup name) (lookup name) :=
  .bind .get fun s => .pure (Chain.lookup_mapLine ρ s.chain name)

theorem bindName_renumbers (name : String) (symbol : Symbol) :
    Renumbers ρ (fun u => u) (bindName name symbol) (bindName name (symbol.mapLine ρ)) :=
  .modify fun s => by simp [Checker.mapLine, Chain.insert_mapLine]

theorem assigned_renumbers (name : String) : Renumbers ρ (fun u => u) (assigned name) (assigned name) :=
  .modify fun s => by simp [Checker.mapLine, Chain.assigned_mapLine]

theorem expressionType_renumbers (n : Node) :
    Renumbers ρ (fun t => t) (expressionType n) (expressionType (n.mapLine ρ)) :=
  .bind .get fun s => .pure (typeOf_mapLine ρ s.chain n)

theorem enclosingName_renumbers : Renumbers ρ (fun s => s) enclosingName enclosingName := by
  unfold enclosingName
  refine .bind .get fun s => ?_
  rw [show (s.mapLine ρ).enclosing = s.enclosing from rfl]
  cases s.enclosing with
  | none => exact .throw _
  | some e =>
    dsimp only
    cases e.name with
    | none => exact .throw _
    | some name => exact .pure rfl

theorem nameOf_renumbers (n : Node) : Renumbers ρ (fun s => s) (nameOf n) (nameOf (n.mapLine ρ)) := by
  unfold nameOf
  rw [Node.name?_mapLine, Node.kind_mapLine]
  cases n.name? with
  | none => exact .throw _
  | some name => exact .pure rfl

theorem parameters_renumbers (n : Node) :
    Renumbers ρ (List.map (Node.mapLine ρ)) (parameters n) (parameters (n.mapLine ρ)) := by
  cases n with
  | several ps =>
    rw [Node.mapLine, parameters, parameters, Node.mapLines_eq_map]
    exact .pure rfl
  | text s =>
    rw [Node.mapLine]
    exact .pure (by simp [Node.mapLine])
  | _ =>
    rw [Node.mapLine]
    exact .throw _

theorem signature_renumbers (ps : List Node) :
    Renumbers ρ (fun s => s) (signature ps) (signature (ps.map (Node.mapLine ρ))) := by
  induction ps with
  | nil => exact .pure rfl
  | cons p ps ih =>
    rw [List.map_cons, signature, signature]
    refine .bind (nameOf_renumbers p) fun name => .bind (F := fun t => t) ?_ fun type =>
      .bind ih fun rest => .pure rfl
    cases p <;> rw [Node.mapLine] <;> first | exact .pure rfl | exact .throw _

theorem bindFunction_renumbers (n : Node) : Renumbers ρ (fun u => u) (bindFunction n) (bindFunction (n.mapLine ρ)) := by
  cases n with
  | function name params returnType body line =>
    rw [Node.mapLine, bindFunction, bindFunction]
    exact .bind (parameters_renumbers params) fun ps => .bind (signature_renumbers ps) fun _ => bindName_renumbers _ _
  | _ =>
    rw [Node.mapLine]
    exact .throw _

theorem bindProgram_renumbers (fs : List Node) :
    Renumbers ρ (fun u => u) (bindProgram fs) (bindProgram (fs.map (Node.mapLine ρ))) := by
  induction fs with
  | nil => exact .pure rfl
  | cons f fs ih =>
    rw [List.map_cons, bindProgram, bindProgram]
    refine .bind (nameOf_renumbers f) fun name => .bind .get fun s => ?_
    rw [show (s.mapLine ρ).chain.inner = Scope.mapLine ρ s.chain.inner from rfl, Scope.find?_mapLine, Option.isNone_map]
    by_cases h : (Bindings.find? s.chain.inner name).isNone = true
    · rw [if_pos h, if_pos h]
      exact .bind (bindFunction_renumbers f) fun _ => ih
    · rw [if_neg h, if_neg h]
      exact ih

theorem bindParameters_renumbers (ps : List Node) :
    Renumbers ρ (fun u => u) (bindParameters ps) (bindParameters (ps.map (Node.mapLine ρ))) := by
  induction ps with
  | nil => exact .pure rfl
  | cons p ps ih =>
    rw [List.map_cons, bindParameters, bindParameters]
    refine .bind (nameOf_renumbers p) fun name => ?_
    cases p with
    | parameter n t line =>
      rw [Node.mapLine, parameterType, parameterType]
      exact .bind (F := fun t => t) (.pure rfl) fun type => .bind (bindName_renumbers _ _) fun _ => ih
    | _ =>
      rw [Node.mapLine]
      exact .throw _

theorem bindNested_renumbers (ns : List Node) :
    Renumbers ρ (fun u => u) (bindNested ns) (bindNested (ns.map (Node.mapLine ρ))) := by
  induction ns with
  | nil => exact .pure rfl
  | cons n ns ih =>
    rw [List.map_cons, bindNested, bindNested, Node.isFunction_mapLine]
    by_cases h : n.isFunction = true
    · rw [if_pos h, if_pos h]
      exact .bind (bindFunction_renumbers n) fun _ => ih
    · rw [if_neg h, if_neg h]
      exact ih

theorem declare_renumbers (name type : String) (line : Int) :
    Renumbers ρ (fun u => u) (declare name type line) (declare name type (ρ.node line)) := by
  unfold declare
  refine .bind .get fun s => ?_
  rw [show (s.mapLine ρ).chain.inner = Scope.mapLine ρ s.chain.inner from rfl, Scope.find?_mapLine]
  cases Bindings.find? s.chain.inner name with
  | some _ => exact report_renumbers _ line
  | none => exact bindName_renumbers name _

theorem reportIn_renumbers (cause : String → Cause) (line : Int) :
    Renumbers ρ (fun u => u) (do let function ← enclosingName; report (cause function) line)
      (do let function ← enclosingName; report (cause function) (ρ.node line)) :=
  .bind enclosingName_renumbers fun _ => report_renumbers _ line

theorem assignVariable_renumbers (name : String) (value : Node) (line : Int) :
    Renumbers ρ (fun u => u) (assignVariable name value line) (assignVariable name (value.mapLine ρ) (ρ.node line)) := by
  unfold assignVariable
  refine .bind (lookup_renumbers name) fun r => ?_
  cases r with
  | none => exact reportIn_renumbers _ line
  | some symbol =>
    refine .bind (assigned_renumbers name) fun _ => .bind (expressionType_renumbers value) fun t => ?_
    cases known t with
    | none => exact .pure rfl
    | some type =>
      dsimp only
      rw [show (symbol.mapLine ρ).type = symbol.type from rfl]
      split
      · exact reportIn_renumbers _ line
      · exact .pure rfl

theorem assignElement_renumbers (name : String) (line : Int) :
    Renumbers ρ (fun u => u) (assignElement name line) (assignElement name (ρ.node line)) := by
  unfold assignElement
  refine .bind (lookup_renumbers name) fun r => ?_
  cases r with
  | none => exact reportIn_renumbers _ line
  | some symbol =>
    dsimp only [Option.map_some]
    rw [show (symbol.mapLine ρ).type = symbol.type from rfl]
    split
    · exact reportIn_renumbers _ line
    · exact .pure rfl

theorem matchArguments_renumbers (function : String) (line : Int) : ∀ (args : List Node) (params : List (String × String)),
    Renumbers ρ (fun u => u) (matchArguments function line args params)
      (matchArguments function (ρ.node line) (args.map (Node.mapLine ρ)) params)
  | [], _ => by
    rw [List.map_nil]
    exact .pure rfl
  | arg :: args, [] => by
    rw [List.map_cons]
    exact .pure rfl
  | arg :: args, (param, expected) :: params => by
    rw [List.map_cons, matchArguments, matchArguments]
    refine .bind (expressionType_renumbers arg) fun t => ?_
    have rest := matchArguments_renumbers function line args params
    cases known t with
    | none => exact rest
    | some actual =>
      dsimp only
      split
      · exact .bind (report_renumbers _ line) fun _ => rest
      · exact rest

theorem checkCall_renumbers (name : String) (args : List Node) (line : Int) :
    Renumbers ρ (fun t => t) (checkCall name args line) (checkCall name (args.map (Node.mapLine ρ)) (ρ.node line)) := by
  unfold checkCall
  cases Builtin.ofName? name with
  | some f => exact .pure rfl
  | none =>
    refine .bind (lookup_renumbers name) fun r => ?_
    cases r with
    | none => exact .bind (report_renumbers _ line) fun _ => .pure rfl
    | some symbol =>
      dsimp only [Option.map_some]
      rw [show (symbol.mapLine ρ).params = symbol.params from rfl, List.length_map]
      split
      · exact .bind (report_renumbers _ line) fun _ => .pure rfl
      · exact .bind (matchArguments_renumbers name line args _) fun _ => .pure rfl

theorem returned_renumbers (expected : String) (actual : Option String) (line : Int) : Renumbers ρ (fun u => u)
    (match known actual with
      | none => pure ()
      | some actual =>
        if expected ≠ actual then do
          let function ← enclosingName
          report (.returned function expected actual) line
        else pure ())
    (match known actual with
      | none => pure ()
      | some actual =>
        if expected ≠ actual then do
          let function ← enclosingName
          report (.returned function expected actual) (ρ.node line)
        else pure ()) := by
  cases known actual with
  | none => exact .pure rfl
  | some actual =>
    dsimp only
    split
    · exact reportIn_renumbers _ line
    · exact .pure rfl

theorem checkReturn_renumbers (e : Enclosing) (value : Node) (line : Int) :
    Renumbers ρ (fun u => u) (checkReturn e value line) (checkReturn e (value.mapLine ρ) (ρ.node line)) := by
  unfold checkReturn
  cases e.returnType with
  | none => exact .throw _
  | some expected =>
    cases value with
    | nothing =>
      rw [Node.mapLine]
      exact returned_renumbers expected (some "null") line
    | _ => exact .bind (expressionType_renumbers _) fun actual => returned_renumbers expected actual line

theorem bindLoopVariable_renumbers (var : String) (line : Int) :
    Renumbers ρ (fun u => u) (bindLoopVariable var line) (bindLoopVariable var (ρ.node line)) := by
  unfold bindLoopVariable
  refine .bind (lookup_renumbers var) fun r => ?_
  cases r with
  | none => exact bindName_renumbers var _
  | some _ => exact assigned_renumbers var

theorem checkRange_renumbers (start stop : Node) (line : Int) :
    Renumbers ρ (fun u => u) (checkRange start stop line)
      (checkRange (start.mapLine ρ) (stop.mapLine ρ) (ρ.node line)) := by
  unfold checkRange
  refine .bind (expressionType_renumbers start) fun _ => .bind (expressionType_renumbers stop) fun _ => ?_
  split
  · exact reportIn_renumbers _ line
  · exact .pure rfl

theorem checkIdentifier_renumbers (name : String) (line : Int) :
    Renumbers ρ (fun u => u) (checkIdentifier name line) (checkIdentifier name (ρ.node line)) := by
  unfold checkIdentifier
  refine .bind (lookup_renumbers name) fun r => ?_
  cases r with
  | none => exact reportIn_renumbers _ line
  | some symbol =>
    dsimp only [Option.map_some]
    rw [show (symbol.mapLine ρ).initialized = symbol.initialized from rfl]
    split
    · exact reportIn_renumbers _ line
    · exact .pure rfl

theorem checkCondition_renumbers (condition : Node) (line : Int) :
    Renumbers ρ (fun u => u) (checkCondition condition line) (checkCondition (condition.mapLine ρ) (ρ.node line)) := by
  unfold checkCondition
  refine .bind (expressionType_renumbers condition) fun t => ?_
  cases known t with
  | none => exact .pure rfl
  | some type =>
    dsimp only
    split
    · exact report_renumbers _ line
    · exact .pure rfl

theorem single_renumbers (n : Node) {walk walk' : Check (Option String)} (h : Renumbers ρ (fun t => t) walk walk') :
    Renumbers ρ (fun t => t) (single n walk) (single (n.mapLine ρ) walk') := by
  cases n with
  | several ns =>
    rw [Node.mapLine]
    exact .pure rfl
  | _ =>
    rw [Node.mapLine]
    exact h

theorem statements_mapLine (n : Node) : (n.mapLine ρ).statements = n.statements.map (Node.mapLine ρ) := by
  cases n <;> simp [Node.mapLine, Node.statements]

theorem enclosing_mapLine (n : Node) : Enclosing.of (n.mapLine ρ) = .of n := by
  cases n <;> simp [Node.mapLine, Enclosing.of, Node.kind, Node.name?]

mutual

theorem visit_renumbers : ∀ n : Node, Renumbers ρ (fun t => t) (visit n) (visit (n.mapLine ρ))
  | .program fs => by
    rw [Node.mapLine, visit, visit, Node.mapLines_eq_map]
    exact .bind (bindProgram_renumbers fs) fun _ => .bind (visitFunctions_renumbers fs) fun _ => .pure rfl
  | .function name params returnType body _ => by
    rw [Node.mapLine, visit, visit, statements_mapLine]
    exact .bind .get fun s => .bind (.modify fun _ => rfl) fun _ => .bind (parameters_renumbers params) fun ps =>
      .bind (bindParameters_renumbers ps) fun _ => .bind (bindNested_renumbers _) fun _ =>
      .bind (visit_renumbers body) fun _ =>
      .bind (.modify fun s => by simp [Checker.mapLine, Chain.leave_mapLine]) fun _ => .pure rfl
  | .parameter .. => by
    rw [Node.mapLine]
    exact .pure rfl
  | .declaration name type line => by
    rw [Node.mapLine, visit, visit]
    exact .bind (declare_renumbers name type line) fun _ => .pure rfl
  | .assignment target value line => by
    have walked := single_renumbers value (visit_renumbers value)
    cases target with
    | text name =>
      rw [Node.mapLine, Node.mapLine, visit, visit]
      exact .bind walked fun _ => .bind (assignVariable_renumbers name value line) fun _ => .pure rfl
    | element name index l =>
      rw [Node.mapLine, Node.mapLine, visit, visit]
      exact .bind walked fun _ => .bind (single_renumbers index (visit_renumbers index)) fun _ =>
        .bind (assignElement_renumbers name line) fun _ => .pure rfl
    | _ =>
      rw [Node.mapLine, Node.mapLine]
      exact .bind walked fun _ => .pure rfl
  | .call name args line => by
    rw [Node.mapLine, visit, visit, Node.mapLines_eq_map]
    exact .bind (visitAll_renumbers args) fun _ => checkCall_renumbers name args line
  | .ret value line => by
    rw [Node.mapLine, visit, visit]
    refine .bind .get fun s => ?_
    rw [show (s.mapLine ρ).enclosing = s.enclosing from rfl]
    cases s.enclosing with
    | none => exact .bind (report_renumbers _ line) fun _ => .pure rfl
    | some e =>
      exact .bind (single_renumbers value (visit_renumbers value)) fun _ =>
        .bind (checkReturn_renumbers e value line) fun _ => .pure rfl
  | .branch condition yes no _ => by
    rw [Node.mapLine, visit, visit]
    exact .bind (visit_renumbers condition) fun _ => .bind (visit_renumbers yes) fun _ =>
      .bind (visit_renumbers no) fun _ => .pure rfl
  | .forLoop var start stop body line => by
    rw [Node.mapLine, visit, visit]
    exact .bind (bindLoopVariable_renumbers var line) fun _ => .bind (single_renumbers start (visit_renumbers start)) fun _ =>
      .bind (single_renumbers stop (visit_renumbers stop)) fun _ => .bind (checkRange_renumbers start stop line) fun _ =>
      .bind (visit_renumbers body) fun _ => .pure rfl
  | .whileLoop condition body _ => by
    rw [Node.mapLine, visit, visit]
    exact .bind (visit_renumbers condition) fun _ => .bind (visit_renumbers body) fun _ => .pure rfl
  | .doLoop body condition _ => by
    rw [Node.mapLine, visit, visit]
    exact .bind (visit_renumbers body) fun _ => .bind (visit_renumbers condition) fun _ => .pure rfl
  | .block ss _ => by
    rw [Node.mapLine, visit, visit, Node.mapLines_eq_map]
    exact .bind (visitAll_renumbers ss) fun _ => .pure rfl
  | .binary left _ right _ => by
    rw [Node.mapLine, visit, visit]
    exact .bind (visit_renumbers left) fun _ => .bind (visit_renumbers right) fun _ => .pure rfl
  | .unary _ operand _ => by
    rw [Node.mapLine, visit, visit]
    exact .bind (visit_renumbers operand) fun _ => .pure rfl
  | .identifier name line => by
    rw [Node.mapLine, visit, visit]
    exact .bind (checkIdentifier_renumbers name line) fun _ => .pure rfl
  | .ternary condition yes no line => by
    rw [Node.mapLine, visit, visit]
    exact .bind (single_renumbers condition (visit_renumbers condition)) fun _ =>
      .bind (single_renumbers yes (visit_renumbers yes)) fun _ => .bind (single_renumbers no (visit_renumbers no)) fun _ =>
      .bind (checkCondition_renumbers condition line) fun _ => .pure rfl
  | .element _ index _ => by
    rw [Node.mapLine, visit, visit]
    exact .bind (visit_renumbers index) fun _ => .pure rfl
  | .array es _ => by
    rw [Node.mapLine, visit, visit, Node.mapLines_eq_map]
    exact .bind (visitAll_renumbers es) fun _ => .pure rfl
  | .listOf size _ => by
    rw [Node.mapLine, visit, visit]
    exact .bind (visit_renumbers size) fun _ => .pure rfl
  | .several ns => by
    rw [Node.mapLine, visit, visit, Node.mapLines_eq_map]
    exact .bind (visitAll_renumbers ns) fun _ => .pure rfl
  | .number .. | .string .. | .boolean .. | .bare | .nothing | .text _ | .integer _ => by
    rw [Node.mapLine, visit]
    exact .pure rfl

theorem visitFunctions_renumbers : ∀ fs : List Node,
    Renumbers ρ (fun u => u) (visitFunctions fs) (visitFunctions (fs.map (Node.mapLine ρ)))
  | [] => by
    rw [List.map_nil, visitFunctions]
    exact .pure rfl
  | f :: fs => by
    rw [List.map_cons, visitFunctions, visitFunctions, Node.isFunction_mapLine, enclosing_mapLine, Node.kind_mapLine]
    split
    · exact .bind (visit_renumbers f) fun _ => visitFunctions_renumbers fs
    · exact .bind (.modify fun _ => rfl) fun _ => .bind (F := fun u => u) (.throw _) fun _ => visitFunctions_renumbers fs

theorem visitAll_renumbers : ∀ ns : List Node,
    Renumbers ρ (fun u => u) (visitAll ns) (visitAll (ns.map (Node.mapLine ρ)))
  | [] => by
    rw [List.map_nil, visitAll]
    exact .pure rfl
  | n :: ns => by
    rw [List.map_cons, visitAll, visitAll]
    exact .bind (single_renumbers n (visit_renumbers n)) fun _ => visitAll_renumbers ns

end

end Check

/-- **A program with other lines has the same diagnostics on the other lines, in the same order**, or its walk ends with the
same fault. -/
theorem check_mapLine (fs : List Node) :
    check (fs.map (Node.mapLine ρ)) = (check fs).map (List.map (Diagnostic.mapLine ρ)) := by
  have h := Check.visit_renumbers (ρ := ρ) (.program fs) {}
  rw [Node.mapLine, Node.mapLines_eq_map] at h
  rw [show Checker.mapLine ρ {} = {} from rfl] at h
  unfold check
  rw [h]
  cases (Check.visit (.program fs)).run {} <;> rfl

end TesLang
