import TesLang.Proofs.Generation.Step
import TesLang.Proofs.Parsing.Grammar
/-!
# The outline of code

What links procedures with each other are the heads of procedures and the calls.  `outlineIn` reads both off some lines,
and `outline` off a tree, without registers, labels and variables.  `visit_outlines` says that they are the same: the
code of a tree has the outline of the tree, and each call has as many arguments in the code as it has in the tree.
-/
namespace TesLang.Code

open Grammar

/-- What a line means to other procedures. -/
inductive Entry where
  | head (name : String)
  | call (name : String) (arity : Nat)
  deriving DecidableEq, Repr

def Line.entry? : Line → Option Entry
  | proc name => some (.head name)
  | call f _ args => some (.call f args.length)
  | _ => none

/-- The outline of some lines. -/
def outlineIn (ls : List Line) : List Entry := ls.filterMap Line.entry?

theorem outlineIn_append (a b : List Line) : outlineIn (a ++ b) = outlineIn a ++ outlineIn b := List.filterMap_append

/-- The heads in an outline. -/
def headsOf (es : List Entry) : List String :=
  es.filterMap fun
    | .head name => some name
    | .call .. => none

theorem headsOf_append (a b : List Entry) : headsOf (a ++ b) = headsOf a ++ headsOf b := List.filterMap_append

/-- What a place that takes a single node adds to the outline. -/
def ofSingle (n : Node) (es : List Entry) : List Entry :=
  match n with
  | .nothing | .several _ => []
  | _ => es

mutual

/-- The outline of the code of a node. -/
def outline : Node → List Entry
  | .program fs => outlineProgram fs
  | .function name _ _ (.several ns) _ => .head name :: outlineOwn ns
  | .function name _ _ (.block ns _) _ => .head name :: outlineOwn ns
  | .function name _ _ (.function ..) _ => [.head name]
  | .function name _ _ body _ => .head name :: outline body
  | .block ss _ => outlineAll ss
  | .assignment (.element _ index _) value _ => ofSingle value (outline value) ++ ofSingle index (outline index)
  | .assignment _ value _ => ofSingle value (outline value)
  | .call name args _ =>
    match Builtin.ofName? name with
    | some .scan => []
    | some _ => outlineFirst args
    | none => outlineAll args ++ [.call name args.length]
  | .element _ index _ => ofSingle index (outline index)
  | .ret value _ => ofSingle value (outline value)
  | .branch condition yes no _ => ofSingle condition (outline condition) ++ outline yes ++ outline no
  | .whileLoop condition body _ => ofSingle condition (outline condition) ++ outline body
  | .doLoop body condition _ => outline body ++ ofSingle condition (outline condition)
  | .forLoop _ start stop body _ => ofSingle start (outline start) ++ ofSingle stop (outline stop) ++ outline body
  | .ternary condition yes no _ =>
    ofSingle condition (outline condition) ++ ofSingle yes (outline yes) ++ ofSingle no (outline no)
  | .binary left _ right _ => ofSingle left (outline left) ++ ofSingle right (outline right)
  | .unary _ n _ => if Gen.hasCode n then outline n else []
  | .listOf n _ => if Gen.hasCode n then outline n else []
  | .array es _ => outlineAll es
  | .several ns => outlineAll ns
  | _ => []

/-- The outline of the first argument of a call. -/
def outlineFirst : List Node → List Entry
  | [] => []
  | n :: _ => ofSingle n (outline n)

def outlineAll : List Node → List Entry
  | [] => []
  | n :: ns => ofSingle n (outline n) ++ outlineAll ns

/-- The outline of the statements of a function, without the functions among them. -/
def outlineOwn : List Node → List Entry
  | [] => []
  | n :: ns => (if n.isFunction then [] else ofSingle n (outline n)) ++ outlineOwn ns

/-- The outline of the functions of a program, each followed by the functions that stand directly in its body. -/
def outlineProgram : List Node → List Entry
  | [] => []
  | f :: fs => outline f ++ outlineNestedIn f ++ outlineProgram fs

def outlineNestedIn : Node → List Entry
  | .function _ _ _ body _ | .forLoop _ _ _ body _ | .whileLoop _ body _ | .doLoop body _ _ =>
    (if body.isFunction then outline body else []) ++ outlineNestedUnder body
  | _ => []

def outlineNestedUnder : Node → List Entry
  | .several ns => outlineNested ns
  | .block ns _ => outlineNested ns
  | .function _ _ _ body _ => (if body.isFunction then outline body else []) ++ outlineNestedUnder body
  | _ => []

def outlineNested : List Node → List Entry
  | [] => []
  | n :: ns => (if n.isFunction then outline n ++ outlineNestedIn n else []) ++ outlineNested ns

end

/-! ### Nodes without functions -/

mutual

/-- Whether a node holds no function. -/
def plain : Node → Bool
  | .program _ | .function .. => false
  | .assignment target value _ => plain target && plain value
  | .call _ args _ => plainAll args
  | .ret value _ => plain value
  | .branch condition yes no _ => plain condition && plain yes && plain no
  | .forLoop _ start stop body _ => plain start && plain stop && plain body
  | .whileLoop condition body _ => plain condition && plain body
  | .doLoop body condition _ => plain body && plain condition
  | .block ss _ => plainAll ss
  | .binary left _ right _ => plain left && plain right
  | .unary _ n _ => plain n
  | .ternary condition yes no _ => plain condition && plain yes && plain no
  | .element _ index _ => plain index
  | .array es _ => plainAll es
  | .listOf n _ => plain n
  | .several ns => plainAll ns
  | _ => true

def plainAll : List Node → Bool
  | [] => true
  | n :: ns => plain n && plainAll ns

end

mutual

theorem plain_of_isExpression {right : String → Bool} : ∀ {e : Node}, isExpression right e = true → plain e = true
  | .number .., _ | .string .., _ | .boolean .., _ | .identifier .., _ => rfl
  | .call .., h => by
    simp only [isExpression, Bool.and_eq_true] at h
    simp only [plain, plainAll_of_areExpressions h.2]
  | .element .., h => by
    simp only [isExpression, Bool.and_eq_true] at h
    simp only [plain, plain_of_isExpression h.2]
  | .binary .., h => by
    simp only [isExpression, Bool.and_eq_true] at h
    simp only [plain, plain_of_isExpression h.1, plain_of_isExpression h.2, Bool.and_self]
  | .unary .., h => by
    simp only [isExpression] at h
    simp only [plain, plain_of_isExpression h]
  | .ternary .., h => by
    simp only [isExpression, Bool.and_eq_true] at h
    simp only [plain, plain_of_isExpression h.1.1, plain_of_isExpression h.1.2, plain_of_isExpression h.2, Bool.and_self]
  | .array .., h => by
    simp only [isExpression] at h
    simp only [plain, plainAll_of_areExpressions h]

theorem plainAll_of_areExpressions {right : String → Bool} :
    ∀ {es : List Node}, areExpressions right es = true → plainAll es = true
  | [], _ => rfl
  | _ :: _, h => by
    simp only [areExpressions, Bool.and_eq_true] at h
    simp only [plainAll, plain_of_isExpression h.1, plainAll_of_areExpressions h.2, Bool.and_self]

end

theorem headsOf_ofSingle {n : Node} {es : List Entry} (h : headsOf es = []) : headsOf (ofSingle n es) = [] := by
  unfold ofSingle
  split
  · rfl
  · rfl
  · exact h

mutual

theorem headsOf_plain : ∀ {n : Node}, plain n = true → headsOf (outline n) = []
  | .block ns _, h | .array ns _, h | .several ns, h => by
    simp only [plain] at h
    rw [outline, headsOf_plainAll h]
  | .assignment target value _, h => by
    simp only [plain, Bool.and_eq_true] at h
    have hv := headsOf_ofSingle (n := value) (headsOf_plain h.2)
    cases target with
    | element _ index _ =>
      simp only [plain] at h
      rw [outline, headsOf_append, hv, headsOf_ofSingle (headsOf_plain h.1)]
      rfl
    | _ =>
      rw [outline]
      · exact hv
      · intros
        contradiction
  | .call name args _, h => by
    simp only [plain] at h
    rw [outline]
    split
    · rfl
    · cases args with
      | nil => rfl
      | cons n rest =>
        simp only [plainAll, Bool.and_eq_true] at h
        exact headsOf_ofSingle (headsOf_plain h.1)
    · rw [headsOf_append, headsOf_plainAll h]
      rfl
  | .ret n _, h | .element _ n _, h => by
    simp only [plain] at h
    rw [outline]
    exact headsOf_ofSingle (headsOf_plain h)
  | .unary _ n _, h | .listOf n _, h => by
    simp only [plain] at h
    rw [outline]
    split
    · exact headsOf_plain h
    · rfl
  | .branch .., h => by
    simp only [plain, Bool.and_eq_true] at h
    rw [outline, headsOf_append, headsOf_append, headsOf_ofSingle (headsOf_plain h.1.1), headsOf_plain h.1.2,
      headsOf_plain h.2]
    rfl
  | .whileLoop .., h => by
    simp only [plain, Bool.and_eq_true] at h
    rw [outline, headsOf_append, headsOf_ofSingle (headsOf_plain h.1), headsOf_plain h.2]
    rfl
  | .doLoop .., h => by
    simp only [plain, Bool.and_eq_true] at h
    rw [outline, headsOf_append, headsOf_plain h.1, headsOf_ofSingle (headsOf_plain h.2)]
    rfl
  | .forLoop .., h => by
    simp only [plain, Bool.and_eq_true] at h
    rw [outline, headsOf_append, headsOf_append, headsOf_ofSingle (headsOf_plain h.1.1),
      headsOf_ofSingle (headsOf_plain h.1.2), headsOf_plain h.2]
    rfl
  | .ternary .., h => by
    simp only [plain, Bool.and_eq_true] at h
    rw [outline, headsOf_append, headsOf_append, headsOf_ofSingle (headsOf_plain h.1.1),
      headsOf_ofSingle (headsOf_plain h.1.2), headsOf_ofSingle (headsOf_plain h.2)]
    rfl
  | .binary .., h => by
    simp only [plain, Bool.and_eq_true] at h
    rw [outline, headsOf_append, headsOf_ofSingle (headsOf_plain h.1), headsOf_ofSingle (headsOf_plain h.2)]
    rfl
  | .declaration .., _ | .parameter .., _ | .identifier .., _ | .number .., _ | .string .., _ | .boolean .., _ | .bare, _
  | .nothing, _ | .text _, _ | .integer _, _ => by
    rw [outline]
    · rfl
    all_goals
      intros
      contradiction

theorem headsOf_plainAll : ∀ {ns : List Node}, plainAll ns = true → headsOf (outlineAll ns) = []
  | [], _ => by rw [outlineAll]; rfl
  | n :: ns, h => by
    simp only [plainAll, Bool.and_eq_true] at h
    rw [outlineAll, headsOf_append, headsOf_ofSingle (headsOf_plain h.1), headsOf_plainAll h.2]
    rfl

end

namespace Gen

/-! ### What stands in the place of an expression -/

section
variable {right : String → Bool} {e : Node}

theorem operand_expression (h : isExpression right e = true) (code : Gen (Option Reg)) : operand e code = code := by
  cases e with
  | nothing | several _ => simp [isExpression] at h
  | _ => rfl

theorem returned_expression (h : isExpression right e = true) (code : Gen (Option Reg)) : returned e code = code := by
  cases e with
  | nothing | several _ | text _ => simp [isExpression] at h
  | _ => rfl

theorem doBody_eq {n : Node} (h : n ≠ .nothing) (code : Gen (Option Reg)) : doBody n code = code := by
  unfold doBody
  split
  · exact (h rfl).elim
  · rfl

end

/-! ### What runs add -/

/-- Every run of `m` adds lines with the given outline. -/
def Outlines {α : Type} (m : Gen α) (es : List Entry) : Prop :=
  ∀ s a s', Ran m s a s' → outlineIn s'.code.toList = outlineIn s.code.toList ++ es

namespace Outlines

variable {α β : Type} {es es' : List Entry}

theorem pure (a : α) : Outlines (pure a) [] := by
  intro s b s' h
  obtain ⟨-, rfl⟩ := ran_pure.1 h
  exact (List.append_nil _).symm

theorem bind {m : Gen α} {f : α → Gen β} (first : Outlines m es) (rest : ∀ a, Outlines (f a) es') :
    Outlines (m >>= f) (es ++ es') := by
  intro s b s'' h
  obtain ⟨a, s', h₁, h₂⟩ := ran_bind.1 h
  rw [rest a _ _ _ h₂, first _ _ _ h₁, List.append_assoc]

theorem after {m : Gen α} {f : α → Gen β} (first : Outlines m []) (rest : ∀ a, Outlines (f a) es) :
    Outlines (m >>= f) es := .bind first rest

theorem before {m : Gen α} {f : α → Gen β} (first : Outlines m es) (rest : ∀ a, Outlines (f a) []) :
    Outlines (m >>= f) es := List.append_nil es ▸ .bind first rest

theorem throw (f : Fault) : Outlines (throw f : Gen α) es := fun _ _ _ h => (ran_throw h).elim

theorem discard {m : Gen α} (h : Outlines m es) : Outlines (discard m) es := by
  intro s u s' hr
  obtain ⟨a, hr⟩ := ran_discard.1 hr
  exact h s a s' hr

theorem emit (l : Line) : Outlines (emit l) l.entry?.toList := by
  intro s u s' h
  obtain rfl := ran_emit.1 h
  rw [Generator.add_code, Array.toList_push, outlineIn_append]
  unfold outlineIn
  cases h : l.entry? <;> simp [h]

theorem modify (f : Generator → Generator) (code : ∀ s, (f s).code = s.code) : Outlines (modify f : Gen Unit) [] := by
  intro s u s' h
  obtain rfl := ran_modify.1 h
  rw [code, List.append_nil]

theorem get : Outlines (get : Gen Generator) [] := by
  intro s a s' h
  obtain ⟨-, rfl⟩ := ran_get.1 h
  exact (List.append_nil _).symm

theorem allocate : Outlines allocate [] := by
  intro s a s' h
  obtain ⟨-, rfl⟩ := ran_allocate.1 h
  exact (List.append_nil _).symm

theorem freshLabel (stem : String) : Outlines (freshLabel stem) [] := by
  intro s a s' h
  obtain ⟨-, rfl⟩ := ran_freshLabel.1 h
  exact (List.append_nil _).symm

theorem warn (kind : String) : Outlines (warn kind) [] := .modify _ fun _ => rfl

theorem place? (x : String) : Outlines (place? x) [] := .after .get fun _ => .pure _

theorem place (x : String) : Outlines (place x) [] :=
  .after (.place? x) fun
    | some _ => .pure _
    | none => .after .allocate fun _ => .after (.modify _ fun _ => rfl) fun _ => .pure _

theorem ownPlace (x : String) : Outlines (ownPlace x) [] := by
  refine .after .allocate fun r => .after .get fun s => ?_
  cases s.vars.find? x with
  | some old => exact .pure old
  | none => exact .after (.modify _ fun _ => rfl) fun _ => .pure _

theorem declare (x : String) : Outlines (declare x) [] :=
  .after (.place? x) fun
    | some _ => .pure _
    | none => .after (.place x) fun _ => .emit _

theorem assign (x : String) (value : Option Reg) : Outlines (assign x value) [] := by
  have move : ∀ r, Outlines (if value ≠ some r then Gen.emit (.mov r (.ofReg value)) else Pure.pure ()) [] := by
    intro r
    split
    · exact .emit _
    · exact .pure _
  refine .after .get fun s => ?_
  dsimp only
  cases s.params.find? x with
  | some r => exact .after (.pure r) move
  | none => exact .after (.ownPlace x) move

theorem operand (n : Node) {code : Gen (Option Reg)} (h : Outlines code es) :
    Outlines (operand n code) (ofSingle n es) := by
  unfold Gen.operand ofSingle
  cases n
  case nothing => exact .after (.warn _) fun _ => .pure _
  case several => exact .after (.warn _) fun _ => .pure _
  all_goals exact h

theorem returned (n : Node) {code : Gen (Option Reg)} (h : Outlines code es) (empty : n.isEmpty = true → es = []) :
    Outlines (returned n code) (ofSingle n es) := by
  unfold Gen.returned
  split
  · next hn =>
    have : ofSingle n es = [] := by
      unfold ofSingle
      split
      · rfl
      · rfl
      · exact empty hn
    rw [this]
    exact .pure _
  · exact .operand n h

theorem argumentRegs : ∀ (i : Nat) (args : List (Option Reg)), Outlines (argumentRegs i args) []
  | _, [] => .pure _
  | _, none :: _ => .throw _
  | i, some _ :: rest => .after (argumentRegs (i + 1) rest) fun _ => .pure _

theorem placeParams : ∀ (i : Nat) (ps : List Node), Outlines (placeParams i ps) []
  | _, [] => .pure _
  | i, p :: ps => by
    rw [Gen.placeParams]
    cases p.name? with
    | none => exact .throw _
    | some _ => exact .after (.modify _ fun _ => rfl) fun _ => .after (placeParams (i + 1) ps) fun _ => .pure _

theorem placeParameters (params : Node) : Outlines (placeParameters params) [] := by
  have place : ∀ ps, Outlines (do
      let texts ← Gen.placeParams 1 ps
      Gen.emit (.comment ("Parameters: " ++ ", ".intercalate texts))) [] := fun ps =>
    .after (.placeParams 1 ps) fun _ => .emit _
  unfold Gen.placeParameters
  split
  · exact .pure _
  · cases params
    case several => exact .after (.pure _) place
    case text => exact .after (.pure _) place
    all_goals exact .after (.throw _) place

theorem closeProc (returnType : String) : Outlines (closeProc returnType) [] := by
  unfold Gen.closeProc
  refine .after .get fun s => ?_
  dsimp only
  split
  · split
    · exact .after (.emit _) fun _ => .after (.emit _) fun _ => .emit _
    · exact .after (.emit _) fun _ => .emit _
  · exact .emit _

theorem openProc (name : String) (params : Node) : Outlines (openProc name params) [.head name] :=
  .after (.modify _ fun _ => rfl) fun _ => .before (.emit _) fun _ => .placeParameters params

theorem procedure (name : String) (params : Node) (returnType : String) {code : Gen Unit} (h : Outlines code es) :
    Outlines (procedure name params returnType code) (.head name :: es) :=
  .bind (.openProc name params) fun _ => .before h fun _ => .after (.closeProc returnType) fun _ => .pure _

theorem requireBodies (fs : List Node) : Outlines (requireBodies fs) [] := by
  unfold Gen.requireBodies
  split
  · exact .throw _
  · exact .pure _

end Outlines

theorem argumentRegs_length : ∀ {i : Nat} {args : List (Option Reg)} {s s' : Generator} {rs : List Reg},
    Ran (argumentRegs i args) s rs s' → rs.length = args.length
  | _, [], _, _, _, h => by
    obtain ⟨rfl, -⟩ := ran_pure.1 h
    rfl
  | _, none :: _, _, _, _, h => (ran_throw h).elim
  | i, some r :: rest, _, _, _, h => by
    rw [argumentRegs] at h
    simp only [ran_bind, ran_pure] at h
    obtain ⟨rs, _, h, rfl, -⟩ := h
    rw [List.length_cons, List.length_cons, argumentRegs_length h]

theorem visitArguments_length : ∀ {ns : List Node} {s s' : Generator} {rs : List (Option Reg)},
    Ran (visitArguments ns) s rs s' → rs.length = ns.length
  | [], _, _, _, h => by
    rw [visitArguments] at h
    obtain ⟨rfl, -⟩ := ran_pure.1 h
    rfl
  | n :: ns, _, _, _, h => by
    rw [visitArguments] at h
    simp only [ran_bind, ran_pure] at h
    obtain ⟨r, _, -, rs, _, h, rfl, -⟩ := h
    rw [List.length_cons, List.length_cons, visitArguments_length h]

theorem callFunction_outlines (name : String) (args : List (Option Reg)) :
    Outlines (callFunction name args) [.call name args.length] := by
  intro s r s' h
  unfold callFunction at h
  simp only [↓ran_allocate_bind, ran_bind, ran_emit, ran_pure] at h
  obtain ⟨rs, s₁, h₁, _, _, rfl, -, rfl⟩ := h
  rw [← argumentRegs_length h₁, Outlines.emit (.call name s.next rs) s₁ () _ (ran_emit.2 rfl),
    Outlines.argumentRegs _ _ _ _ _ h₁, List.append_nil]
  rfl

theorem outline_of_isEmpty {n : Node} (h : n.isEmpty = true) : outline n = [] := by
  cases n with
  | nothing => rw [outline] <;> (intros; contradiction)
  | text _ => rw [outline] <;> (intros; contradiction)
  | several ns =>
    obtain rfl := List.isEmpty_iff.1 h
    rw [outline, outlineAll]
  | _ => cases h

theorem outlines_ifCode {n : Node} {es : List Entry} (h : Outlines (visit n) es) :
    Outlines (if hasCode n = true then do discard (visit n); pure none else pure (none : Option Reg))
      (if hasCode n = true then es else []) := by
  split
  · exact .before (.discard h) fun _ => .pure _
  · exact .pure _

mutual

/-- **The code of a node has the outline of the node.** -/
theorem visit_outlines : ∀ (n : Node), Outlines (visit n) (outline n)
  | .program fs => by
    rw [visit, outline]
    exact .after (.requireBodies fs) fun _ => .before (visitProgram_outlines fs) fun _ => .pure _
  | .function name params returnType body _ => by
    cases body with
    | several ns =>
      rw [visit, outline]
      exact .procedure _ _ _ (visitOwn_outlines ns)
    | block ns _ =>
      rw [visit, outline]
      exact .procedure _ _ _ (visitOwn_outlines ns)
    | function _ _ _ _ _ =>
      rw [visit, outline]
      exact .procedure _ _ _ (.pure _)
    | _ =>
      rw [visit, outline] <;> first | exact .procedure _ _ _ (.discard (visit_outlines _)) | (intros; contradiction)
  | .block ss _ | .several ss => by
    rw [visit, outline]
    exact .before (visitAll_outlines ss) fun _ => .pure _
  | .declaration name _ _ => by
    rw [visit, outline] <;> first | exact .after (.declare name) fun _ => .pure _ | (intros; contradiction)
  | .assignment target value _ => by
    have hv := Outlines.operand value (visit_outlines value)
    cases target with
    | text name =>
      rw [visit, outline] <;> first
        | exact .before hv fun r => .after (.assign name r) fun _ => .pure _
        | (intros; contradiction)
    | element base index _ =>
      rw [visit, outline]
      exact .bind hv fun r => .after (.place base) fun b => .before (.operand index (visit_outlines index)) fun _ =>
        .after (.emit _) fun _ => .pure _
    | _ =>
      rw [visit, outline] <;> first | exact .before hv fun r => .pure _ | (intros; contradiction)
  | .call name args _ => by
    rw [visit, outline]
    cases Builtin.ofName? name with
    | none =>
      intro s r s' h
      obtain ⟨rs, s₁, h₁, h₂⟩ := ran_bind.1 h
      rw [callFunction_outlines _ _ _ _ _ h₂, visitArguments_outlines args _ _ _ h₁, visitArguments_length h₁,
        List.append_assoc]
    | some f =>
      cases f with
      | scan => exact .after .allocate fun _ => .after (.emit _) fun _ => .pure _
      | print =>
        refine .before (visitFirst_outlines args) fun
          | some r => .after (.emit _) fun _ => .pure _
          | none => .after .allocate fun _ => .after (.emit _) fun _ => .after (.emit _) fun _ => .pure _
      | list =>
        refine .before (visitFirst_outlines args) fun
          | some r => .after .allocate fun _ => .after (.emit _) fun _ => .pure _
          | none => .after .allocate fun _ => .after .allocate fun _ => .after (.emit _) fun _ => .after (.emit _)
            fun _ => .pure _
      | length =>
        refine .before (visitFirst_outlines args) fun
          | some r => .after .allocate fun _ => .after (.emit _) fun _ => .pure _
          | none => .pure _
  | .element base index _ => by
    rw [visit, outline]
    exact .after (.place base) fun _ => .before (.operand index (visit_outlines index)) fun _ => .after .allocate fun _ =>
      .after (.emit _) fun _ => .pure _
  | .ret value _ => by
    rw [visit, outline]
    refine .before (.returned value (visit_outlines value) outline_of_isEmpty) fun
      | some _ => .after (.emit _) fun _ => .after (.emit _) fun _ => .pure _
      | none => .after (.emit _) fun _ => .after (.emit _) fun _ => .pure _
  | .branch condition yes no _ => by
    rw [visit, outline, List.append_assoc]
    exact .bind (.operand _ (visit_outlines condition)) fun _ => .after (.freshLabel _) fun _ => .after (.freshLabel _)
      fun _ => .after (.emit _) fun _ => .bind (visit_outlines yes) fun _ => .after (.emit _) fun _ => .after (.emit _)
      fun _ => .before (visit_outlines no) fun _ => .after (.emit _) fun _ => .pure _
  | .whileLoop condition body _ => by
    rw [visit, outline]
    exact .after (.freshLabel _) fun _ => .after (.freshLabel _) fun _ => .after (.emit _) fun _ =>
      .bind (.operand _ (visit_outlines condition)) fun _ => .after (.emit _) fun _ => .before (visit_outlines body)
      fun _ => .after (.emit _) fun _ => .after (.emit _) fun _ => .pure _
  | .doLoop body condition _ => by
    have hb : Outlines (doBody body (visit body)) (outline body) := by
      unfold doBody
      split
      · rw [outline] <;> first | exact .after (.warn _) fun _ => .pure _ | (intros; contradiction)
      · exact visit_outlines body
    rw [visit, outline]
    exact .after (.freshLabel _) fun _ => .after (.emit _) fun _ => .bind hb fun _ =>
      .before (.operand _ (visit_outlines condition)) fun _ => .after (.emit _) fun _ => .pure _
  | .forLoop var start stop body _ => by
    rw [visit, outline, List.append_assoc]
    exact .bind (.operand _ (visit_outlines start)) fun _ => .bind (.operand _ (visit_outlines stop)) fun _ =>
      .after (.ownPlace var) fun _ => .after (.emit _) fun _ => .after (.freshLabel _) fun _ => .after (.freshLabel _)
      fun _ => .after (.emit _) fun _ => .after .allocate fun _ => .after (.emit _) fun _ => .after (.emit _) fun _ =>
      .before (visit_outlines body) fun _ => .after .allocate fun _ => .after (.emit _) fun _ => .after (.emit _)
      fun _ => .after (.emit _) fun _ => .after (.emit _) fun _ => .pure _
  | .identifier name _ => by
    rw [visit, outline] <;> first
      | exact .after (.place? name) fun
          | some _ => .pure _
          | none => .after .allocate fun _ => .pure _
      | (intros; contradiction)
  | .number _ _ | .boolean _ _ => by
    rw [visit, outline] <;> first
      | exact .after .allocate fun _ => .after (.emit _) fun _ => .pure _
      | (intros; contradiction)
  | .ternary condition yes no _ => by
    rw [visit, outline, List.append_assoc]
    exact .bind (.operand _ (visit_outlines condition)) fun _ => .after (.freshLabel _) fun _ => .after (.freshLabel _)
      fun _ => .after .allocate fun _ => .after (.emit _) fun _ => .bind (.operand _ (visit_outlines yes)) fun _ =>
      .after (.emit _) fun _ => .after (.emit _) fun _ => .after (.emit _) fun _ =>
      .before (.operand _ (visit_outlines no)) fun _ => .after (.emit _) fun _ => .after (.emit _) fun _ => .pure _
  | .binary left _ right _ => by
    rw [visit, outline]
    exact .bind (.operand _ (visit_outlines left)) fun _ => .before (.operand _ (visit_outlines right)) fun _ =>
      .after .allocate fun _ => .after (.emit _) fun _ => .pure _
  | .unary _ n _ | .listOf n _ => by
    rw [visit, outline]
    exact .after (.warn _) fun _ => outlines_ifCode (visit_outlines n)
  | .array es _ => by
    rw [visit, outline]
    exact .after (.warn _) fun _ => .before (visitAll_outlines es) fun _ => .pure _
  | .nothing => by
    rw [visit, outline] <;> first | exact .pure _ | (intros; contradiction)
  | .parameter .. | .string .. | .bare | .text _ | .integer _ => by
    rw [visit, outline] <;> first | exact .after (.warn _) fun _ => .pure _ | (intros; contradiction)

theorem visitFirst_outlines : ∀ (ns : List Node), Outlines (visitFirst ns) (outlineFirst ns)
  | [] => by
    rw [visitFirst, outlineFirst]
    exact .pure _
  | n :: _ => by
    rw [visitFirst, outlineFirst]
    exact .before (.operand n (visit_outlines n)) fun _ => .pure _

theorem visitArguments_outlines : ∀ (ns : List Node), Outlines (visitArguments ns) (outlineAll ns)
  | [] => by
    rw [visitArguments, outlineAll]
    exact .pure _
  | n :: ns => by
    rw [visitArguments, outlineAll]
    exact .bind (.operand n (visit_outlines n)) fun _ => .before (visitArguments_outlines ns) fun _ => .pure _

theorem visitAll_outlines : ∀ (ns : List Node), Outlines (visitAll ns) (outlineAll ns)
  | [] => by
    rw [visitAll, outlineAll]
    exact .pure _
  | n :: ns => by
    rw [visitAll, outlineAll]
    exact .bind (.operand n (visit_outlines n)) fun _ => visitAll_outlines ns

theorem visitOwn_outlines : ∀ (ns : List Node), Outlines (visitOwn ns) (outlineOwn ns)
  | [] => by
    rw [visitOwn, outlineOwn]
    exact .pure _
  | n :: ns => by
    rw [visitOwn, outlineOwn]
    cases n.isFunction with
    | true => exact visitOwn_outlines ns
    | false => exact .bind (.discard (.operand n (visit_outlines n))) fun _ => visitOwn_outlines ns

theorem visitProgram_outlines : ∀ (fs : List Node), Outlines (visitProgram fs) (outlineProgram fs)
  | [] => by
    rw [visitProgram, outlineProgram]
    exact .pure _
  | f :: fs => by
    rw [visitProgram, outlineProgram, List.append_assoc]
    exact .bind (visit_outlines f) fun _ => .bind (visitNestedIn_outlines f) fun _ => visitProgram_outlines fs

theorem visitNestedIn_outlines : ∀ (n : Node), Outlines (visitNestedIn n) (outlineNestedIn n)
  | .function _ _ _ body _ | .forLoop _ _ _ body _ | .whileLoop _ body _ | .doLoop body _ _ => by
    rw [visitNestedIn, outlineNestedIn]
    cases body.isFunction with
    | true => exact .bind (.discard (visit_outlines body)) fun _ => visitNestedUnder_outlines body
    | false => exact visitNestedUnder_outlines body
  | .program _ | .parameter .. | .declaration .. | .assignment .. | .call .. | .ret .. | .branch .. | .block .. |
    .binary .. | .unary .. | .identifier .. | .number .. | .string .. | .boolean .. | .ternary .. | .element .. |
    .array .. | .listOf .. | .bare | .nothing | .text _ | .integer _ | .several _ => by
    rw [visitNestedIn, outlineNestedIn]
    · exact .pure _
    all_goals (intros; contradiction)

theorem visitNestedUnder_outlines : ∀ (n : Node), Outlines (visitNestedUnder n) (outlineNestedUnder n)
  | .several ns | .block ns _ => by
    rw [visitNestedUnder, outlineNestedUnder]
    exact visitNested_outlines ns
  | .function _ _ _ body _ => by
    rw [visitNestedUnder, outlineNestedUnder]
    cases body.isFunction with
    | true => exact .bind (.discard (visit_outlines body)) fun _ => visitNestedUnder_outlines body
    | false => exact visitNestedUnder_outlines body
  | .program _ | .parameter .. | .declaration .. | .assignment .. | .call .. | .ret .. | .branch .. | .forLoop .. |
    .whileLoop .. | .doLoop .. | .binary .. | .unary .. | .identifier .. | .number .. | .string .. | .boolean .. |
    .ternary .. | .element .. | .array .. | .listOf .. | .bare | .nothing | .text _ | .integer _ => by
    rw [visitNestedUnder, outlineNestedUnder]
    · exact .pure _
    all_goals (intros; contradiction)

theorem visitNested_outlines : ∀ (ns : List Node), Outlines (visitNested ns) (outlineNested ns)
  | [] => by
    rw [visitNested, outlineNested]
    exact .pure _
  | n :: ns => by
    rw [visitNested, outlineNested]
    cases n.isFunction with
    | true =>
      show Outlines _ (outline n ++ outlineNestedIn n ++ outlineNested ns)
      rw [List.append_assoc]
      exact .bind (visit_outlines n) fun _ => .bind (visitNestedIn_outlines n) fun _ => visitNested_outlines ns
    | false => exact visitNested_outlines ns

end

end Gen
end TesLang.Code
