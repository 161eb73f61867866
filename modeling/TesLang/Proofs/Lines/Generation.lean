import TesLang.Proofs.Generation.Step
import TesLang.Proofs.Lines.Reading
/-!
# Generating code looks at no line

No line of a tree is read while its code is generated, not even to be put anywhere.  So trees that differ in their lines
have the same code, take the same registers and labels, and end with the same fault if they do (`visit_mapLine`).
-/
namespace TesLang.Code.Gen

variable (ρ : Renumbering)

/-! ### What is asked about a node -/

theorem isEmpty_mapLine (n : Node) : (n.mapLine ρ).isEmpty = n.isEmpty := by
  cases n <;> simp [Node.mapLine, Node.isEmpty]

theorem hasCode_mapLine (n : Node) : hasCode (n.mapLine ρ) = hasCode n := by
  cases n <;> simp [Node.mapLine, hasCode]

theorem hasBody_mapLine (n : Node) : hasBody (n.mapLine ρ) = hasBody n := by
  cases n <;> simp [Node.mapLine, hasBody]

theorem operand_mapLine (n : Node) (code : Gen (Option Reg)) : operand (n.mapLine ρ) code = operand n code := by
  cases n <;> simp [Node.mapLine, operand, Node.kind]

theorem returned_mapLine (n : Node) (code : Gen (Option Reg)) : returned (n.mapLine ρ) code = returned n code := by
  unfold returned
  rw [isEmpty_mapLine, operand_mapLine]

theorem doBody_mapLine (n : Node) (code : Gen (Option Reg)) : doBody (n.mapLine ρ) code = doBody n code := by
  cases n <;> simp [Node.mapLine, doBody]

theorem placeParams_mapLine : ∀ (i : Nat) (ps : List Node), placeParams i (ps.map (Node.mapLine ρ)) = placeParams i ps
  | _, [] => rfl
  | i, p :: ps => by
    rw [List.map_cons, placeParams, placeParams, Node.name?_mapLine, Node.kind_mapLine, placeParams_mapLine (i + 1) ps]

theorem placeParameters_mapLine (params : Node) : placeParameters (params.mapLine ρ) = placeParameters params := by
  unfold placeParameters
  rw [isEmpty_mapLine]
  cases params with
  | several ps => simp [Node.mapLine, placeParams_mapLine]
  | _ => rw [Node.mapLine] <;> rfl

theorem procedure_mapLine (name : String) (params : Node) (returnType : String) (code : Gen Unit) :
    procedure name (params.mapLine ρ) returnType code = procedure name params returnType code := by
  unfold procedure openProc
  rw [placeParameters_mapLine]

theorem requireBodies_mapLine (fs : List Node) : requireBodies (fs.map (Node.mapLine ρ)) = requireBodies fs := by
  unfold requireBodies
  rw [List.find?_map]
  have same : ((!hasBody ·) ∘ Node.mapLine ρ) = (!hasBody ·) := by
    funext n
    rw [Function.comp_apply, hasBody_mapLine]
  rw [same]
  cases fs.find? (!hasBody ·) with
  | none => rfl
  | some n =>
    dsimp only [Option.map_some]
    rw [Node.kind_mapLine]

/-! ### Nodes -/

mutual

/-- **The code of a node does not depend on its lines.** -/
theorem visit_mapLine : ∀ n : Node, visit (n.mapLine ρ) = visit n
  | .program fs => by
    rw [Node.mapLine, visit, visit, Node.mapLines_eq_map, requireBodies_mapLine, visitProgram_mapLine fs]
  | .function name params returnType body line => by
    rw [Node.mapLine, visit_procedure, visit_procedure, procedure_mapLine]
    have code := visit_mapLine body
    cases body with
    | several ns => rw [Node.mapLine, bodyCode, bodyCode, Node.mapLines_eq_map, visitOwn_mapLine ns]
    | block ns l => rw [Node.mapLine, bodyCode, bodyCode, Node.mapLines_eq_map, visitOwn_mapLine ns]
    | function => rw [Node.mapLine, bodyCode, bodyCode]
    | bare | nothing | text _ | integer _ => rw [Node.mapLine]
    | _ =>
      rw [Node.mapLine] at code ⊢
      exact congrArg (fun c => procedure name params returnType (discard c)) code
  | .block ss _ => by
    rw [Node.mapLine, visit, visit, Node.mapLines_eq_map, visitAll_mapLine ss]
  | .declaration .. => by
    rw [Node.mapLine, visit, visit]
  | .assignment target value _ => by
    cases target with
    | text name =>
      rw [Node.mapLine, Node.mapLine, visit, visit, operand_mapLine, visit_mapLine value]
    | element base index l =>
      rw [Node.mapLine, Node.mapLine, visit, visit, operand_mapLine, operand_mapLine, visit_mapLine value,
        visit_mapLine index]
    | _ =>
      simp [Node.mapLine, visit, operand_mapLine, visit_mapLine value]
  | .call name args _ => by
    rw [Node.mapLine, visit, visit, Node.mapLines_eq_map, visitFirst_mapLine args, visitArguments_mapLine args]
  | .element base index _ => by
    rw [Node.mapLine, visit, visit, operand_mapLine, visit_mapLine index]
  | .ret value _ => by
    rw [Node.mapLine, visit, visit, returned_mapLine, visit_mapLine value]
  | .branch condition yes no _ => by
    rw [Node.mapLine, visit, visit, operand_mapLine, visit_mapLine condition, visit_mapLine yes, visit_mapLine no]
  | .whileLoop condition body _ => by
    rw [Node.mapLine, visit, visit, operand_mapLine, visit_mapLine condition, visit_mapLine body]
  | .doLoop body condition _ => by
    rw [Node.mapLine, visit, visit, operand_mapLine, doBody_mapLine, visit_mapLine condition, visit_mapLine body]
  | .forLoop var start stop body _ => by
    rw [Node.mapLine, visit, visit, operand_mapLine, operand_mapLine, visit_mapLine start, visit_mapLine stop,
      visit_mapLine body]
  | .ternary condition yes no _ => by
    rw [Node.mapLine, visit, visit, operand_mapLine, operand_mapLine, operand_mapLine, visit_mapLine condition,
      visit_mapLine yes, visit_mapLine no]
  | .binary left _ right _ => by
    rw [Node.mapLine, visit, visit, operand_mapLine, operand_mapLine, visit_mapLine left, visit_mapLine right]
  | .unary _ n _ => by
    rw [Node.mapLine, visit, visit, hasCode_mapLine, visit_mapLine n]
    rfl
  | .listOf n _ => by
    rw [Node.mapLine, visit, visit, hasCode_mapLine, visit_mapLine n]
    rfl
  | .array es _ => by
    rw [Node.mapLine, visit, visit, Node.mapLines_eq_map, visitAll_mapLine es]
    rfl
  | .several ns => by
    rw [Node.mapLine, visit, visit, Node.mapLines_eq_map, visitAll_mapLine ns]
  | .identifier .. | .number .. | .boolean .. => by
    rw [Node.mapLine, visit, visit]
  | .parameter .. | .string .. => by
    rw [Node.mapLine, visit, visit]
    rfl
  | .bare | .nothing | .text _ | .integer _ => by
    rw [Node.mapLine]

theorem visitFirst_mapLine : ∀ ns : List Node, visitFirst (ns.map (Node.mapLine ρ)) = visitFirst ns
  | [] => by rw [List.map_nil]
  | n :: ns => by rw [List.map_cons, visitFirst, visitFirst, operand_mapLine, visit_mapLine n]

theorem visitArguments_mapLine : ∀ ns : List Node, visitArguments (ns.map (Node.mapLine ρ)) = visitArguments ns
  | [] => by rw [List.map_nil]
  | n :: ns => by
    rw [List.map_cons, visitArguments, visitArguments, operand_mapLine, visit_mapLine n, visitArguments_mapLine ns]

theorem visitAll_mapLine : ∀ ns : List Node, visitAll (ns.map (Node.mapLine ρ)) = visitAll ns
  | [] => by rw [List.map_nil]
  | n :: ns => by rw [List.map_cons, visitAll, visitAll, operand_mapLine, visit_mapLine n, visitAll_mapLine ns]

theorem visitOwn_mapLine : ∀ ns : List Node, visitOwn (ns.map (Node.mapLine ρ)) = visitOwn ns
  | [] => by rw [List.map_nil]
  | n :: ns => by
    rw [List.map_cons, visitOwn, visitOwn, Node.isFunction_mapLine, operand_mapLine, visit_mapLine n, visitOwn_mapLine ns]

theorem visitProgram_mapLine : ∀ fs : List Node, visitProgram (fs.map (Node.mapLine ρ)) = visitProgram fs
  | [] => by rw [List.map_nil]
  | f :: fs => by
    rw [List.map_cons, visitProgram, visitProgram, visit_mapLine f, visitNestedIn_mapLine f, visitProgram_mapLine fs]

theorem visitNestedIn_mapLine : ∀ n : Node, visitNestedIn (n.mapLine ρ) = visitNestedIn n
  | .function _ _ _ body _ | .forLoop _ _ _ body _ | .whileLoop _ body _ | .doLoop body _ _ => by
    rw [Node.mapLine, visitNestedIn, visitNestedIn, Node.isFunction_mapLine, visit_mapLine body,
      visitNestedUnder_mapLine body]
  | .program _ | .parameter .. | .declaration .. | .assignment .. | .call .. | .ret .. | .branch .. | .block .. | .binary ..
  | .unary .. | .identifier .. | .number .. | .string .. | .boolean .. | .ternary .. | .element .. | .array .. | .listOf ..
  | .bare | .nothing | .text _ | .integer _ | .several _ => by
    simp [Node.mapLine, visitNestedIn]

theorem visitNestedUnder_mapLine : ∀ n : Node, visitNestedUnder (n.mapLine ρ) = visitNestedUnder n
  | .several ns => by
    rw [Node.mapLine, visitNestedUnder, visitNestedUnder, Node.mapLines_eq_map, visitNested_mapLine ns]
  | .block ns _ => by
    rw [Node.mapLine, visitNestedUnder, visitNestedUnder, Node.mapLines_eq_map, visitNested_mapLine ns]
  | .function _ _ _ body _ => by
    rw [Node.mapLine, visitNestedUnder, visitNestedUnder, Node.isFunction_mapLine, visit_mapLine body,
      visitNestedUnder_mapLine body]
  | .program _ | .parameter .. | .declaration .. | .assignment .. | .call .. | .ret .. | .branch .. | .forLoop ..
  | .whileLoop .. | .doLoop .. | .binary .. | .unary .. | .identifier .. | .number .. | .string .. | .boolean ..
  | .ternary .. | .element .. | .array .. | .listOf .. | .bare | .nothing | .text _ | .integer _ => by
    simp [Node.mapLine, visitNestedUnder]

theorem visitNested_mapLine : ∀ ns : List Node, visitNested (ns.map (Node.mapLine ρ)) = visitNested ns
  | [] => by rw [List.map_nil]
  | n :: ns => by
    rw [List.map_cons, visitNested, visitNested, Node.isFunction_mapLine, visit_mapLine n, visitNestedIn_mapLine n,
      visitNested_mapLine ns]

end

end TesLang.Code.Gen
