import Mathlib.Logic.Function.Basic
import TesLang.Proofs.Generation.Outline
/-!
# What calls stand for

Code knows functions by their names only.  The tree knows more: a call stands for what its name is bound to where the
call stands, be it a variable or one of several functions with that name.

`links` walks the statements of a tree in the order in which the checker does, with what names stand for (`Names`), and
gives the outline of their code with two things added: where each head comes from, and what each call stands for.
Forgetting these again leaves the outline (`links_entries`).

Functions bind names as follows.  The functions of a program are bound first, and of two with the same name the first
counts.  A function binds its parameters, and then the functions directly in its body, of which the last counts.  A
declaration binds its variable from there on, and so does a loop if its variable is not bound yet.
-/
namespace TesLang.Code

open Grammar

/-- A function of the tree: where it stands, its name, and the number of its parameters. -/
structure Definition where
  place : List Nat
  name : String
  arity : Nat
  deriving DecidableEq, Repr

/-- What a name stands for. -/
inductive Target where
  | variable
  | function (d : Definition)
  deriving DecidableEq, Repr

/-- What all names stand for at a place. -/
abbrev Names := String → Option Target

/-- An entry of an outline, with what the tree says about it. -/
inductive Link where
  | head (d : Definition)
  | call (name : String) (arity : Nat) (target : Option Target)
  deriving DecidableEq, Repr

def Link.entry : Link → Entry
  | head d => .head d.name
  | call name arity _ => .call name arity

/-- The calls of an outline, with what they stand for. -/
def resolve (names : Names) (es : List Entry) : List Link :=
  es.filterMap fun
    | .head _ => none
    | .call name arity => some (.call name arity (names name))

/-- The function that a node is. -/
def definitionAt (place : List Nat) : Node → Option Definition
  | .function name params _ _ _ => some ⟨place, name, params.statements.length⟩
  | _ => none

namespace Names

def bind (names : Names) (x : String) (t : Target) : Names := Function.update names x (some t)

/-- Binds a name unless it is bound. -/
def bindNew (names : Names) (x : String) (t : Target) : Names := if (names x).isSome then names else names.bind x t

/-- Binds the parameters of a function. -/
def parameters (names : Names) : List Node → Names
  | [] => names
  | .parameter x _ _ :: ps => (names.bind x .variable).parameters ps
  | _ :: ps => names.parameters ps

/-- Binds the functions among the statements in the body of a function; of two with the same name the last counts. -/
def nested (place : List Nat) : (i : Nat) → Names → List Node → Names
  | _, names, [] => names
  | i, names, n :: ns =>
    match definitionAt (i :: place) n with
    | some d => nested place (i + 1) (names.bind d.name (.function d)) ns
    | none => nested place (i + 1) names ns

/-- What names stand for in a function. -/
def inside (place : List Nat) (names : Names) (params : Node) (body : List Node) : Names :=
  nested place 0 (names.parameters params.statements) body

/-- Binds the functions of a program; of two with the same name the first counts. -/
def functions : (i : Nat) → Names → List Node → Names
  | _, names, [] => names
  | i, names, f :: fs =>
    match definitionAt [i] f with
    | some d => functions (i + 1) (names.bindNew d.name (.function d)) fs
    | none => functions (i + 1) names fs

end Names

mutual

/-- The links of the code of a statement at a place, and what names stand for behind it. -/
def links (place : List Nat) : (names : Names) → Node → List Link × Names
  | names, .declaration x _ _ => ([], names.bind x .variable)
  | names, .branch condition yes no _ =>
    let a := links (0 :: place) names yes
    let b := links (1 :: place) a.2 no
    (resolve names (outline condition) ++ a.1 ++ b.1, b.2)
  | names, .whileLoop condition body _ =>
    let b := links (0 :: place) names body
    (resolve names (outline condition) ++ b.1, b.2)
  | names, .doLoop body condition _ =>
    let b := links (0 :: place) names body
    (b.1 ++ resolve b.2 (outline condition), b.2)
  | names, .forLoop x start stop body _ =>
    let range := names.bindNew x .variable
    let b := links (0 :: place) range body
    (resolve range (outline start ++ outline stop) ++ b.1, b.2)
  | names, .block ss _ => linksAll place 0 names ss
  | names, .several ss => linksAll place 0 names ss
  | names, .function name params _ (.several ss) _ =>
    (.head ⟨place, name, params.statements.length⟩ :: linksOwn place 0 (names.inside place params ss) ss, names)
  | names, .function name params _ body _ =>
    (.head ⟨place, name, params.statements.length⟩ :: resolve names (outline body), names)
  | names, n => (resolve names (outline n), names)

def linksAll (place : List Nat) : (i : Nat) → (names : Names) → List Node → List Link × Names
  | _, names, [] => ([], names)
  | i, names, s :: ss =>
    let a := links (i :: place) names s
    let b := linksAll place (i + 1) a.2 ss
    (a.1 ++ b.1, b.2)

/-- The links of the statements in the body of a function, without the functions among them. -/
def linksOwn (place : List Nat) : (i : Nat) → (names : Names) → List Node → List Link
  | _, _, [] => []
  | i, names, s :: ss =>
    let a := links (i :: place) names s
    (if s.isFunction then [] else a.1) ++ linksOwn place (i + 1) a.2 ss

/-- The links of the functions among some statements, each followed by those in it. -/
def linksNested (place : List Nat) : (i : Nat) → (names : Names) → List Node → List Link
  | _, _, [] => []
  | i, names, s :: ss =>
    let a := links (i :: place) names s
    (if s.isFunction then a.1 ++ linksUnder (i :: place) names s else []) ++ linksNested place (i + 1) a.2 ss

/-- The links of the functions directly in a function, and of those in them. -/
def linksUnder (place : List Nat) : (names : Names) → Node → List Link
  | names, .function _ params _ (.several ss) _ => linksNested place 0 (names.inside place params ss) ss
  | _, _ => []

end

/-- The links of some functions of a program. -/
def linksFrom : (i : Nat) → (names : Names) → List Node → List Link
  | _, _, [] => []
  | i, names, f :: fs => (links [i] names f).1 ++ linksUnder [i] names f ++ linksFrom (i + 1) names fs

/-- **The links of a program.** -/
def linksOf (fs : List Node) : List Link := linksFrom 0 (.functions 0 (fun _ => none) fs) fs

/-! ### Links and the outline -/

theorem resolve_entries {names : Names} {es : List Entry} (h : headsOf es = []) :
    (resolve names es).map Link.entry = es := by
  induction es with
  | nil => rfl
  | cons e es ih =>
    cases e with
    | head name => cases h
    | call name arity => exact congrArg (_ :: ·) (ih h)

theorem resolve_append {names : Names} {a b : List Entry} : resolve names (a ++ b) = resolve names a ++ resolve names b :=
  List.filterMap_append

theorem ofSingle_expression {right : String → Bool} {e : Node} (h : isExpression right e = true) {es : List Entry} :
    ofSingle e es = es := by
  cases e <;> first | rfl | cases h

theorem ofSingle_statement {s : Node} (hs : isSeveral s = false) (h : isStatement s = true) {es : List Entry} :
    ofSingle s es = es := by
  cases s <;> first | rfl | cases h | cases hs

theorem headsOf_expression {right : String → Bool} {e : Node} (h : isExpression right e = true) :
    headsOf (outline e) = [] := headsOf_plain (plain_of_isExpression h)

theorem resolve_expression {names : Names} {right : String → Bool} {e : Node} (h : isExpression right e = true) :
    (resolve names (outline e)).map Link.entry = outline e := resolve_entries (headsOf_expression h)

theorem plain_assignment {target value : Node} {line : Int} (h : isStatement (.assignment target value line) = true) :
    plain (.assignment target value line) = true := by
  obtain ⟨hv, ⟨x, rfl, -⟩ | ⟨x, index, k, rfl, -, hi⟩⟩ := isStatement_assignment.1 h
  · simp only [plain, plain_of_isExpression hv, Bool.and_self]
  · simp only [plain, plain_of_isExpression hv, plain_of_isExpression hi, Bool.and_self]

theorem plain_call {f : String} {args : List Node} {line : Int} (h : isStatement (.call f args line) = true) :
    plain (.call f args line) = true := by
  simp only [isStatement, Bool.and_eq_true] at h
  simp only [plain, plainAll_of_areExpressions h.2]

theorem plain_ret {value : Node} {line : Int} (h : isStatement (.ret value line) = true) :
    plain (.ret value line) = true := by
  rcases isStatement_ret.1 h with rfl | hv
  · rfl
  · simp only [plain, plain_of_isExpression hv]

mutual

/-- **Links without what the tree says are the outline.** -/
theorem links_entries : ∀ {n : Node}, isStatement n = true → ∀ {place : List Nat} {names : Names},
    (links place names n).1.map Link.entry = outline n
  | .declaration .., _, _, _ => by
    rw [links, outline]
    · rfl
    all_goals
      intros
      contradiction
  | .branch condition yes no _, h, place, names => by
    obtain ⟨hc, hy, hn⟩ := isStatement_branch.1 h
    rw [links, outline, ofSingle_expression hc, List.map_append, List.map_append, resolve_expression hc, links_entries hy]
    refine congrArg (_ ++ _ ++ ·) ?_
    rcases hn with rfl | hn
    · rw [links, outline] <;> first | rfl | (intros; contradiction)
    · exact links_entries hn
  | .whileLoop condition body _, h, place, names => by
    simp only [isStatement, Bool.and_eq_true] at h
    rw [links, outline, ofSingle_expression h.1, List.map_append, resolve_expression h.1, links_entries h.2]
  | .doLoop body condition _, h, place, names => by
    simp only [isStatement, Bool.and_eq_true] at h
    rw [links, outline, ofSingle_expression h.2, List.map_append, resolve_expression h.2, links_entries h.1]
  | .block ss _, h, place, names => by
    simp only [isStatement] at h
    rw [links, outline, linksAll_entries h]
  | .several ss, h, place, names => by
    simp only [isStatement] at h
    rw [links, outline, linksAll_entries h]
  | .assignment .., h, place, names => by
    rw [links] <;> first | exact resolve_entries (headsOf_plain (plain_assignment h)) | (intros; contradiction)
  | .call .., h, place, names => by
    rw [links] <;> first | exact resolve_entries (headsOf_plain (plain_call h)) | (intros; contradiction)
  | .ret .., h, place, names => by
    rw [links] <;> first | exact resolve_entries (headsOf_plain (plain_ret h)) | (intros; contradiction)
  | .forLoop x start stop body _, h, place, names => by
    obtain ⟨-, ha, hz, ss, rfl, hss⟩ := isStatement_forLoop.1 h
    rw [links, outline, ofSingle_expression ha, ofSingle_expression hz, List.map_append, resolve_append, List.map_append,
      resolve_expression ha, resolve_expression hz, links, linksAll_entries hss, outline]
  | .function f params returnType body _, h, place, names => by
    obtain ⟨-, ⟨ps, ss, rfl, rfl, -, hss⟩ | ⟨rfl, he⟩⟩ := isStatement_function.1 h
    · rw [links, outline, List.map_cons, linksOwn_entries hss]
      rfl
    · rw [links, outline]
      · exact congrArg (_ :: ·) (resolve_expression he)
      all_goals
        intros
        rename_i hb
        rw [hb] at he
        cases he
termination_by n => sizeOf n
decreasing_by all_goals (subst_vars; simp +arith)

theorem linksAll_entries : ∀ {ns : List Node}, areStatements ns = true → ∀ {place : List Nat} {i : Nat} {names : Names},
    (linksAll place i names ns).1.map Link.entry = outlineAll ns
  | [], _, _, _, _ => by rw [linksAll, outlineAll]; rfl
  | s :: ss, h, place, i, names => by
    simp only [areStatements, Bool.and_eq_true, Bool.not_eq_true'] at h
    rw [linksAll, outlineAll, ofSingle_statement h.1.1 h.1.2, List.map_append, links_entries h.1.2, linksAll_entries h.2]
termination_by ns => sizeOf ns
decreasing_by all_goals simp +arith

theorem linksOwn_entries : ∀ {ns : List Node}, areStatements ns = true → ∀ {place : List Nat} {i : Nat} {names : Names},
    (linksOwn place i names ns).map Link.entry = outlineOwn ns
  | [], _, _, _, _ => by rw [linksOwn, outlineOwn]; rfl
  | s :: ss, h, place, i, names => by
    simp only [areStatements, Bool.and_eq_true, Bool.not_eq_true'] at h
    rw [linksOwn, outlineOwn, ofSingle_statement h.1.1 h.1.2, List.map_append, linksOwn_entries h.2]
    cases s.isFunction with
    | true => rfl
    | false => exact congrArg (· ++ _) (links_entries h.1.2)
termination_by ns => sizeOf ns
decreasing_by all_goals simp +arith

end

theorem outlineNestedIn_expression {f returnType : String} {params e : Node} {line : Int}
    (h : isExpression isWord e = true) : outlineNestedIn (.function f params returnType e line) = [] := by
  cases e with
  | several _ | block _ _ | function _ _ _ _ _ => simp [isExpression] at h
  | _ => rw [outlineNestedIn, outlineNestedUnder] <;> first | rfl | (intros; contradiction)

mutual

theorem linksNested_entries : ∀ {ns : List Node}, areStatements ns = true →
    ∀ {place : List Nat} {i : Nat} {names : Names}, (linksNested place i names ns).map Link.entry = outlineNested ns
  | [], _, _, _, _ => by rw [linksNested, outlineNested]; rfl
  | s :: ss, h, place, i, names => by
    simp only [areStatements, Bool.and_eq_true, Bool.not_eq_true'] at h
    rw [linksNested, outlineNested, List.map_append, linksNested_entries h.2]
    cases hf : s.isFunction with
    | true =>
      refine congrArg (· ++ _) ?_
      rw [if_pos rfl, if_pos rfl, List.map_append, links_entries h.1.2, linksUnder_entries h.1.2 hf]
    | false => rfl
termination_by ns => sizeOf ns
decreasing_by all_goals simp +arith

theorem linksUnder_entries : ∀ {n : Node}, isStatement n = true → n.isFunction = true →
    ∀ {place : List Nat} {names : Names}, (linksUnder place names n).map Link.entry = outlineNestedIn n
  | .function f params returnType body _, h, _, place, names => by
    obtain ⟨-, ⟨ps, ss, rfl, rfl, -, hss⟩ | ⟨rfl, he⟩⟩ := isStatement_function.1 h
    · rw [linksUnder, linksNested_entries hss, outlineNestedIn, outlineNestedUnder]
      rfl
    · rw [outlineNestedIn_expression he, linksUnder]
      · rfl
      · intros
        rename_i hb
        cases hb
        cases he
termination_by n => sizeOf n
decreasing_by all_goals (subst_vars; simp +arith)

end

theorem linksFrom_entries {i : Nat} {names : Names} : ∀ {fs : List Node}, areFunctions fs = true →
    (linksFrom i names fs).map Link.entry = outlineProgram fs := by
  intro fs
  induction fs generalizing i with
  | nil =>
    intro _
    rw [outlineProgram]
    rfl
  | cons f fs ih =>
    intro h
    simp only [areFunctions, List.all_cons, Bool.and_eq_true] at h
    rw [outlineProgram, linksFrom, List.map_append, List.map_append, links_entries h.1.2, linksUnder_entries h.1.2 h.1.1,
      ih h.2]

/-- **The links of a program, without what the tree says, are the outline of its code.** -/
theorem linksOf_entries {fs : List Node} (h : areFunctions fs = true) : (linksOf fs).map Link.entry = outline (.program fs) := by
  rw [outline]
  exact linksFrom_entries h

end TesLang.Code
