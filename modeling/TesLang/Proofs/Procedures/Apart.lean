import TesLang.Proofs.Linking.Links
import TesLang.Proofs.Procedures.Blocks
import TesLang.Proofs.Written.Program
/-!
# Procedures that stand apart

The procedures of a program stand apart (`StandApart`) if each function has one, made of the code that the function has without
the functions in it, and no procedure jumps into another.  They do exactly if functions stand only among the functions of
the program and directly in the bodies of others (`apart_iff`).

A function deeper inside a statement is not taken out of it.  Its head then cuts the procedure around it in two: the first
half is left without an end, and the second half belongs to the procedure inside.  A function directly in the body of such a
function has no procedure at all.
-/
namespace TesLang.Code

open Grammar

mutual

/-- The functions in a statement, each before those in it. -/
def functionsIn : Node → List Node
  | .function name params returnType body line => .function name params returnType body line :: functionsIn body
  | .branch _ yes no _ => functionsIn yes ++ functionsIn no
  | .forLoop _ _ _ body _ | .whileLoop _ body _ | .doLoop body _ _ => functionsIn body
  | .block ss _ | .several ss => functionsAmong ss
  | _ => []

def functionsAmong : List Node → List Node
  | [] => []
  | n :: ns => functionsIn n ++ functionsAmong ns

end

mutual

/-- A statement without the functions in it. -/
def bared : Node → Node
  | .function .. => .nothing
  | .branch condition yes no line => .branch condition (bared yes) (bared no) line
  | .forLoop var start stop body line => .forLoop var start stop (bared body) line
  | .whileLoop condition body line => .whileLoop condition (bared body) line
  | .doLoop body condition line => .doLoop (bared body) condition line
  | .block ss line => .block (baredAll ss) line
  | .several ss => .several (baredAll ss)
  | n => n

def baredAll : List Node → List Node
  | [] => []
  | n :: ns => if n.isFunction then baredAll ns else bared n :: baredAll ns

end

/-- A function without the functions in it. -/
def alone : Node → Node
  | .function name params returnType body line => .function name params returnType (bared body) line
  | n => n

/-- **Every function has one procedure of its own**: the code of the function without the functions in it, which jumps only
to labels that it defines. -/
def StandApart (fs : List Node) (lines : List Line) : Prop :=
  ∃ gs, gs.Perm (functionsAmong fs) ∧
    List.Forall₂ (fun f b => (∃ k, Gen.codeOf k (alone f) = some b) ∧ targetsIn b ⊆ labelsIn b) gs (blocksOf lines)

/-- Whether functions stand only directly in the body of a function, not deeper inside its statements. -/
def direct : Node → Bool
  | .function _ _ _ body _ => body.statements.all fun n => n.isFunction || plain n
  | _ => true

/-- Whether all functions of a program stand directly in the program or in the body of another. -/
def directOnly (fs : List Node) : Bool := (fs.flatMap withNested).all direct

/-! ### The functions that have code -/

mutual

theorem mem_nestedIn : ∀ {f g : Node}, f.isFunction = true → isStatement f = true → g ∈ nestedIn f →
    g.isFunction = true ∧ isStatement g = true
  | .function _ _ _ body _, g, _, h, hg => by
    obtain ⟨-, ⟨ps, ss, -, rfl, -, hs⟩ | ⟨-, he⟩⟩ := isStatement_function.1 h
    · rw [nestedIn, nestedUnder] at hg
      exact mem_nestedAmong hs hg
    · rw [nestedIn] at hg
      cases body <;> simp [nestedUnder, Node.isFunction, isExpression] at hg he
termination_by f => sizeOf f
decreasing_by all_goals (subst_vars; simp +arith)

theorem mem_nestedAmong : ∀ {ns : List Node} {g : Node}, areStatements ns = true → g ∈ nestedAmong ns →
    g.isFunction = true ∧ isStatement g = true
  | [], _, _, hg => by
    rw [nestedAmong] at hg
    cases hg
  | n :: ns, g, h, hg => by
    simp only [areStatements, Bool.and_eq_true] at h
    rw [nestedAmong] at hg
    rcases List.mem_append.1 hg with hg | hg
    · by_cases hn : n.isFunction = true
      · rw [if_pos hn] at hg
        rcases List.mem_cons.1 hg with rfl | hg
        · exact ⟨hn, h.1.2⟩
        · exact mem_nestedIn hn h.1.2 hg
      · rw [if_neg hn] at hg
        cases hg
    · exact mem_nestedAmong h.2 hg
termination_by ns => sizeOf ns
decreasing_by all_goals simp +arith

end

theorem mem_withNested {fs : List Node} (h : areFunctions fs = true) {g : Node} (hg : g ∈ fs.flatMap withNested) :
    g.isFunction = true ∧ isStatement g = true := by
  obtain ⟨f, hf, hg⟩ := List.mem_flatMap.1 hg
  have shape := List.all_eq_true.1 h f hf
  simp only [Bool.and_eq_true] at shape
  rcases List.mem_cons.1 hg with rfl | hg
  · exact shape
  · exact mem_nestedIn shape.1 shape.2 hg

/-- **The code of a program is the code of its functions in a row.** -/
theorem codes_of_program {fs : List Node} (h : areFunctions fs = true) {lines : List Line} (hl : linesOf fs = some lines) :
    ∃ cs, lines = cs.flatten ∧ List.Forall₂ (fun f c => ∃ k, Gen.codeOf k f = some c) (fs.flatMap withNested) cs := by
  obtain ⟨r, g, run, rfl⟩ := linesOf_eq_some.1 hl
  have run := ((Gen.ran_program fun f hf => (Bool.and_eq_true_iff.1 (List.all_eq_true.1 h f hf)).1).1 run).2
  rw [Gen.visitProgram_eq] at run
  obtain ⟨cs, hcs, each⟩ := Gen.codes_of_ran (fun f hf => (mem_withNested h hf).1) (by rfl) run
  exact ⟨cs, by simpa using hcs, each⟩

theorem shape_of_codeOf {k : Nat} {f : Node} {c : List Line} (hf : f.isFunction = true) (hs : isStatement f = true)
    (hc : Gen.codeOf k f = some c) : ∃ name ps returnType ss line,
      f = .function name (.several ps) returnType (.several ss) line ∧ isWord name = true ∧
        ps.all isParameter = true ∧ areStatements ss = true := by
  cases f with
  | function name params returnType body line =>
    obtain ⟨hn, ⟨ps, ss, rfl, rfl, hp, hs⟩ | ⟨rfl, -⟩⟩ := isStatement_function.1 hs
    · exact ⟨name, ps, returnType, ss, line, rfl, hn, hp, hs⟩
    · obtain ⟨r, g, run, -⟩ := Gen.codeOf_eq_some.1 hc
      rw [Gen.visit_procedure] at run
      exact (Gen.not_ran_procedure_text run).elim
  | _ => cases hf

/-! ### Statements without heads -/

theorem isStatement_loopBody {x : String} {start stop body : Node} {line : Int}
    (h : isStatement (.forLoop x start stop body line) = true) : isStatement body = true := by
  obtain ⟨-, -, -, ss, rfl, hs⟩ := isStatement_forLoop.1 h
  rw [isStatement]
  exact hs

mutual

theorem plain_of_headsOf : ∀ {n : Node}, isStatement n = true → headsOf (outline n) = [] → plain n = true
  | .declaration .., _, _ => rfl
  | .assignment target value _, h, _ => by
    obtain ⟨hv, ⟨x, rfl, -⟩ | ⟨x, index, l, rfl, -, hi⟩⟩ := isStatement_assignment.1 h
    · simp [plain, plain_of_isExpression hv]
    · simp [plain, plain_of_isExpression hv, plain_of_isExpression hi]
  | .call _ args _, h, _ => by
    simp only [isStatement, Bool.and_eq_true] at h
    rw [plain, plainAll_of_areExpressions h.2]
  | .ret value _, h, _ => by
    rcases isStatement_ret.1 h with rfl | h
    · rfl
    · rw [plain, plain_of_isExpression h]
  | .branch condition yes no _, h, hh => by
    obtain ⟨hc, hy, hn⟩ := isStatement_branch.1 h
    rw [outline, headsOf_append, headsOf_append, List.append_eq_nil_iff, List.append_eq_nil_iff] at hh
    rw [plain, plain_of_isExpression hc, plain_of_headsOf hy hh.1.2]
    rcases hn with rfl | hn
    · rfl
    · rw [plain_of_headsOf hn hh.2]
      rfl
  | .forLoop _ start stop body _, h, hh => by
    obtain ⟨-, h₁, h₂, -⟩ := isStatement_forLoop.1 h
    rw [outline, headsOf_append, List.append_eq_nil_iff] at hh
    rw [plain, plain_of_isExpression h₁, plain_of_isExpression h₂, plain_of_headsOf (isStatement_loopBody h) hh.2]
    rfl
  | .whileLoop condition body _, h, hh => by
    simp only [isStatement, Bool.and_eq_true] at h
    rw [outline, headsOf_append, List.append_eq_nil_iff] at hh
    rw [plain, plain_of_isExpression h.1, plain_of_headsOf h.2 hh.2]
    rfl
  | .doLoop body condition _, h, hh => by
    simp only [isStatement, Bool.and_eq_true] at h
    rw [outline, headsOf_append, List.append_eq_nil_iff] at hh
    rw [plain, plain_of_isExpression h.2, plain_of_headsOf h.1 hh.1]
    rfl
  | .block ss _, h, hh | .several ss, h, hh => by
    simp only [isStatement] at h
    rw [outline] at hh
    rw [plain, plainAll_of_headsOf h hh]
  | .function name params returnType body line, h, hh => by
    obtain ⟨es, he⟩ : ∃ es, outline (.function name params returnType body line) = .head name :: es := by
      cases body <;> simp [outline]
    rw [he] at hh
    cases hh

theorem plainAll_of_headsOf : ∀ {ns : List Node}, areStatements ns = true → headsOf (outlineAll ns) = [] →
    plainAll ns = true
  | [], _, _ => rfl
  | n :: ns, h, hh => by
    simp only [areStatements, Bool.and_eq_true, Bool.not_eq_true'] at h
    have single : ofSingle n (outline n) = outline n := ofSingle_statement h.1.1 h.1.2
    rw [outlineAll, headsOf_append, List.append_eq_nil_iff, single] at hh
    rw [plainAll, plain_of_headsOf h.1.2 hh.1, plainAll_of_headsOf h.2 hh.2]
    rfl

end

/-! ### Heads in lines -/

theorem headsOf_outlineIn_eq_nil {ls : List Line} : headsOf (outlineIn ls) = [] ↔ ∀ l ∈ ls, l.isHead = false := by
  induction ls with
  | nil => simp [outlineIn, headsOf]
  | cons l ls ih =>
    rw [← List.singleton_append, outlineIn_append, headsOf_append, List.append_eq_nil_iff, ih]
    have one : headsOf (outlineIn [l]) = [] ↔ l.isHead = false := by
      cases l <;> simp [outlineIn, Line.entry?, headsOf, Line.isHead]
    simp [one]

theorem isHead_closing {returnType : String} {ended : Bool} : ∀ l ∈ Gen.closing returnType ended, l.isHead = false := by
  unfold Gen.closing
  cases ended with
  | true => simp [Line.isHead]
  | false =>
    by_cases h : returnType = "null"
    · simp [h, Line.isHead]
    · simp [h, Line.isHead]

theorem headsOf_codeOf {k : Nat} {name returnType : String} {params : Node} {ss : List Node} {line : Int} {c : List Line}
    (h : Gen.codeOf k (.function name params returnType (.several ss) line) = some c) :
    headsOf (outlineIn c) = name :: headsOf (outlineOwn ss) := by
  obtain ⟨r, g, run, rfl⟩ := Gen.codeOf_eq_some.1 h
  have heads := Gen.visit_outlines _ _ _ _ run
  rw [outline] at heads
  rw [heads]
  rfl

theorem headsOf_outlineOwn {ss : List Node} (hs : areStatements ss = true) :
    headsOf (outlineOwn ss) = [] ↔ ∀ n ∈ ss, n.isFunction = true ∨ plain n = true := by
  induction ss with
  | nil => simp [outlineOwn, headsOf]
  | cons n ss ih =>
    simp only [areStatements, Bool.and_eq_true, Bool.not_eq_true'] at hs
    rw [outlineOwn, headsOf_append, List.append_eq_nil_iff, ih hs.2, List.forall_mem_cons]
    refine and_congr_left fun _ => ?_
    by_cases hn : n.isFunction = true
    · simp [hn, headsOf]
    · rw [if_neg hn, ofSingle_statement hs.1.1 hs.1.2]
      simp only [hn, Bool.false_eq_true, false_or]
      exact ⟨plain_of_headsOf hs.1.2, headsOf_plain⟩

theorem isBlock_codeOf {k : Nat} {f : Node} {c : List Line} (hf : f.isFunction = true) (hs : isStatement f = true)
    (hd : direct f = true) (hc : Gen.codeOf k f = some c) : IsBlock c := by
  obtain ⟨name, ps, returnType, ss, line, rfl, -, -, hss⟩ := shape_of_codeOf hf hs hc
  have heads := headsOf_codeOf hc
  have own : headsOf (outlineOwn ss) = [] :=
    (headsOf_outlineOwn hss).2 fun n hn => by simpa using List.all_eq_true.1 hd n hn
  obtain ⟨s₀, s₁, comments, new, -, -, -, code₀, code₁, rfl, -⟩ := Gen.codeOf_lines hc
  rw [code₁, code₀, List.cons_append, List.cons_append] at heads ⊢
  refine ⟨name, _, rfl, headsOf_outlineIn_eq_nil.1 ?_⟩
  rw [own, ← List.singleton_append, outlineIn_append, headsOf_append] at heads
  exact (List.cons.inj heads).2

/-- **If functions stand only directly in others, each has one procedure**, which is the code that it has by itself. -/
theorem blocks_of_program {fs : List Node} (h : areFunctions fs = true) {lines : List Line} (hl : linesOf fs = some lines)
    (hd : directOnly fs = true) :
    List.Forall₂ (fun f b => f.isFunction = true ∧ isStatement f = true ∧ direct f = true ∧ ∃ k, Gen.codeOf k f = some b)
      (fs.flatMap withNested) (blocksOf lines) := by
  obtain ⟨cs, rfl, each⟩ := codes_of_program h hl
  have block : ∀ c ∈ cs, IsBlock c := by
    intro c hc
    obtain ⟨f, hf, k, code⟩ := exists_of_forall₂ each c hc
    obtain ⟨hfun, hst⟩ := mem_withNested h hf
    exact isBlock_codeOf hfun hst (List.all_eq_true.1 hd f hf) code
  rw [blocksOf_flatten block]
  refine ((List.forall₂_and_left (p := (· ∈ fs.flatMap withNested)) _ _).2 ⟨fun f hf => hf, each⟩).imp ?_
  rintro f c ⟨hf, code⟩
  obtain ⟨hfun, hst⟩ := mem_withNested h hf
  exact ⟨hfun, hst, List.all_eq_true.1 hd f hf, code⟩

/-! ### Functions without functions deep inside -/

mutual

theorem bared_plain : ∀ {n : Node}, plain n = true → bared n = n
  | .branch .., h => by
    simp only [plain, Bool.and_eq_true] at h
    rw [bared, bared_plain h.1.2, bared_plain h.2]
  | .forLoop .., h => by
    simp only [plain, Bool.and_eq_true] at h
    rw [bared, bared_plain h.2]
  | .whileLoop .., h => by
    simp only [plain, Bool.and_eq_true] at h
    rw [bared, bared_plain h.2]
  | .doLoop .., h => by
    simp only [plain, Bool.and_eq_true] at h
    rw [bared, bared_plain h.1]
  | .block .., h | .several _, h => by
    simp only [plain] at h
    rw [bared, baredAll_plainAll h]
  | .program _, h | .function .., h => by simp [plain] at h
  | .parameter .., _ | .declaration .., _ | .assignment .., _ | .call .., _ | .ret .., _ | .binary .., _ | .unary .., _
  | .identifier .., _ | .number .., _ | .string .., _ | .boolean .., _ | .ternary .., _ | .element .., _ | .array .., _
  | .listOf .., _ | .bare, _ | .nothing, _ | .text _, _ | .integer _, _ => by simp [bared]

theorem baredAll_plainAll : ∀ {ns : List Node}, plainAll ns = true → baredAll ns = ns
  | [], _ => by rw [baredAll]
  | n :: ns, h => by
    simp only [plainAll, Bool.and_eq_true] at h
    have hn : ¬ n.isFunction = true := by
      cases n <;> simp [plain, Node.isFunction] at h ⊢
    rw [baredAll, if_neg hn, bared_plain h.1, baredAll_plainAll h.2]

end

theorem visitOwn_baredAll {ns : List Node} (h : ∀ n ∈ ns, n.isFunction = true ∨ plain n = true) :
    Gen.visitOwn (baredAll ns) = Gen.visitOwn ns := by
  induction ns with
  | nil => rw [baredAll]
  | cons n ns ih =>
    rw [List.forall_mem_cons] at h
    by_cases hn : n.isFunction = true
    · rw [baredAll, if_pos hn, Gen.visitOwn, ih h.2, hn]
      rfl
    · rw [baredAll, if_neg hn, Gen.visitOwn, Gen.visitOwn, ih h.2, bared_plain (h.1.resolve_left hn)]

theorem visit_alone {name returnType : String} {params : Node} {ss : List Node} {line : Int}
    (h : direct (.function name params returnType (.several ss) line) = true) :
    Gen.visit (alone (.function name params returnType (.several ss) line)) =
      Gen.visit (.function name params returnType (.several ss) line) := by
  rw [alone, bared, Gen.visit_procedure, Gen.visit_procedure, Gen.bodyCode, Gen.bodyCode, visitOwn_baredAll]
  exact fun n hn => by simpa using List.all_eq_true.1 h n hn

mutual

theorem functionsIn_plain : ∀ {n : Node}, plain n = true → functionsIn n = []
  | .branch .., h => by
    simp only [plain, Bool.and_eq_true] at h
    rw [functionsIn, functionsIn_plain h.1.2, functionsIn_plain h.2, List.nil_append]
  | .forLoop .., h => by
    simp only [plain, Bool.and_eq_true] at h
    rw [functionsIn, functionsIn_plain h.2]
  | .whileLoop .., h => by
    simp only [plain, Bool.and_eq_true] at h
    rw [functionsIn, functionsIn_plain h.2]
  | .doLoop .., h => by
    simp only [plain, Bool.and_eq_true] at h
    rw [functionsIn, functionsIn_plain h.1]
  | .block .., h | .several _, h => by
    simp only [plain] at h
    rw [functionsIn, functionsAmong_plainAll h]
  | .program _, h | .function .., h => by simp [plain] at h
  | .parameter .., _ | .declaration .., _ | .assignment .., _ | .call .., _ | .ret .., _ | .binary .., _ | .unary .., _
  | .identifier .., _ | .number .., _ | .string .., _ | .boolean .., _ | .ternary .., _ | .element .., _ | .array .., _
  | .listOf .., _ | .bare, _ | .nothing, _ | .text _, _ | .integer _, _ => by simp [functionsIn]

theorem functionsAmong_plainAll : ∀ {ns : List Node}, plainAll ns = true → functionsAmong ns = []
  | [], _ => by rw [functionsAmong]
  | n :: ns, h => by
    simp only [plainAll, Bool.and_eq_true] at h
    rw [functionsAmong, functionsIn_plain h.1, functionsAmong_plainAll h.2, List.nil_append]

end

mutual

theorem functionsIn_direct : ∀ {f : Node}, f.isFunction = true → isStatement f = true → direct f = true →
    (∀ g ∈ nestedIn f, direct g = true) → functionsIn f = withNested f
  | .function _ _ _ body _, _, h, hd, hn => by
    obtain ⟨-, ⟨ps, ss, rfl, rfl, -, hs⟩ | ⟨rfl, he⟩⟩ := isStatement_function.1 h
    · rw [nestedIn, nestedUnder] at hn
      rw [functionsIn, functionsIn, withNested, nestedIn, nestedUnder]
      rw [functionsAmong_direct hs (fun n hn => by simpa using List.all_eq_true.1 hd n hn) hn]
      rfl
    · rw [functionsIn, functionsIn_plain (plain_of_isExpression he), withNested, nestedIn]
      cases body <;> simp [nestedUnder, Node.isFunction, isExpression] at he ⊢
termination_by f => sizeOf f
decreasing_by all_goals (subst_vars; simp +arith)

theorem functionsAmong_direct : ∀ {ns : List Node}, areStatements ns = true →
    (∀ n ∈ ns, n.isFunction = true ∨ plain n = true) → (∀ g ∈ nestedAmong ns, direct g = true) →
      functionsAmong ns = nestedAmong ns
  | [], _, _, _ => by rw [functionsAmong, nestedAmong]
  | n :: ns, h, hd, hn => by
    simp only [areStatements, Bool.and_eq_true] at h
    rw [List.forall_mem_cons] at hd
    rw [nestedAmong, List.forall_mem_append] at hn
    rw [functionsAmong, nestedAmong, functionsAmong_direct h.2 hd.2 hn.2]
    by_cases hf : n.isFunction = true
    · rw [if_pos hf, List.forall_mem_cons] at hn
      rw [if_pos hf, functionsIn_direct hf h.1.2 hn.1.1 hn.1.2, withNested]
    · rw [if_neg hf, functionsIn_plain (hd.1.resolve_left hf)]
termination_by ns => sizeOf ns
decreasing_by all_goals simp +arith

end

theorem functionsAmong_eq {fs : List Node} (h : areFunctions fs = true) (hd : directOnly fs = true) :
    functionsAmong fs = fs.flatMap withNested := by
  unfold directOnly at hd
  induction fs with
  | nil => rw [functionsAmong, List.flatMap_nil]
  | cons f fs ih =>
    simp only [areFunctions, List.all_cons, Bool.and_eq_true] at h
    rw [List.flatMap_cons, List.all_append, Bool.and_eq_true, List.all_eq_true, withNested, List.forall_mem_cons] at hd
    rw [functionsAmong, List.flatMap_cons, ih h.2 hd.2, functionsIn_direct h.1.1 h.1.2 hd.1.1 hd.1.2]

/-! ### Functions deep inside -/

/-- **A function deep inside cuts the procedure around it in two**, and the first half does not end in a blank line. -/
theorem cut_codeOf {k : Nat} {f : Node} {c : List Line} (hf : f.isFunction = true) (hs : isStatement f = true)
    (hd : direct f = false) (hc : Gen.codeOf k f = some c) :
    ∃ name mid l rest, c = (Line.proc name :: mid) ++ l :: rest ∧ l.isHead = true ∧ (∀ m ∈ mid, m.isHead = false) ∧
      (Line.proc name :: mid).getLast? ≠ some .blank := by
  obtain ⟨name, ps, returnType, ss, line, rfl, -, -, hss⟩ := shape_of_codeOf hf hs hc
  have heads := headsOf_codeOf hc
  have own : headsOf (outlineOwn ss) ≠ [] := by
    rw [Ne, headsOf_outlineOwn hss]
    intro all
    rw [direct, Bool.eq_false_iff] at hd
    exact hd (List.all_eq_true.2 fun n hn => by simpa using all n hn)
  obtain ⟨s₀, s₁, comments, new, -, -, -, code₀, code₁, rfl, inner, -, opens⟩ := Gen.codeOf_lines hc
  -- the heads are in the code of the body
  have inside : headsOf (outlineIn new) ≠ [] := by
    rw [code₁, code₀, outlineIn_append, outlineIn_append, headsOf_append, headsOf_append,
      headsOf_outlineIn_eq_nil.2 isHead_closing, List.append_nil, ← List.singleton_append, outlineIn_append,
      headsOf_append, headsOf_outlineIn_eq_nil.2 fun l hl => (inner l hl).isHead, List.append_nil] at heads
    intro none
    rw [none] at heads
    exact own (List.cons.inj heads).2.symm
  obtain ⟨l, rest, hl⟩ : ∃ l rest, new.dropWhile (!·.isHead) = l :: rest := by
    cases h : new.dropWhile (!·.isHead) with
    | nil => exact (inside (headsOf_outlineIn_eq_nil.2 fun l hl => by simpa using List.dropWhile_eq_nil_iff.1 h l hl)).elim
    | cons l rest => exact ⟨l, rest, rfl⟩
  have head : l.isHead = true := by
    have h := List.head?_dropWhile_not (!·.isHead) new
    rw [hl] at h
    simpa using h
  have whole : new = new.takeWhile (!·.isHead) ++ l :: rest := by rw [← hl, List.takeWhile_append_dropWhile]
  refine ⟨name, comments ++ new.takeWhile (!·.isHead), l,
    rest ++ Gen.closing returnType (s₁.code.back?.any Gen.endsInRet), ?_, head, fun m hm => ?_, fun blank => ?_⟩
  · rw [code₁, code₀]
    conv => lhs; rw [whole]
    simp
  · rcases List.mem_append.1 hm with hm | hm
    · exact (inner m hm).isHead
    · simpa using List.mem_takeWhile_imp hm
  · rcases List.mem_cons.1 (List.mem_of_getLast? blank) with h | h
    · cases h
    · exact ((List.mem_append.1 h).elim (inner _) (opens _)).ne_blank rfl

mutual

theorem isFunction_of_mem : ∀ {n g : Node}, g ∈ functionsIn n → g.isFunction = true
  | .function .., g, h => by
    rw [functionsIn] at h
    rcases List.mem_cons.1 h with rfl | h
    · rfl
    · exact isFunction_of_mem h
  | .branch .., g, h => by
    rw [functionsIn] at h
    rcases List.mem_append.1 h with h | h
    · exact isFunction_of_mem h
    · exact isFunction_of_mem h
  | .forLoop .., g, h | .whileLoop .., g, h | .doLoop .., g, h => by
    rw [functionsIn] at h
    exact isFunction_of_mem h
  | .block .., g, h | .several _, g, h => by
    rw [functionsIn] at h
    exact isFunction_of_mem_among h
  | .program _, _, h | .parameter .., _, h | .declaration .., _, h | .assignment .., _, h | .call .., _, h | .ret .., _, h
  | .binary .., _, h | .unary .., _, h | .identifier .., _, h | .number .., _, h | .string .., _, h | .boolean .., _, h
  | .ternary .., _, h | .element .., _, h | .array .., _, h | .listOf .., _, h | .bare, _, h | .nothing, _, h
  | .text _, _, h | .integer _, _, h => by simp [functionsIn] at h

theorem isFunction_of_mem_among : ∀ {ns : List Node} {g : Node}, g ∈ functionsAmong ns → g.isFunction = true
  | [], _, h => by simp [functionsAmong] at h
  | n :: ns, g, h => by
    rw [functionsAmong] at h
    rcases List.mem_append.1 h with h | h
    · exact isFunction_of_mem h
    · exact isFunction_of_mem_among h

end

theorem not_apart {fs : List Node} {lines : List Line} {b : List Line} (hb : b ∈ blocksOf lines)
    (last : b.getLast? ≠ some .blank) : ¬ StandApart fs lines := by
  rintro ⟨gs, perm, blocks⟩
  obtain ⟨g, hg, ⟨k, code⟩, -⟩ := exists_of_forall₂ blocks b hb
  have function : (alone g).isFunction = true := by
    have hg := isFunction_of_mem_among (perm.mem_iff.1 hg)
    cases g with
    | function => rfl
    | _ => cases hg
  exact last (Gen.getLast?_codeOf function code)

/-- **The procedures of a program stand apart exactly if its functions do**: directly in the program or in the body of
another function, and not deeper inside a statement. -/
theorem apart_iff {fs : List Node} (h : areFunctions fs = true) {lines : List Line} (hl : linesOf fs = some lines) :
    StandApart fs lines ↔ directOnly fs = true := by
  constructor
  · intro apart
    obtain ⟨cs, rfl, each⟩ := codes_of_program h hl
    rw [directOnly, List.all_eq_true]
    intro f hf
    by_contra hd
    rw [Bool.not_eq_true] at hd
    obtain ⟨hfun, hst⟩ := mem_withNested h hf
    obtain ⟨c, hc, k, code⟩ := exists_of_forall₂ (R := flip _) each.flip f hf
    obtain ⟨name, mid, l, rest, rfl, head, heads, last⟩ := cut_codeOf hfun hst hd code
    obtain ⟨before, after, rfl⟩ := List.append_of_mem hc
    refine not_apart ?_ last apart
    rw [List.flatten_append, List.flatten_cons, List.append_assoc]
    exact mem_blocksOf rfl heads head
  · intro hd
    refine ⟨fs.flatMap withNested, by rw [functionsAmong_eq h hd], (blocks_of_program h hl hd).imp ?_⟩
    rintro f c ⟨hfun, hst, hdf, k, code⟩
    obtain ⟨name, ps, returnType, ss, line, rfl, -⟩ := shape_of_codeOf hfun hst code
    obtain ⟨r, g, run, rfl⟩ := Gen.codeOf_eq_some.1 code
    refine ⟨⟨k, Gen.codeOf_eq_some.2 ⟨r, g, ?_, rfl⟩⟩, ?_⟩
    · rw [visit_alone hdf]
      exact run
    · obtain ⟨new, code, -, targets⟩ := Gen.visit_labelled _ _ _ _ run
      rw [code]
      simpa using targets

end TesLang.Code

namespace TesLang.Session

open Code

theorem compiled_of_reading {s : Session} {source : String} {fs : List Node} {lines : List Line}
    (hf : fs ∈ (reading s source).functions) (errors : (reading s source).errors = [])
    (fault : (reading s source).fault = none) (clean : check fs = .ok []) (hl : lines ∈ linesOf fs) :
    (compile source s).1 = [] ∧ (compileToCode source s).1.1 = some (render lines) := by
  constructor
  · refine compile_eq_nil.2 ⟨errors, fault, fun fs' hf' => ?_⟩
    obtain rfl : fs = fs' := Option.some.inj (hf.symm.trans hf')
    exact clean
  · obtain ⟨r, g, run, rfl⟩ := linesOf_eq_some.1 hl
    exact code_eq_some.2 ⟨fault, fs, hf, clean, r, g, run, rfl⟩

/-- **When the procedures of a text stand apart.**  Take a text that has code.  Every function of it has one procedure of
its own, with the code of its own statements and no jumps out of it, if and only if no function stands deeper inside a
statement than directly in the body of another function. -/
theorem procedures_apart_iff {s : Session} {source code : String} (compiled : (compileToCode source s).1.1 = some code) :
    ∃ fs lines, (reading s source).functions = some fs ∧ linesOf fs = some lines ∧ code = render lines ∧
      (StandApart fs lines ↔ directOnly fs = true) := by
  obtain ⟨-, fs, hf, -, r, g, run, rfl⟩ := code_eq_some.1 compiled
  exact ⟨fs, g.code.toList, hf, linesOf_of_ran run, rfl, apart_iff (parse_areFunctions hf) (linesOf_of_ran run)⟩

/-- A function in a function in a function, with a branch in the middle one. -/
def directFunctions : String :=
  "funk f()<int>\x7b funk g(n as int)<int>\x7b funk h()<int>\x7breturn 2;\x7d if[[n]] return h(); return 1;\x7d return g(7);\x7d"

theorem directFunctions_apart : ∃ code fs lines, (compileToCode directFunctions {}).1.1 = some code ∧ directOnly fs = true ∧
    (reading {} directFunctions).functions = some fs ∧ linesOf fs = some lines ∧ code = render lines ∧
      (StandApart fs lines ↔ directOnly fs = true) := by
  have evaluated : ∃ fs ∈ (reading {} directFunctions).functions, (reading {} directFunctions).errors = [] ∧
      (reading {} directFunctions).fault = none ∧ check fs = .ok [] ∧ directOnly fs = true ∧
        (linesOf fs).isSome := by
    rw [directFunctions, reading_ofList]
    decide +kernel
  obtain ⟨fs, hf, errors, fault, clean, direct, coded⟩ := evaluated
  obtain ⟨lines, hl⟩ := Option.isSome_iff_exists.1 coded
  have compiled := (compiled_of_reading hf errors fault clean hl).2
  obtain ⟨fs', lines', hf', hl', rendered, apart⟩ := procedures_apart_iff compiled
  obtain rfl : fs = fs' := Option.some.inj (hf.symm.trans hf')
  exact ⟨_, fs, lines', compiled, direct, hf', hl', rendered, apart⟩

/-- Texts without errors with a function deep inside: in a branch, and in a block, with another one in it that has no
procedure. -/
def deepFunctions : List String :=
  ["funk main() <null> \x7b if [[ true ]] funk g() <null> \x7b return; \x7d return; \x7d",
   "funk f() <null> \x7b begin funk g() <null> \x7b funk h() <null> \x7b \x7d \x7d end \x7d"]

theorem deepFunctions_not_apart : deepFunctions.Forall fun source => (compile source {}).1 = [] ∧
    ∃ fs lines, (compileToCode source {}).1.1 = some (render lines) ∧ (reading {} source).functions = some fs ∧
      linesOf fs = some lines ∧ ¬ StandApart fs lines := by
  have evaluated : ∀ source ∈ deepFunctions, ∃ fs ∈ (reading {} source).functions, (reading {} source).errors = [] ∧
      (reading {} source).fault = none ∧ check fs = .ok [] ∧ directOnly fs = false ∧ (linesOf fs).isSome := by
    rw [deepFunctions, List.forall_mem_cons, List.forall_mem_cons, reading_ofList, reading_ofList]
    decide +kernel
  refine List.forall_iff_forall_mem.2 fun source hs => ?_
  obtain ⟨fs, hf, errors, fault, clean, deep, coded⟩ := evaluated source hs
  obtain ⟨lines, hl⟩ := Option.isSome_iff_exists.1 coded
  obtain ⟨accepted, compiled⟩ := compiled_of_reading hf errors fault clean hl
  refine ⟨accepted, fs, lines, compiled, hf, hl, ?_⟩
  rw [apart_iff (parse_areFunctions hf) hl, deep]
  exact Bool.false_ne_true

end TesLang.Session
