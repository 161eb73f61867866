import TesLang.Proofs.Scalar.Procedure
import TesLang.Proofs.Scalar.Scoping
import TesLang.Proofs.Session.Running
/-!
# Code for scalar programs is correct

Code can be generated for every scalar program, and its procedures are the program's functions (`exists_compiled`).  Each
procedure returns what its function gives, having read the same input and written the same output, if no variable is read
ahead of the text; and if the program has no errors, then only variables with names of functions can be
(`generated_code_returns`).
-/
namespace TesLang.Scalar

open Code Code.Gen Code.Generator

variable {fns params : List String}

/-! ### The outline of a scalar program -/

theorem outlineOwn_eq {ns : List Node} (h : areStmts fns params ns = true) : outlineOwn ns = outlineAll ns := by
  induction ns with
  | nil => rw [outlineOwn, outlineAll]
  | cons n ns ih =>
    simp only [areStmts, Bool.and_eq_true] at h
    rw [outlineOwn, outlineAll, isFunction_of_isStmt h.1.2, ih h.2]
    rfl

theorem headsOf_function {name returnType : String} {ps body : Node} {line : Int} (h : isStmt fns params body = true) :
    headsOf (outline (.function name ps returnType body line)) = [name] := by
  cases body with
  | several ns =>
    simp only [isStmt] at h
    rw [outline, outlineOwn_eq h]
    exact congrArg (name :: ·) (headsOf_plainAll (plainAll_of_areStmts h))
  | block ns _ =>
    simp only [isStmt] at h
    rw [outline, outlineOwn_eq h]
    exact congrArg (name :: ·) (headsOf_plainAll (plainAll_of_areStmts h))
  | function _ _ _ _ _ => cases h
  | _ =>
    rw [outline]
    · exact congrArg (name :: ·) (headsOf_plain (plain_of_isStmt h))
    all_goals
      intros
      contradiction

/-! ### No function stands in another -/

theorem nested_nil {ns : List Node} (h : areStmts fns params ns = true) :
    visitNested ns = pure () ∧ outlineNested ns = [] := by
  induction ns with
  | nil => exact ⟨by rw [visitNested], by rw [outlineNested]⟩
  | cons n ns ih =>
    simp only [areStmts, Bool.and_eq_true] at h
    obtain ⟨hv, ho⟩ := ih h.2
    rw [visitNested, outlineNested, isFunction_of_isStmt h.1.2, hv, ho]
    exact ⟨rfl, rfl⟩

theorem nestedUnder_nil {n : Node} (h : isStmt fns params n = true) :
    visitNestedUnder n = pure () ∧ outlineNestedUnder n = [] := by
  cases n with
  | several ns =>
    simp only [isStmt] at h
    rw [visitNestedUnder, outlineNestedUnder]
    exact nested_nil h
  | block ns _ =>
    simp only [isStmt] at h
    rw [visitNestedUnder, outlineNestedUnder]
    exact nested_nil h
  | function _ _ _ _ _ => cases h
  | _ =>
    rw [visitNestedUnder, outlineNestedUnder]
    · exact ⟨rfl, rfl⟩
    all_goals
      intros
      contradiction

theorem nestedIn_nil {name returnType : String} {ps body : Node} {line : Int} (h : isStmt fns params body = true) :
    visitNestedIn (.function name ps returnType body line) = pure () ∧
      outlineNestedIn (.function name ps returnType body line) = [] := by
  obtain ⟨hv, ho⟩ := nestedUnder_nil h
  rw [visitNestedIn, outlineNestedIn, isFunction_of_isStmt h, hv, ho]
  exact ⟨rfl, rfl⟩

/-! ### The code of a program -/

theorem callable_of_isProgram {fs : List Node} (program : isProgram fs = true) : Callable (names fs) := by
  intro f hf
  obtain ⟨n, hn, hname⟩ := List.mem_filterMap.1 hf
  have function := List.all_eq_true.1 (Bool.and_eq_true_iff.1 program).1 n hn
  cases n with
  | function name ps returnType body line =>
    simp only [isFunction, Bool.and_eq_true, Bool.not_eq_true'] at function
    obtain rfl : name = f := by simpa [Node.name?] using hname
    have hr := function.1.1.1
    simp only [reserved, List.contains_eq_mem, List.mem_cons, decide_eq_false_iff_not, not_or] at hr
    obtain ⟨h₁, h₂, h₃, h₄, -⟩ := hr
    unfold Builtin.ofName?
    split <;> first | rfl | contradiction
  | _ => cases function

theorem exists_function (hf : Callable fns) {f : Node} (h : isFunction fns f = true) (s : Generator) :
    ∃ s', Ran (visit f) s none s' ∧ visitNestedIn f = pure () := by
  cases f with
  | function name ps returnType body line =>
    simp only [isFunction, Bool.and_eq_true, Bool.not_eq_true'] at h
    obtain ⟨⟨⟨-, hret⟩, hps⟩, hb⟩ := h
    obtain ⟨-, s₀, h₀, -⟩ := openProc_spec hps hret s
    obtain ⟨u, sf, h₁⟩ := visit_stmt hf hb s₀
    obtain ⟨s', h₂⟩ := exists_closeProc returnType sf
    exact ⟨s', (ran_function hb).2 ⟨rfl, s₀, sf, u, h₀, h₁, h₂⟩, (nestedIn_nil hb).1⟩
  | _ => cases h

theorem exists_program (hf : Callable fns) : ∀ {fs : List Node}, fs.all (isFunction fns) = true → ∀ s,
    ∃ s', Ran (visitProgram fs) s () s'
  | [], _, s => ⟨s, by rw [visitProgram]; exact ran_pure.2 ⟨rfl, rfl⟩⟩
  | f :: fs, h, s => by
    rw [List.all_cons, Bool.and_eq_true] at h
    obtain ⟨s₁, h₁, hn⟩ := exists_function hf h.1 s
    obtain ⟨s', h₂⟩ := exists_program hf h.2 s₁
    refine ⟨s', ?_⟩
    rw [visitProgram, hn]
    exact ran_bind.2 ⟨_, s₁, h₁, ran_bind.2 ⟨_, s₁, ran_pure.2 ⟨rfl, rfl⟩, h₂⟩⟩

theorem headsOf_program : ∀ {fs : List Node}, fs.all (isFunction fns) = true → headsOf (outlineProgram fs) = names fs
  | [], _ => by rw [outlineProgram]; rfl
  | f :: fs, h => by
    rw [List.all_cons, Bool.and_eq_true] at h
    cases f with
    | function name ps returnType body line =>
      have hb := (Bool.and_eq_true_iff.1 h.1).2
      rw [outlineProgram, headsOf_append, headsOf_append, headsOf_function hb, (nestedIn_nil hb).2, headsOf_program h.2]
      rfl
    | _ => cases h.1

theorem visited_of_ran : ∀ {fs : List Node} {s s' : Generator}, Ran (visitProgram fs) s () s' →
    ∀ f ∈ fs, ∃ a t b, Ran (visit f) a t b ∧ b.code.toList <+: s'.code.toList
  | [], _, _, _, _, hm => nomatch hm
  | f :: fs, s, s', h, f', hm => by
    rw [visitProgram] at h
    obtain ⟨t, s₁, h₁, h⟩ := ran_bind.1 h
    obtain ⟨_, s₂, h₂, h₃⟩ := ran_bind.1 h
    obtain ⟨new₂, e₂, -⟩ := shaped_labelling.has (.visitNestedIn f) _ _ _ h₂
    obtain ⟨new₃, e₃, -⟩ := shaped_labelling.has (.visitProgram fs) _ _ _ h₃
    rcases List.mem_cons.1 hm with rfl | hm
    · exact ⟨s, t, s₁, h₁, by rw [e₃, e₂, List.append_assoc]; exact List.prefix_append ..⟩
    · exact visited_of_ran h₃ f' hm

theorem node_isFunction {n : Node} (h : isFunction fns n = true) : n.isFunction = true := by
  cases n with
  | function => rfl
  | _ => cases h

/-- **Code can be generated for every scalar program**, and its procedures are the program's functions. -/
theorem exists_compiled {fs : List Node} (program : isProgram fs = true) :
    ∃ g, Ran (visit (.program fs)) {} none g ∧ Compiled fs g.code.toList := by
  obtain ⟨all, nodup⟩ := Bool.and_eq_true_iff.1 program
  obtain ⟨g, hr⟩ := exists_program (callable_of_isProgram program) all {}
  have run := (ran_program fun f hf => node_isFunction (List.all_eq_true.1 all f hf)).2 ⟨rfl, hr⟩
  refine ⟨g, run, ?_, ?_, visited_of_ran hr⟩
  · obtain ⟨new, e, numbered, -⟩ := shaped_labelling.has (.visitProgram fs) _ _ _ hr
    rw [e]
    exact numbered.nodup.of_map
  · rw [visitProgram_outlines fs _ _ _ hr]
    exact (headsOf_program all).symm ▸ of_decide_eq_true nodup

/-- **The code of a scalar program without errors is correct, where nothing is read ahead of the text.**  Whatever a division
by machine gives, and whatever function is called with whatever arguments and input, take a function that gives a result.
Every variable that was read ahead of the text has the name of a function of the program.  If there is none, then the
procedure returns the result, having read and written the same. -/
theorem generated_code_returns {fs : List Node} (accepted : check fs = .ok []) (program : isProgram fs = true) :
    ∃ g, Ran (visitTree (.program fs)) {} none g ∧
      ∀ (div : Int → Int → Option Int) (f : String) (args input : List Int) (result : Option Int) (world : World)
        (ahead : List String), Gives div fs f args input result world ahead → ahead ⊆ names fs ∧
          (ahead = [] → Machine.Returns div g.code.toList f args input result world) := by
  obtain ⟨g, run, compiled⟩ := exists_compiled program
  refine ⟨g, run, ?_⟩
  rintro div f args input result world ahead ⟨n, he⟩
  refine ⟨(staysWithin program accepted div n).call f args _ _ _ _ he, ?_⟩
  rintro rfl
  have sim : Simulates div fs g.code.toList n := simulates compiled program (callable_of_isProgram program) n
  obtain ⟨head, hh, steps⟩ := sim.call he
  exact ⟨_, Option.bind_eq_some_iff.2 ⟨head, hh, rfl⟩, steps { rest := head, regs := passed args, world := { input } }⟩

/-- A program that adds up the odd ones among `n` numbers that it reads, prints the others, and takes the sum down to a
single digit. -/
def oddSum : List Node :=
  [.function "odd" (.several [.parameter "k" "int" 1]) "bool"
     (.several [.ret (.binary (.binary (.binary (.identifier "k" 2) "/" (.number 2 2) 2) "*" (.number 2 2) 2) "!="
       (.identifier "k" 2) 2) 2]) 1,
   .function "main" (.several [.parameter "n" "int" 4]) "int"
     (.several [
       .declaration "sum" "int" 5,
       .assignment (.text "sum") (.number 0 5) 5,
       .forLoop "i" (.number 0 6) (.identifier "n" 6) (.block [
         .declaration "k" "int" 7,
         .assignment (.text "k") (.call "scan" [] 7) 7,
         .branch (.call "odd" [.identifier "k" 8] 8)
           (.assignment (.text "sum") (.binary (.identifier "sum" 8) "+" (.identifier "k" 8) 8) 8)
           (.call "print" [.identifier "k" 9] 9) 8] 6) 6,
       .whileLoop (.binary (.identifier "sum" 11) ">" (.number 9 11) 11)
         (.assignment (.text "sum") (.binary (.identifier "sum" 12) "-" (.number 10 12) 12) 12) 11,
       .ret (.ternary (.binary (.identifier "sum" 13) "==" (.number 0 13) 13) (.number 1 13) (.identifier "sum" 13) 13)
         13]) 4]

theorem oddSum_returns : check oddSum = .ok [] ∧ isProgram oddSum = true ∧
    ∃ g, Ran (visitTree (.program oddSum)) {} none g ∧
      Machine.Returns (fun a b => if b = 0 then none else some (a / b)) g.code.toList "main" [3] [7, 4, 9, 1] (some 6)
        ⟨[1], [4]⟩ := by
  have accepted : check oddSum = .ok [] := by rfl
  have program : isProgram oddSum = true := by decide
  obtain ⟨g, run, returns⟩ := generated_code_returns accepted program
  exact ⟨accepted, program, g, run, (returns _ _ _ _ _ _ _ ⟨40, by rfl⟩).2 rfl⟩

/-- The variable of the inner loop has the name of a function, and is read in front of that loop in the second turn of the
outer one. -/
def borrowing : String :=
  "funk x() <int> \x7b for (x = 0 to 1) begin end return 1; \x7d funk main() <int> \x7b for (i = 0 to 2) begin " ++
    "if [[ i == 1 ]] print(x); for (x = 0 to 3) begin end end return 0; \x7d"

theorem borrowing_stuck : ∃ fs ∈ (Session.reading {} borrowing).functions, check fs = .ok [] ∧ isProgram fs = true ∧
    Gives (fun _ _ => none) fs "main" [] [] (some 0) ⟨[], [3]⟩ ["x"] ∧
    ∀ g, Ran (visitTree (.program fs)) {} none g → ∀ result world,
      ¬ Machine.Returns (fun _ _ => none) g.code.toList "main" [] [] result world := by
  have evaluated : ∃ fs ∈ (Session.reading {} borrowing).functions, check fs = .ok [] ∧ isProgram fs = true ∧
      call (fun _ _ => none) fs 40 "main" [] ⟨[], []⟩ = some (some 0, ⟨[], [3]⟩, ["x"]) ∧
      ∃ lines ∈ linesOf fs, ∃ m ∈ Machine.entering lines "main" [] [],
        Machine.sticks (fun _ _ => none) lines 60 (.running m) = true := by
    unfold borrowing
    rw [Session.reading_ofList_append]
    decide +kernel
  obtain ⟨fs, hf, accepted, program, gives, lines, hl, m, enters, stuck⟩ := evaluated
  refine ⟨fs, hf, accepted, program, ⟨40, gives⟩, fun g run result world => ?_⟩
  obtain rfl : lines = g.code.toList := Option.some.inj (hl.symm.trans (linesOf_of_ran run))
  rintro ⟨m', enters', steps⟩
  obtain rfl : m = m' := Option.some.inj (enters.symm.trans enters')
  exact (Machine.stuck_of_sticks stuck).not_halted steps

end TesLang.Scalar
