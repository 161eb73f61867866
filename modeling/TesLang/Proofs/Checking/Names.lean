import TesLang.Proofs.Checking.Run
import TesLang.Proofs.Checking.Scope
/-!
# Names and the scopes they are looked up in

What the scopes are at a place of a tree does not depend on what is checked there, as long as nothing is wrong: `after`
gives them behind a statement, and a walk without errors ends with these (`visit_uses`).

`uses` lists where the name of a variable occurs, in the order of the walk, with the scopes at that point: as a value, as
the target of an assignment, and as the vector of which a member is read or written.  In a walk without errors every
one of these names but those of vectors that are read has been looked up (`Use.Passes`), and every call has found
something that takes as many arguments (`Answered`).

The outermost scope holds the functions of a program and nothing else, and all others belong to functions.  `Chain.own`
looks only into these.
-/
namespace TesLang

namespace Chain

/-- The symbol of a name in the innermost scope of a function that binds it. -/
def own (c : Chain) (x : String) : Option Symbol := c.scopes.dropLast.findSome? (·.find? x)

/-- The scopes around the innermost one, as if all variables had values. -/
def outside (c : Chain) : List Scope := c.outer.map Scope.settled

theorem settled_eq (c : Chain) : c.settled = c.inner.settled :: c.outside := rfl

theorem outside_assigned (c : Chain) (x : String) : (c.assigned x).outside = c.outside :=
  (List.cons.inj (c.settled_assigned x)).2

theorem settled_leave {c d : Chain} (h : d.outside = c.settled) : d.leave.settled = c.settled := by
  unfold leave
  split
  · next ho =>
    unfold outside at h
    rw [ho] at h
    cases h
  · next ho =>
    unfold outside at h
    rw [ho] at h
    exact h

end Chain

namespace Check

open Grammar Checker

/-! ### Scopes -/

/-- The names and types of parameters. -/
def pairs : List Node → List (String × String)
  | [] => []
  | .parameter x type _ :: ps => (x, type) :: pairs ps
  | _ :: ps => pairs ps

/-- What the name of a function stands for. -/
def functionSymbol? : Node → Option Symbol
  | .function name params returnType _ line =>
    some { name, kind := .function, params := pairs params.statements, returnType := some returnType, line := some line }
  | _ => none

def withParameters : Chain → List Node → Chain
  | c, [] => c
  | c, .parameter x type line :: ps =>
    withParameters (c.insert x { name := x, kind := .variable, type := some type, initialized := true, line := some line }) ps
  | c, _ :: ps => withParameters c ps

/-- With the functions among some statements; of two with the same name the last counts. -/
def withNested : Chain → List Node → Chain
  | c, [] => c
  | c, n :: ns =>
    match functionSymbol? n with
    | some s => withNested (c.insert s.name s) ns
    | none => withNested c ns

/-- With the functions of a program; of two with the same name the first counts. -/
def withFunctions : Chain → List Node → Chain
  | c, [] => c
  | c, f :: fs =>
    match functionSymbol? f with
    | some s => withFunctions (if (c.inner.find? s.name).isNone then c.insert s.name s else c) fs
    | none => withFunctions c fs

/-- With the variable of a loop, which is bound only if no scope binds it. -/
def withLoop (c : Chain) (x : String) (line : Int) : Chain :=
  if (c.lookup x).isNone then
    c.insert x { name := x, kind := .variable, type := some "int", initialized := true, line := some line }
  else c.assigned x

/-- The scopes where the body of a function starts. -/
def inside (c : Chain) (params body : Node) : Chain :=
  withNested (withParameters c.enter params.statements) body.statements

mutual

/-- The scopes behind a statement without errors. -/
def after : Chain → Node → Chain
  | c, .declaration x type line => c.insert x { name := x, kind := .variable, type := some type, line := some line }
  | c, .assignment (.text x) _ _ => c.assigned x
  | c, .branch _ yes no _ => after (after c yes) no
  | c, .forLoop x _ _ body line => after (withLoop c x line) body
  | c, .whileLoop _ body _ => after c body
  | c, .doLoop body _ _ => after c body
  | c, .block ss _ => afterAll c ss
  | c, .several ss => afterAll c ss
  | c, .function _ params _ body _ => (after (inside c params body) body).leave
  | c, _ => c

def afterAll : Chain → List Node → Chain
  | c, [] => c
  | c, n :: ns => afterAll (after c n) ns

end

theorem outside_withParameters : ∀ (ps : List Node) (c : Chain), (withParameters c ps).outside = c.outside
  | [], c => by rw [withParameters]
  | p :: ps, c => by
    cases p <;> rw [withParameters, outside_withParameters ps] <;> first | rfl | (intros; contradiction)

theorem outside_withNested : ∀ (ns : List Node) (c : Chain), (withNested c ns).outside = c.outside
  | [], c => by rw [withNested]
  | n :: ns, c => by
    rw [withNested]
    split <;> exact outside_withNested ns _

theorem outside_withLoop (c : Chain) (x : String) (line : Int) : (withLoop c x line).outside = c.outside := by
  unfold withLoop
  split
  · rfl
  · exact c.outside_assigned x

theorem outside_inside (c : Chain) (params body : Node) : (inside c params body).outside = c.settled := by
  unfold inside
  rw [outside_withNested, outside_withParameters]
  rfl

mutual

theorem outside_after : ∀ (n : Node) (c : Chain), (after c n).outside = c.outside
  | .declaration .., c => by
    rw [after]
    rfl
  | .assignment target _ _, c => by
    cases target with
    | text x =>
      rw [after]
      exact c.outside_assigned x
    | _ => simp [after]
  | .branch _ yes no _, c => by rw [after, outside_after no, outside_after yes]
  | .forLoop x _ _ body line, c => by rw [after, outside_after body, outside_withLoop]
  | .whileLoop _ body _, c | .doLoop body _ _, c => by rw [after, outside_after body]
  | .block ss _, c | .several ss, c => by rw [after, outside_afterAll ss]
  | .function _ params _ body _, c => by
    rw [after]
    have h := (outside_after body (inside c params body)).trans (outside_inside c params body)
    exact (List.cons.inj (Chain.settled_leave h)).2
  | .program _, c | .parameter .., c | .call .., c | .ret .., c | .binary .., c | .unary .., c | .identifier .., c
  | .number .., c | .string .., c | .boolean .., c | .ternary .., c | .element .., c | .array .., c | .listOf .., c
  | .bare, c | .nothing, c | .text _, c | .integer _, c => by
    rw [after] <;> (intros; contradiction)

theorem outside_afterAll : ∀ (ns : List Node) (c : Chain), (afterAll c ns).outside = c.outside
  | [], c => by rw [afterAll]
  | n :: ns, c => by rw [afterAll, outside_afterAll ns, outside_after n]

end

theorem settled_after_function {f : Node} (h : f.isFunction = true) (c : Chain) : (after c f).settled = c.settled := by
  cases f with
  | function name params returnType body line =>
    rw [after]
    exact Chain.settled_leave ((outside_after body _).trans (outside_inside c params body))
  | _ => cases h

/-! ### Uses of names -/

/-- What the name of a variable occurs as. -/
inductive Role where
  | value
  | target
  /-- the vector of which a member is read -/
  | read
  /-- the vector of which a member is assigned -/
  | written
  deriving DecidableEq, Repr

/-- An occurrence of the name of a variable, with the scopes at that point of a walk. -/
structure Use where
  role : Role
  name : String
  chain : Chain

mutual

/-- The uses in an expression. -/
def usesIn (c : Chain) : Node → List Use
  | .identifier x _ => [⟨.value, x, c⟩]
  | .element x index _ => ⟨.read, x, c⟩ :: usesIn c index
  | .call _ args _ => usesInAll c args
  | .binary a _ b _ => usesIn c a ++ usesIn c b
  | .unary _ e _ => usesIn c e
  | .ternary condition yes no _ => usesIn c condition ++ usesIn c yes ++ usesIn c no
  | .array es _ => usesInAll c es
  | _ => []

def usesInAll (c : Chain) : List Node → List Use
  | [] => []
  | e :: es => usesIn c e ++ usesInAll c es

end

mutual

/-- The uses in a statement, and in the functions in it. -/
def uses : Chain → Node → List Use
  | c, .assignment (.text x) value _ => usesIn c value ++ [⟨.target, x, c⟩]
  | c, .assignment (.element x index _) value _ => usesIn c value ++ usesIn c index ++ [⟨.written, x, c⟩]
  | c, .ret value _ => usesIn c value
  | c, .branch condition yes no _ => usesIn c condition ++ uses c yes ++ uses (after c yes) no
  | c, .forLoop x start stop body line =>
    usesIn (withLoop c x line) start ++ usesIn (withLoop c x line) stop ++ uses (withLoop c x line) body
  | c, .whileLoop condition body _ => usesIn c condition ++ uses c body
  | c, .doLoop body condition _ => uses c body ++ usesIn (after c body) condition
  | c, .block ss _ => usesAll c ss
  | c, .several ss => usesAll c ss
  | c, .function _ params _ body _ => uses (inside c params body) body
  | c, n => usesIn c n

def usesAll : Chain → List Node → List Use
  | _, [] => []
  | c, n :: ns => uses c n ++ usesAll (after c n) ns

end

/-- **The uses of names in a program.** -/
def usesOf (fs : List Node) : List Use := usesAll (withFunctions {} fs) fs

/-- What the checker has seen to at a use of a name, if there was no error. -/
def Use.Passes (u : Use) : Prop :=
  match u.role with
  | .value => ∃ symbol, u.chain.lookup u.name = some symbol ∧ symbol.initialized = true
  | .target => ∃ symbol, u.chain.lookup u.name = some symbol
  | .written => ∃ symbol, u.chain.lookup u.name = some symbol ∧ symbol.type = some "vector"
  | .read => True

def Pass (us : List Use) : Prop := ∀ u ∈ us, u.Passes

namespace Pass

theorem nil : Pass [] := fun _ h => nomatch h

theorem append {us vs : List Use} (hu : Pass us) (hv : Pass vs) : Pass (us ++ vs) :=
  fun u h => (List.mem_append.1 h).elim (hu u) (hv u)

theorem cons {u : Use} {us : List Use} (h : u.Passes) (hu : Pass us) : Pass (u :: us) := by
  intro v hv
  rcases List.mem_cons.1 hv with rfl | hv
  · exact h
  · exact hu v hv

theorem one {u : Use} (h : u.Passes) : Pass [u] := .cons h .nil

end Pass

/-! ### Calls -/

/-- What the name of a call is bound to takes as many arguments, unless the function is built in. -/
def Callable (c : Chain) (f : String) (n : Nat) : Prop :=
  Builtin.ofName? f = none → ∃ symbol, c.lookup f = some symbol ∧ symbol.params.length = n

mutual

/-- The calls in an expression find what they call. -/
def AnsweredIn (c : Chain) : Node → Prop
  | .element _ index _ => AnsweredIn c index
  | .call f args _ => AnsweredInAll c args ∧ Callable c f args.length
  | .binary a _ b _ => AnsweredIn c a ∧ AnsweredIn c b
  | .unary _ e _ => AnsweredIn c e
  | .ternary condition yes no _ => AnsweredIn c condition ∧ AnsweredIn c yes ∧ AnsweredIn c no
  | .array es _ => AnsweredInAll c es
  | _ => True

def AnsweredInAll (c : Chain) : List Node → Prop
  | [] => True
  | e :: es => AnsweredIn c e ∧ AnsweredInAll c es

end

mutual

/-- The calls in a statement, and in the functions in it, find what they call; and these functions have parameters in
parentheses. -/
def Answered : Chain → Node → Prop
  | c, .assignment (.element _ index _) value _ => AnsweredIn c value ∧ AnsweredIn c index
  | c, .assignment _ value _ => AnsweredIn c value
  | c, .ret value _ => AnsweredIn c value
  | c, .branch condition yes no _ => AnsweredIn c condition ∧ Answered c yes ∧ Answered (after c yes) no
  | c, .forLoop x start stop body line =>
    AnsweredIn (withLoop c x line) start ∧ AnsweredIn (withLoop c x line) stop ∧ Answered (withLoop c x line) body
  | c, .whileLoop condition body _ => AnsweredIn c condition ∧ Answered c body
  | c, .doLoop body condition _ => Answered c body ∧ AnsweredIn (after c body) condition
  | c, .block ss _ => AnsweredAll c ss
  | c, .several ss => AnsweredAll c ss
  | c, .function _ params _ body _ => isSeveral params = true ∧ Answered (inside c params body) body
  | c, n => AnsweredIn c n

def AnsweredAll : Chain → List Node → Prop
  | _, [] => True
  | c, n :: ns => Answered c n ∧ AnsweredAll (after c n) ns

end

/-! ### What functions bind -/

theorem signature_pairs : ∀ {ps : List Node} {sig : List (String × String)} {s s' : Checker}, ps.all isParameter = true →
    Ran (signature ps) s sig s' → sig = pairs ps ∧ s' = s
  | [], _, _, _, _, h => ran_pure.1 h
  | p :: ps, sig, s, s', hp, h => by
    rw [List.all_cons, Bool.and_eq_true] at hp
    cases p with
    | parameter x type line =>
      have h : Ran (do let rest ← signature ps; pure ((x, type) :: rest)) s sig s' := h
      obtain ⟨rest, s₁, h₁, h₂⟩ := ran_bind.1 h
      obtain ⟨rfl, rfl⟩ := signature_pairs hp.2 h₁
      exact ran_pure.1 h₂
    | _ => cases hp.1

theorem bindFunction_symbol {f : Node} {s s' : Checker} {u : Unit} (hf : isStatement f = true)
    (hr : Ran (bindFunction f) s u s') :
    ∃ symbol, functionSymbol? f = some symbol ∧ s' = { s with chain := s.chain.insert symbol.name symbol } := by
  cases f with
  | function name params returnType body line =>
    obtain ⟨-, ⟨ps, ss, rfl, -, hps, -⟩ | ⟨rfl, -⟩⟩ := isStatement_function.1 hf
    · obtain ⟨sig, s₁, h₁, h₂⟩ := ran_bind.1 ((ran_pure.2 ⟨rfl, rfl⟩ : Ran (parameters (.several ps)) s ps s).bind_iff.1 hr)
      obtain ⟨rfl, rfl⟩ := signature_pairs hps h₁
      obtain rfl := ran_bindName.1 h₂
      exact ⟨_, rfl, rfl⟩
    · obtain ⟨sig, s₁, h₁, -⟩ := ran_bind.1 ((ran_pure.2 ⟨rfl, rfl⟩ : Ran (parameters (.text ")")) s [.text ")"] s).bind_iff.1 hr)
      exact (not_signature_text h₁).elim
  | _ => exact (ran_throw hr).elim

theorem bindParameters_chain : ∀ {ps : List Node} {s s' : Checker} {u : Unit}, ps.all isParameter = true →
    Ran (bindParameters ps) s u s' → s'.chain = withParameters s.chain ps
  | [], _, _, _, _, hr => by
    obtain ⟨-, rfl⟩ := ran_pure.1 hr
    rw [withParameters]
  | p :: ps, s, s', u, hp, hr => by
    rw [List.all_cons, Bool.and_eq_true] at hp
    cases p with
    | parameter x type line =>
      have hr : Ran (do
          bindName x
            { name := x, kind := .variable, type := some type, initialized := true, line := some line }
          bindParameters ps) s u s' := hr
      obtain ⟨_, _, h₁, h₂⟩ := ran_bind.1 hr
      obtain rfl := ran_bindName.1 h₁
      rw [withParameters]
      exact bindParameters_chain hp.2 h₂
    | _ => cases hp.1

theorem functionSymbol?_eq_none {n : Node} (h : n.isFunction = false) : functionSymbol? n = none := by
  cases n with
  | function => cases h
  | _ => rfl

theorem bindNested_chain : ∀ {ns : List Node} {s s' : Checker} {u : Unit}, areStatements ns = true →
    Ran (bindNested ns) s u s' → s'.chain = withNested s.chain ns
  | [], _, _, _, _, hr => by
    obtain ⟨-, rfl⟩ := ran_pure.1 hr
    rw [withNested]
  | n :: ns, s, s', u, hn, hr => by
    simp only [areStatements, Bool.and_eq_true] at hn
    rw [bindNested] at hr
    rw [withNested]
    cases hf : n.isFunction with
    | true =>
      rw [hf] at hr
      obtain ⟨_, s₁, h₁, hr⟩ := ran_bind.1 hr
      obtain ⟨symbol, e, rfl⟩ := bindFunction_symbol hn.1.2 h₁
      rw [e]
      exact bindNested_chain hn.2 hr
    | false =>
      rw [hf] at hr
      rw [functionSymbol?_eq_none hf]
      exact bindNested_chain hn.2 hr

theorem bindProgram_chain : ∀ {fs : List Node} {s s' : Checker} {u : Unit}, areFunctions fs = true →
    Ran (bindProgram fs) s u s' → s'.chain = withFunctions s.chain fs
  | [], _, _, _, _, hr => by
    obtain ⟨-, rfl⟩ := ran_pure.1 hr
    rw [withFunctions]
  | f :: fs, s, s', u, hf, hr => by
    simp only [areFunctions, List.all_cons, Bool.and_eq_true] at hf
    cases f with
    | function name params returnType body line =>
      have hr : Ran (do
          if (s.chain.inner.find? name).isNone then bindFunction (.function name params returnType body line)
          bindProgram fs) s u s' := hr
      rw [withFunctions]
      dsimp only [functionSymbol?]
      cases hx : (s.chain.inner.find? name).isNone with
      | false =>
        rw [hx] at hr
        rw [if_neg Bool.false_ne_true]
        exact bindProgram_chain hf.2 hr
      | true =>
        rw [hx] at hr
        rw [if_pos rfl]
        obtain ⟨_, s₁, h₁, h₂⟩ := ran_bind.1 hr
        obtain ⟨symbol, e, rfl⟩ := bindFunction_symbol hf.1.2 h₁
        cases e
        exact bindProgram_chain hf.2 h₂
    | _ => cases hf.1.1

theorem bindLoopVariable_chain {x : String} {line : Int} {s s' : Checker} {u : Unit}
    (hr : Ran (bindLoopVariable x line) s u s') : s'.chain = withLoop s.chain x line := by
  unfold bindLoopVariable at hr
  obtain ⟨symbol, s₁, h₁, h₂⟩ := ran_bind.1 hr
  obtain ⟨e, rfl⟩ := ran_lookup.1 h₁
  unfold withLoop
  rw [← e]
  cases symbol with
  | none =>
    obtain rfl := ran_bindName.1 h₂
    rfl
  | some _ =>
    obtain rfl := ran_assigned.1 h₂
    rfl

/-! ### Walks without errors -/

theorem not_reportIn {cause : String → Cause} {line : Int} {s s' : Checker} {u : Unit}
    (hr : Ran (do let function ← enclosingName; report (cause function) line) s u s') : s'.found ≠ [] := by
  obtain ⟨_, s₁, -, h⟩ := ran_bind.1 hr
  obtain rfl := ran_report.1 h
  simp

theorem declare_chain {x type : String} {line : Int} {s s' : Checker} {u : Unit} (hr : Ran (declare x type line) s u s')
    (hn : s'.found = []) : s'.chain = after s.chain (.declaration x type line) := by
  unfold declare at hr
  rw [(ran_get.2 ⟨rfl, rfl⟩ : Ran get s s s).bind_iff] at hr
  cases hx : s.chain.inner.find? x with
  | some _ =>
    simp only [hx] at hr
    obtain rfl := ran_report.1 hr
    simp at hn
  | none =>
    simp only [hx] at hr
    obtain rfl := ran_bindName.1 hr
    rw [after]

theorem passes_identifier {x : String} {line : Int} {s s' : Checker} {u : Unit} (hr : Ran (checkIdentifier x line) s u s')
    (hn : s'.found = []) : Use.Passes ⟨.value, x, s.chain⟩ := by
  unfold checkIdentifier at hr
  obtain ⟨symbol, s₁, h₁, hr⟩ := ran_bind.1 hr
  obtain ⟨e, rfl⟩ := ran_lookup.1 h₁
  cases symbol with
  | none => exact absurd hn (not_reportIn hr)
  | some symbol =>
    refine ⟨symbol, e.symm, ?_⟩
    cases hi : symbol.initialized with
    | true => rfl
    | false =>
      dsimp only at hr
      rw [hi] at hr
      exact absurd hn (not_reportIn hr)

theorem passes_target {x : String} {value : Node} {line : Int} {s s' : Checker} {u : Unit}
    (hr : Ran (assignVariable x value line) s u s') (hn : s'.found = []) :
    Use.Passes ⟨.target, x, s.chain⟩ ∧ s'.chain = s.chain.assigned x := by
  unfold assignVariable at hr
  obtain ⟨symbol, s₁, h₁, hr⟩ := ran_bind.1 hr
  obtain ⟨e, rfl⟩ := ran_lookup.1 h₁
  cases symbol with
  | none => exact absurd hn (not_reportIn hr)
  | some symbol =>
    obtain ⟨_, s₂, h₂, hr⟩ := ran_bind.1 hr
    obtain rfl := ran_assigned.1 h₂
    exact ⟨⟨symbol, e.symm⟩, (Noting.mismatch _ _ _ _ _ _ _ hr).chain⟩

theorem passes_written {x : String} {line : Int} {s s' : Checker} {u : Unit} (hr : Ran (assignElement x line) s u s')
    (hn : s'.found = []) : Use.Passes ⟨.written, x, s.chain⟩ := by
  unfold assignElement at hr
  obtain ⟨symbol, s₁, h₁, hr⟩ := ran_bind.1 hr
  obtain ⟨e, rfl⟩ := ran_lookup.1 h₁
  cases symbol with
  | none => exact absurd hn (not_reportIn hr)
  | some symbol =>
    refine ⟨symbol, e.symm, ?_⟩
    by_cases ht : symbol.type = some "vector"
    · exact ht
    · dsimp only at hr
      rw [if_pos ht] at hr
      exact absurd hn (not_reportIn hr)

theorem callable_of_checkCall {f : String} {args : List Node} {line : Int} {s s' : Checker} {t : Option String}
    (hr : Ran (checkCall f args line) s t s') (hn : s'.found = []) : Callable s.chain f args.length := by
  intro hf
  unfold checkCall at hr
  rw [hf] at hr
  obtain ⟨symbol, s₁, h₁, hr⟩ := ran_bind.1 hr
  obtain ⟨e, rfl⟩ := ran_lookup.1 h₁
  cases symbol with
  | none =>
    obtain ⟨_, s₂, h₂, h₃⟩ := ran_bind.1 hr
    obtain rfl := ran_report.1 h₂
    obtain ⟨-, rfl⟩ := ran_pure.1 h₃
    simp at hn
  | some symbol =>
    refine ⟨symbol, e.symm, ?_⟩
    by_cases hl : symbol.params.length = args.length
    · exact hl
    · dsimp only at hr
      rw [if_pos hl] at hr
      obtain ⟨_, s₂, h₂, h₃⟩ := ran_bind.1 hr
      obtain rfl := ran_report.1 h₂
      obtain ⟨-, rfl⟩ := ran_pure.1 h₃
      simp at hn

mutual

theorem passes_expression {right : String → Bool} : ∀ {e : Node}, isExpression right e = true →
    ∀ ⦃s s' : Checker⦄ ⦃t : Option String⦄, Ran (visit e) s t s' → s'.found = [] →
      Pass (usesIn s.chain e) ∧ AnsweredIn s.chain e
  | .number .., _ | .string .., _ | .boolean .., _ => by
    intro s s' t _ _
    rw [usesIn] <;> first | exact ⟨.nil, trivial⟩ | (intros; contradiction)
  | .identifier x line, _ => by
    intro s s' t hr hn
    rw [visit] at hr
    obtain ⟨_, s₁, h₁, h₂⟩ := ran_bind.1 hr
    obtain ⟨-, rfl⟩ := ran_pure.1 h₂
    rw [usesIn]
    exact ⟨.one (passes_identifier h₁ hn), trivial⟩
  | .call f args line, h => by
    intro s s' t hr hn
    simp only [isExpression, Bool.and_eq_true] at h
    rw [visit] at hr
    obtain ⟨_, s₁, h₁, h₂⟩ := ran_bind.1 hr
    have hn₁ := (allows_reports.of_noting (.checkCall f args line) _ _ _ h₂).nil hn
    obtain ⟨pass, answered⟩ := passes_expressions h.2 h₁ hn₁
    have callable := callable_of_checkCall h₂ hn
    rw [(visitAll_noting h.2 _ _ _ h₁).chain] at callable
    rw [usesIn]
    exact ⟨pass, answered, callable⟩
  | .element x index _, h => by
    intro s s' t hr hn
    simp only [isExpression, Bool.and_eq_true] at h
    rw [visit] at hr
    obtain ⟨_, s₁, h₁, h₂⟩ := ran_bind.1 hr
    obtain ⟨-, rfl⟩ := ran_pure.1 h₂
    rw [usesIn]
    obtain ⟨pass, answered⟩ := passes_expression h.2 h₁ hn
    exact ⟨.cons trivial pass, answered⟩
  | .unary _ e _, h => by
    intro s s' t hr hn
    simp only [isExpression] at h
    rw [visit] at hr
    obtain ⟨_, s₁, h₁, h₂⟩ := ran_bind.1 hr
    obtain ⟨-, rfl⟩ := ran_pure.1 h₂
    rw [usesIn]
    exact passes_expression h h₁ hn
  | .array es _, h => by
    intro s s' t hr hn
    simp only [isExpression] at h
    rw [visit] at hr
    obtain ⟨_, s₁, h₁, h₂⟩ := ran_bind.1 hr
    obtain ⟨-, rfl⟩ := ran_pure.1 h₂
    rw [usesIn]
    exact passes_expressions h h₁ hn
  | .binary a _ b _, h => by
    intro s s' t hr hn
    simp only [isExpression, Bool.and_eq_true] at h
    rw [visit] at hr
    obtain ⟨_, s₁, h₁, hr⟩ := ran_bind.1 hr
    obtain ⟨_, s₂, h₂, h₃⟩ := ran_bind.1 hr
    obtain ⟨-, rfl⟩ := ran_pure.1 h₃
    have left := passes_expression h.1 h₁ (found_of_ran h₂ hn)
    have right := passes_expression h.2 h₂ hn
    rw [(visit_noting h.1 _ _ _ h₁).chain] at right
    rw [usesIn]
    exact ⟨left.1.append right.1, left.2, right.2⟩
  | .ternary condition yes no line, h => by
    intro s s' t hr hn
    simp only [isExpression, Bool.and_eq_true] at h
    rw [visit, single_expression h.1.1, single_expression h.1.2, single_expression h.2] at hr
    obtain ⟨_, s₁, h₁, hr⟩ := ran_bind.1 hr
    obtain ⟨_, s₂, h₂, hr⟩ := ran_bind.1 hr
    obtain ⟨_, s₃, h₃, hr⟩ := ran_bind.1 hr
    obtain ⟨_, s₄, h₄, h₅⟩ := ran_bind.1 hr
    obtain ⟨-, rfl⟩ := ran_pure.1 h₅
    have hn₃ := (allows_reports.of_noting (.checkCondition condition line) _ _ _ h₄).nil hn
    have hn₂ := found_of_ran h₃ hn₃
    have same₁ := (visit_noting h.1.1 _ _ _ h₁).chain
    have same₂ := (visit_noting h.1.2 _ _ _ h₂).chain
    have first := passes_expression h.1.1 h₁ (found_of_ran h₂ hn₂)
    have second := passes_expression h.1.2 h₂ hn₂
    have third := passes_expression h.2 h₃ hn₃
    rw [same₁] at second
    rw [same₂, same₁] at third
    rw [usesIn]
    exact ⟨(first.1.append second.1).append third.1, first.2, second.2, third.2⟩

theorem passes_expressions {right : String → Bool} : ∀ {es : List Node}, areExpressions right es = true →
    ∀ ⦃s s' : Checker⦄ ⦃u : Unit⦄, Ran (visitAll es) s u s' → s'.found = [] →
      Pass (usesInAll s.chain es) ∧ AnsweredInAll s.chain es
  | [], _ => by
    intro s s' u _ _
    rw [usesInAll]
    exact ⟨.nil, trivial⟩
  | e :: es, h => by
    intro s s' u hr hn
    simp only [areExpressions, Bool.and_eq_true] at h
    rw [visitAll, single_expression h.1] at hr
    obtain ⟨_, s₁, h₁, h₂⟩ := ran_bind.1 hr
    have first := passes_expression h.1 h₁ ((allows_reports.visitAll es _ _ _ h₂).nil hn)
    have rest := passes_expressions h.2 h₂ hn
    rw [(visit_noting h.1 _ _ _ h₁).chain] at rest
    rw [usesInAll]
    exact ⟨first.1.append rest.1, first.2, rest.2⟩

end

theorem after_assignElement (c : Chain) (x : String) (index value : Node) (k line : Int) :
    after c (.assignment (.element x index k) value line) = c := by simp [after]

theorem visit_assignment {target value : Node} {line : Int} {s s' : Checker} {t : Option String}
    (h : isStatement (.assignment target value line) = true) (hr : Ran (visit (.assignment target value line)) s t s')
    (hn : s'.found = []) : s'.chain = after s.chain (.assignment target value line) ∧
      Pass (uses s.chain (.assignment target value line)) ∧ Answered s.chain (.assignment target value line) := by
  obtain ⟨hv, ⟨x, rfl, -⟩ | ⟨x, index, k, rfl, -, hi⟩⟩ := isStatement_assignment.1 h
  · rw [visit, single_expression hv] at hr
    obtain ⟨_, s₁, h₁, hr⟩ := ran_bind.1 hr
    obtain ⟨_, s₂, h₂, h₃⟩ := ran_bind.1 hr
    obtain ⟨-, rfl⟩ := ran_pure.1 h₃
    have same := (visit_noting hv _ _ _ h₁).chain
    have first := passes_expression hv h₁ ((allows_reports.assignVariable _ _ _ _ _ _ h₂).nil hn)
    obtain ⟨target, hc⟩ := passes_target h₂ hn
    rw [same] at target hc
    rw [after, uses]
    exact ⟨hc, first.1.append (.one target), first.2⟩
  · rw [visit, single_expression hv, single_expression hi] at hr
    obtain ⟨_, s₁, h₁, hr⟩ := ran_bind.1 hr
    obtain ⟨_, s₂, h₂, hr⟩ := ran_bind.1 hr
    obtain ⟨_, s₃, h₃, h₄⟩ := ran_bind.1 hr
    obtain ⟨-, rfl⟩ := ran_pure.1 h₄
    have same₁ := (visit_noting hv _ _ _ h₁).chain
    have same₂ := (visit_noting hi _ _ _ h₂).chain
    have hn₂ := (allows_reports.of_noting (.assignElement x line) _ _ _ h₃).nil hn
    have first := passes_expression hv h₁ (found_of_ran h₂ hn₂)
    have second := passes_expression hi h₂ hn₂
    have written := passes_written h₃ hn
    rw [same₁] at second
    rw [same₂, same₁] at written
    rw [uses, after_assignElement, (Noting.assignElement _ _ _ _ _ h₃).chain, same₂, same₁]
    exact ⟨rfl, (first.1.append second.1).append (.one written), first.2, second.2⟩

theorem visit_ret {value : Node} {line : Int} {s s' : Checker} {t : Option String} (h : isStatement (.ret value line) = true)
    (hr : Ran (visit (.ret value line)) s t s') (hn : s'.found = []) :
    s'.chain = s.chain ∧ Pass (usesIn s.chain value) ∧ AnsweredIn s.chain value := by
  rw [visit, (ran_get.2 ⟨rfl, rfl⟩ : Ran get s s s).bind_iff] at hr
  cases he : s.enclosing with
  | none =>
    rw [he] at hr
    obtain ⟨_, s₁, h₁, h₂⟩ := ran_bind.1 hr
    obtain rfl := ran_report.1 h₁
    obtain ⟨-, rfl⟩ := ran_pure.1 h₂
    simp at hn
  | some e =>
    rw [he] at hr
    obtain ⟨_, s₁, h₁, hr⟩ := ran_bind.1 hr
    obtain ⟨_, s₂, h₂, h₃⟩ := ran_bind.1 hr
    obtain ⟨-, rfl⟩ := ran_pure.1 h₃
    have hn₁ := (allows_reports.of_noting (.checkReturn e value line) _ _ _ h₂).nil hn
    rw [(Noting.checkReturn _ _ _ _ _ _ h₂).chain]
    rcases isStatement_ret.1 h with rfl | hv
    · have h₁ : Ran (visit .nothing) s _ s₁ := h₁
      rw [visit] at h₁
      obtain ⟨-, rfl⟩ := ran_pure.1 h₁
      rw [usesIn] <;> first | exact ⟨rfl, .nil, trivial⟩ | (intros; contradiction)
    · rw [single_expression hv] at h₁
      exact ⟨(visit_noting hv _ _ _ h₁).chain, passes_expression hv h₁ hn₁⟩

mutual

/-- **A walk without errors ends with the scopes behind the statement**, and on its way all uses of names have passed and
all calls have been answered. -/
theorem visit_uses : ∀ {n : Node}, isStatement n = true → ∀ ⦃s s' : Checker⦄ ⦃t : Option String⦄,
    Ran (visit n) s t s' → s'.found = [] → s'.chain = after s.chain n ∧ Pass (uses s.chain n) ∧ Answered s.chain n
  | .declaration x type line, h => by
    intro s s' t hr hn
    rw [visit] at hr
    obtain ⟨_, s₁, h₁, h₂⟩ := ran_bind.1 hr
    obtain ⟨-, rfl⟩ := ran_pure.1 h₂
    rw [uses, usesIn] <;> first | exact ⟨declare_chain h₁ hn, .nil, trivial⟩ | (intros; contradiction)
  | .assignment target value line, h => fun s s' t hr hn => visit_assignment h hr hn
  | .call f args line, h => by
    intro s s' t hr hn
    simp only [isStatement, Bool.and_eq_true] at h
    rw [visit] at hr
    obtain ⟨_, s₁, h₁, h₂⟩ := ran_bind.1 hr
    have hn₁ := (allows_reports.of_noting (.checkCall f args line) _ _ _ h₂).nil hn
    obtain ⟨pass, answered⟩ := passes_expressions h.2 h₁ hn₁
    have callable := callable_of_checkCall h₂ hn
    have same := (visitAll_noting h.2 _ _ _ h₁).chain
    rw [same] at callable
    rw [(Noting.checkCall _ _ _ _ _ _ h₂).chain, same]
    rw [after, uses, usesIn] <;> first | exact ⟨rfl, pass, answered, callable⟩ | (intros; contradiction)
  | .ret value line, h => by
    intro s s' t hr hn
    rw [after, uses]
    · exact visit_ret h hr hn
    all_goals
      intros
      contradiction
  | .branch condition yes no _, h => by
    intro s s' t hr hn
    obtain ⟨hc, hy, ho⟩ := isStatement_branch.1 h
    rw [visit] at hr
    obtain ⟨_, s₁, h₁, hr⟩ := ran_bind.1 hr
    obtain ⟨_, s₂, h₂, hr⟩ := ran_bind.1 hr
    obtain ⟨_, s₃, h₃, h₄⟩ := ran_bind.1 hr
    obtain ⟨-, rfl⟩ := ran_pure.1 h₄
    have hn₂ := found_of_ran h₃ hn
    have first := passes_expression hc h₁ (found_of_ran h₂ hn₂)
    obtain ⟨same₂, second⟩ := visit_uses hy h₂ hn₂
    rw [(visit_noting hc _ _ _ h₁).chain] at same₂ second
    have rest : s'.chain = after s₂.chain no ∧ Pass (uses s₂.chain no) ∧ Answered s₂.chain no := by
      rcases ho with rfl | ho
      · rw [visit] at h₃
        obtain ⟨-, rfl⟩ := ran_pure.1 h₃
        rw [after, uses, usesIn] <;> first | exact ⟨rfl, .nil, trivial⟩ | (intros; contradiction)
      · exact visit_uses ho h₃ hn
    rw [same₂] at rest
    rw [after, uses]
    exact ⟨rest.1, (first.1.append second.1).append rest.2.1, first.2, second.2, rest.2.2⟩
  | .whileLoop condition body _, h => by
    intro s s' t hr hn
    simp only [isStatement, Bool.and_eq_true] at h
    rw [visit] at hr
    obtain ⟨_, s₁, h₁, hr⟩ := ran_bind.1 hr
    obtain ⟨_, s₂, h₂, h₃⟩ := ran_bind.1 hr
    obtain ⟨-, rfl⟩ := ran_pure.1 h₃
    have first := passes_expression h.1 h₁ (found_of_ran h₂ hn)
    have rest := visit_uses h.2 h₂ hn
    rw [(visit_noting h.1 _ _ _ h₁).chain] at rest
    rw [after, uses]
    exact ⟨rest.1, first.1.append rest.2.1, first.2, rest.2.2⟩
  | .doLoop body condition _, h => by
    intro s s' t hr hn
    simp only [isStatement, Bool.and_eq_true] at h
    rw [visit] at hr
    obtain ⟨_, s₁, h₁, hr⟩ := ran_bind.1 hr
    obtain ⟨_, s₂, h₂, h₃⟩ := ran_bind.1 hr
    obtain ⟨-, rfl⟩ := ran_pure.1 h₃
    obtain ⟨same, first⟩ := visit_uses h.1 h₁ (found_of_ran h₂ hn)
    have second := passes_expression h.2 h₂ hn
    rw [same] at second
    rw [after, uses]
    exact ⟨(visit_noting h.2 _ _ _ h₂).chain.trans same, first.1.append second.1, first.2, second.2⟩
  | .forLoop x start stop body line, h => by
    intro s s' t hr hn
    obtain ⟨-, ha, hz, ss, rfl, hss⟩ := isStatement_forLoop.1 h
    rw [visit, single_expression ha, single_expression hz] at hr
    obtain ⟨_, s₀, h₀, hr⟩ := ran_bind.1 hr
    obtain ⟨_, s₁, h₁, hr⟩ := ran_bind.1 hr
    obtain ⟨_, s₂, h₂, hr⟩ := ran_bind.1 hr
    obtain ⟨_, s₃, h₃, hr⟩ := ran_bind.1 hr
    obtain ⟨_, s₄, h₄, h₅⟩ := ran_bind.1 hr
    obtain ⟨-, rfl⟩ := ran_pure.1 h₅
    have hn₂ := (allows_reports.of_noting (.checkRange start stop line) _ _ _ h₃).nil (found_of_ran h₄ hn)
    have same₀ := bindLoopVariable_chain h₀
    have same₁ := (visit_noting ha _ _ _ h₁).chain
    have same₂ := (visit_noting hz _ _ _ h₂).chain
    have first := passes_expression ha h₁ (found_of_ran h₂ hn₂)
    have second := passes_expression hz h₂ hn₂
    rw [visit] at h₄
    obtain ⟨_, s₅, h₅, h₆⟩ := ran_bind.1 h₄
    obtain ⟨-, rfl⟩ := ran_pure.1 h₆
    have rest := visitAll_uses hss h₅ hn
    rw [same₀] at first
    rw [same₁, same₀] at second
    rw [(Noting.checkRange _ _ _ _ _ _ h₃).chain, same₂, same₁, same₀] at rest
    rw [after, after, uses, uses]
    exact ⟨rest.1, (first.1.append second.1).append rest.2.1, first.2, second.2, rest.2.2⟩
  | .block ss _, h | .several ss, h => by
    intro s s' t hr hn
    simp only [isStatement] at h
    rw [visit] at hr
    obtain ⟨_, s₁, h₁, h₂⟩ := ran_bind.1 hr
    obtain ⟨-, rfl⟩ := ran_pure.1 h₂
    rw [after, uses]
    exact visitAll_uses h h₁ hn
  | .function f params returnType body line, h => by
    intro s s' t hr hn
    rw [visit, (ran_get.2 ⟨rfl, rfl⟩ : Ran get s s s).bind_iff] at hr
    obtain ⟨_, s₀, h₀, hr⟩ := ran_bind.1 hr
    obtain rfl := ran_modify.1 h₀
    obtain ⟨ps, s₁, h₁, hr⟩ := ran_bind.1 hr
    obtain ⟨_, s₂, h₂, hr⟩ := ran_bind.1 hr
    obtain ⟨_, s₃, h₃, hr⟩ := ran_bind.1 hr
    obtain ⟨_, s₄, h₄, hr⟩ := ran_bind.1 hr
    obtain ⟨_, s₅, h₅, h₆⟩ := ran_bind.1 hr
    obtain ⟨-, rfl⟩ := ran_pure.1 h₆
    obtain rfl := ran_modify.1 h₅
    obtain ⟨-, ⟨ps', ss, rfl, rfl, hps, hss⟩ | ⟨rfl, -⟩⟩ := isStatement_function.1 h
    · obtain ⟨rfl, rfl⟩ := ran_pure.1 h₁
      have start : s₃.chain = inside s.chain (.several ps) (.several ss) :=
        (bindNested_chain hss h₃).trans (congrArg (withNested · ss) (bindParameters_chain hps h₂))
      rw [visit] at h₄
      obtain ⟨_, s₅, h₄, h₇⟩ := ran_bind.1 h₄
      obtain ⟨-, rfl⟩ := ran_pure.1 h₇
      obtain ⟨same, pass, answered⟩ := visitAll_uses hss h₄ hn
      rw [start] at same pass answered
      rw [after, after, uses, uses]
      exact ⟨congrArg Chain.leave same, pass, rfl, answered⟩
    · obtain ⟨rfl, rfl⟩ := ran_pure.1 h₁
      obtain ⟨_, _, h₂, -⟩ := ran_bind.1 h₂
      cases (ran_nameOf.1 h₂).1
termination_by n => sizeOf n
decreasing_by all_goals (subst_vars; simp +arith)

theorem visitAll_uses : ∀ {ns : List Node}, areStatements ns = true → ∀ ⦃s s' : Checker⦄ ⦃u : Unit⦄,
    Ran (visitAll ns) s u s' → s'.found = [] →
      s'.chain = afterAll s.chain ns ∧ Pass (usesAll s.chain ns) ∧ AnsweredAll s.chain ns
  | [], _ => by
    intro s s' u hr hn
    rw [visitAll] at hr
    obtain ⟨-, rfl⟩ := ran_pure.1 hr
    rw [afterAll, usesAll]
    exact ⟨rfl, .nil, trivial⟩
  | n :: ns, h => by
    intro s s' u hr hn
    simp only [areStatements, Bool.and_eq_true, Bool.not_eq_true'] at h
    rw [visitAll, single_statement h.1.1] at hr
    obtain ⟨_, s₁, h₁, h₂⟩ := ran_bind.1 hr
    obtain ⟨same, first⟩ := visit_uses h.1.2 h₁ ((allows_reports.visitAll ns _ _ _ h₂).nil hn)
    have rest := visitAll_uses h.2 h₂ hn
    rw [same] at rest
    rw [afterAll, usesAll]
    exact ⟨rest.1, first.1.append rest.2.1, first.2, rest.2.2⟩
termination_by ns => sizeOf ns
decreasing_by all_goals simp +arith

end

theorem visitFunctions_uses : ∀ {fs : List Node}, areFunctions fs = true → ∀ {s s' : Checker} {u : Unit},
    Ran (visitFunctions fs) s u s' → s'.found = [] → Pass (usesAll s.chain fs) ∧ AnsweredAll s.chain fs
  | [], _, _, _, _, _, _ => by
    rw [usesAll]
    exact ⟨.nil, trivial⟩
  | f :: fs, h, s, s', u, hr, hn => by
    simp only [areFunctions, List.all_cons, Bool.and_eq_true] at h
    rw [visitFunctions, h.1.1, if_pos rfl] at hr
    obtain ⟨_, s₁, h₁, h₂⟩ := ran_bind.1 hr
    obtain ⟨same, first⟩ := visit_uses h.1.2 h₁ ((allows_reports.visitFunctions fs _ _ _ h₂).nil hn)
    have rest := visitFunctions_uses h.2 h₂ hn
    rw [same] at rest
    rw [usesAll]
    exact ⟨first.1.append rest.1, first.2, rest.2⟩

/-- **In a program without errors all uses of names have passed, and all calls have been answered.** -/
theorem uses_of_check {fs : List Node} (h : areFunctions fs = true) (accepted : check fs = .ok []) :
    Pass (usesOf fs) ∧ AnsweredAll (withFunctions {} fs) fs := by
  unfold check at accepted
  cases hr : (visit (.program fs)).run {} with
  | error f s' => rw [hr] at accepted; cases accepted
  | ok t s' =>
    rw [hr] at accepted
    have hn : s'.found = [] := by simpa using accepted
    have hr : Ran (visit (.program fs)) {} t s' := hr
    rw [visit] at hr
    obtain ⟨_, s₁, h₁, hr⟩ := ran_bind.1 hr
    obtain ⟨_, s₂, h₂, h₃⟩ := ran_bind.1 hr
    obtain ⟨-, rfl⟩ := ran_pure.1 h₃
    have passed := visitFunctions_uses h h₂ hn
    rw [bindProgram_chain h h₁] at passed
    exact passed

end Check
end TesLang
