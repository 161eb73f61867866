import TesLang.Proofs.Checking.Run
import TesLang.Proofs.Session.EntryPoints
/-!
# Walks that come to an end

A walk ends with a fault where it needs the name of the enclosing function and there is none, where a function is expected
and another node is found, or where parameters have no names.  In the tree of a text, statements stand inside functions
only, and functions stand where they are expected.  What is left is the function with an arrow and without parameters: it
has a piece of text in the place of its parameters, and the characters of that text have no names.

So whatever text was read, with syntax errors or without, its tree is walked to the end exactly if no node of it is such a
function (`visitTree_ends_iff`).  `Ends I m p` says that `m` comes to its end exactly if `p` holds.
-/
namespace TesLang

namespace Node

mutual

/-- All that stands under a node, fillers included. -/
def under : Node → List Node
  | program ns | call _ ns _ | block ns _ | array ns _ | several ns => underAll ns
  | ret a _ | unary _ a _ | element _ a _ | listOf a _ => a :: under a
  | function _ a _ b _ | assignment a b _ | whileLoop a b _ | doLoop a b _ | binary a _ b _ =>
    (a :: under a) ++ (b :: under b)
  | branch a b c _ | forLoop _ a b c _ | ternary a b c _ => (a :: under a) ++ (b :: under b) ++ (c :: under c)
  | parameter .. | declaration .. | identifier .. | number .. | string .. | boolean .. => []
  | bare | nothing | text _ | integer _ => []

/-- Some nodes with all that stands below them. -/
def underAll : List Node → List Node
  | [] => []
  | n :: ns => (n :: under n) ++ underAll ns

end

/-- All nodes of a tree. -/
def nodes (n : Node) : List Node := n :: n.under

theorem underAll_eq (ns : List Node) : underAll ns = ns.flatMap nodes := by
  induction ns with
  | nil => rfl
  | cons n ns ih =>
    rw [underAll, ih, List.flatMap_cons]
    rfl

/-- A function with a piece of text in the place of its parameters.  The parser makes it of a function with an arrow and
without parameters. -/
def isBareArrow : Node → Bool
  | function _ (text _) _ _ _ => true
  | _ => false

/-- No function in a tree is one with an arrow and without parameters. -/
def Unarrowed (n : Node) : Prop := ∀ m ∈ n.nodes, m.isBareArrow = false

instance (n : Node) : Decidable n.Unarrowed := inferInstanceAs (Decidable (∀ m ∈ n.nodes, m.isBareArrow = false))

theorem unarrowed_iff {n : Node} : n.Unarrowed ↔ n.isBareArrow = false ∧ ∀ m ∈ n.under, m.isBareArrow = false :=
  List.forall_mem_cons

theorem unarrowed_all {ns : List Node} : (∀ m ∈ underAll ns, m.isBareArrow = false) ↔ ∀ n ∈ ns, n.Unarrowed := by
  rw [underAll_eq]
  unfold Unarrowed
  simp only [List.mem_flatMap]
  exact ⟨fun h n hn m hm => h m ⟨n, hn, hm⟩, fun h m ⟨n, hn, hm⟩ => h n hn m hm⟩

end Node

open Grammar Checker

mutual

theorem unarrowed_expression {right : String → Bool} : ∀ {e : Node}, isExpression right e = true → e.Unarrowed
  | .number .., _ | .string .., _ | .boolean .., _ | .identifier .., _ => by
    simp [Node.unarrowed_iff, Node.isBareArrow, Node.under]
  | .call .., h => by
    simp only [isExpression, Bool.and_eq_true] at h
    rw [Node.unarrowed_iff, Node.under, Node.unarrowed_all]
    exact ⟨rfl, unarrowed_expressions h.2⟩
  | .element .., h => by
    simp only [isExpression, Bool.and_eq_true] at h
    rw [Node.unarrowed_iff, Node.under]
    exact ⟨rfl, unarrowed_expression h.2⟩
  | .binary .., h => by
    simp only [isExpression, Bool.and_eq_true] at h
    rw [Node.unarrowed_iff, Node.under, List.forall_mem_append]
    exact ⟨rfl, unarrowed_expression h.1, unarrowed_expression h.2⟩
  | .unary .., h => by
    simp only [isExpression] at h
    rw [Node.unarrowed_iff, Node.under]
    exact ⟨rfl, unarrowed_expression h⟩
  | .ternary .., h => by
    simp only [isExpression, Bool.and_eq_true] at h
    rw [Node.unarrowed_iff, Node.under, List.forall_mem_append, List.forall_mem_append]
    exact ⟨rfl, ⟨unarrowed_expression h.1.1, unarrowed_expression h.1.2⟩, unarrowed_expression h.2⟩
  | .array .., h => by
    simp only [isExpression] at h
    rw [Node.unarrowed_iff, Node.under, Node.unarrowed_all]
    exact ⟨rfl, unarrowed_expressions h⟩

theorem unarrowed_expressions {right : String → Bool} :
    ∀ {es : List Node}, areExpressions right es = true → ∀ e ∈ es, e.Unarrowed
  | [], _ => by simp
  | e :: es, h => by
    simp only [areExpressions, Bool.and_eq_true] at h
    rw [List.forall_mem_cons]
    exact ⟨unarrowed_expression h.1, unarrowed_expressions h.2⟩

end

namespace Check

/-- Started inside of what `I` says, `m` comes to its end exactly if `p` holds, and inside of the same. -/
structure Ends (I : Option Enclosing → Prop) {α : Type} (m : Check α) (p : Prop) : Prop where
  ends_iff : ∀ s : Checker, I s.enclosing → ((∃ a s', Ran m s a s') ↔ p)
  enclosing : ∀ s : Checker, I s.enclosing → ∀ a s', Ran m s a s' → s'.enclosing = s.enclosing

namespace Ends

variable {α β : Type} {I : Option Enclosing → Prop} {m : Check α} {f : α → Check β} {p q : Prop}

theorem congr (h : Ends I m p) (hpq : p ↔ q) : Ends I m q := ⟨fun s hs => (h.ends_iff s hs).trans hpq, h.enclosing⟩

theorem always (h : Ends I m True) (hp : p) : Ends I m p := h.congr (iff_of_true trivial hp)

theorem never (h : ∀ s a s', ¬ Ran m s a s') : Ends I m False :=
  ⟨fun s _ => ⟨fun ⟨a, s', hr⟩ => h s a s' hr, False.elim⟩, fun s _ a s' hr => (h s a s' hr).elim⟩

theorem of_ran {result : Checker → α} {next : Checker → Checker} (same : ∀ s, (next s).enclosing = s.enclosing)
    (h : ∀ s, Ran m s (result s) (next s)) : Ends I m True where
  ends_iff s _ := ⟨fun _ => trivial, fun _ => ⟨_, _, h s⟩⟩
  enclosing s _ a s' hr := by
    obtain ⟨-, rfl⟩ := (h s).unique hr
    exact same s

theorem pure (a : α) : Ends I (pure a : Check α) True := of_ran (fun _ => rfl) fun _ => ran_pure.2 ⟨rfl, rfl⟩

theorem get : Ends I (get : Check Checker) True := of_ran (fun _ => rfl) fun _ => ran_get.2 ⟨rfl, rfl⟩

theorem change {g : Checker → Checker} (same : ∀ s, (g s).enclosing = s.enclosing) : Ends I (modify g : Check Unit) True := by
  have run (s : Checker) : Ran (modify g : Check Unit) s () (g s) := ran_modify.2 rfl
  exact of_ran same run

theorem bind (first : Ends I m p) (rest : ∀ a, Ends I (f a) q) : Ends I (m >>= f) (p ∧ q) := by
  constructor
  · intro s hs
    constructor
    · rintro ⟨b, s'', hr⟩
      obtain ⟨a, s', h₁, h₂⟩ := ran_bind.1 hr
      have inside := first.enclosing s hs a s' h₁
      exact ⟨(first.ends_iff s hs).1 ⟨a, s', h₁⟩, ((rest a).ends_iff s' (inside ▸ hs)).1 ⟨b, s'', h₂⟩⟩
    · rintro ⟨hp, hq⟩
      obtain ⟨a, s', h₁⟩ := (first.ends_iff s hs).2 hp
      have inside := first.enclosing s hs a s' h₁
      obtain ⟨b, s'', h₂⟩ := ((rest a).ends_iff s' (inside ▸ hs)).2 hq
      exact ⟨b, s'', ran_bind.2 ⟨a, s', h₁, h₂⟩⟩
  · intro s hs b s'' hr
    obtain ⟨a, s', h₁, h₂⟩ := ran_bind.1 hr
    have inside := first.enclosing s hs a s' h₁
    exact ((rest a).enclosing s' (inside ▸ hs) b s'' h₂).trans inside

theorem ask {g : Checker → Check β} (h : ∀ s : Checker, I s.enclosing → Ends I (g s) q) :
    Ends I (MonadState.get >>= g) q := by
  have run : ∀ {s s' : Checker} {b : β}, Ran (MonadState.get >>= g) s b s' ↔ Ran (g s) s b s' :=
    Ran.bind_iff (ran_get.2 ⟨rfl, rfl⟩)
  constructor
  · intro s hs
    simp only [run]
    exact (h s hs).ends_iff s hs
  · intro s hs b s' hr
    exact (h s hs).enclosing s hs b s' (run.1 hr)

theorem after (first : Ends I m True) (rest : ∀ a, Ends I (f a) q) : Ends I (m >>= f) q :=
  (first.bind rest).congr (.of_eq (true_and q))

theorem result (first : Ends I m p) (b : β) : Ends I (m >>= fun _ => Pure.pure b) p :=
  (first.bind fun _ => pure b).congr (.of_eq (and_true p))

end Ends

def Named (e : Option Enclosing) : Prop := ∃ kind name returnType, e = some ⟨kind, some name, some returnType⟩

theorem enclosingName_ends : Ends Named enclosingName True := by
  constructor
  · rintro s ⟨kind, name, returnType, hs⟩
    exact iff_of_true ⟨name, s, ran_enclosingName.2 ⟨by rw [hs]; rfl, rfl⟩⟩ trivial
  · intro s _ f s' hr
    obtain ⟨-, rfl⟩ := ran_enclosingName.1 hr
    rfl

theorem full_ends : Full fun {_} m => Ends Named m True where
  toPlain := .of_get .pure .after .get enclosingName_ends fun _ _ => .change fun _ => rfl
  lookup _ := .after .get fun _ => .pure _
  reportName _ _ := .change fun _ => rfl

theorem assignVariable_ends (x : String) (value : Node) (line : Int) : Ends Named (assignVariable x value line) True := by
  refine .after (full_ends.lookup x) fun symbol => ?_
  cases symbol with
  | none => exact full_ends.nameIn _ line
  | some _ => exact .after (.change fun _ => rfl) fun _ => full_ends.mismatch x _ value line

theorem bindLoopVariable_ends (x : String) (line : Int) : Ends Named (bindLoopVariable x line) True := by
  refine .after (full_ends.lookup x) fun symbol => ?_
  cases symbol with
  | none => exact .change fun _ => rfl
  | some _ => exact .change fun _ => rfl

/-! ### Parameters and functions -/

section
variable {I : Option Enclosing → Prop}

theorem bindName_ends (x : String) (symbol : Symbol) : Ends I (bindName x symbol) True := .change fun _ => rfl

theorem signature_ends : ∀ {ps : List Node}, ps.all isParameter = true → Ends I (signature ps) True
  | [], _ => .pure _
  | .parameter .. :: ps, h => by
    simp only [List.all_cons, Bool.and_eq_true] at h
    exact .after (.pure _) fun _ => .after (.pure _) fun _ => .after (signature_ends h.2) fun _ => .pure _

theorem bindParameters_ends : ∀ {ps : List Node}, ps.all isParameter = true → Ends I (bindParameters ps) True
  | [], _ => .pure _
  | .parameter .. :: ps, h => by
    simp only [List.all_cons, Bool.and_eq_true] at h
    exact .after (.pure _) fun _ => .after (.pure _) fun _ => .after (bindName_ends _ _) fun _ => bindParameters_ends h.2

theorem ran_oddParameters (s : Checker) : Ran (parameters (.text ")")) s [.text ")"] s := ran_pure.2 ⟨rfl, rfl⟩

theorem bindFunction_ends {f : Node} (hf : f.isFunction = true) (h : isStatement f = true) :
    Ends I (bindFunction f) (f.isBareArrow = false) := by
  cases f with
  | function name params returnType body line =>
    obtain ⟨-, ⟨ps, ss, rfl, rfl, hps, -⟩ | ⟨rfl, -⟩⟩ := isStatement_function.1 h
    · rw [bindFunction, parameters, pure_bind]
      exact .congr (.after (signature_ends hps) fun _ => bindName_ends _ _) (by simp [Node.isBareArrow])
    · refine .congr (.never ?_) (by simp [Node.isBareArrow])
      intro s u s' hr
      rw [bindFunction, (ran_oddParameters s).bind_iff] at hr
      obtain ⟨sig, s₁, h₁, -⟩ := ran_bind.1 hr
      exact not_signature_text h₁
  | _ => cases hf

theorem bindNested_ends {ss : List Node} (h : areStatements ss = true) :
    Ends I (bindNested ss) (∀ n ∈ ss, n.isBareArrow = false) := by
  induction ss with
  | nil => exact .always (.pure _) (List.forall_mem_nil _)
  | cons n ss ih =>
    simp only [areStatements, Bool.and_eq_true] at h
    rw [bindNested, List.forall_mem_cons]
    by_cases hf : n.isFunction = true
    · rw [if_pos hf]
      exact (bindFunction_ends hf h.1.2).bind fun _ => ih h.2
    · rw [if_neg hf]
      have bare : n.isBareArrow = false := by
        cases n with
        | function => exact absurd rfl hf
        | _ => rfl
      exact (ih h.2).congr (by simp [bare])

theorem visit_bareArrow_never {name returnType : String} {body : Node} {line : Int} {s s' : Checker} {t : Option String} :
    ¬ Ran (visit (.function name (.text ")") returnType body line)) s t s' := by
  intro hr
  rw [visit_function] at hr
  obtain ⟨_, _, hr, -⟩ := ran_functionWalk.1 hr
  rw [(ran_oddParameters _).bind_iff] at hr
  obtain ⟨_, _, hr, -⟩ := ran_bind.1 hr
  obtain ⟨_, _, hr, -⟩ := ran_bind.1 hr
  cases (ran_nameOf.1 hr).1

theorem functionWalk_ends {α : Type} {m : Check α} {p : Prop} (h : Ends Named m p) {e : Enclosing} (named : Named (some e)) :
    Ends I (functionWalk e m) p := by
  constructor
  · intro s _
    rw [← h.ends_iff { s with enclosing := some e, chain := s.chain.enter } named]
    constructor
    · rintro ⟨t, s', hr⟩
      obtain ⟨a, s₁, inside, -⟩ := ran_functionWalk.1 hr
      exact ⟨a, s₁, inside⟩
    · rintro ⟨a, s₁, inside⟩
      exact ⟨none, _, ran_functionWalk.2 ⟨a, s₁, inside, rfl, rfl⟩⟩
  · intro s _ t s' hr
    obtain ⟨_, _, -, -, rfl⟩ := ran_functionWalk.1 hr
    rfl

theorem unarrowed_function {name returnType : String} {ps ss : List Node} {line : Int} (hps : ps.all isParameter = true) :
    (Node.function name (.several ps) returnType (.several ss) line).Unarrowed ↔ ∀ n ∈ ss, n.Unarrowed := by
  have params : ∀ p ∈ ps, p.Unarrowed := by
    intro p hp
    cases p with
    | parameter => simp [Node.unarrowed_iff, Node.under, Node.isBareArrow]
    | _ => cases List.all_eq_true.1 hps _ hp
  rw [Node.unarrowed_iff, Node.under, List.forall_mem_append, List.forall_mem_cons, List.forall_mem_cons, Node.under,
    Node.under, Node.unarrowed_all, Node.unarrowed_all]
  exact ⟨fun ⟨_, _, _, h⟩ => h, fun h => ⟨rfl, ⟨rfl, params⟩, rfl, h⟩⟩

/-- A function is walked to its end, wherever it stands, if it has parameters in their place and its body is walked to the
end. -/
theorem function_ends {name returnType : String} {params body : Node} {line : Int}
    (h : isStatement (.function name params returnType body line) = true)
    (inside : ∀ ss, areStatements ss = true → body = .several ss → Ends Named (visitAll ss) (∀ n ∈ ss, n.Unarrowed)) :
    Ends I (visit (.function name params returnType body line)) (Node.function name params returnType body line).Unarrowed := by
  obtain ⟨-, ⟨ps, ss, rfl, rfl, hps, hss⟩ | ⟨rfl, -⟩⟩ := isStatement_function.1 h
  · have walk : Ends Named (do
        bindParameters (← parameters (.several ps))
        bindNested ss
        visit (.several ss)) (∀ n ∈ ss, n.Unarrowed) := by
      rw [visit, parameters, pure_bind]
      refine .after (bindParameters_ends hps) fun _ => .congr (.bind (bindNested_ends hss) fun _ =>
        .result (inside ss hss rfl) none) ?_
      exact and_iff_right_of_imp fun h n hn => (Node.unarrowed_iff.1 (h n hn)).1
    rw [unarrowed_function hps, visit_function]
    exact functionWalk_ends walk ⟨"Function", name, returnType, rfl⟩
  · refine .congr (.never fun _ _ _ => visit_bareArrow_never) ?_
    simp [Node.unarrowed_iff, Node.isBareArrow]

end

/-! ### Whole trees -/

mutual

/-- **A statement inside a function is walked to its end exactly if it holds no function with an arrow and without
parameters.** -/
theorem visit_ends : ∀ {n : Node}, isStatement n = true → Ends Named (visit n) n.Unarrowed
  | .declaration name type line, _ => by
    have declared : Ends Named (declare name type line) True := by
      refine .after .get fun s => ?_
      cases s.chain.inner.find? name with
      | none => exact bindName_ends _ _
      | some _ => exact full_ends.reportName _ _
    rw [visit]
    refine .always (declared.result none) (Node.unarrowed_iff.2 ⟨rfl, ?_⟩)
    rw [Node.under]
    exact List.forall_mem_nil _
  | .assignment target value line, h => by
    obtain ⟨hv, ⟨x, rfl, -⟩ | ⟨x, index, k, rfl, -, hi⟩⟩ := isStatement_assignment.1 h
    · have unarrowed : (Node.assignment (.text x) value line).Unarrowed := by
        rw [Node.unarrowed_iff, Node.under, List.forall_mem_append]
        exact ⟨rfl, by simp [Node.under, Node.isBareArrow], unarrowed_expression hv⟩
      rw [visit, single_expression hv]
      exact .always (.after (full_ends.visit hv) fun _ => .result (assignVariable_ends x value line) none) unarrowed
    · have unarrowed : (Node.assignment (.element x index k) value line).Unarrowed := by
        rw [Node.unarrowed_iff, Node.under, List.forall_mem_append, List.forall_mem_cons, Node.under]
        exact ⟨rfl, ⟨rfl, unarrowed_expression hi⟩, unarrowed_expression hv⟩
      rw [visit, single_expression hv, single_expression hi]
      exact .always (.after (full_ends.visit hv) fun _ => .after (full_ends.visit hi) fun _ =>
        .result (full_ends.assignElement x line) none) unarrowed
  | .call f args line, h => by
    simp only [isStatement, Bool.and_eq_true] at h
    have unarrowed : (Node.call f args line).Unarrowed := by
      rw [Node.unarrowed_iff, Node.under, Node.unarrowed_all]
      exact ⟨rfl, unarrowed_expressions h.2⟩
    rw [visit]
    exact .always (.after (full_ends.visitAll h.2) fun _ => full_ends.checkCall f args line) unarrowed
  | .ret value line, h => by
    have unarrowed : (Node.ret value line).Unarrowed := by
      rw [Node.unarrowed_iff, Node.under]
      rcases isStatement_ret.1 h with rfl | hv
      · exact ⟨rfl, by simp [Node.under, Node.isBareArrow]⟩
      · exact ⟨rfl, unarrowed_expression hv⟩
    have value : Ends Named (single value (visit value)) True := by
      rcases isStatement_ret.1 h with rfl | hv
      · rw [visit]
        exact .pure _
      · rw [single_expression hv]
        exact full_ends.visit hv
    rw [visit]
    refine .always (.ask ?_) unarrowed
    rintro s ⟨kind, name, returnType, hs⟩
    rw [hs]
    exact .after value fun _ => .result (full_ends.checkReturn rfl _ line) none
  | .branch condition yes no line, h => by
    obtain ⟨hc, hy, hn⟩ := isStatement_branch.1 h
    have other : Ends Named (visit no) no.Unarrowed := by
      rcases hn with rfl | hn
      · rw [visit]
        exact .always (.pure _) (by simp [Node.unarrowed_iff, Node.under, Node.isBareArrow])
      · exact visit_ends hn
    rw [visit, Node.unarrowed_iff, Node.under, List.forall_mem_append, List.forall_mem_append]
    refine .congr (.after (full_ends.visit hc) fun _ => .bind (visit_ends hy) fun _ => other.result none) ?_
    exact ⟨fun ⟨y, n⟩ => ⟨rfl, ⟨unarrowed_expression hc, y⟩, n⟩, fun ⟨_, ⟨_, y⟩, n⟩ => ⟨y, n⟩⟩
  | .forLoop x start stop body line, h => by
    obtain ⟨-, hs, ht, ss, rfl, hss⟩ := isStatement_forLoop.1 h
    rw [visit, single_expression hs, single_expression ht, Node.unarrowed_iff, Node.under, List.forall_mem_append,
      List.forall_mem_append]
    have body : Ends Named (visit (.several ss)) (Node.several ss).Unarrowed := visit_ends (by rw [isStatement]; exact hss)
    refine .congr (.after (bindLoopVariable_ends x line) fun _ => .after (full_ends.visit hs) fun _ =>
      .after (full_ends.visit ht) fun _ => .after (full_ends.checkRange start stop line) fun _ => body.result none) ?_
    exact ⟨fun b => ⟨rfl, ⟨unarrowed_expression hs, unarrowed_expression ht⟩, b⟩, fun ⟨_, _, b⟩ => b⟩
  | .whileLoop condition body line, h => by
    simp only [isStatement, Bool.and_eq_true] at h
    rw [visit, Node.unarrowed_iff, Node.under, List.forall_mem_append]
    refine .congr (.after (full_ends.visit h.1) fun _ => .result (visit_ends h.2) none) ?_
    exact ⟨fun b => ⟨rfl, unarrowed_expression h.1, b⟩, fun ⟨_, _, b⟩ => b⟩
  | .doLoop body condition line, h => by
    simp only [isStatement, Bool.and_eq_true] at h
    rw [visit, Node.unarrowed_iff, Node.under, List.forall_mem_append]
    refine .congr (.bind (visit_ends h.1) fun _ => .result (full_ends.visit h.2) none) ?_
    exact ⟨fun ⟨b, _⟩ => ⟨rfl, b, unarrowed_expression h.2⟩, fun ⟨_, b, _⟩ => ⟨b, trivial⟩⟩
  | .block ss line, h | .several ss, h => by
    simp only [isStatement] at h
    rw [visit, Node.unarrowed_iff, Node.under, Node.unarrowed_all]
    exact .congr (.result (visitAll_ends h) none) (by simp [Node.isBareArrow])
  | .function name params returnType body line, h => by
    refine function_ends h fun ss hss hb => ?_
    subst hb
    exact visitAll_ends hss
termination_by n => sizeOf n
decreasing_by all_goals (subst_vars; simp +arith)

theorem visitAll_ends : ∀ {ss : List Node}, areStatements ss = true → Ends Named (visitAll ss) (∀ n ∈ ss, n.Unarrowed)
  | [], _ => by
    rw [visitAll]
    exact .congr (.pure _) (by simp)
  | n :: ss, h => by
    simp only [areStatements, Bool.and_eq_true, Bool.not_eq_true'] at h
    rw [visitAll, single_statement h.1.1, List.forall_mem_cons]
    exact (visit_ends h.1.2).bind fun _ => visitAll_ends h.2
termination_by ss => sizeOf ss
decreasing_by all_goals simp +arith

end

theorem visitFunctions_ends : ∀ {fs : List Node}, areFunctions fs = true →
    Ends (fun _ => True) (visitFunctions fs) (∀ f ∈ fs, f.Unarrowed)
  | [], _ => by
    rw [visitFunctions]
    exact .always (.pure _) (List.forall_mem_nil _)
  | f :: fs, h => by
    simp only [areFunctions, List.all_cons, Bool.and_eq_true] at h
    rw [visitFunctions, if_pos h.1.1, List.forall_mem_cons]
    cases f with
    | function => exact .bind (function_ends h.1.2 fun _ hss _ => visitAll_ends hss) fun _ => visitFunctions_ends h.2
    | _ => cases h.1.1

theorem bindProgram_ends : ∀ {fs : List Node}, areFunctions fs = true → (∀ f ∈ fs, f.Unarrowed) →
    Ends (fun _ => True) (bindProgram fs) True
  | [], _, _ => .pure _
  | f :: fs, h, unarrowed => by
    simp only [areFunctions, List.all_cons, Bool.and_eq_true] at h
    rw [List.forall_mem_cons, Node.unarrowed_iff] at unarrowed
    have bound : Ends (fun _ => True) (bindFunction f) True :=
      (bindFunction_ends h.1.1 h.1.2).congr (iff_of_true unarrowed.1.1 trivial)
    have rest := bindProgram_ends h.2 unarrowed.2
    have named : Ends (fun _ => True) (nameOf f) True := by
      cases f with
      | function => exact .pure _
      | _ => cases h.1.1
    rw [bindProgram]
    refine .after named fun x => .after .get fun s => ?_
    by_cases new : (s.chain.inner.find? x).isNone = true
    · rw [if_pos new]
      exact .after bound fun _ => rest
    · rw [if_neg new]
      exact rest

/-- **A program is walked to its end exactly if none of its functions has an arrow and no parameters.**  The walk may be
through with binding the functions and meet such a function later, since of two with the same name only the first is
bound. -/
theorem program_ends_iff {fs : List Node} (h : areFunctions fs = true) (s : Checker) :
    (∃ t s', Ran (visit (.program fs)) s t s') ↔ (Node.program fs).Unarrowed := by
  rw [Node.unarrowed_iff, Node.under, Node.unarrowed_all, visit]
  constructor
  · rintro ⟨t, s', hr⟩
    obtain ⟨_, s₁, -, hr⟩ := ran_bind.1 hr
    obtain ⟨_, s₂, hr, -⟩ := ran_bind.1 hr
    exact ⟨rfl, ((visitFunctions_ends h).ends_iff s₁ trivial).1 ⟨_, s₂, hr⟩⟩
  · rintro ⟨-, unarrowed⟩
    have walk := (bindProgram_ends h unarrowed).after fun _ => (visitFunctions_ends h).result (none : Option String)
    exact (walk.ends_iff s trivial).2 unarrowed

end Check

namespace Session

/-- **The tree of any text is walked to its end exactly if no function in it has an arrow and no parameters**, whether the
text was read without syntax errors or the reading was resumed behind them. -/
theorem visitTree_ends_iff (s : Session) (source : String) :
    (∃ t c, Ran (Check.visitTree (parseTree source s).1) {} t c) ↔
      ∀ n ∈ (parseTree source s).1.nodes, n.isBareArrow = false := by
  rcases parseTree_cases s source with ht | ⟨fs, hf, ht⟩
  · rw [ht]
    exact iff_of_true ⟨_, _, ran_pure.2 ⟨rfl, rfl⟩⟩ (by simp [Node.nodes, Node.under, Node.isBareArrow])
  · rw [ht]
    exact Check.program_ends_iff (parse_areFunctions hf) {}

end Session
end TesLang
