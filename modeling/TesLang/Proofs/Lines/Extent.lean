import TesLang.Proofs.Checking.Ending
import TesLang.Proofs.Parsing.Soundness
import TesLang.Proofs.Printing.Children
import TesLang.Proofs.Reading.Positions
/-!
# The tokens of a node

A node of the tree of a text is made by a production, and the tokens of the phrase that the production stands at the top of
are its extent (`Tree.Extent`).  A phrase in brackets, a list, or a statement of some kind makes no node of its own: it
passes on what its parts stand for.  A declaration with an initial value makes two nodes, and so does a function with an
arrow.

Whatever a production makes has the line of a token that stands directly in it (`Rule.line_of_made`), so the line of a node
is that of a token in its extent.
-/
namespace TesLang

namespace Node

/-- The line of a node.  A program has none, and neither has the bare node. -/
def line? : Node → Option Int
  | function _ _ _ _ line | parameter _ _ line | declaration _ _ line | assignment _ _ line | call _ _ line | ret _ line
  | branch _ _ _ line | forLoop _ _ _ _ line | whileLoop _ _ line | doLoop _ _ line | block _ line | binary _ _ _ line
  | unary _ _ line | identifier _ line | number _ line | string _ line | boolean _ line | ternary _ _ _ line
  | element _ _ line | array _ line | listOf _ line => some line
  | program _ | bare | nothing | text _ | integer _ | several _ => none

theorem isProper_of_line? {n : Node} {line : Int} (h : n.line? = some line) : n.isProper = true := by
  cases n <;> first | rfl | cases h

theorem underAll_append (ms ns : List Node) : underAll (ms ++ ns) = underAll ms ++ underAll ns := by
  rw [underAll_eq, underAll_eq, underAll_eq, List.flatMap_append]

theorem mem_nodes_of_parts {m n : Node} (h : m ∈ underAll n.parts) : m ∈ n.nodes := by
  cases n with
  | several ns => exact List.mem_cons_of_mem _ h
  | _ => simpa [parts, underAll, nodes] using h

end Node

namespace Grammar

open Node

/-! ### Phrases in a tree -/

mutual

/-- A tree is a part of itself, and so are the parts of the trees that it is made of. -/
inductive Tree.Part {j : Item} (d' : Tree j) : {i : Item} → Tree i → Prop
  | self : Tree.Part d' d'
  | inside {n : Nonterminal} {is : List Item} {r : Rule n is} {parts : Trees is} :
      Trees.Part d' parts → Tree.Part d' (.node r parts)

inductive Trees.Part {j : Item} (d' : Tree j) : {is : List Item} → Trees is → Prop
  | head {i : Item} {is : List Item} {d : Tree i} {ds : Trees is} : Tree.Part d' d → Trees.Part d' (.cons d ds)
  | tail {i : Item} {is : List Item} {d : Tree i} {ds : Trees is} : Trees.Part d' ds → Trees.Part d' (.cons d ds)

end

mutual

theorem Tree.Part.leaves_infix {i j : Item} {d' : Tree j} {d : Tree i} : d'.Part d → d'.leaves <:+: d.leaves
  | .self => List.infix_rfl
  | .inside h => by
    rw [Tree.leaves.eq_2]
    exact h.leaves_infix

theorem Trees.Part.leaves_infix {j : Item} {d' : Tree j} {is : List Item} {ds : Trees is} :
    Trees.Part d' ds → d'.leaves <:+: ds.leaves
  | .head h => by
    rw [Trees.leaves]
    exact h.leaves_infix.trans (List.prefix_append _ _).isInfix
  | .tail h => by
    rw [Trees.leaves]
    exact h.leaves_infix.trans (List.suffix_append _ _).isInfix

end

/-! ### What productions make -/

/-- The nodes in what a phrase stands for. -/
def Nonterminal.nodes : (n : Nonterminal) → n.Value → List Node
  | .type, _ | .empty, _ => []
  | .functions, ns | .parameters, ns | .statements, ns | .arguments, ns => underAll ns
  | .program, n | .function, n | .parameter, n | .statement, n | .declaration, n | .assignment, n | .element, n
  | .callStatement, n | .call, n | .ret, n | .branch, n | .forLoop, n | .whileLoop, n | .doLoop, n | .block, n
  | .expression, n => n.nodes

def Item.nodes : (i : Item) → i.Value → List Node
  | .token _, _ => []
  | .phrase n, v => n.nodes v

/-- The nodes in what the parts of a production stand for. -/
def Values.nodes : (is : List Item) → Values is → List Node
  | [], _ => []
  | i :: is, (v, vs) => i.nodes v ++ Values.nodes is vs

/-- The tokens that stand directly in a production. -/
def Values.tokens : (is : List Item) → Values is → List Token
  | [], _ => []
  | .token _ :: is, (t, vs) => t :: Values.tokens is vs
  | .phrase _ :: is, (_, vs) => Values.tokens is vs

theorem Rule.ne_program {n : Nonterminal} {is : List Item} (r : Rule n is) : ∀ i ∈ is, i ≠ .phrase .program := by
  have checked : is.all (· ≠ .phrase .program) = true := by cases r <;> rfl
  exact fun i hi => of_decide_eq_true (List.all_eq_true.1 checked i hi)

/-- **A node in what a production makes stands in one of its parts, or it has the line of a token that stands directly in
the production.**  A program alone has no line. -/
theorem Rule.line_of_made {n : Nonterminal} {is : List Item} (r : Rule n is) (vs : Values is) {m : Node}
    (hm : m ∈ n.nodes (r.action vs)) (proper : m.isProper = true) : m ∈ Values.nodes is vs ∨
      (n = .program ∧ m.line? = none) ∨ ∃ t ∈ Values.tokens is vs, m.line? = some (t.line : Int) := by
  cases r
  -- no production has more than twelve parts
  all_goals obtain ⟨a, b, c, d, e, f, g, h, i, j, k, l, _⟩ := vs
  case type | statementsNone | empty => cases hm
  -- what is passed on is not made here
  case declarationStatement | assignmentStatement | callStatement | retStatement | branchStatement | forStatement |
      whileStatement | doStatement | blockStatement | functionStatement | callThen | elementExpression | callExpression =>
    exact .inl (List.mem_append_left _ hm)
  case statementsOne => exact .inl (List.mem_append_left _ (mem_nodes_of_parts hm))
  case statementsMore =>
    rw [Rule.action, Nonterminal.nodes, underAll_append] at hm
    rcases List.mem_append.1 hm with hm | hm
    · exact .inl (List.mem_append_left _ hm)
    · exact .inl (List.mem_append_right _ (List.mem_append_left _ (mem_nodes_of_parts hm)))
  case call =>
    -- the arguments of `length` are wrapped up once more
    rw [Rule.action] at hm
    split at hm
    all_goals
      simp only [Nonterminal.nodes, under, underAll, nodes, Item.nodes, Values.nodes, Values.tokens, List.mem_cons,
        List.append_nil, List.nil_append] at hm ⊢
      grind [isProper, line?]
  all_goals
    simp only [Rule.action, Nonterminal.nodes, Item.nodes, Values.nodes, Values.tokens, underAll_append, underAll, nodes,
      under, List.nil_append, List.append_nil, List.append_assoc, List.mem_append, List.mem_cons, List.not_mem_nil] at hm ⊢
    grind [isProper, line?]

/-! ### Extents -/

/-- The production at the top of a tree makes `m`: what the tree stands for has it, and what the parts stand for does
not. -/
def Tree.Makes (m : Node) : {i : Item} → Tree i → Prop
  | _, .leaf _ _ => False
  | _, @Tree.node n is r parts => m ∈ n.nodes (r.action parts.values) ∧ m ∉ Values.nodes is parts.values

/-- **The extent of a node**: the tokens of a phrase that makes it. -/
def Tree.Extent {i : Item} (d : Tree i) (m : Node) (ts : List Token) : Prop :=
  ∃ j, ∃ d' : Tree j, d'.Part d ∧ d'.Makes m ∧ d'.leaves = ts

theorem Trees.mem_leaves_of_tokens {t : Token} : ∀ {is : List Item} (ds : Trees is),
    t ∈ Values.tokens is ds.values → t ∈ ds.leaves
  | _, .nil, h => by cases h
  | .token _ :: _, .cons (.leaf u _) ds, h => by
    rw [Trees.values, Tree.value, Values.tokens] at h
    rw [Trees.leaves, Tree.leaves]
    exact (List.mem_cons.1 h).elim (fun e => e ▸ List.mem_cons_self) fun h =>
      List.mem_append_right _ (mem_leaves_of_tokens ds h)
  | .phrase _ :: _, .cons d ds, h => by
    rw [Trees.values, Values.tokens] at h
    rw [Trees.leaves]
    exact List.mem_append_right _ (mem_leaves_of_tokens ds h)

/-- **What a production makes has the line of one of the tokens of its phrase.** -/
theorem Tree.line_of_makes {i : Item} {d : Tree i} {m : Node} (made : d.Makes m) (proper : m.isProper = true) :
    (i = .phrase .program ∧ m.line? = none) ∨ ∃ t ∈ d.leaves, m.line? = some (t.line : Int) := by
  cases d with
  | leaf t h => exact made.elim
  | node r parts =>
    obtain ⟨here, new⟩ := made
    rcases r.line_of_made parts.values here proper with old | ⟨rfl, none⟩ | ⟨t, ht, line⟩
    · exact absurd old new
    · exact .inl ⟨rfl, none⟩
    · exact .inr ⟨t, by rw [Tree.leaves]; exact parts.mem_leaves_of_tokens ht, line⟩

mutual

theorem Tree.exists_makes {m : Node} : ∀ {i : Item} (d : Tree i), i ≠ .phrase .program → m ∈ i.nodes d.value →
    ∃ j, ∃ d' : Tree j, j ≠ .phrase .program ∧ d'.Part d ∧ d'.Makes m
  | _, .leaf _ _, _, h => by cases h
  | _, .node r parts, other, h => by
    rw [Tree.value] at h
    by_cases old : m ∈ Values.nodes _ parts.values
    · obtain ⟨j, d', other, part, made⟩ := parts.exists_makes r.ne_program old
      exact ⟨j, d', other, .inside part, made⟩
    · exact ⟨_, .node r parts, other, .self, h, old⟩

theorem Trees.exists_makes {m : Node} : ∀ {is : List Item} (ds : Trees is), (∀ i ∈ is, i ≠ .phrase .program) →
    m ∈ Values.nodes is ds.values → ∃ j, ∃ d' : Tree j, j ≠ .phrase .program ∧ Trees.Part d' ds ∧ d'.Makes m
  | _, .nil, _, h => by cases h
  | _, .cons d ds, others, h => by
    rw [List.forall_mem_cons] at others
    rw [Trees.values, Values.nodes] at h
    rcases List.mem_append.1 h with h | h
    · obtain ⟨j, d', other, part, made⟩ := d.exists_makes others.1 h
      exact ⟨j, d', other, .head part, made⟩
    · obtain ⟨j, d', other, part, made⟩ := ds.exists_makes others.2 h
      exact ⟨j, d', other, .tail part, made⟩

end

/-- **In a program, every node has an extent, and wherever it is made, its line is that of a token there.** -/
theorem Tree.extent_of_under {d : Tree (.phrase .program)} {fs : List Node} (value : d.value = .program fs) {m : Node}
    (hm : m ∈ (Node.program fs).under) (proper : m.isProper = true) :
    (∃ ts, d.Extent m ts) ∧ ∀ ts, d.Extent m ts → ts <:+: d.leaves ∧ ∃ t ∈ ts, m.line? = some (t.line : Int) := by
  obtain ⟨j, d', other, part, made⟩ : ∃ j, ∃ d' : Tree j, j ≠ .phrase .program ∧ d'.Part d ∧ d'.Makes m := by
    cases d with | node r parts =>
    have others := r.ne_program
    cases r
    cases parts with | cons functions rest =>
    rw [Tree.value, Trees.values] at value
    obtain rfl : functions.value = fs := Node.program.inj value
    obtain ⟨j, d', other, part, made⟩ := functions.exists_makes (others _ List.mem_cons_self) hm
    exact ⟨j, d', other, .inside (.head part), made⟩
  refine ⟨⟨_, j, d', part, made, rfl⟩, ?_⟩
  -- the node has a line, so it is no program, wherever else it is made
  obtain ⟨t, -, line⟩ := (line_of_makes made proper).resolve_left fun h => other h.1
  rintro ts ⟨k, e, part, made, rfl⟩
  refine ⟨part.leaves_infix, (line_of_makes made proper).resolve_left fun h => ?_⟩
  rw [line] at h
  cases h.2

end Grammar

theorem Token.le_line {source : List Char} {line : Nat} (closed : ∀ n, .unclosed n ∉ (lex source line).notices) {t : Token}
    (ht : t ∈ (lex source line).tokens) : line ≤ t.line := by
  obtain ⟨ps, rest, -, -, tokens, -⟩ := lex_cut closed
  rw [tokens] at ht
  obtain ⟨-, place⟩ := line_of_mem_tokensOf rest [] ht
  omega

end TesLang
