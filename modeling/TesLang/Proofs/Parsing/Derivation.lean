import TesLang.Proofs.Parsing.Spelling
/-!
# Derivation trees

The grammar of TesLang, production by production (`Rule`), with what each production makes of its parts (`Rule.action`).
It is ambiguous: an expression may be grouped in many ways, an `else` may belong to more than one `if`, and a list of
statements may or may not start with an empty one.  Which of the trees of a text the parser takes is no matter of the
grammar.

A derivation tree has tokens for leaves and productions for nodes, and its type says what is derived, so every tree is
one of the grammar.  `Tree.leaves` are its tokens from left to right, and `Tree.value` is what the actions make of it.

`Spans i v ts us` says that between `ts` and its end `us` stands a phrase with the value `v`, and `Begins i ts us` that
what stands there can be completed to one.  A production is read part by part: `Halfway` is a production of which some
parts have been read and some are still to come.
-/
namespace TesLang.Grammar

inductive Nonterminal where
  | program | functions | function | parameters | parameter | type
  | statements | statement | declaration | assignment | element | callStatement | call | arguments
  | ret | branch | forLoop | whileLoop | doLoop | block
  | expression | empty
  deriving DecidableEq, Repr

/-- What may stand on the right of a production: a token of some kind, or a phrase. -/
inductive Item where
  | token (k : Kind)
  | phrase (n : Nonterminal)
  deriving DecidableEq, Repr

def typeKinds : List Kind := [.intKw, .strKw, .mstrKw, .boolKw, .vectorKw, .nullKw]

def binaryKinds : List Kind :=
  [.plus, .minus, .times, .divide, .equal, .notEqual, .less, .greater, .atMost, .atLeast, .and, .or]

def unaryKinds : List Kind := [.not, .minus, .plus]

def stringKinds : List Kind := [.string, .mstring]

def booleanKinds : List Kind := [.trueKw, .falseKw]

/-- The kinds of token that name a function which takes any number of arguments. -/
def calleeKinds : List Kind := [.id, .printKw]

/-- The productions, of which there are 78.  Those that differ only in the kind of one token are a family. -/
inductive Rule : Nonterminal → List Item → Type
  | program : Rule .program [.phrase .functions]
  | functionsMore : Rule .functions [.phrase .functions, .phrase .function]
  | functionsOne : Rule .functions [.phrase .function]
  | block : Rule .function
      [.token .funkKw, .token .id, .token .leftParen, .phrase .parameters, .token .rightParen, .token .less, .phrase .type,
        .token .greater, .token .leftBrace, .phrase .statements, .token .rightBrace]
  | blockNoParameters : Rule .function
      [.token .funkKw, .token .id, .token .leftParen, .token .rightParen, .token .less, .phrase .type,
        .token .greater, .token .leftBrace, .phrase .statements, .token .rightBrace]
  | arrow : Rule .function
      [.token .funkKw, .token .id, .token .leftParen, .phrase .parameters, .token .rightParen, .token .less, .phrase .type,
        .token .greater, .token .arrow, .token .returnKw, .phrase .expression, .token .semicolon]
  | arrowNoParameters : Rule .function
      [.token .funkKw, .token .id, .token .leftParen, .token .rightParen, .token .less, .phrase .type,
        .token .greater, .token .arrow, .token .returnKw, .phrase .expression, .token .semicolon]
  | parametersMore : Rule .parameters [.phrase .parameters, .token .comma, .phrase .parameter]
  | parametersOne : Rule .parameters [.phrase .parameter]
  | parameter : Rule .parameter [.token .id, .token .asKw, .phrase .type]
  | type (k : Kind) (h : k ∈ typeKinds) : Rule .type [.token k]
  | statementsMore : Rule .statements [.phrase .statements, .phrase .statement]
  | statementsOne : Rule .statements [.phrase .statement]
  | statementsNone : Rule .statements [.phrase .empty]
  | declarationStatement : Rule .statement [.phrase .declaration]
  | assignmentStatement : Rule .statement [.phrase .assignment]
  | callStatement : Rule .statement [.phrase .callStatement]
  | retStatement : Rule .statement [.phrase .ret]
  | branchStatement : Rule .statement [.phrase .branch]
  | forStatement : Rule .statement [.phrase .forLoop]
  | whileStatement : Rule .statement [.phrase .whileLoop]
  | doStatement : Rule .statement [.phrase .doLoop]
  | blockStatement : Rule .statement [.phrase .block]
  | functionStatement : Rule .statement [.phrase .function]
  | declaration : Rule .declaration [.token .id, .token .doubleColon, .phrase .type, .token .semicolon]
  | initialised : Rule .declaration
      [.token .id, .token .doubleColon, .phrase .type, .token .assign, .phrase .expression, .token .semicolon]
  | assignVariable : Rule .assignment [.token .id, .token .assign, .phrase .expression, .token .semicolon]
  | assignElement : Rule .assignment [.phrase .element, .token .assign, .phrase .expression, .token .semicolon]
  | element : Rule .element [.token .id, .token .leftBracket, .phrase .expression, .token .rightBracket]
  | callThen : Rule .callStatement [.phrase .call, .token .semicolon]
  | call (k : Kind) (h : k ∈ calleeKinds) : Rule .call
      [.token k, .token .leftParen, .phrase .arguments, .token .rightParen]
  | callNoArguments (k : Kind) (h : k ∈ calleeKinds) : Rule .call [.token k, .token .leftParen, .token .rightParen]
  | length : Rule .call [.token .lengthKw, .token .leftParen, .phrase .expression, .token .rightParen]
  | argumentsMore : Rule .arguments [.phrase .arguments, .token .comma, .phrase .expression]
  | argumentsOne : Rule .arguments [.phrase .expression]
  | retValue : Rule .ret [.token .returnKw, .phrase .expression, .token .semicolon]
  | retNothing : Rule .ret [.token .returnKw, .token .semicolon]
  | branch : Rule .branch
      [.token .ifKw, .token .leftBracket, .token .leftBracket, .phrase .expression, .token .rightBracket,
        .token .rightBracket, .phrase .statement]
  | branchElse : Rule .branch
      [.token .ifKw, .token .leftBracket, .token .leftBracket, .phrase .expression, .token .rightBracket,
        .token .rightBracket, .phrase .statement, .token .elseKw, .phrase .statement]
  | forLoop : Rule .forLoop
      [.token .forKw, .token .leftParen, .token .id, .token .assign, .phrase .expression, .token .toKw, .phrase .expression,
        .token .rightParen, .token .beginKw, .phrase .statements, .token .endKw]
  | whileLoop : Rule .whileLoop
      [.token .whileKw, .token .leftBracket, .token .leftBracket, .phrase .expression, .token .rightBracket,
        .token .rightBracket, .phrase .statement]
  | doLoop : Rule .doLoop
      [.token .doKw, .phrase .statement, .token .whileKw, .token .leftBracket, .token .leftBracket, .phrase .expression,
        .token .rightBracket, .token .rightBracket, .token .semicolon]
  | beginEnd : Rule .block [.token .beginKw, .phrase .statements, .token .endKw]
  | binary (k : Kind) (h : k ∈ binaryKinds) : Rule .expression [.phrase .expression, .token k, .phrase .expression]
  | unary (k : Kind) (h : k ∈ unaryKinds) : Rule .expression [.token k, .phrase .expression]
  | ternary : Rule .expression
      [.phrase .expression, .token .question, .phrase .expression, .token .colon, .phrase .expression]
  | group : Rule .expression [.token .leftParen, .phrase .expression, .token .rightParen]
  | array : Rule .expression [.token .leftBracket, .phrase .arguments, .token .rightBracket]
  | arrayEmpty : Rule .expression [.token .leftBracket, .token .rightBracket]
  | number : Rule .expression [.token .number]
  | string (k : Kind) (h : k ∈ stringKinds) : Rule .expression [.token k]
  | boolean (k : Kind) (h : k ∈ booleanKinds) : Rule .expression [.token k]
  | identifier : Rule .expression [.token .id]
  | elementExpression : Rule .expression [.phrase .element]
  | callExpression : Rule .expression [.phrase .call]
  | empty : Rule .empty []

/-! ### What phrases stand for -/

/-- What a phrase stands for: a type is its name, a list is the nodes in it, and nothing stands for nothing. -/
abbrev Nonterminal.Value : Nonterminal → Type
  | .type => String
  | .functions | .parameters | .statements | .arguments => List Node
  | .empty => Unit
  | _ => Node

abbrev Item.Value : Item → Type
  | .token _ => Token
  | .phrase n => n.Value

/-- What some items stand for, one after another. -/
abbrev Values : List Item → Type
  | [] => Unit
  | i :: is => i.Value × Values is

/-- What a production makes of its parts.

A call takes its arguments as they are, but if the function goes by the name `length` they become a single one.  The
arrow form without parameters reads its parts one place off. -/
def Rule.action : {n : Nonterminal} → {is : List Item} → Rule n is → Values is → n.Value
  | _, _, .program, (fs, _) => .program fs
  | _, _, .functionsMore, (fs, f, _) => fs ++ [f]
  | _, _, .functionsOne, (f, _) => [f]
  | _, _, .block, (funk, name, _, ps, _, _, kind, _, _, ss, _, _) =>
    .function name.text (.several ps) kind (.several ss) funk.line
  | _, _, .blockNoParameters, (funk, name, _, _, _, kind, _, _, ss, _, _) =>
    .function name.text (.several []) kind (.several ss) funk.line
  | _, _, .arrow, (funk, name, _, ps, _, _, kind, _, _, ret, e, _, _) =>
    .function name.text (.several ps) kind (.several [.ret e ret.line]) funk.line
  | _, _, .arrowNoParameters, (funk, name, _, close, _, _, greater, _, _, e, _, _) =>
    .function name.text (.text close.text) greater.text e funk.line
  | _, _, .parametersMore, (ps, _, p, _) => ps ++ [p]
  | _, _, .parametersOne, (p, _) => [p]
  | _, _, .parameter, (name, _, kind, _) => .parameter name.text kind name.line
  | _, _, .type _ _, (t, _) => t.text
  | _, _, .statementsMore, (ss, s, _) => ss ++ s.parts
  | _, _, .statementsOne, (s, _) => s.parts
  | _, _, .statementsNone, _ => []
  | _, _, .declarationStatement, (s, _) => s
  | _, _, .assignmentStatement, (s, _) => s
  | _, _, .callStatement, (s, _) => s
  | _, _, .retStatement, (s, _) => s
  | _, _, .branchStatement, (s, _) => s
  | _, _, .forStatement, (s, _) => s
  | _, _, .whileStatement, (s, _) => s
  | _, _, .doStatement, (s, _) => s
  | _, _, .blockStatement, (s, _) => s
  | _, _, .functionStatement, (s, _) => s
  | _, _, .declaration, (name, _, kind, _, _) => .declaration name.text kind name.line
  | _, _, .initialised, (name, _, kind, eq, e, _, _) =>
    .several [.declaration name.text kind name.line, .assignment (.text name.text) e eq.line]
  | _, _, .assignVariable, (name, eq, e, _, _) => .assignment (.text name.text) e eq.line
  | _, _, .assignElement, (target, eq, e, _, _) => .assignment target e eq.line
  | _, _, .element, (name, _, index, _, _) => .element name.text index name.line
  | _, _, .callThen, (c, _, _) => c
  | _, _, .call _ _, (name, _, args, _, _) =>
    if name.text = "length" then .call "length" [.several args] name.line else .call name.text args name.line
  | _, _, .callNoArguments _ _, (name, _, _, _) => .call name.text [] name.line
  | _, _, .length, (name, _, e, _, _) => .call "length" [e] name.line
  | _, _, .argumentsMore, (es, _, e, _) => es ++ [e]
  | _, _, .argumentsOne, (e, _) => [e]
  | _, _, .retValue, (ret, e, _, _) => .ret e ret.line
  | _, _, .retNothing, (ret, _, _) => .ret .nothing ret.line
  | _, _, .branch, (kw, _, _, e, _, _, yes, _) => .branch e yes .nothing kw.line
  | _, _, .branchElse, (kw, _, _, e, _, _, yes, _, no, _) => .branch e yes no kw.line
  | _, _, .forLoop, (kw, _, name, _, start, _, stop, _, _, ss, _, _) =>
    .forLoop name.text start stop (.several ss) kw.line
  | _, _, .whileLoop, (kw, _, _, e, _, _, body, _) => .whileLoop e body kw.line
  | _, _, .doLoop, (kw, body, _, _, _, e, _, _, _, _) => .doLoop body e kw.line
  | _, _, .beginEnd, (kw, ss, _, _) => .block ss kw.line
  | _, _, .binary _ _, (a, op, b, _) => .binary a op.text b op.line
  | _, _, .unary _ _, (op, e, _) => .unary op.text e op.line
  | _, _, .ternary, (c, q, yes, _, no, _) => .ternary c yes no q.line
  | _, _, .group, (_, e, _, _) => e
  | _, _, .array, (bracket, es, _, _) => .array es bracket.line
  | _, _, .arrayEmpty, (bracket, _, _) => .array [] bracket.line
  | _, _, .number, (t, _) => .number t.count t.line
  | _, _, .string _ _, (t, _) => .string t.text t.line
  | _, _, .boolean _ _, (t, _) => .boolean t.text t.line
  | _, _, .identifier, (t, _) => .identifier t.text t.line
  | _, _, .elementExpression, (e, _) => e
  | _, _, .callExpression, (e, _) => e
  | _, _, .empty, _ => ()

/-! ### Trees -/

mutual

/-- A derivation tree. -/
inductive Tree : Item → Type
  | leaf {k : Kind} (t : Token) (h : t.kind = k) : Tree (.token k)
  | node {n : Nonterminal} {is : List Item} (r : Rule n is) (parts : Trees is) : Tree (.phrase n)

/-- Derivation trees of some items, one after another. -/
inductive Trees : List Item → Type
  | nil : Trees []
  | cons {i : Item} {is : List Item} (d : Tree i) (ds : Trees is) : Trees (i :: is)

end

mutual

/-- The tokens of a tree, from left to right. -/
def Tree.leaves : {i : Item} → Tree i → List Token
  | _, .leaf t _ => [t]
  | _, .node _ parts => parts.leaves

def Trees.leaves : {is : List Item} → Trees is → List Token
  | _, .nil => []
  | _, .cons d ds => d.leaves ++ ds.leaves

end

mutual

/-- What the actions make of a tree. -/
def Tree.value : {i : Item} → Tree i → i.Value
  | _, .leaf t _ => t
  | _, .node r parts => r.action parts.values

def Trees.values : {is : List Item} → Trees is → Values is
  | _, .nil => ()
  | _, .cons d ds => (d.value, ds.values)

end

/-- A list of tokens that the grammar derives. -/
def Sentence (ts : List Token) : Prop := ∃ d : Tree (.phrase .program), d.leaves = ts

/-- A list of tokens that some sentence starts with. -/
def Viable (ts : List Token) : Prop := ∃ us, Sentence (ts ++ us)

theorem nonempty_tree (i : Item) : Nonempty (Tree i) := by
  have token (k : Kind) : Tree (.token k) := .leaf ⟨k, .text "", 0, 0⟩ rfl
  have type : Tree (.phrase .type) := .node (.type .intKw (by decide)) (.cons (token _) .nil)
  have expression : Tree (.phrase .expression) := .node .number (.cons (token _) .nil)
  have arguments : Tree (.phrase .arguments) := .node .argumentsOne (.cons expression .nil)
  have element : Tree (.phrase .element) :=
    .node .element (.cons (token _) (.cons (token _) (.cons expression (.cons (token _) .nil))))
  have call : Tree (.phrase .call) :=
    .node (.callNoArguments .id (by decide)) (.cons (token _) (.cons (token _) (.cons (token _) .nil)))
  have ret : Tree (.phrase .ret) := .node .retNothing (.cons (token _) (.cons (token _) .nil))
  have empty : Tree (.phrase .empty) := .node .empty .nil
  have statement : Tree (.phrase .statement) := .node .retStatement (.cons ret .nil)
  have statements : Tree (.phrase .statements) := .node .statementsNone (.cons empty .nil)
  have parameter : Tree (.phrase .parameter) :=
    .node .parameter (.cons (token _) (.cons (token _) (.cons type .nil)))
  have function : Tree (.phrase .function) :=
    .node .blockNoParameters (.cons (token _) (.cons (token _) (.cons (token _) (.cons (token _) (.cons (token _)
      (.cons type (.cons (token _) (.cons (token _) (.cons statements (.cons (token _) .nil))))))))))
  have functions : Tree (.phrase .functions) := .node .functionsOne (.cons function .nil)
  cases i with
  | token k => exact ⟨token k⟩
  | phrase n =>
    cases n with
    | program => exact ⟨.node .program (.cons functions .nil)⟩
    | functions => exact ⟨functions⟩
    | function => exact ⟨function⟩
    | parameters => exact ⟨.node .parametersOne (.cons parameter .nil)⟩
    | parameter => exact ⟨parameter⟩
    | type => exact ⟨type⟩
    | statements => exact ⟨statements⟩
    | statement => exact ⟨statement⟩
    | declaration => exact ⟨.node .declaration (.cons (token _) (.cons (token _) (.cons type (.cons (token _) .nil))))⟩
    | assignment =>
      exact ⟨.node .assignVariable (.cons (token _) (.cons (token _) (.cons expression (.cons (token _) .nil))))⟩
    | element => exact ⟨element⟩
    | callStatement => exact ⟨.node .callThen (.cons call (.cons (token _) .nil))⟩
    | call => exact ⟨call⟩
    | arguments => exact ⟨arguments⟩
    | ret => exact ⟨ret⟩
    | branch =>
      exact ⟨.node .branch (.cons (token _) (.cons (token _) (.cons (token _) (.cons expression (.cons (token _)
        (.cons (token _) (.cons statement .nil)))))))⟩
    | forLoop =>
      exact ⟨.node .forLoop (.cons (token _) (.cons (token _) (.cons (token _) (.cons (token _) (.cons expression
        (.cons (token _) (.cons expression (.cons (token _) (.cons (token _) (.cons statements
        (.cons (token _) .nil)))))))))))⟩
    | whileLoop =>
      exact ⟨.node .whileLoop (.cons (token _) (.cons (token _) (.cons (token _) (.cons expression (.cons (token _)
        (.cons (token _) (.cons statement .nil)))))))⟩
    | doLoop =>
      exact ⟨.node .doLoop (.cons (token _) (.cons statement (.cons (token _) (.cons (token _) (.cons (token _)
        (.cons expression (.cons (token _) (.cons (token _) (.cons (token _) .nil)))))))))⟩
    | block => exact ⟨.node .beginEnd (.cons (token _) (.cons statements (.cons (token _) .nil)))⟩
    | expression => exact ⟨expression⟩
    | empty => exact ⟨empty⟩

theorem nonempty_trees : ∀ is : List Item, Nonempty (Trees is)
  | [] => ⟨.nil⟩
  | i :: is => by
    obtain ⟨d⟩ := nonempty_tree i
    obtain ⟨ds⟩ := nonempty_trees is
    exact ⟨.cons d ds⟩

/-! ### Phrases in a list of tokens -/

def Spans (i : Item) (v : i.Value) (ts us : List Token) : Prop :=
  ∃ d : Tree i, ts = d.leaves ++ us ∧ ((∀ t ∈ d.leaves, t.Spelled) → d.value = v)

def Begins (i : Item) (ts us : List Token) : Prop :=
  ∃ read rest, ts = read ++ us ∧ ∃ d : Tree i, d.leaves = read ++ rest

/-- From `ts` to its end `us` stand the first parts of a production.  The parts `is` are still to come, and `f` tells what
the whole stands for by what they stand for. -/
def Halfway (n : Nonterminal) (ts us : List Token) (is : List Item) (f : Values is → n.Value) : Prop :=
  ∃ read, ts = read ++ us ∧ ∀ parts : Trees is, ∃ d : Tree (.phrase n),
    d.leaves = read ++ parts.leaves ∧ ((∀ t ∈ d.leaves, t.Spelled) → d.value = f parts.values)

theorem spans_token {t : Token} {k : Kind} (h : t.kind = k) (us : List Token) : Spans (.token k) t (t :: us) us :=
  ⟨.leaf t h, rfl, fun _ => rfl⟩

namespace Halfway

variable {n : Nonterminal} {ts us vs : List Token} {i : Item} {is : List Item}

theorem start (r : Rule n is) (ts : List Token) : Halfway n ts ts is r.action :=
  ⟨[], rfl, fun parts => ⟨.node r parts, rfl, fun _ => rfl⟩⟩

theorem next_of {f : Values (i :: is) → n.Value} {g : Values is → n.Value} (h : Halfway n ts us (i :: is) f) (d : Tree i)
    (hu : us = d.leaves ++ vs) (hg : (∀ t ∈ d.leaves, t.Spelled) → ∀ x, f (d.value, x) = g x) : Halfway n ts vs is g := by
  obtain ⟨read, hr, complete⟩ := h
  refine ⟨read ++ d.leaves, by rw [hr, hu, List.append_assoc], fun parts => ?_⟩
  obtain ⟨whole, hl, hv⟩ := complete (.cons d parts)
  have hl : whole.leaves = read ++ (d.leaves ++ parts.leaves) := hl
  refine ⟨whole, by rw [hl, List.append_assoc], fun spelled => ?_⟩
  have hd : ∀ t ∈ d.leaves, t.Spelled := by
    intro t ht
    apply spelled
    simp [hl, ht]
  exact (hv spelled).trans (hg hd parts.values)

theorem next {f : Values (i :: is) → n.Value} (h : Halfway n ts us (i :: is) f) {v : i.Value} (hs : Spans i v us vs) :
    Halfway n ts vs is fun x => f (v, x) := by
  obtain ⟨d, hu, hv⟩ := hs
  exact h.next_of d hu fun spelled x => by rw [hv spelled]

theorem token {k : Kind} {t : Token} {f : Values (.token k :: is) → n.Value} {g : Values is → n.Value}
    (h : Halfway n ts (t :: us) (.token k :: is) f) (hk : t.kind = k) (hg : t.Spelled → ∀ x, f (t, x) = g x) :
    Halfway n ts us is g := by
  exact h.next_of (.leaf t hk) rfl fun spelled x => hg (spelled t (List.mem_singleton_self t)) x

theorem done {f : Values [] → n.Value} (h : Halfway n ts us [] f) : Spans (.phrase n) (f ()) ts us := by
  obtain ⟨read, hr, complete⟩ := h
  obtain ⟨d, hl, hv⟩ := complete .nil
  have hl : d.leaves = read ++ [] := hl
  exact ⟨d, by rw [hr, hl, List.append_nil], hv⟩

theorem begins {f : Values is → n.Value} (h : Halfway n ts us is f) : Begins (.phrase n) ts us := by
  obtain ⟨read, hr, complete⟩ := h
  obtain ⟨parts⟩ := nonempty_trees is
  obtain ⟨d, hl, -⟩ := complete parts
  exact ⟨read, parts.leaves, hr, d, hl⟩

theorem within {f : Values (i :: is) → n.Value} (h : Halfway n ts us (i :: is) f) (hb : Begins i us vs) :
    Begins (.phrase n) ts vs := by
  obtain ⟨read, hr, complete⟩ := h
  obtain ⟨inner, rest, hu, d, hd⟩ := hb
  obtain ⟨parts⟩ := nonempty_trees is
  obtain ⟨whole, hl, -⟩ := complete (.cons d parts)
  have hl : whole.leaves = read ++ (d.leaves ++ parts.leaves) := hl
  rw [hd] at hl
  exact ⟨read ++ inner, rest ++ parts.leaves, by rw [hr, hu, List.append_assoc], whole, by simp [hl]⟩

end Halfway

end TesLang.Grammar
