import TesLang.Proofs.Parsing.Derivation
/-!
# The grammar without its ambiguities

A second grammar for the same texts, in the form in which the parser reads them (`Production`).  An expression is a row of
operands with binary operators between them, and the condition of `?:` is an atom.  An `if` without `else` leaves its
statement open, and a statement in front of an `else` is not open, so each `else` has one `if` to belong to.  Lists go
on to the right and end with what closes them.

`Reads ps ts us` says that between `ts` and its end `us` stand the parts `ps`.  All that the first grammar derives is read
by this one (`Sentence.reads`).  Its lists grow on the right, so a phrase that ends with one is known by what it becomes
when the list goes on behind it (`Flat`).  The one thing that takes an induction is that an open statement with an `else`
behind it is a statement again (`reads_else`).
-/
namespace TesLang.Grammar

inductive Form where
  | program | moreFunctions | function | parameters | moreParameters | parameter | type
  | statements
  /-- a statement, and whether an `else` behind it would belong to it -/
  | statement (isOpen : Bool)
  | condition | call
  /-- what stands between a bracket and the bracket that closes it -/
  | arguments (close : Kind) | moreArguments (close : Kind)
  | expression | tail | operand | atom

/-- What may stand on the right of a production: a token of some kind, or a phrase. -/
inductive Part where
  | token (k : Kind)
  | phrase (f : Form)

inductive Production : Form → List Part → Prop
  | program : Production .program [.phrase .function, .phrase .moreFunctions]
  | noFunction : Production .moreFunctions []
  | nextFunction : Production .moreFunctions [.phrase .function, .phrase .moreFunctions]
  | block : Production .function
      [.token .funkKw, .token .id, .token .leftParen, .phrase .parameters, .token .less, .phrase .type, .token .greater,
        .token .leftBrace, .phrase .statements, .token .rightBrace]
  | arrow : Production .function
      [.token .funkKw, .token .id, .token .leftParen, .phrase .parameters, .token .less, .phrase .type, .token .greater,
        .token .arrow, .token .returnKw, .phrase .expression, .token .semicolon]
  | noParameters : Production .parameters [.token .rightParen]
  | parameters : Production .parameters [.phrase .parameter, .phrase .moreParameters]
  | lastParameter : Production .moreParameters [.token .rightParen]
  | nextParameter : Production .moreParameters [.token .comma, .phrase .parameter, .phrase .moreParameters]
  | parameter : Production .parameter [.token .id, .token .asKw, .phrase .type]
  | type {k : Kind} (h : k ∈ typeKinds) : Production .type [.token k]
  | noStatement : Production .statements []
  | nextStatement (b : Bool) : Production .statements [.phrase (.statement b), .phrase .statements]
  | declaration : Production (.statement false) [.token .id, .token .doubleColon, .phrase .type, .token .semicolon]
  | initialised : Production (.statement false)
      [.token .id, .token .doubleColon, .phrase .type, .token .assign, .phrase .expression, .token .semicolon]
  | assignVariable : Production (.statement false) [.token .id, .token .assign, .phrase .expression, .token .semicolon]
  | assignElement : Production (.statement false)
      [.token .id, .token .leftBracket, .phrase .expression, .token .rightBracket, .token .assign, .phrase .expression,
        .token .semicolon]
  | callStatement : Production (.statement false) [.phrase .call, .token .semicolon]
  | retNothing : Production (.statement false) [.token .returnKw, .token .semicolon]
  | retValue : Production (.statement false) [.token .returnKw, .phrase .expression, .token .semicolon]
  | branch (b : Bool) : Production (.statement true) [.token .ifKw, .phrase .condition, .phrase (.statement b)]
  | branchElse (b : Bool) : Production (.statement b)
      [.token .ifKw, .phrase .condition, .phrase (.statement false), .token .elseKw, .phrase (.statement b)]
  | forLoop : Production (.statement false)
      [.token .forKw, .token .leftParen, .token .id, .token .assign, .phrase .expression, .token .toKw, .phrase .expression,
        .token .rightParen, .token .beginKw, .phrase .statements, .token .endKw]
  | whileLoop (b : Bool) : Production (.statement b) [.token .whileKw, .phrase .condition, .phrase (.statement b)]
  | doLoop (b : Bool) : Production (.statement false)
      [.token .doKw, .phrase (.statement b), .token .whileKw, .phrase .condition, .token .semicolon]
  | beginEnd : Production (.statement false) [.token .beginKw, .phrase .statements, .token .endKw]
  | functionStatement : Production (.statement false) [.phrase .function]
  | condition : Production .condition
      [.token .leftBracket, .token .leftBracket, .phrase .expression, .token .rightBracket, .token .rightBracket]
  | call {k : Kind} (h : k ∈ calleeKinds) : Production .call
      [.token k, .token .leftParen, .phrase (.arguments .rightParen)]
  | length : Production .call [.token .lengthKw, .token .leftParen, .phrase .expression, .token .rightParen]
  | noArguments (close : Kind) : Production (.arguments close) [.token close]
  | arguments (close : Kind) : Production (.arguments close) [.phrase .expression, .phrase (.moreArguments close)]
  | lastArgument (close : Kind) : Production (.moreArguments close) [.token close]
  | nextArgument (close : Kind) : Production (.moreArguments close)
      [.token .comma, .phrase .expression, .phrase (.moreArguments close)]
  | expression : Production .expression [.phrase .operand, .phrase .tail]
  | noOperand : Production .tail []
  | nextOperand {k : Kind} (h : k ∈ binaryKinds) : Production .tail [.token k, .phrase .operand, .phrase .tail]
  | unary {k : Kind} (h : k ∈ unaryKinds) : Production .operand [.token k, .phrase .operand]
  | atom : Production .operand [.phrase .atom]
  | ternary : Production .operand
      [.phrase .atom, .token .question, .phrase .expression, .token .colon, .phrase .operand]
  | number : Production .atom [.token .number]
  | string {k : Kind} (h : k ∈ stringKinds) : Production .atom [.token k]
  | boolean {k : Kind} (h : k ∈ booleanKinds) : Production .atom [.token k]
  | identifier : Production .atom [.token .id]
  | element : Production .atom [.token .id, .token .leftBracket, .phrase .expression, .token .rightBracket]
  | group : Production .atom [.token .leftParen, .phrase .expression, .token .rightParen]
  | array : Production .atom [.token .leftBracket, .phrase (.arguments .rightBracket)]
  | callAtom : Production .atom [.phrase .call]

/-- Between a list of tokens and its end stand some parts. -/
inductive Reads : List Part → List Token → List Token → Prop
  | done {us : List Token} : Reads [] us us
  | token {k : Kind} {ps : List Part} {t : Token} {us vs : List Token} (h : t.kind = k) (rest : Reads ps us vs) :
      Reads (.token k :: ps) (t :: us) vs
  | phrase {f : Form} {qs ps : List Part} {us vs ws : List Token} (p : Production f qs) (inner : Reads qs us vs)
      (rest : Reads ps vs ws) : Reads (.phrase f :: ps) us ws

namespace Reads

variable {ps qs : List Part} {us vs ws : List Token} {f : Form}

theorem append (h : Reads ps us vs) (rest : Reads qs vs ws) : Reads (ps ++ qs) us ws := by
  induction h with
  | done => exact rest
  | token h _ ih => exact .token h (ih rest)
  | phrase p inner _ _ ih => exact .phrase p inner (ih rest)

theorem cons {p : Part} (h : Reads [p] us vs) (rest : Reads ps vs ws) : Reads (p :: ps) us ws := h.append rest

theorem one (p : Production f qs) (h : Reads qs us vs) : Reads [.phrase f] us vs := .phrase p h .done

theorem uncons {p : Part} (h : Reads (p :: ps) us ws) : ∃ vs, Reads [p] us vs ∧ Reads ps vs ws := by
  cases h with
  | token h rest => exact ⟨_, .token h .done, rest⟩
  | phrase p inner rest => exact ⟨_, .one p inner, rest⟩

theorem eq_of_nil (h : Reads [] us vs) : us = vs := by
  cases h
  rfl

theorem production (h : Reads [.phrase f] us vs) : ∃ qs, Production f qs ∧ Reads qs us vs := by
  obtain _ | _ | ⟨p, inner, rest⟩ := h
  cases rest
  exact ⟨_, p, inner⟩

end Reads

/-- **The nearest `if`**: an open statement with an `else` and another statement behind it is a statement. -/
theorem reads_else {b : Bool} {t : Token} {us vs ws : List Token} (ht : t.kind = .elseKw)
    (no : Reads [.phrase (.statement b)] vs ws) (yes : Reads [.phrase (.statement true)] us (t :: vs)) :
    ∃ b', Reads [.phrase (.statement b')] us ws := by
  -- the open statement may stand behind other parts, so that it is found at the end of its own production again
  have behind {ps : List Part} {us xs : List Token} (h : Reads ps us xs) : ∀ front,
      ps = front ++ [.phrase (.statement true)] → xs = t :: vs → ∃ b', Reads (front ++ [.phrase (.statement b')]) us ws := by
    induction h with
    | done =>
      intro front h
      exact absurd h.symm (by simp)
    | token hk rest ih =>
      intro front hp hx
      cases front with
      | nil => cases hp
      | cons p front =>
        obtain ⟨rfl, tail⟩ := List.cons.inj hp
        obtain ⟨b', h⟩ := ih front tail hx
        exact ⟨b', .token hk h⟩
    | @phrase f qs ps us ys xs p inner rest ihInner ih =>
      intro front hp hx
      cases front with
      | cons q front =>
        obtain ⟨rfl, tail⟩ := List.cons.inj hp
        obtain ⟨b', h⟩ := ih front tail hx
        exact ⟨b', .phrase p inner h⟩
      | nil =>
        cases hp
        obtain rfl := rest.eq_of_nil
        cases p with
        | branch b₁ =>
          cases b₁ with
          | true =>
            obtain ⟨b', h⟩ := ihInner [.token .ifKw, .phrase .condition] rfl hx
            exact ⟨true, .one (.branch b') h⟩
          | false =>
            subst hx
            exact ⟨b, .one (.branchElse b) (inner.append (.token ht no))⟩
        | branchElse =>
          obtain ⟨b', h⟩ := ihInner [.token .ifKw, .phrase .condition, .phrase (.statement false), .token .elseKw] rfl hx
          exact ⟨b', .one (.branchElse b') h⟩
        | whileLoop =>
          obtain ⟨b', h⟩ := ihInner [.token .whileKw, .phrase .condition] rfl hx
          exact ⟨b', .one (.whileLoop b') h⟩
  exact behind yes [] rfl rfl

def GoesOn (us vs : List Token) : Prop :=
  Reads [.phrase .tail] us vs ∨
    Reads [.token .question, .phrase .expression, .token .colon, .phrase .operand, .phrase .tail] us vs

/-- What the second grammar knows of an item of the first. -/
def Flat : Item → List Token → List Token → Prop
  | .token k, us, vs => Reads [.token k] us vs
  | .phrase .program, us, vs => Reads [.phrase .program] us vs
  | .phrase .functions, us, vs => ∀ ws, Reads [.phrase .moreFunctions] vs ws → Reads [.phrase .program] us ws
  | .phrase .function, us, vs => Reads [.phrase .function] us vs
  | .phrase .parameters, us, vs => ∀ ws, Reads [.phrase .moreParameters] vs ws → Reads [.phrase .parameters] us ws
  | .phrase .parameter, us, vs => Reads [.phrase .parameter] us vs
  | .phrase .type, us, vs => Reads [.phrase .type] us vs
  | .phrase .statements, us, vs => ∀ ws, Reads [.phrase .statements] vs ws → Reads [.phrase .statements] us ws
  | .phrase .element, us, vs => Reads [.token .id, .token .leftBracket, .phrase .expression, .token .rightBracket] us vs
  | .phrase .call, us, vs => Reads [.phrase .call] us vs
  | .phrase .arguments, us, vs =>
    ∀ close ws, Reads [.phrase (.moreArguments close)] vs ws → Reads [.phrase (.arguments close)] us ws
  | .phrase .expression, us, vs => ∀ ws, GoesOn vs ws → Reads [.phrase .expression] us ws
  | .phrase .empty, us, vs => us = vs
  | .phrase _, us, vs => ∃ b, Reads [.phrase (.statement b)] us vs

def FlatAll : List Item → List Token → List Token → Prop
  | [], us, vs => us = vs
  | i :: is, us, ws => ∃ vs, Flat i us vs ∧ FlatAll is vs ws

theorem Flat.expression {us vs : List Token} (h : Flat (.phrase .expression) us vs) : Reads [.phrase .expression] us vs :=
  h vs (.inl (.one .noOperand .done))

theorem Flat.statements {us vs : List Token} (h : Flat (.phrase .statements) us vs) : Reads [.phrase .statements] us vs :=
  h vs (.one .noStatement .done)

theorem flat_of_atom {us vs : List Token} (h : Reads [.phrase .atom] us vs) : Flat (.phrase .expression) us vs := by
  rintro ws (tail | choice)
  · exact .one .expression (.cons (.one .atom h) tail)
  · obtain ⟨xs, q, choice⟩ := choice.uncons
    obtain ⟨ys, yes, choice⟩ := choice.uncons
    obtain ⟨zs, colon, choice⟩ := choice.uncons
    obtain ⟨vs', no, tail⟩ := choice.uncons
    exact .one .expression (.cons (.one .ternary (h.cons (q.cons (yes.cons (colon.cons no))))) tail)

theorem Reads.operand {us vs : List Token} (h : Reads [.phrase .expression] us vs) :
    ∃ ws, Reads [.phrase .operand] us ws ∧ Reads [.phrase .tail] ws vs := by
  obtain ⟨_, ⟨⟩, h⟩ := h.production
  exact h.uncons

theorem flat_of_rule {n : Nonterminal} {is : List Item} (r : Rule n is) {us vs : List Token} (h : FlatAll is us vs) :
    Flat (.phrase n) us vs := by
  cases r with
  | program =>
    obtain ⟨_, fs, rfl⟩ := h
    exact fs _ (.one .noFunction .done)
  | functionsMore =>
    obtain ⟨_, fs, _, f, rfl⟩ := h
    exact fun ws more => fs ws (.one .nextFunction (f.cons more))
  | functionsOne =>
    obtain ⟨_, f, rfl⟩ := h
    exact fun ws more => .one .program (f.cons more)
  | block =>
    obtain ⟨_, kw, _, name, _, p, _, ps, _, c, _, a, _, kind, _, b, _, brace, _, ss, _, brace', rfl⟩ := h
    have ps := ps _ (.one .lastParameter c)
    exact .one .block (kw.cons <| name.cons <| p.cons <| ps.cons <| a.cons <| kind.cons <| b.cons <| brace.cons <|
      ss.statements.cons brace')
  | blockNoParameters =>
    obtain ⟨_, kw, _, name, _, p, _, c, _, a, _, kind, _, b, _, brace, _, ss, _, brace', rfl⟩ := h
    have ps : Reads [.phrase .parameters] _ _ := .one .noParameters c
    exact .one .block (kw.cons <| name.cons <| p.cons <| ps.cons <| a.cons <| kind.cons <| b.cons <| brace.cons <|
      ss.statements.cons brace')
  | arrow =>
    obtain ⟨_, kw, _, name, _, p, _, ps, _, c, _, a, _, kind, _, b, _, arrow, _, ret, _, e, _, semi, rfl⟩ := h
    have ps := ps _ (.one .lastParameter c)
    exact .one .arrow (kw.cons <| name.cons <| p.cons <| ps.cons <| a.cons <| kind.cons <| b.cons <| arrow.cons <|
      ret.cons <| e.expression.cons semi)
  | arrowNoParameters =>
    obtain ⟨_, kw, _, name, _, p, _, c, _, a, _, kind, _, b, _, arrow, _, ret, _, e, _, semi, rfl⟩ := h
    have ps : Reads [.phrase .parameters] _ _ := .one .noParameters c
    exact .one .arrow (kw.cons <| name.cons <| p.cons <| ps.cons <| a.cons <| kind.cons <| b.cons <| arrow.cons <|
      ret.cons <| e.expression.cons semi)
  | parametersMore =>
    obtain ⟨_, ps, _, comma, _, p, rfl⟩ := h
    exact fun ws more => ps ws (.one .nextParameter (comma.cons (p.cons more)))
  | parametersOne =>
    obtain ⟨_, p, rfl⟩ := h
    exact fun ws more => .one .parameters (p.cons more)
  | parameter =>
    obtain ⟨_, name, _, kw, _, kind, rfl⟩ := h
    exact .one .parameter (name.cons (kw.cons kind))
  | type k hk =>
    obtain ⟨_, t, rfl⟩ := h
    exact .one (.type hk) t
  | statementsMore =>
    obtain ⟨_, ss, _, ⟨b, s⟩, rfl⟩ := h
    exact fun ws more => ss ws (.one (.nextStatement b) (s.cons more))
  | statementsOne =>
    obtain ⟨_, ⟨b, s⟩, rfl⟩ := h
    exact fun ws more => .one (.nextStatement b) (s.cons more)
  | statementsNone =>
    obtain ⟨_, rfl, rfl⟩ := h
    exact fun ws more => more
  | functionStatement =>
    obtain ⟨_, f, rfl⟩ := h
    exact ⟨false, .one .functionStatement f⟩
  | declarationStatement | assignmentStatement | callStatement | retStatement | branchStatement | forStatement
  | whileStatement | doStatement | blockStatement =>
    obtain ⟨_, s, rfl⟩ := h
    exact s
  | declaration =>
    obtain ⟨_, name, _, colons, _, kind, _, semi, rfl⟩ := h
    exact ⟨false, .one .declaration (name.cons (colons.cons (kind.cons semi)))⟩
  | initialised =>
    obtain ⟨_, name, _, colons, _, kind, _, eq, _, e, _, semi, rfl⟩ := h
    exact ⟨false, .one .initialised (name.cons <| colons.cons <| kind.cons <| eq.cons <| e.expression.cons semi)⟩
  | assignVariable =>
    obtain ⟨_, name, _, eq, _, e, _, semi, rfl⟩ := h
    exact ⟨false, .one .assignVariable (name.cons <| eq.cons <| e.expression.cons semi)⟩
  | assignElement =>
    obtain ⟨_, target, _, eq, _, e, _, semi, rfl⟩ := h
    exact ⟨false, .one .assignElement (target.append (eq.cons (e.expression.cons semi)))⟩
  | element =>
    obtain ⟨_, name, _, b, _, e, _, c, rfl⟩ := h
    exact name.cons <| b.cons <| e.expression.cons c
  | callThen =>
    obtain ⟨_, c, _, semi, rfl⟩ := h
    exact ⟨false, .one .callStatement (c.cons semi)⟩
  | call k hk =>
    obtain ⟨_, name, _, p, _, args, _, c, rfl⟩ := h
    exact .one (.call hk) (name.cons (p.cons (args _ _ (.one (.lastArgument _) c))))
  | callNoArguments k hk =>
    obtain ⟨_, name, _, p, _, c, rfl⟩ := h
    exact .one (.call hk) (name.cons (p.cons (.one (.noArguments _) c)))
  | length =>
    obtain ⟨_, name, _, p, _, e, _, c, rfl⟩ := h
    exact .one .length (name.cons (p.cons (e.expression.cons c)))
  | argumentsMore =>
    obtain ⟨_, es, _, comma, _, e, rfl⟩ := h
    exact fun close ws more => es close ws (.one (.nextArgument close) (comma.cons (e.expression.cons more)))
  | argumentsOne =>
    obtain ⟨_, e, rfl⟩ := h
    exact fun close ws more => .one (.arguments close) (e.expression.cons more)
  | retValue =>
    obtain ⟨_, kw, _, e, _, semi, rfl⟩ := h
    exact ⟨false, .one .retValue (kw.cons (e.expression.cons semi))⟩
  | retNothing =>
    obtain ⟨_, kw, _, semi, rfl⟩ := h
    exact ⟨false, .one .retNothing (kw.cons semi)⟩
  | branch =>
    obtain ⟨_, kw, _, a, _, b, _, e, _, c, _, d, _, ⟨o, yes⟩, rfl⟩ := h
    have condition := Reads.one .condition (a.cons (b.cons (e.expression.cons (c.cons d))))
    exact ⟨true, .one (.branch o) (kw.cons (condition.cons yes))⟩
  | branchElse =>
    obtain ⟨_, kw, _, a, _, b, _, e, _, c, _, d, _, ⟨o, yes⟩, _, el, _, ⟨o', no⟩, rfl⟩ := h
    have condition := Reads.one .condition (a.cons (b.cons (e.expression.cons (c.cons d))))
    cases o with
    | false => exact ⟨o', .one (.branchElse o') (kw.cons (condition.cons (yes.cons (el.cons no))))⟩
    | true =>
      -- the `else` belongs to an `if` further inside
      obtain _ | ⟨ht, rest⟩ := el
      obtain rfl := rest.eq_of_nil
      obtain ⟨o'', yes⟩ := reads_else ht no yes
      exact ⟨true, .one (.branch o'') (kw.cons (condition.cons yes))⟩
  | forLoop =>
    obtain ⟨_, kw, _, p, _, name, _, eq, _, start, _, upto, _, stop, _, c, _, begin, _, ss, _, fin, rfl⟩ := h
    exact ⟨false, .one .forLoop (kw.cons <| p.cons <| name.cons <| eq.cons <| start.expression.cons <| upto.cons <|
      stop.expression.cons <| c.cons <| begin.cons <| ss.statements.cons fin)⟩
  | whileLoop =>
    obtain ⟨_, kw, _, a, _, b, _, e, _, c, _, d, _, ⟨o, body⟩, rfl⟩ := h
    have condition := Reads.one .condition (a.cons (b.cons (e.expression.cons (c.cons d))))
    exact ⟨o, .one (.whileLoop o) (kw.cons (condition.cons body))⟩
  | doLoop =>
    obtain ⟨_, kw, _, ⟨o, body⟩, _, kw', _, a, _, b, _, e, _, c, _, d, _, semi, rfl⟩ := h
    have condition := Reads.one .condition (a.cons (b.cons (e.expression.cons (c.cons d))))
    exact ⟨false, .one (.doLoop o) (kw.cons <| body.cons <| kw'.cons <| condition.cons semi)⟩
  | beginEnd =>
    obtain ⟨_, kw, _, ss, _, kw', rfl⟩ := h
    exact ⟨false, .one .beginEnd (kw.cons (ss.statements.cons kw'))⟩
  | binary k hk =>
    obtain ⟨_, left, _, op, _, right, rfl⟩ := h
    intro ws on
    obtain ⟨xs, operand, tail⟩ := (right ws on).operand
    exact left ws (.inl (.one (.nextOperand hk) (op.cons (operand.cons tail))))
  | unary k hk =>
    obtain ⟨_, op, _, e, rfl⟩ := h
    intro ws on
    obtain ⟨xs, operand, tail⟩ := (e ws on).operand
    exact .one .expression (.cons (.one (.unary hk) (op.cons operand)) tail)
  | ternary =>
    obtain ⟨_, condition, _, q, _, yes, _, colon, _, no, rfl⟩ := h
    intro ws on
    obtain ⟨xs, operand, tail⟩ := (no ws on).operand
    exact condition ws (.inr (q.cons <| yes.expression.cons <| colon.cons <| operand.cons tail))
  | group =>
    obtain ⟨_, p, _, e, _, c, rfl⟩ := h
    exact flat_of_atom (.one .group (p.cons (e.expression.cons c)))
  | array =>
    obtain ⟨_, b, _, es, _, c, rfl⟩ := h
    exact flat_of_atom (.one .array (b.cons (es _ _ (.one (.lastArgument _) c))))
  | arrayEmpty =>
    obtain ⟨_, b, _, c, rfl⟩ := h
    exact flat_of_atom (.one .array (b.cons (.one (.noArguments _) c)))
  | number =>
    obtain ⟨_, t, rfl⟩ := h
    exact flat_of_atom (.one .number t)
  | string k hk =>
    obtain ⟨_, t, rfl⟩ := h
    exact flat_of_atom (.one (.string hk) t)
  | boolean k hk =>
    obtain ⟨_, t, rfl⟩ := h
    exact flat_of_atom (.one (.boolean hk) t)
  | identifier =>
    obtain ⟨_, t, rfl⟩ := h
    exact flat_of_atom (.one .identifier t)
  | elementExpression =>
    obtain ⟨_, e, rfl⟩ := h
    exact flat_of_atom (.one .element e)
  | callExpression =>
    obtain ⟨_, c, rfl⟩ := h
    exact flat_of_atom (.one .callAtom c)
  | empty => exact h

mutual

theorem flat_of_tree : ∀ {i : Item} (d : Tree i) (us : List Token), Flat i (d.leaves ++ us) us
  | _, .leaf t h, us => by
    rw [Tree.leaves]
    exact .token h .done
  | _, .node r parts, us => by
    rw [Tree.leaves]
    exact flat_of_rule r (flatAll_of_trees parts us)

theorem flatAll_of_trees : ∀ {is : List Item} (ds : Trees is) (us : List Token), FlatAll is (ds.leaves ++ us) us
  | _, .nil, us => by
    rw [Trees.leaves]
    rfl
  | _, .cons d ds, us => by
    rw [Trees.leaves, List.append_assoc]
    exact ⟨ds.leaves ++ us, flat_of_tree d _, flatAll_of_trees ds us⟩

end

/-- **The same texts**: what the first grammar derives is read by the second. -/
theorem Sentence.reads {ts : List Token} (h : Sentence ts) : Reads [.phrase .program] ts [] := by
  obtain ⟨d, rfl⟩ := h
  have h := flat_of_tree d []
  rwa [List.append_nil] at h

end TesLang.Grammar
