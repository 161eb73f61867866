import TesLang.Proofs.Parsing.Spelling
/-!
# What the parser makes

The tree of a text has the shape of the grammar: nodes stand only where the grammar puts them, and all names in it are
words (`parse_areFunctions`).  The type of nodes is wider than that, so what is true of programs only is said of trees of
this shape.

`isStatement` also takes the two statements that a declaration with an initial value stands for, where the grammar wants a
single one; in a list of statements the two have their own places.  What names an expression may have is left open
(`isExpression`), for the sake of trees that no parser made.
-/
namespace TesLang.Grammar

mutual

/-- Whether a node is an expression of the grammar, with names that are right. -/
def isExpression (right : String → Bool) : Node → Bool
  | .number .. | .string .. | .boolean .. => true
  | .identifier x _ => right x
  | .call f args _ => right f && areExpressions right args
  | .element x index _ => right x && isExpression right index
  | .binary a _ b _ => isExpression right a && isExpression right b
  | .unary _ e _ => isExpression right e
  | .ternary condition yes no _ => isExpression right condition && isExpression right yes && isExpression right no
  | .array es _ => areExpressions right es
  | _ => false

def areExpressions (right : String → Bool) : List Node → Bool
  | [] => true
  | e :: es => isExpression right e && areExpressions right es

end

def isParameter : Node → Bool
  | .parameter x _ _ => isWord x
  | _ => false

/-- Whether a place holds several nodes. -/
def isSeveral : Node → Bool
  | .several _ => true
  | _ => false

mutual

/-- Whether what stands in the place of a statement is a statement of the grammar. -/
def isStatement : Node → Bool
  | .declaration x _ _ => isWord x
  | .assignment (.text x) value _ => isWord x && isExpression isWord value
  | .assignment (.element x index _) value _ => isWord x && isExpression isWord index && isExpression isWord value
  | .call f args _ => isWord f && areExpressions isWord args
  | .ret .nothing _ => true
  | .ret value _ => isExpression isWord value
  | .branch condition yes .nothing _ => isExpression isWord condition && isStatement yes
  | .branch condition yes no _ => isExpression isWord condition && isStatement yes && isStatement no
  | .forLoop x start stop (.several ss) _ => isWord x && isExpression isWord start && isExpression isWord stop && areStatements ss
  | .whileLoop condition body _ => isExpression isWord condition && isStatement body
  | .doLoop body condition _ => isStatement body && isExpression isWord condition
  | .block ss _ => areStatements ss
  | .several ss => areStatements ss
  | .function f (.several ps) _ (.several ss) _ => isWord f && ps.all isParameter && areStatements ss
  | .function f (.text ps) _ body _ => isWord f && ps == ")" && isExpression isWord body
  | _ => false

def areStatements : List Node → Bool
  | [] => true
  | s :: ss => !isSeveral s && isStatement s && areStatements ss

end

/-- Whether some nodes are the functions of a program. -/
def areFunctions (fs : List Node) : Bool := fs.all fun f => f.isFunction && isStatement f

theorem areStatements_append : ∀ {a b : List Node}, areStatements (a ++ b) = (areStatements a && areStatements b)
  | [], b => by rw [List.nil_append, areStatements, Bool.true_and]
  | s :: a, b => by simp only [List.cons_append, areStatements, areStatements_append, Bool.and_assoc]

theorem areStatements_parts {s : Node} (h : isStatement s = true) : areStatements s.parts = true := by
  cases s
  case several ss =>
    rw [isStatement] at h
    exact h
  all_goals
    simp only [Node.parts, areStatements, isSeveral, h]
    rfl

theorem isStatement_ret {value : Node} {line : Int} :
    isStatement (.ret value line) = true ↔ value = .nothing ∨ isExpression isWord value = true := by
  by_cases bare : value = .nothing <;> simp [bare, isStatement]

theorem isStatement_branch {condition yes no : Node} {line : Int} :
    isStatement (.branch condition yes no line) = true ↔
      isExpression isWord condition = true ∧ isStatement yes = true ∧ (no = .nothing ∨ isStatement no = true) := by
  by_cases short : no = .nothing <;> simp [short, isStatement, and_assoc]

end Grammar

/-! ### Parsers that make what they should -/

/-- All tokens that are left are spelled right. -/
def Input.Spelled (s : Input) : Prop := ∀ t ∈ s.tokens, t.Spelled

namespace Parser

open Grammar

variable {α β : Type}

/-- On tokens that are spelled right, whatever `p` makes has the property `P`, and all that it leaves is spelled right,
also where it gets stuck. -/
def Makes (P : α → Prop) (p : Parser α) : Prop := ∀ s : Input, s.Spelled →
  match p.run s with
  | .ok a s' => P a ∧ s'.Spelled
  | .error _ s' => s'.Spelled

/-- As `Makes`, if the next token is of the kind `k`. -/
def MakesAt (k : Option Kind) (P : α → Prop) (p : Parser α) : Prop :=
  ∀ s : Input, s.Spelled → s.tokens.head?.map (·.kind) = k →
    match p.run s with
    | .ok a s' => P a ∧ s'.Spelled
    | .error _ s' => s'.Spelled

namespace Makes

variable {P : α → Prop} {Q : β → Prop}

theorem pure {a : α} (h : P a) : Makes P (pure a) := fun _ hs => ⟨h, hs⟩

theorem bind {p : Parser α} {f : α → Parser β} (first : Makes P p) (rest : ∀ a, P a → Makes Q (f a)) :
    Makes Q (p >>= f) := by
  intro s hs
  have h := first s hs
  show match EStateM.bind p f s with
    | .ok b s' => Q b ∧ s'.Spelled
    | .error _ s' => s'.Spelled
  unfold EStateM.run at h
  unfold EStateM.bind
  cases hp : p s with
  | ok a s' =>
    rw [hp] at h
    exact rest a h.1 s' h.2
  | error e s' =>
    rw [hp] at h
    exact h

theorem mono {R : α → Prop} {p : Parser α} (h : Makes P p) (hR : ∀ a, P a → R a) : Makes R p := by
  intro s hs
  have h := h s hs
  cases hp : p.run s with
  | ok a s' =>
    rw [hp] at h
    exact ⟨hR a h.1, h.2⟩
  | error e s' =>
    rw [hp] at h
    exact h

theorem spent : Makes P spent := fun _ hs => hs

theorem stuck : Makes P stuck := fun _ hs => hs

theorem peek {f : Option Kind → Parser β} (rest : ∀ k, MakesAt k Q (f k)) : Makes Q (peek >>= f) :=
  fun s hs => rest _ s hs rfl

theorem expect (k : Kind) : Makes (fun t => t.Spelled ∧ t.kind = k) (expect k) := by
  intro s hs
  unfold EStateM.run Parser.expect
  cases ht : s.tokens with
  | nil => exact hs
  | cons t ts =>
    dsimp only
    by_cases hk : t.kind = k
    · rw [if_pos hk]
      exact ⟨⟨hs t (by simp [ht]), hk⟩, fun v hv => hs v (by simp [ht, hv])⟩
    · rw [if_neg hk]
      exact hs

theorem skip (k : Kind) {f : Token → Parser β} (rest : ∀ t, Makes Q (f t)) : Makes Q (Parser.expect k >>= f) :=
  .bind (.expect k) fun t _ => rest t

theorem takeIf (k : Kind) : Makes (fun _ => True) (takeIf k) := by
  intro s hs
  unfold EStateM.run Parser.takeIf
  cases ht : s.tokens with
  | nil => exact ⟨trivial, hs⟩
  | cons t ts =>
    dsimp only
    by_cases hk : t.kind = k
    · rw [if_pos hk]
      exact ⟨trivial, fun v hv => hs v (by simp [ht, hv])⟩
    · rw [if_neg hk]
      exact ⟨trivial, hs⟩

theorem takeOperator (least : Nat) : Makes (fun _ => True) (takeOperator least) := by
  intro s hs
  unfold EStateM.run Parser.takeOperator
  cases ht : s.tokens with
  | nil => exact ⟨trivial, hs⟩
  | cons t ts =>
    dsimp only
    cases level? t.kind with
    | none => exact ⟨trivial, hs⟩
    | some l =>
      dsimp only
      by_cases hl : least ≤ l
      · rw [if_pos hl]
        exact ⟨trivial, fun v hv => hs v (by simp [ht, hv])⟩
      · rw [if_neg hl]
        exact ⟨trivial, hs⟩

theorem enter (name : String) : Makes (fun _ => True) (enter name) := fun _ hs => ⟨trivial, hs⟩

theorem ending : Makes (fun _ => True) ending := by
  intro s hs
  unfold EStateM.run Parser.ending
  cases s.tokens.isEmpty with
  | true => exact ⟨trivial, hs⟩
  | false => exact hs

end Makes

theorem MakesAt.of_makes {k : Option Kind} {P : α → Prop} {p : Parser α} (h : Makes P p) : MakesAt k P p :=
  fun s hs _ => h s hs

theorem MakesAt.take {k : Option Kind} {Q : β → Prop} {f : Token → Parser β}
    (rest : ∀ t, t.Spelled → some t.kind = k → Makes Q (f t)) : MakesAt k Q (take >>= f) := by
  intro s hs hk
  show match EStateM.bind Parser.take f s with
    | .ok b s' => Q b ∧ s'.Spelled
    | .error _ s' => s'.Spelled
  unfold EStateM.bind Parser.take
  cases ht : s.tokens with
  | nil => exact hs
  | cons t ts =>
    rw [ht] at hk
    exact rest t (hs t (by simp [ht])) hk _ fun v hv => hs v (by simp [ht, hv])

/-! ### The parsers of the grammar -/

mutual

theorem expression_makes : ∀ (n least : Nat), Makes (isExpression isWord · = true) (expression n least)
  | 0, _ => by rw [expression]; exact .spent
  | n + 1, least => by
    rw [expression]
    exact .bind (operand_makes n) fun left hl => chain_makes n least left hl

theorem chain_makes : ∀ (n least : Nat) (left : Node), isExpression isWord left = true →
    Makes (isExpression isWord · = true) (chain n least left)
  | 0, _, _, _ => by rw [chain]; exact .spent
  | n + 1, least, left, h => by
    rw [chain]
    refine .bind (.takeOperator least) fun r _ => ?_
    cases r with
    | none => exact .pure h
    | some p =>
      refine .bind (expression_makes n (p.2 + 1)) fun right hr => chain_makes n least _ ?_
      rw [isExpression, h, hr]
      rfl

theorem operand_makes : ∀ n : Nat, Makes (isExpression isWord · = true) (operand n)
  | 0 => by rw [operand]; exact .spent
  | n + 1 => by
    rw [operand]
    refine .peek fun k => ?_
    have signed : MakesAt k (isExpression isWord · = true) (do
        let t ← take
        let e ← operand n
        pure (.unary t.text e t.line)) := by
      refine .take fun t _ _ => .bind (operand_makes n) fun e he => .pure ?_
      rw [isExpression]
      exact he
    split
    · exact signed
    · exact signed
    · exact signed
    · refine .of_makes (.bind (atom_makes n) fun condition hc => .bind (.takeIf _) fun r _ => ?_)
      cases r with
      | none => exact .pure hc
      | some q =>
        refine .bind (expression_makes n 0) fun yes hy => .skip _ fun _ => .bind (operand_makes n) fun no hn => .pure ?_
        rw [isExpression, hc, hy, hn]
        rfl

theorem atom_makes : ∀ n : Nat, Makes (isExpression isWord · = true) (atom n)
  | 0 => by rw [atom]; exact .spent
  | n + 1 => by
    rw [atom]
    refine .peek fun k => ?_
    split
    case h_1 => exact .take fun t _ _ => .pure (by rw [isExpression])
    case h_2 | h_3 => exact .take fun t _ _ => .pure (by rw [isExpression])
    case h_4 | h_5 => exact .take fun t _ _ => .pure (by rw [isExpression])
    case h_6 => exact .take fun _ _ _ => .bind (expression_makes n 0) fun e he => .skip _ fun _ => .pure he
    case h_7 =>
      refine .take fun t _ _ => .bind (arguments_makes n _) fun es hes => .pure ?_
      rw [isExpression]
      exact hes
    case h_8 =>
      refine .take fun t ht hk => .skip _ fun _ => .bind (arguments_makes n _) fun es hes => .pure ?_
      rw [isExpression, hes, ht.isWord (.inr (.inl (Option.some.inj hk)))]
      rfl
    case h_9 =>
      refine .take fun t ht hk => .skip _ fun _ => .bind (expression_makes n 0) fun e he => .skip _ fun _ => .pure ?_
      rw [isExpression, areExpressions, areExpressions, he, ht.isWord (.inr (.inr (Option.some.inj hk)))]
      rfl
    case h_10 =>
      refine .take fun t ht hk => .peek fun k => ?_
      have word := ht.isWord (.inl (Option.some.inj hk))
      split
      · refine .take fun _ _ _ => .bind (arguments_makes n _) fun es hes => .pure ?_
        rw [isExpression, hes, word]
        rfl
      · refine .take fun _ _ _ => .bind (expression_makes n 0) fun e he => .skip _ fun _ => .pure ?_
        rw [isExpression, he, word]
        rfl
      · refine .of_makes (.pure ?_)
        rw [isExpression]
        exact word
    case h_11 => exact .of_makes .stuck

theorem arguments_makes : ∀ (n : Nat) (close : Kind), Makes (areExpressions isWord · = true) (arguments n close)
  | 0, _ => by rw [arguments]; exact .spent
  | n + 1, close => by
    rw [arguments]
    refine .bind (.takeIf _) fun r _ => ?_
    cases r with
    | some _ => exact .pure (by rw [areExpressions])
    | none =>
      refine .bind (expression_makes n 0) fun e he => .bind (moreArguments_makes n close) fun es hes => .pure ?_
      rw [areExpressions, he, hes]
      rfl

theorem moreArguments_makes : ∀ (n : Nat) (close : Kind), Makes (areExpressions isWord · = true) (moreArguments n close)
  | 0, _ => by rw [moreArguments]; exact .spent
  | n + 1, close => by
    rw [moreArguments]
    refine .bind (.takeIf _) fun r _ => ?_
    cases r with
    | some _ =>
      refine .bind (expression_makes n 0) fun e he => .bind (moreArguments_makes n close) fun es hes => .pure ?_
      rw [areExpressions, he, hes]
      rfl
    | none => exact .skip _ fun _ => .pure (by rw [areExpressions])

end

theorem type_makes : Makes (fun _ => True) type := by
  unfold type
  refine .peek fun k => ?_
  split
  all_goals first
    | exact .take fun _ _ _ => .pure trivial
    | exact .of_makes .stuck

theorem parameter_makes : Makes (isParameter · = true) parameter :=
  .bind (.expect _) fun _ ht => .skip _ fun _ => .bind type_makes fun _ _ => .pure (ht.1.isWord (.inl ht.2))

theorem moreParameters_makes : ∀ n : Nat, Makes (fun ps => ps.all isParameter = true) (moreParameters n)
  | 0 => by rw [moreParameters]; exact .spent
  | n + 1 => by
    rw [moreParameters]
    refine .bind (.takeIf _) fun r _ => ?_
    cases r with
    | some _ =>
      refine .bind parameter_makes fun p hp => .bind (moreParameters_makes n) fun ps hps => .pure ?_
      rw [List.all_cons, hp, hps]
      rfl
    | none => exact .skip _ fun _ => .pure rfl

theorem parameters_makes (n : Nat) : Makes (fun ps => ps.all isParameter = true) (parameters n) := by
  unfold parameters
  refine .bind (.takeIf _) fun r _ => ?_
  cases r with
  | some _ => exact .pure rfl
  | none =>
    refine .bind parameter_makes fun p hp => .bind (moreParameters_makes n) fun ps hps => .pure ?_
    rw [List.all_cons, hp, hps]
    rfl

theorem condition_makes (n : Nat) : Makes (isExpression isWord · = true) (condition n) :=
  .skip _ fun _ => .skip _ fun _ => .bind (expression_makes n 0) fun _ he => .skip _ fun _ => .skip _ fun _ => .pure he

theorem noteFirst_makes (first : Node) : Makes (fun _ => True) (noteFirst first) := by
  cases first
  case function =>
    refine .peek fun k => .of_makes ?_
    cases k with
    | none => exact .pure trivial
    | some k =>
      dsimp only
      split
      · exact .enter _
      · exact .pure trivial
  all_goals exact .pure trivial

theorem named_makes (n : Nat) {t : Token} (word : isWord t.text = true) : Makes (isStatement · = true) (named n t) := by
  unfold named
  refine .peek fun k => ?_
  split
  case h_1 =>
    refine .take fun _ _ _ => .bind type_makes fun type _ => .bind (.takeIf _) fun r _ => ?_
    cases r with
    | some eq =>
      refine .bind (expression_makes n 0) fun e he => .skip _ fun _ => .pure ?_
      simp [isStatement, areStatements, isSeveral, word, he]
    | none => exact .skip _ fun _ => .pure (by rw [isStatement]; exact word)
  case h_2 =>
    refine .take fun _ _ _ => .bind (expression_makes n 0) fun e he => .skip _ fun _ => .pure ?_
    rw [isStatement, word, he]
    rfl
  case h_3 =>
    refine .take fun _ _ _ => .bind (expression_makes n 0) fun index hi => .skip _ fun _ => .skip _ fun _ =>
      .bind (expression_makes n 0) fun e he => .skip _ fun _ => .pure ?_
    rw [isStatement, word, hi, he]
    rfl
  case h_4 =>
    refine .take fun _ _ _ => .bind (arguments_makes n _) fun es hes => .skip _ fun _ => .pure ?_
    rw [isStatement, word, hes]
    rfl
  case h_5 => exact .of_makes .stuck

mutual

theorem statement_makes : ∀ n : Nat, Makes (isStatement · = true) (statement n)
  | 0 => by rw [statement]; exact .spent
  | n + 1 => by
    rw [statement]
    refine .peek fun k => ?_
    split
    case h_1 => exact .take fun t ht hk => named_makes n (ht.isWord (.inl (Option.some.inj hk)))
    case h_2 =>
      refine .take fun t ht hk => .skip _ fun _ => .bind (arguments_makes n _) fun es hes => .skip _ fun _ => .pure ?_
      rw [isStatement, hes, ht.isWord (.inr (.inl (Option.some.inj hk)))]
      rfl
    case h_3 =>
      refine .take fun t ht hk => .skip _ fun _ => .bind (expression_makes n 0) fun e he => .skip _ fun _ =>
        .skip _ fun _ => .pure ?_
      rw [isStatement, areExpressions, areExpressions, he, ht.isWord (.inr (.inr (Option.some.inj hk)))]
      rfl
    case h_4 =>
      refine .take fun t _ _ => .bind (.takeIf _) fun r _ => ?_
      cases r with
      | some _ => exact .pure (by rw [isStatement])
      | none => exact .bind (expression_makes n 0) fun e he => .skip _ fun _ => .pure (isStatement_ret.2 (.inr he))
    case h_5 =>
      refine .take fun t _ _ => .bind (condition_makes n) fun e he => .bind (statement_makes n) fun yes hy =>
        .bind (.takeIf _) fun r _ => ?_
      cases r with
      | none => exact .pure (isStatement_branch.2 ⟨he, hy, .inl rfl⟩)
      | some _ => exact .bind (statement_makes n) fun no hn => .pure (isStatement_branch.2 ⟨he, hy, .inr hn⟩)
    case h_6 =>
      refine .take fun t _ _ => .skip _ fun _ => .bind (.expect _) fun var hv => .skip _ fun _ =>
        .bind (expression_makes n 0) fun start ha => .skip _ fun _ => .bind (expression_makes n 0) fun stop hz =>
        .skip _ fun _ => .skip _ fun _ => .bind (statements_makes n) fun ss hss => .skip _ fun _ => .pure ?_
      rw [isStatement, ha, hz, hss, hv.1.isWord (.inl hv.2)]
      rfl
    case h_7 =>
      refine .take fun t _ _ => .bind (condition_makes n) fun e he => .bind (statement_makes n) fun body hb => .pure ?_
      rw [isStatement, he, hb]
      rfl
    case h_8 =>
      refine .take fun t _ _ => .bind (statement_makes n) fun body hb => .skip _ fun _ => .bind (condition_makes n)
        fun e he => .skip _ fun _ => .pure ?_
      rw [isStatement, hb, he]
      rfl
    case h_9 =>
      refine .take fun t _ _ => .bind (statements_makes n) fun ss hss => .skip _ fun _ => .pure ?_
      rw [isStatement]
      exact hss
    case h_10 => exact .of_makes ((function_makes n).mono fun _ h => h.2)
    case h_11 => exact .of_makes .stuck

theorem statements_makes : ∀ n : Nat, Makes (areStatements · = true) (statements n)
  | 0 => by rw [statements]; exact .spent
  | n + 1 => by
    rw [statements]
    refine .peek fun k => .of_makes ?_
    cases k with
    | none => exact .pure (by rw [areStatements])
    | some k =>
      dsimp only
      split
      · refine .bind (statement_makes n) fun s hs => .bind (noteFirst_makes s) fun _ _ => .bind (moreStatements_makes n)
          fun ss hss => .pure ?_
        rw [areStatements_append, areStatements_parts hs, hss]
        rfl
      · exact .pure (by rw [areStatements])

theorem moreStatements_makes : ∀ n : Nat, Makes (areStatements · = true) (moreStatements n)
  | 0 => by rw [moreStatements]; exact .spent
  | n + 1 => by
    rw [moreStatements]
    refine .peek fun k => .of_makes ?_
    cases k with
    | none => exact .pure (by rw [areStatements])
    | some k =>
      dsimp only
      split
      · refine .bind (statement_makes n) fun s hs => .bind (moreStatements_makes n) fun ss hss => .pure ?_
        rw [areStatements_append, areStatements_parts hs, hss]
        rfl
      · exact .pure (by rw [areStatements])

theorem function_makes : ∀ n : Nat, Makes (fun f => f.isFunction = true ∧ isStatement f = true) (function n)
  | 0 => by rw [function]; exact .spent
  | n + 1 => by
    rw [function]
    refine .skip _ fun t => .bind (.expect _) fun name hn => .skip _ fun _ => .bind (parameters_makes n) fun ps hps =>
      .skip _ fun _ => .bind type_makes fun _ _ => .skip _ fun _ => .bind (.takeIf _) fun r _ => ?_
    have word := hn.1.isWord (.inl hn.2)
    cases r with
    | none =>
      refine .skip _ fun _ => .bind (statements_makes n) fun ss hss => .skip _ fun _ => .pure ⟨rfl, ?_⟩
      rw [isStatement, word, hps, hss]
      rfl
    | some _ =>
      refine .skip _ fun ret => .bind (expression_makes n 0) fun e he => .skip _ fun _ => ?_
      split
      · refine .pure ⟨rfl, ?_⟩
        rw [isStatement, word, he]
        rfl
      · have body : areStatements [.ret e ret.line] = true := by simp [areStatements, isSeveral, isStatement_ret, he]
        refine .pure ⟨rfl, ?_⟩
        rw [isStatement, word, hps, body]
        rfl

end

theorem moreFunctions_makes : ∀ n : Nat, Makes (areFunctions · = true) (moreFunctions n)
  | 0 => by rw [moreFunctions]; exact .spent
  | n + 1 => by
    rw [moreFunctions]
    refine .peek fun k => .of_makes ?_
    split
    · refine .bind (function_makes n) fun f hf => .bind (moreFunctions_makes n) fun fs hfs => .pure ?_
      rw [areFunctions, List.all_cons, hf.1, hf.2]
      exact hfs
    · exact .bind .ending fun _ _ => .pure rfl

theorem program_makes (n : Nat) : Makes (areFunctions · = true) (program n) := by
  refine .bind (function_makes n) fun f hf => .bind (moreFunctions_makes n) fun fs hfs => .pure ?_
  rw [areFunctions, List.all_cons, hf.1, hf.2]
  exact hfs

end Parser

/-! ### Kinds of statements -/

namespace Grammar

theorem isStatement_assignment {target value : Node} {line : Int} :
    isStatement (.assignment target value line) = true ↔ isExpression isWord value = true ∧
      ((∃ x, target = .text x ∧ isWord x = true) ∨
        ∃ x index k, target = .element x index k ∧ isWord x = true ∧ isExpression isWord index = true) := by
  cases target <;> simp [isStatement, and_comm, and_assoc]

theorem isStatement_forLoop {x : String} {start stop body : Node} {line : Int} :
    isStatement (.forLoop x start stop body line) = true ↔ isWord x = true ∧ isExpression isWord start = true ∧
      isExpression isWord stop = true ∧ ∃ ss, body = .several ss ∧ areStatements ss = true := by
  cases body <;> simp [isStatement, and_assoc]

theorem isStatement_function {f returnType : String} {params body : Node} {line : Int} :
    isStatement (.function f params returnType body line) = true ↔ isWord f = true ∧
      ((∃ ps ss, params = .several ps ∧ body = .several ss ∧ ps.all isParameter = true ∧ areStatements ss = true) ∨
        (params = .text ")" ∧ isExpression isWord body = true)) := by
  cases params
  case several ps => cases body <;> simp [isStatement, and_assoc]
  case text ps => simp [isStatement, and_assoc]
  all_goals simp [isStatement]

end Grammar

theorem Parse.restarting_areFunctions {stop : Token.Stop} : ∀ {n : Nat} {first : Bool} {ts : List Token},
    (∀ t ∈ ts, t.Spelled) → ∀ fs ∈ (restarting n first ts stop).functions, Grammar.areFunctions fs = true
  | 0, _, _, _, _, h => nomatch h
  | n + 1, first, ts, ht, fs, h => by
    have made := Parser.program_makes (Parser.depth ts) { tokens := ts } ht
    rw [restarting] at h
    cases hr : (Parser.program (Parser.depth ts)).run { tokens := ts } with
    | ok fs' s =>
      simp only [hr] at h made
      cases stop with
      | fault f => cases h
      | _ =>
        cases h
        exact made.1
    | error e s =>
      simp only [hr] at h made
      cases hs : s.tokens with
      | cons t rest =>
        simp only [hs, after] at h
        exact restarting_areFunctions (fun u hu => made u (by simp [hs, hu])) fs h
      | nil =>
        simp only [hs] at h
        cases stop <;> cases h

/-- **The tree of a text has the shape of the grammar.** -/
theorem parse_areFunctions {source : List Char} {line : Nat} {fs : List Node}
    (h : (Token.lex source line).parse.functions = some fs) : Grammar.areFunctions fs = true :=
  Parse.restarting_areFunctions (Token.lex_spelled source line) fs h

end TesLang
