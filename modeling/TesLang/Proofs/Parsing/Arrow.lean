import TesLang.Node.Label
import TesLang.Proofs.Lines.Parsing
import TesLang.Proofs.Parsing.FirstError
import TesLang.Proofs.Parsing.Tandem
/-!
# The two forms of a function that returns an expression

A function that does nothing but return an expression may be written with an arrow or with braces (`Returning`).  Both
forms are read alike wherever they stand, if the function has parameters.  Without parameters, the tree of the arrow form has another node in
the place of the function, and all else is the same (`arrow_iff_parameters`).

The two forms are read side by side, each in front of the same tokens (`function_forms`).  With this, the texts around them are read
side by side as well, from one syntax error to the next.
-/
namespace TesLang

open Grammar

/-- A token of some kind. -/
abbrev TokenOf (k : Kind) : Type := { t : Token // t.kind = k }

/-- What both forms of a function have in common. -/
structure Returning where
  funk : TokenOf .funkKw
  name : TokenOf .id
  leftParen : TokenOf .leftParen
  params : Option (Tree (.phrase .parameters))
  rightParen : TokenOf .rightParen
  less : TokenOf .less
  type : { t : Token // t.kind ∈ typeKinds }
  greater : TokenOf .greater
  ret : TokenOf .returnKw
  value : Tree (.phrase .expression)
  semicolon : TokenOf .semicolon

namespace Returning

variable (d : Returning)

/-- The parameters and the parenthesis behind them. -/
def paramTokens : List Token := (d.params.elim [] Tree.leaves) ++ [d.rightParen.1]

/-- The function up to the place where its forms differ. -/
def heading : List Token :=
  d.funk.1 :: d.name.1 :: d.leftParen.1 :: (d.paramTokens ++ [d.less.1, d.type.1, d.greater.1])

def returned : List Token := d.ret.1 :: (d.value.leaves ++ [d.semicolon.1])

/-- The function with an arrow. -/
def arrowForm (arrow : TokenOf .arrow) : List Token := d.heading ++ arrow.1 :: d.returned

/-- The function with braces. -/
def blockForm (left : TokenOf .leftBrace) (right : TokenOf .rightBrace) : List Token :=
  d.heading ++ left.1 :: (d.returned ++ [right.1])

/-- The function with braces, as a node. -/
def blockNode (params : List Node) (value : Node) : Node :=
  .function d.name.1.text (.several params) d.type.1.text (.several [.ret value d.ret.1.line]) d.funk.1.line

/-- What is made of the function with an arrow and without parameters. -/
def oddNode (value : Node) : Node := .function d.name.1.text (.text ")") ">" value d.funk.1.line

/-- What is made of the two forms. -/
def Made (a b : Node) : Prop :=
  ∃ params value, (params = [] ↔ d.params = none) ∧ b = d.blockNode params value ∧
    a = if params.isEmpty then d.oddNode value else d.blockNode params value

end Returning

namespace Parser

variable {α β γ : Type}

/-! ### Side by side within one function -/

section
variable {Q : α → List Token → β → List Token → Prop} {E : List Token → List Token → Prop} {p p' : Parser α} {q q' : Parser β}
  {ts ts' us us' : List Token}

theorem Beside.left_run (run : ∀ entered, p.run { tokens := ts, entered } = p'.run { tokens := ts', entered })
    (h : Beside Q E p' q ts' us) : Beside Q E p q ts us := by
  intro entered
  rw [run]
  exact h entered

theorem Beside.right_run (run : ∀ entered, q.run { tokens := us, entered } = q'.run { tokens := us', entered })
    (h : Beside Q E p q' ts us') : Beside Q E p q ts us := by
  intro entered
  rw [run]
  exact h entered

theorem Beside.and_leads {R : α → List Token → Prop} {F : List Token → Prop} (h : Beside Q E p q ts us)
    (leads : Leads True p ts R F) : Beside (fun a vs b ws => Q a vs b ws ∧ R a vs) E p q ts us := by
  intro entered
  have h := h entered
  have leads := leads entered
  generalize p.run { tokens := ts, entered } = r at h leads ⊢
  generalize q.run { tokens := us, entered } = s at h ⊢
  cases h with
  | ok entered h => exact .ok entered ⟨h, leads⟩
  | stuck entered h => exact .stuck entered h
  | left s r => exact .left _ _
  | right r s => exact .right _ _

end

theorem run_expect_bind {k : Kind} {t : Token} {ts : List Token} (f : Token → Parser γ) (h : t.kind = k)
    (entered : List String) : (expect k >>= f).run { tokens := t :: ts, entered } = (f t).run { tokens := ts, entered } := by
  rw [run_bind, run_expect h]

theorem run_takeIf_bind {k : Kind} {t : Token} {ts : List Token} (f : Option Token → Parser γ) (h : t.kind = k)
    (entered : List String) :
    (takeIf k >>= f).run { tokens := t :: ts, entered } = (f (some t)).run { tokens := ts, entered } := by
  rw [run_bind, show (takeIf k).run { tokens := t :: ts, entered } = .ok (some t) { tokens := ts, entered } from if_pos h]

theorem run_takeIf_bind_none {k : Kind} {t : Token} {ts : List Token} (f : Option Token → Parser γ) (h : t.kind ≠ k)
    (entered : List String) :
    (takeIf k >>= f).run { tokens := t :: ts, entered } = (f none).run { tokens := t :: ts, entered } := by
  rw [run_bind, show (takeIf k).run { tokens := t :: ts, entered } = .ok none { tokens := t :: ts, entered } from if_neg h]

theorem run_takeIf_of_clear {k : Kind} {ts : List Token} (f : Option Token → Parser γ) (h : Clear [k] ts)
    (entered : List String) : (takeIf k >>= f).run { tokens := ts, entered } = (f none).run { tokens := ts, entered } := by
  cases ts with
  | nil => rfl
  | cons t ts => exact run_takeIf_bind_none f (fun ht => h t ts rfl (List.mem_singleton.2 ht)) entered

theorem run_peek_bind {k : Kind} {t : Token} {ts : List Token} (f : Option Kind → Parser γ) (h : t.kind = k)
    (entered : List String) :
    (peek >>= f).run { tokens := t :: ts, entered } = (f (some k)).run { tokens := t :: ts, entered } := by
  rw [run_bind, ← h]
  rfl

theorem run_type_bind {t : Token} {ts : List Token} (f : String → Parser γ) (h : t.kind ∈ typeKinds) (entered : List String) :
    (type >>= f).run { tokens := t :: ts, entered } = (f t.text).run { tokens := ts, entered } := by
  unfold type
  rw [bind_assoc]
  simp only [typeKinds, List.mem_cons, List.not_mem_nil, or_false] at h
  rcases h with h | h | h | h | h | h <;> rw [run_peek_bind _ h] <;> rfl

theorem Beside.expect {f : Token → Parser α} {g : Token → Parser β} {Q : α → List Token → β → List Token → Prop}
    {E : List Token → List Token → Prop} {k : Kind} {t : Token} {ts us : List Token} (h : t.kind = k)
    (rest : Beside Q E (f t) (g t) ts us) : Beside Q E (expect k >>= f) (Parser.expect k >>= g) (t :: ts) (t :: us) :=
  .left_run (run_expect_bind f h) (.right_run (run_expect_bind g h) rest)

theorem leads_trivial (p : Parser α) (ts : List Token) : Leads True p ts (fun _ _ => True) fun _ => True := by
  intro entered
  cases p.run { tokens := ts, entered } with
  | ok a s => trivial
  | error e s => cases e <;> trivial

theorem beside_of_takes {p q : Parser α} {ws ts us : List Token} (same : After Eq p q (ws ++ us)) (ahead : OneAhead p)
    (takes : Takes p (ws ++ ts) ts) (takes' : Takes q (ws ++ us) us) (head : us.head? = ts.head?) :
    Beside (fun a vs b xs => a = b ∧ vs = ts ∧ xs = us) (fun _ _ => False) p q (ws ++ ts) (ws ++ us) := by
  intro entered
  have takes := takes entered
  have takes' := takes' entered
  have same := same entered
  obtain ⟨ws', split, ahead⟩ := ahead (ws ++ ts) entered
  cases run : p.run { tokens := ws ++ ts, entered } with
  | error e s =>
    cases e with
    | spent => exact .left _ _
    | stuck =>
      rw [run] at takes
      exact takes.elim
  | ok a s =>
    rw [run] at takes split ahead
    obtain rfl : s.tokens = ts := takes
    obtain rfl : ws = ws' := List.append_cancel_right split
    -- the first parser does the same on the tokens of the second one
    rw [ahead us head] at same
    generalize q.run { tokens := ws ++ us, entered } = result at same
    cases same with
    | ok _ same =>
      obtain ⟨rfl, rfl⟩ := same
      exact .ok s.entered ⟨rfl, rfl, rfl⟩
    | right _ s => exact .right _ _

theorem expression_steady (n m : Nat) (ts : List Token) : After Eq (expression n 0) (expression m 0) ts :=
  (expression_along abreast_eq n m 0).after (fun _ _ h => h) ts

theorem parameters_steady (n m : Nat) (ts : List Token) : After Eq (parameters n) (parameters m) ts :=
  (parameters_along abreast_eq n m).after (fun _ _ h => h) ts

end Parser

namespace Grammar

def Item.startsWithName : Item → Bool
  | .token k => k == .id
  | .phrase n => n ∈ [.parameters, .parameter]

theorem Rule.startsWithName {n : Nonterminal} {is : List Item} (r : Rule n is)
    (h : (Item.phrase n).startsWithName = true) : is.head?.any Item.startsWithName = true := by
  cases r with
  | _ => first | rfl | cases h

mutual

theorem Tree.exists_name : ∀ {i : Item} (d : Tree i), i.startsWithName = true → ∃ t us, d.leaves = t :: us ∧ t.kind = .id
  | _, .leaf t ht, h => ⟨t, [], by rw [Tree.leaves], ht.trans (eq_of_beq h)⟩
  | _, .node r parts, h => by
    rw [Tree.leaves]
    exact parts.exists_name (r.startsWithName h)

theorem Trees.exists_name : ∀ {is : List Item} (ds : Trees is), is.head?.any Item.startsWithName = true →
    ∃ t us, ds.leaves = t :: us ∧ t.kind = .id
  | _, .nil, h => by cases h
  | _, .cons d ds, h => by
    obtain ⟨t, us, hd, ht⟩ := d.exists_name h
    exact ⟨t, us ++ ds.leaves, by rw [Trees.leaves, hd]; rfl, ht⟩

end

end Grammar

namespace Returning

open TesLang.Parser

variable (d : Returning)

theorem reads_paramTokens (rest : List Token) : Reads [.phrase .parameters] (d.paramTokens ++ rest) rest := by
  unfold paramTokens
  cases d.params with
  | none => exact .one .noParameters (.token d.rightParen.2 .done)
  | some params =>
    have flat := flat_of_tree params (d.rightParen.1 :: rest)
    rw [Option.elim_some, List.append_assoc]
    exact flat rest (.one .lastParameter (.token d.rightParen.2 .done))

theorem reads_value (rest : List Token) : Reads [.phrase .expression] (d.value.leaves ++ rest) rest :=
  (flat_of_tree d.value rest).expression

theorem value_takes (n : Nat) (rest : List Token) :
    Takes (expression n 0) (d.value.leaves ++ d.semicolon.1 :: rest) (d.semicolon.1 :: rest) := by
  refine expression_takes n (d.reads_value _) ?_
  rintro _ _ ⟨⟩
  rw [d.semicolon.2]
  decide

theorem parameters_leads (n : Nat) (rest : List Token) :
    Leads True (parameters n) (d.paramTokens ++ rest) (fun ps _ => ps = [] ↔ d.params = none) fun _ => True := by
  unfold parameters paramTokens
  cases d.params with
  | none =>
    refine Leads.takeIf (fun _ _ _ _ => .pure (by simp)) fun other => ?_
    exact absurd (congrArg some d.rightParen.2) other
  | some params =>
    refine Leads.takeIf (fun t us split close => ?_) fun _ => ?_
    · obtain ⟨name, others, hp, hn⟩ := params.exists_name rfl
      rw [Option.elim_some, hp] at split
      cases split
      rw [hn] at close
      cases close
    · refine .andThen (leads_trivial _ _) (fun _ h => h) fun p us _ => ?_
      exact .andThen (leads_trivial _ _) (fun _ h => h) fun ps us _ => .pure (by simp)

theorem value_forms (right : TokenOf .rightBrace) (rest rest' : List Token) (n m : Nat) :
    Beside (fun e vs ss ws => ss = [.ret e d.ret.1.line] ∧ vs = d.semicolon.1 :: rest ∧ ws = right.1 :: rest')
      (fun _ _ => False) (expression n 0) (statements m) (d.value.leaves ++ d.semicolon.1 :: rest)
      (d.ret.1 :: (d.value.leaves ++ d.semicolon.1 :: right.1 :: rest')) := by
  have starts : Clear [.semicolon] (d.value.leaves ++ d.semicolon.1 :: right.1 :: rest') :=
    clear_of_expression (d.reads_value _) (by decide)
  cases m with
  | zero =>
    rw [statements]
    exact fun _ => .right _ _
  | succ m =>
  rw [statements]
  refine .right_run (run_peek_bind _ d.ret.2) ?_
  dsimp only
  rw [if_pos (show startsStatement .returnKw = true from rfl)]
  cases m with
  | zero =>
    rw [statement]
    exact fun _ => .right _ _
  | succ m =>
  rw [statement, bind_assoc, ← bind_pure (expression n 0)]
  refine .right_run (run_peek_bind _ d.ret.2) ?_
  dsimp only
  simp only [bind_assoc]
  refine .right_run (fun _ => rfl) (.right_run (run_takeIf_of_clear _ starts) ?_)
  dsimp only
  simp only [bind_assoc, pure_bind]
  refine (beside_of_takes (expression_steady n m _) (expression_oneAhead n 0) (d.value_takes n rest)
    (d.value_takes m (right.1 :: rest')) rfl).bind ?_
  rintro e _ _ _ ⟨rfl, rfl, rfl⟩
  refine .right_run (run_expect_bind _ d.semicolon.2) ?_
  rw [show noteFirst (.ret e d.ret.1.line) = pure () from rfl, pure_bind, moreStatements, bind_assoc]
  refine .right_run (run_peek_bind _ right.2) ?_
  dsimp only
  rw [if_neg (by decide), pure_bind]
  exact fun entered => .ok entered ⟨rfl, rfl, rfl⟩

/-- **The two forms, side by side.** -/
theorem function_forms (arrow : TokenOf .arrow) (left : TokenOf .leftBrace) (right : TokenOf .rightBrace) (rest : List Token)
    (n m : Nat) : Beside (fun a vs b ws => d.Made a b ∧ vs = rest ∧ ws = rest) (fun _ _ => False) (function n) (function m)
      (d.arrowForm arrow ++ rest) (d.blockForm left right ++ rest) := by
  cases n with
  | zero =>
    rw [function]
    exact fun _ => .left _ _
  | succ n =>
  cases m with
  | zero =>
    rw [function.eq_1]
    exact fun _ => .right _ _
  | succ m =>
    rw [function, function]
    simp only [arrowForm, blockForm, heading, returned, List.cons_append, List.append_assoc, List.nil_append]
    refine .expect d.funk.2 (.expect d.name.2 (.expect d.leftParen.2 ?_))
    have params (us vs : List Token) := (beside_of_takes (parameters_steady n m _) (parameters_oneAhead n)
      (parameters_takes n (d.reads_paramTokens (d.less.1 :: us)))
      (parameters_takes m (d.reads_paramTokens (d.less.1 :: vs))) rfl).and_leads (d.parameters_leads n (d.less.1 :: us))
    refine (params _ _).bind ?_
    rintro ps _ _ _ ⟨⟨rfl, rfl, rfl⟩, none⟩
    refine .expect d.less.2 (.left_run (run_type_bind _ d.type.2) (.right_run (run_type_bind _ d.type.2) ?_))
    refine .expect d.greater.2 (.left_run (run_takeIf_bind _ arrow.2) (.right_run (run_takeIf_bind_none _ ?_) ?_))
    · rw [left.2]
      decide
    refine .left_run (run_expect_bind _ d.ret.2) (.right_run (run_expect_bind _ left.2) ?_)
    refine (d.value_forms right rest rest n m).bind ?_
    rintro e _ _ _ ⟨rfl, rfl, rfl⟩
    refine .left_run (run_expect_bind _ d.semicolon.2) (.right_run (run_expect_bind _ right.2) fun entered => ?_)
    split
    · exact .ok entered ⟨⟨ps, e, none, rfl, (if_pos ‹_›).symm⟩, rfl, rfl⟩
    · exact .ok entered ⟨⟨ps, e, none, rfl, (if_neg ‹_›).symm⟩, rfl, rfl⟩

/-! ### Texts with the two forms -/

/-- Tokens up to the two forms, with one of them in each. -/
def Ahead (arrow : TokenOf .arrow) (left : TokenOf .leftBrace) (right : TokenOf .rightBrace) (rest : List Token)
    (ts us : List Token) : Prop :=
  ∃ front, ts = front ++ (d.arrowForm arrow ++ rest) ∧ us = front ++ (d.blockForm left right ++ rest)

section
variable (arrow : TokenOf .arrow) (left : TokenOf .leftBrace) (right : TokenOf .rightBrace) (rest : List Token)

theorem abreast : Abreast (d.Ahead arrow left right rest) d.Made where
  head := by
    rintro _ _ ⟨front, rfl, rfl⟩
    cases front <;> rfl
  tail := by
    rintro t ts us ⟨front, hts, hus⟩ ht
    cases front with
    | nil =>
      cases hts
      exact absurd d.funk.2 ht
    | cons _ front => exact ⟨front, (List.cons.inj hts).2, (List.cons.inj hus).2⟩
  funk := by
    rintro t ts us ⟨front, hts, hus⟩ -
    cases front with
    | nil =>
      rw [hts, hus]
      refine .inr fun n m => (d.function_forms arrow left right rest n m).mono ?_ fun _ _ h => h
      rintro a vs b ws ⟨made, rfl, rfl⟩
      exact ⟨made, rfl⟩
    | cons _ front => exact .inl ⟨front, (List.cons.inj hts).2, (List.cons.inj hus).2⟩
  namesakes := by
    rintro a b ⟨params, value, -, rfl, rfl⟩
    split
    · exact ⟨_, _, _, _, _, _, _, _, rfl, rfl⟩
    · exact ⟨_, _, _, _, _, _, _, _, rfl, rfl⟩
  steady _ _ _ := steady

end

end Returning

/-! ### No function within an expression -/

namespace Grammar

def Item.isPlain : Item → Bool
  | .token k => k != .funkKw
  | .phrase n => n ∈ [.parameters, .parameter, .type, .element, .call, .arguments, .expression]

theorem Rule.isPlain {n : Nonterminal} {is : List Item} (r : Rule n is) (h : (Item.phrase n).isPlain = true) :
    is.all Item.isPlain = true := by
  have plain (ks : List Kind) (none : Kind.funkKw ∉ ks) (k : Kind) (hk : k ∈ ks) : k ≠ .funkKw := by
    rintro rfl
    exact none hk
  cases r with
  | type k hk => simp [plain _ (by decide) k hk, Item.isPlain]
  | call k hk => simp [plain _ (by decide) k hk, Item.isPlain]
  | callNoArguments k hk => simp [plain _ (by decide) k hk, Item.isPlain]
  | binary k hk => simp [plain _ (by decide) k hk, Item.isPlain]
  | unary k hk => simp [plain _ (by decide) k hk, Item.isPlain]
  | string k hk => simp [plain _ (by decide) k hk, Item.isPlain]
  | boolean k hk => simp [plain _ (by decide) k hk, Item.isPlain]
  | _ => first | rfl | cases h

mutual

theorem Tree.ne_funk : ∀ {i : Item} (d : Tree i), i.isPlain = true → ∀ t ∈ d.leaves, t.kind ≠ .funkKw
  | _, .leaf t ht, h => by
    simp only [Item.isPlain, bne_iff_ne] at h
    simp [Tree.leaves, ht, h]
  | _, .node r parts, h => by
    rw [Tree.leaves]
    exact parts.ne_funk (r.isPlain h)

theorem Trees.ne_funk : ∀ {is : List Item} (ds : Trees is), is.all Item.isPlain = true → ∀ t ∈ ds.leaves, t.kind ≠ .funkKw
  | _, .nil, _ => by simp [Trees.leaves]
  | _, .cons d ds, h => by
    simp only [List.all_cons, Bool.and_eq_true] at h
    have first := d.ne_funk h.1
    have others := ds.ne_funk h.2
    intro t ht
    rw [Trees.leaves, List.mem_append] at ht
    exact ht.elim (first t) (others t)

end

end Grammar

namespace Parser

theorem program_refuses {t : Token} (ts : List Token) (ht : t.kind ≠ .funkKw) (n : Nat) (entered : List String) :
    (program (n + 1)).run { tokens := t :: ts, entered } = .error .stuck { tokens := t :: ts, entered } := by
  have run : (expect .funkKw).run { tokens := t :: ts, entered } = .error .stuck { tokens := t :: ts, entered } := if_neg ht
  unfold program
  rw [run_bind, function, run_bind, run]

theorem exists_read (n : Nat) (ts : List Token) : ∃ ws, ts = ws ++ Parser.rest ((program n).run { tokens := ts }) := by
  obtain ⟨ws, split, -⟩ := program_oneAhead n ts []
  exact ⟨ws, split⟩

end Parser

namespace Parse

variable {stop : Token.Stop}

theorem restarting_enough (n m : Nat) (first : Bool) (ts : List Token) (hn : ts.length < n) (hm : ts.length < m) :
    restarting n first ts stop = restarting m first ts stop := by
  induction n generalizing m first ts with
  | zero => omega
  | succ n ih =>
    cases m with
    | zero => omega
    | succ m =>
      obtain ⟨ws, split⟩ := Parser.exists_read (Parser.depth ts) ts
      rw [restarting, restarting]
      generalize (Parser.program (Parser.depth ts)).run { tokens := ts } = result at split
      cases result with
      | ok fs s => rfl
      | error e s =>
        cases left : s.tokens with
        | nil => simp only [left]
        | cons t us =>
          have shorter : us.length < ts.length := by
            rw [split, Parser.rest, left, List.length_append, List.length_cons]
            omega
          simp only [left]
          rw [ih m false us (by omega) (by omega)]

theorem restarting_skip (ws ts : List Token) (h : ∀ t ∈ ws, t.kind ≠ .funkKw) (n : Nat) :
    restarting (ws.length + n) false (ws ++ ts) stop = restarting n false ts stop := by
  induction ws with
  | nil => rw [List.length_nil, Nat.zero_add, List.nil_append]
  | cons w ws ih =>
    have run := Parser.program_refuses (ws ++ ts) (h w List.mem_cons_self) (8 * (w :: (ws ++ ts)).length + 7) []
    have enough : Parser.depth (w :: (ws ++ ts)) = 8 * (w :: (ws ++ ts)).length + 7 + 1 := by
      unfold Parser.depth
      omega
    rw [List.length_cons, Nat.add_right_comm, List.cons_append, restarting, enough, run]
    dsimp only
    rw [Nat.sub_self, ih fun t ht => h t (List.mem_cons_of_mem _ ht)]
    rfl

end Parse

namespace Returning

open TesLang.Parser

variable (d : Returning)

theorem paramTokens_plain : ∀ t ∈ d.paramTokens, t.kind ≠ .funkKw := by
  intro t ht
  rcases List.mem_append.1 ht with ht | ht
  · cases hp : d.params with
    | none =>
      rw [hp] at ht
      cases ht
    | some params =>
      rw [hp] at ht
      exact params.ne_funk rfl t ht
  · rw [List.mem_singleton.1 ht, d.rightParen.2]
    decide

theorem heading_plain : ∀ t ∈ d.heading.tail, t.kind ≠ .funkKw := by
  have type : d.type.1.kind ≠ .funkKw := fun hk => (by decide : Kind.funkKw ∉ typeKinds) (hk ▸ d.type.2)
  simp only [heading, List.tail_cons, List.forall_mem_cons, List.forall_mem_append]
  refine ⟨?_, ?_, d.paramTokens_plain, ?_, type, ?_, by simp⟩
  · rw [d.name.2]; decide
  · rw [d.leftParen.2]; decide
  · rw [d.less.2]; decide
  · rw [d.greater.2]; decide

theorem returned_plain : ∀ t ∈ d.returned, t.kind ≠ .funkKw := by
  simp only [returned, List.forall_mem_cons, List.forall_mem_append]
  refine ⟨?_, d.value.ne_funk rfl, ?_, by simp⟩
  · rw [d.ret.2]; decide
  · rw [d.semicolon.2]; decide

theorem arrowForm_plain (arrow : TokenOf .arrow) : ∀ t ∈ (d.arrowForm arrow).tail, t.kind ≠ .funkKw := by
  show ∀ t ∈ d.heading.tail ++ arrow.1 :: d.returned, t.kind ≠ .funkKw
  rw [List.forall_mem_append, List.forall_mem_cons, arrow.2]
  exact ⟨d.heading_plain, by decide, d.returned_plain⟩

theorem blockForm_plain (left : TokenOf .leftBrace) (right : TokenOf .rightBrace) :
    ∀ t ∈ (d.blockForm left right).tail, t.kind ≠ .funkKw := by
  show ∀ t ∈ d.heading.tail ++ left.1 :: (d.returned ++ [right.1]), t.kind ≠ .funkKw
  rw [List.forall_mem_append, List.forall_mem_cons, List.forall_mem_append, List.forall_mem_singleton, left.2, right.2]
  exact ⟨d.heading_plain, by decide, d.returned_plain, by decide⟩

theorem exists_arrowForm (arrow : TokenOf .arrow) : ∃ ws, d.arrowForm arrow = ws ++ [d.semicolon.1] ∧ 3 ≤ ws.length := by
  refine ⟨d.heading ++ arrow.1 :: d.ret.1 :: d.value.leaves, by simp [arrowForm, returned], ?_⟩
  simp only [heading, List.length_append, List.length_cons]
  omega

theorem exists_blockForm (left : TokenOf .leftBrace) (right : TokenOf .rightBrace) :
    ∃ ws, d.blockForm left right = ws ++ [right.1] ∧ 3 ≤ ws.length := by
  refine ⟨d.heading ++ left.1 :: d.returned, by simp [blockForm], ?_⟩
  simp only [heading, List.length_append, List.length_cons]
  omega

theorem far_arrowForm (arrow : TokenOf .arrow) (rest front : List Token) :
    rest.length + 3 ≤ (front ++ (d.arrowForm arrow ++ rest)).length := by
  obtain ⟨ws, hws, far⟩ := d.exists_arrowForm arrow
  simp only [hws, List.length_append]
  omega

theorem far_blockForm (left : TokenOf .leftBrace) (right : TokenOf .rightBrace) (rest front : List Token) :
    rest.length + 3 ≤ (front ++ (d.blockForm left right ++ rest)).length := by
  obtain ⟨ws, hws, far⟩ := d.exists_blockForm left right
  simp only [hws, List.length_append]
  omega

/-- How two readings compare that differ in the form of one function. -/
structure Twins (p q : Parse) : Prop where
  errors : p.errors.map SyntaxError.message = q.errors.map SyntaxError.message
  entered : p.entered = q.entered
  fault : p.fault = q.fault
  functions : p.functions = q.functions ∨ ∃ fs gs, p.functions = some fs ∧ q.functions = some gs ∧ SwappedIn d.Made fs gs

section
variable {d} {p q : Parse}

theorem Twins.refl (p : Parse) : d.Twins p p := ⟨rfl, rfl, rfl, .inl rfl⟩

theorem Twins.after (h : d.Twins p q) (errors : List SyntaxError) (entered : List String) :
    d.Twins (p.after errors entered) (q.after errors entered) where
  errors := by
    simp only [Parse.after, List.map_append]
    rw [h.errors]
  entered := congrArg (entered ++ ·) h.entered
  fault := h.fault
  functions := h.functions

end

theorem length_le_of_ends {xs ys zs vs ws rest : List Token} {a b : Token} (h : xs ++ a :: rest = vs ++ zs)
    (h' : ys ++ b :: rest = ws ++ zs) (ne : a ≠ b) : zs.length ≤ rest.length := by
  refine Nat.not_lt.1 fun longer => ?_
  have length : (a :: rest).length ≤ zs.length := longer
  have ends : a :: rest <:+ zs := List.suffix_of_suffix_length_le ⟨xs, h⟩ ⟨vs, rfl⟩ length
  have ends' : b :: rest <:+ zs := List.suffix_of_suffix_length_le ⟨ys, h'⟩ ⟨ws, rfl⟩ length
  have same := (List.suffix_of_suffix_length_le ends ends' (Nat.le_refl _)).eq_of_length rfl
  exact ne (List.cons.inj same).1

section
variable (arrow : TokenOf .arrow) (left : TokenOf .leftBrace) (right : TokenOf .rightBrace) (rest : List Token)

theorem length_le_rest {front vs ws zs : List Token} (h : front ++ (d.arrowForm arrow ++ rest) = vs ++ zs)
    (h' : front ++ (d.blockForm left right ++ rest) = ws ++ zs) : zs.length ≤ rest.length := by
  obtain ⟨xs, hxs, -⟩ := d.exists_arrowForm arrow
  obtain ⟨ys, hys, -⟩ := d.exists_blockForm left right
  have ne : d.semicolon.1 ≠ right.1 := by
    intro same
    have kinds := congrArg Token.kind same
    rw [d.semicolon.2, right.2] at kinds
    cases kinds
  rw [hxs, List.append_assoc, ← List.append_assoc] at h
  rw [hys, List.append_assoc, ← List.append_assoc] at h'
  exact length_le_of_ends h h' ne

/-- How one round of reading goes, on both texts: to the end, or up to one token before the function or behind it. -/
inductive Step (front : List Token) : EStateM.Result Halt Input (List Node) → EStateM.Result Halt Input (List Node) → Prop
  | whole {fs gs : List Node} {ts us : List Token} (entered : List String) (swapped : SwappedIn d.Made fs gs) :
      Step front (.ok fs { tokens := ts, entered }) (.ok gs { tokens := us, entered })
  | before (front' : List Token) (entered : List String) (shorter : front'.length ≤ front.length) :
      Step front (.error .stuck { tokens := front' ++ (d.arrowForm arrow ++ rest), entered })
        (.error .stuck { tokens := front' ++ (d.blockForm left right ++ rest), entered })
  | behind (ts : List Token) (entered : List String) (behind : ts.length ≤ rest.length) :
      Step front (.error .stuck { tokens := ts, entered }) (.error .stuck { tokens := ts, entered })

theorem program_step (front ts us : List Token) (hts : ts = front ++ (d.arrowForm arrow ++ rest))
    (hus : us = front ++ (d.blockForm left right ++ rest)) : d.Step arrow left right rest front
      ((program (depth ts)).run { tokens := ts }) ((program (depth us)).run { tokens := us }) := by
  have along := program_along (d.abreast arrow left right rest) (depth ts) (depth us) ts us ⟨front, hts, hus⟩ []
  have ends := program_ends ts (Nat.le_refl _) []
  have ends' := program_ends us (Nat.le_refl _) []
  have leads := program_leads (depth ts) ts []
  obtain ⟨vs, split⟩ := exists_read (depth ts) ts
  obtain ⟨ws, split'⟩ := exists_read (depth us) us
  generalize (program (depth ts)).run { tokens := ts } = result at *
  generalize (program (depth us)).run { tokens := us } = result' at *
  cases along with
  | left s r => exact ends.elim
  | right r s => exact ends'.elim
  | ok entered h =>
    rcases h with ⟨-, front', rfl, -⟩ | ⟨swapped, rfl⟩
    · -- a program is read to its end, and the function is not
      have nothing := leads.1
      simp [arrowForm, heading] at nothing
    · exact .whole entered swapped
  | stuck entered h =>
    rcases h with ⟨front', rfl, rfl⟩ | rfl
    · refine .before front' entered ?_
      have length := congrArg List.length (hts.symm.trans split)
      simp only [Parser.rest, List.length_append] at length
      omega
    · exact .behind _ entered (d.length_le_rest arrow left right rest (hts.symm.trans split) (hus.symm.trans split'))

open Parse

theorem restarting_within (stop : Token.Stop) (n : Nat) {ws : List Token} (plain : ∀ t ∈ ws, t.kind ≠ .funkKw)
    (hn : (ws ++ rest).length < n) :
    restarting n false (ws ++ rest) stop = restarting (rest.length + 1) false rest stop := by
  rw [List.length_append] at hn
  rw [restarting_enough n (ws.length + (rest.length + 1)) false (ws ++ rest) (by simpa using hn) (by simp)]
  exact restarting_skip ws rest plain _

theorem restarting_forms (stop : Token.Stop) (n m : Nat) (first : Bool) (front : List Token)
    (hn : (front ++ (d.arrowForm arrow ++ rest)).length < n) (hm : (front ++ (d.blockForm left right ++ rest)).length < m) :
    d.Twins (restarting n first (front ++ (d.arrowForm arrow ++ rest)) stop)
      (restarting m first (front ++ (d.blockForm left right ++ rest)) stop) := by
  induction n generalizing m first front with
  | zero => omega
  | succ n ih =>
    cases m with
    | zero => omega
    | succ m =>
      have step := d.program_step arrow left right rest front _ _ rfl rfl
      rw [restarting, restarting]
      generalize (program _).run _ = result at step
      generalize (program _).run _ = result' at step
      cases step with
      | whole entered swapped =>
        cases stop with
        | fault f => exact .refl _
        | _ => exact ⟨rfl, rfl, rfl, .inr ⟨_, _, rfl, rfl, swapped⟩⟩
      | before front' entered shorter =>
        have far (us vs : List Token) : (front ++ us).length - (front' ++ us).length =
            (front ++ vs).length - (front' ++ vs).length := by
          simp only [List.length_append]
          omega
        dsimp only
        rw [far (d.arrowForm arrow ++ rest) (d.blockForm left right ++ rest)]
        generalize (front ++ (d.blockForm left right ++ rest)).length - _ = read
        have here := d.far_arrowForm arrow rest []
        have here' := d.far_blockForm left right rest []
        simp only [List.nil_append, List.length_append] at hn hm here here'
        cases front' with
        | nil =>
          show d.Twins ((restarting n false ((d.arrowForm arrow).tail ++ rest) stop).after _ entered)
            ((restarting m false ((d.blockForm left right).tail ++ rest) stop).after _ entered)
          rw [restarting_within rest stop n (d.arrowForm_plain arrow), restarting_within rest stop m (d.blockForm_plain left right)]
          · exact .refl _
          · rw [List.length_append, List.length_tail]
            omega
          · rw [List.length_append, List.length_tail]
            omega
        | cons t front' =>
          rw [List.length_cons] at shorter
          refine (ih m false front' ?_ ?_).after _ entered
          · simp only [List.length_append]
            omega
          · simp only [List.length_append]
            omega
      | behind ts entered behind =>
        have far := d.far_arrowForm arrow rest front
        have far' := d.far_blockForm left right rest front
        have reported (k : Nat) (hk : rest.length + 3 ≤ k) : reported first (k - ts.length) = true := by
          unfold Parse.reported
          rw [decide_eq_true (by omega), Bool.or_true]
        dsimp only
        rw [reported _ far, reported _ far']
        cases ts with
        | nil => exact .refl _
        | cons t ts =>
          rw [List.length_cons] at behind
          dsimp only
          rw [restarting_enough n m false ts (by omega) (by omega)]
          exact .refl _

end

/-- Two readings of one function between the same tokens: with an arrow in `s`, and with braces in `s'`.  The tokens that both
have are on the same lines; their positions may differ. -/
structure Forms (before after : List Token) (s s' : Token.Scan) : Prop where
  arrow : ∃ arrow, s.tokens.map Token.unplaced = (before ++ (d.arrowForm arrow ++ after)).map Token.unplaced
  block : ∃ left right, s'.tokens.map Token.unplaced = (before ++ (d.blockForm left right ++ after)).map Token.unplaced
  stop : s.stop = s'.stop

section
variable {d} {before after : List Token} {s s' : Token.Scan}

theorem Forms.exact (forms : d.Forms before after s s') : ∃ (arrow : TokenOf .arrow) (left : TokenOf .leftBrace)
    (right : TokenOf .rightBrace) (r r' : Token.Scan), r.tokens = before ++ (d.arrowForm arrow ++ after) ∧
      r'.tokens = before ++ (d.blockForm left right ++ after) ∧ r.stop = s'.stop ∧ r'.stop = s'.stop ∧
      s.parse.Alike r.parse ∧ s'.parse.Alike r'.parse := by
  obtain ⟨⟨arrow, hs⟩, ⟨left, right, hs'⟩, stop⟩ := forms
  exact ⟨arrow, left, right, { s with tokens := before ++ (d.arrowForm arrow ++ after) },
    { s' with tokens := before ++ (d.blockForm left right ++ after) }, rfl, rfl, stop, rfl,
    parse_alike hs rfl, parse_alike hs' rfl⟩

theorem Twins.of_alike {p p' q q' : Parse} (h : p.Alike p') (h' : q.Alike q') (twins : d.Twins p' q') : d.Twins p q where
  errors := (h.errors.trans twins.errors).trans h'.errors.symm
  entered := (h.entered.trans twins.entered).trans h'.entered.symm
  fault := (h.fault.trans twins.fault).trans h'.fault.symm
  functions := by
    rw [h.functions, h'.functions]
    exact twins.functions

theorem Forms.twins (forms : d.Forms before after s s') : d.Twins s.parse s'.parse := by
  obtain ⟨arrow, left, right, r, r', hr, hr', stop, stop', alike, alike'⟩ := forms.exact
  refine .of_alike alike alike' ?_
  unfold Token.Scan.parse
  rw [hr, hr', stop, stop']
  exact d.restarting_forms arrow left right after s'.stop _ _ true before (Nat.lt_succ_self _) (Nat.lt_succ_self _)

theorem Made.eq_iff {a b : Node} (made : d.Made a b) : a = b ↔ d.params.isSome = true := by
  obtain ⟨params, value, none, rfl, rfl⟩ := made
  rw [Option.isSome_iff_ne_none, ne_eq, ← none]
  cases params with
  | nil => simp [oddNode, blockNode]
  | cons p ps => simp

theorem Forms.swapped (forms : d.Forms before after s s') (whole : ∀ f, s'.stop ≠ .fault f) (clean : s'.parse.errors = []) :
    ∃ fs gs, s.parse.functions = some fs ∧ s'.parse.functions = some gs ∧ SwappedIn d.Made fs gs := by
  obtain ⟨arrow, left, right, r, r', hr, hr', stop, stop', alike, alike'⟩ := forms.exact
  have clean' : r'.parse.errors = [] := by
    have messages := alike'.errors
    rw [clean, List.map_nil] at messages
    exact List.map_eq_nil_iff.1 messages.symm
  have step := d.program_step arrow left right after before r.tokens r'.tokens hr hr'
  obtain ⟨gs, t, run'⟩ := r'.exists_whole (by rwa [stop']) clean'
  generalize run : (program (depth r.tokens)).run { tokens := r.tokens } = result at step
  rw [run'] at step
  cases step with
  | whole entered swapped =>
    refine ⟨_, gs, ?_, ?_, swapped⟩
    · rw [alike.functions, Token.Scan.parse_of_whole run (by rwa [stop])]
    · rw [alike'.functions, Token.Scan.parse_of_whole run' (by rwa [stop'])]

theorem program_forms (arrow : TokenOf .arrow) (left : TokenOf .leftBrace) (right : TokenOf .rightBrace) (n m : Nat) :
    Beside (fun fs _ gs _ => ∃ a b, d.Made a b ∧ fs = [a] ∧ gs = [b]) (fun _ _ => False) (program n) (program m)
      (d.arrowForm arrow ++ []) (d.blockForm left right ++ []) := by
  unfold program
  refine (d.function_forms arrow left right [] n m).bind ?_
  rintro a _ b _ ⟨made, rfl, rfl⟩
  cases n with
  | zero => exact fun _ => .left _ _
  | succ n =>
  cases m with
  | zero => exact fun _ => .right _ _
  | succ m => exact fun entered => .ok entered ⟨a, b, made, rfl, rfl⟩

theorem Forms.alone (forms : d.Forms [] [] s s') (whole : ∀ f, s'.stop ≠ .fault f) :
    ∃ a b, d.Made a b ∧ s.parse.functions = some [a] ∧ s'.parse.functions = some [b] := by
  obtain ⟨arrow, left, right, r, r', hr, hr', stop, stop', alike, alike'⟩ := forms.exact
  rw [List.nil_append] at hr hr'
  have beside := program_forms (d := d) arrow left right (depth r.tokens) (depth r'.tokens) []
  rw [← hr, ← hr'] at beside
  have ends := program_ends r.tokens (Nat.le_refl _) []
  have ends' := program_ends r'.tokens (Nat.le_refl _) []
  generalize run : (program (depth r.tokens)).run { tokens := r.tokens } = result at beside ends
  generalize run' : (program (depth r'.tokens)).run { tokens := r'.tokens } = result' at beside ends'
  cases beside with
  | left s r => exact ends.elim
  | right r s => exact ends'.elim
  | stuck _ h => exact h.elim
  | ok entered h =>
    obtain ⟨a, b, made, rfl, rfl⟩ := h
    refine ⟨a, b, made, ?_, ?_⟩
    · rw [alike.functions, Token.Scan.parse_of_whole run (by rwa [stop])]
    · rw [alike'.functions, Token.Scan.parse_of_whole run' (by rwa [stop'])]

end

/-- **The two forms of a function that returns an expression.**  Wherever the function stands, reading it with an arrow and
reading it with braces report the same errors, enter the same functions and meet with the same fault.  If it has
parameters, the trees are the same too.  If the text with braces is without errors, there is a tree for each of them; the
trees are alike but for the function, and they are the same exactly if it has parameters.  The function alone is read
without errors. -/
theorem arrow_iff_parameters {d : Returning} {before after : List Token} {s s' : Token.Scan}
    (forms : d.Forms before after s s') :
    d.Twins s.parse s'.parse ∧
    (d.params.isSome = true → s.parse.functions = s'.parse.functions) ∧
    (s'.parse.errors = [] → (∀ f, s'.stop ≠ .fault f) →
      ∃ fs gs, s.parse.functions = some fs ∧ s'.parse.functions = some gs ∧ SwappedIn d.Made fs gs ∧
        (fs = gs ↔ d.params.isSome = true)) ∧
    (before = [] → after = [] → (∀ f, s'.stop ≠ .fault f) →
      ∃ a b, s.parse.functions = some [a] ∧ s'.parse.functions = some [b] ∧ d.Made a b) := by
  have twins := forms.twins
  refine ⟨twins, fun some => ?_, fun clean whole => ?_, ?_⟩
  · rcases twins.functions with same | ⟨fs, gs, hf, hg, swapped⟩
    · exact same
    · rw [hf, hg, (swapped.eq_iff fun _ _ => Made.eq_iff).2 some]
  · obtain ⟨fs, gs, hf, hg, swapped⟩ := forms.swapped whole clean
    exact ⟨fs, gs, hf, hg, swapped, swapped.eq_iff fun _ _ => Made.eq_iff⟩
  · rintro rfl rfl whole
    obtain ⟨a, b, made, hf, hg⟩ := forms.alone whole
    exact ⟨a, b, hf, hg, made⟩

def tokenOf (k : Kind) (text : String) : TokenOf k := ⟨{ kind := k, value := .text text, line := 1, pos := 0 }, rfl⟩

/-- A function that returns `x`. -/
def returnsX (params : Option (Tree (.phrase .parameters))) : Returning where
  funk := tokenOf .funkKw "funk"
  name := tokenOf .id "f"
  leftParen := tokenOf .leftParen "("
  params := params
  rightParen := tokenOf .rightParen ")"
  less := tokenOf .less "<"
  type := ⟨(tokenOf .intKw "int").1, by decide⟩
  greater := tokenOf .greater ">"
  ret := tokenOf .returnKw "return"
  value := .node .identifier (.cons (.leaf (tokenOf .id "x").1 rfl) .nil)
  semicolon := tokenOf .semicolon ";"

/-- One parameter by the name of `x`. -/
def parameterX : Tree (.phrase .parameters) :=
  .node .parametersOne (.cons (.node .parameter (.cons (.leaf (tokenOf .id "x").1 rfl)
    (.cons (.leaf (tokenOf .asKw "as").1 rfl)
      (.cons (.node (.type .intKw (by decide)) (.cons (.leaf (tokenOf .intKw "int").1 rfl) .nil)) .nil)))) .nil)

def nestedArrow : Token.Scan :=
  Token.lex "funk g() <int> \x7b funk f(x as int) <int> => return x; return 'y'; \x7d".toList 1

def nestedBlock : Token.Scan :=
  Token.lex "funk g() <int> \x7b funk f(x as int) <int> \x7b return x; \x7d return 'y'; \x7d".toList 1

/-- What stands before `f` in both texts, and behind it. -/
def around : List Token × List Token :=
  ([(tokenOf .funkKw "funk").1, (tokenOf .id "g").1, (tokenOf .leftParen "(").1, (tokenOf .rightParen ")").1,
    (tokenOf .less "<").1, (tokenOf .intKw "int").1, (tokenOf .greater ">").1, (tokenOf .leftBrace "\x7b").1],
   [(tokenOf .returnKw "return").1, (tokenOf .string "y").1, (tokenOf .semicolon ";").1, (tokenOf .rightBrace "\x7d").1])

theorem nested_arrow_read : (returnsX (some parameterX)).Forms around.1 around.2 nestedArrow nestedBlock ∧
    nestedBlock.parse.errors = [] ∧ nestedArrow.parse.functions.isSome = true ∧
    nestedArrow.parse.functions = nestedBlock.parse.functions := by
  have forms : (returnsX (some parameterX)).Forms around.1 around.2 nestedArrow nestedBlock := by
    rw [nestedArrow, nestedBlock, String.toList_ofList, String.toList_ofList]
    exact ⟨⟨tokenOf .arrow "=>", by decide +kernel⟩,
      ⟨tokenOf .leftBrace "\x7b", tokenOf .rightBrace "\x7d", by decide +kernel⟩, by decide +kernel⟩
  have evaluated : nestedBlock.parse.errors = [] ∧ nestedBlock.stop = .finished := by
    rw [nestedBlock, String.toList_ofList]
    decide +kernel
  obtain ⟨clean, stop⟩ := evaluated
  obtain ⟨-, same, swapped, -⟩ := arrow_iff_parameters forms
  obtain ⟨fs, gs, hf, -⟩ := swapped clean (by simp [stop])
  exact ⟨forms, clean, by rw [hf]; rfl, same rfl⟩

/-- Without parameters the two forms are not the same: the arrow form takes `>` for the type. -/
theorem bare_arrow_differs : ¬ ∀ (d : Returning) (before after : List Token) (s s' : Token.Scan),
    d.Forms before after s s' → s.parse.functions = s'.parse.functions := by
  intro always
  have same := always (returnsX none) [] [] (Token.lex "funk f() <int> => return x;".toList 1)
    (Token.lex "funk f() <int> \x7b return x; \x7d".toList 1)
  rw [String.toList_ofList, String.toList_ofList] at same
  have described := congrArg (Option.map Node.describeAll) <| same
    ⟨⟨tokenOf .arrow "=>", by decide +kernel⟩,
      ⟨tokenOf .leftBrace "\x7b", tokenOf .rightBrace "\x7d", by decide +kernel⟩, by decide +kernel⟩
  revert described
  decide +kernel

end Returning

end TesLang
