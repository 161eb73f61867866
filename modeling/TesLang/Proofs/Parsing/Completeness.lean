import TesLang.Proofs.Parsing.Unambiguous
import TesLang.Proofs.Parsing.Soundness
/-!
# The parser reads what is derived

A parser reads every phrase of its kind to the end, as long as the phrase is not followed by a token that would go on
with it (`Clear`).  No parser gets stuck within one, so a sentence is never refused (`program_takes`).

The induction is on the bound on the depth of calls, with one case for each production of the grammar in the form in which
the parser reads it.
-/
namespace TesLang.Parser

open Grammar

variable {α β : Type}

/-- A parser goes from `ts` to its end `us`, unless the bound on the depth of its calls is spent. -/
def Takes (p : Parser α) (ts us : List Token) : Prop := Leads True p ts (fun _ vs => vs = us) fun _ => False

/-- The next token, if there is one, is of none of some kinds. -/
def Clear (ks : List Kind) (ts : List Token) : Prop := ∀ t us, ts = t :: us → t.kind ∉ ks

/-- What goes on with an atom. -/
def atomGoesOn : List Kind := [.leftParen, .leftBracket]

/-- What goes on with an operand. -/
def operandGoesOn : List Kind := .question :: atomGoesOn

/-- What goes on with an expression. -/
def expressionGoesOn : List Kind := binaryKinds ++ operandGoesOn

def atomStarts : List Kind :=
  stringKinds ++ booleanKinds ++ [Kind.number, .id, .leftParen, .leftBracket, .printKw, .lengthKw]

def expressionStarts : List Kind := unaryKinds ++ atomStarts

theorem run_expect {t : Token} {ts : List Token} {k : Kind} {entered : List String} (h : t.kind = k) :
    (expect k).run ⟨t :: ts, entered⟩ = .ok t ⟨ts, entered⟩ := if_pos h

namespace Takes

variable {ts us vs : List Token} {ps : List Part} {k : Kind}

theorem spent : Takes (spent : Parser α) ts us := Leads.spent trivial

theorem pure {a : α} : Takes (pure a) ts ts := Leads.pure rfl

theorem bind {p : Parser α} {f : α → Parser β} (hp : Takes p ts us) (hf : ∀ a, Takes (f a) us vs) : Takes (p >>= f) ts vs :=
  Leads.andThen hp (fun _ h => h) fun a _ h => h ▸ hf a

theorem peek {f : Option Kind → Parser β} (h : Reads (.token k :: ps) ts us) (hf : Takes (f (some k)) ts us) :
    Takes (peek >>= f) ts us := by
  obtain _ | ⟨rfl, _⟩ := h
  refine Leads.peek fun k hk => ?_
  subst hk
  exact hf

theorem take {f : Token → Parser β} (h : Reads (.token k :: ps) ts us) (hf : ∀ t vs, Reads ps vs us → Takes (f t) vs us) :
    Takes (take >>= f) ts us := by
  obtain _ | ⟨_, rest⟩ := h
  exact Leads.take (hf _ _ rest)

theorem expect {f : Token → Parser β} (h : Reads (.token k :: ps) ts us) (hf : ∀ t vs, Reads ps vs us → Takes (f t) vs us) :
    Takes (expect k >>= f) ts us := by
  obtain _ | ⟨hk, rest⟩ := h
  refine Leads.bind fun entered => ?_
  rw [run_expect hk]
  exact hf _ _ rest

theorem takeIf {f : Option Token → Parser β} (h : Reads (.token k :: ps) ts us)
    (hf : ∀ t vs, Reads ps vs us → Takes (f (some t)) vs us) : Takes (takeIf k >>= f) ts us := by
  obtain _ | ⟨hk, rest⟩ := h
  refine Leads.takeIf (fun t vs hv _ => ?_) fun other => ?_
  · cases hv
    exact hf _ _ rest
  · exact absurd (congrArg some hk) other

theorem takeIf_of_clear {f : Option Token → Parser β} (h : Clear [k] ts) (hf : Takes (f none) ts us) :
    Takes (Parser.takeIf k >>= f) ts us :=
  Leads.takeIf (fun t vs hv hk => absurd (List.mem_singleton.2 hk) (h t vs hv)) fun _ => hf

theorem andThen {p : Parser α} {f : α → Parser β} {q : Part} (h : Reads (q :: ps) ts us)
    (first : ∀ vs, Reads [q] ts vs → Reads ps vs us → Takes p ts vs) (rest : ∀ a vs, Reads ps vs us → Takes (f a) vs us) :
    Takes (p >>= f) ts us := by
  obtain ⟨vs, hq, hps⟩ := h.uncons
  exact bind (first vs hq hps) fun a => rest a vs hps

end Takes

section Heads
variable {ts us : List Token} {ps : List Part} {k : Kind} {ks ks' : List Kind}

theorem Clear.mono (h : Clear ks' ts) (hk : ∀ k ∈ ks, k ∈ ks') : Clear ks ts := fun t us ht ht' => h t us ht (hk _ ht')

theorem Clear.not_head (h : Clear ks ts) (head : ts.head?.map (·.kind) = some k) : k ∉ ks := by
  obtain ⟨t, us, rfl, rfl⟩ := exists_of_head head
  exact h t us rfl

theorem clear_of_token (h : Reads (.token k :: ps) ts us) (hk : k ∉ ks) : Clear ks ts := by
  obtain _ | ⟨rfl, _⟩ := h
  intro t us ht
  cases ht
  exact hk

theorem clear_of_call (h : Reads [.phrase .call] ts us) (hk : ∀ k ∈ calleeKinds ++ [Kind.lengthKw], k ∉ ks) :
    Clear ks ts := by
  obtain ⟨_, p, h⟩ := h.production
  cases p with
  | call hc => exact clear_of_token h (hk _ (List.mem_append_left _ hc))
  | length => exact clear_of_token h (hk _ (by decide))

theorem clear_of_atom (h : Reads [.phrase .atom] ts us) (hk : ∀ k ∈ atomStarts, k ∉ ks) : Clear ks ts := by
  have callStarts : ∀ k ∈ calleeKinds ++ [Kind.lengthKw], k ∈ atomStarts := by decide
  obtain ⟨_, p, h⟩ := h.production
  cases p with
  | string hs => exact clear_of_token h (hk _ (List.mem_append_left _ (List.mem_append_left _ hs)))
  | boolean hb => exact clear_of_token h (hk _ (List.mem_append_left _ (List.mem_append_right _ hb)))
  | callAtom => exact clear_of_call h fun k hc => hk k (callStarts k hc)
  | number | identifier | element | group | array => exact clear_of_token h (hk _ (by decide))

theorem clear_of_operand (h : Reads [.phrase .operand] ts us) (hk : ∀ k ∈ expressionStarts, k ∉ ks) : Clear ks ts := by
  have atom {ts us : List Token} (h : Reads [.phrase .atom] ts us) : Clear ks ts :=
    clear_of_atom h fun k ha => hk k (List.mem_append_right _ ha)
  obtain ⟨_, p, h⟩ := h.production
  cases p with
  | unary hu => exact clear_of_token h (hk _ (List.mem_append_left _ hu))
  | atom => exact atom h
  | ternary =>
    obtain ⟨_, h, -⟩ := h.uncons
    exact atom h

theorem clear_of_expression (h : Reads [.phrase .expression] ts us) (hk : ∀ k ∈ expressionStarts, k ∉ ks) : Clear ks ts := by
  obtain ⟨_, h, -⟩ := h.operand
  exact clear_of_operand h hk

theorem clear_of_tail (h : Reads [.phrase .tail] ts us) (hu : Clear expressionGoesOn us) : Clear operandGoesOn ts := by
  have operators : ∀ k ∈ binaryKinds, k ∉ operandGoesOn := by decide
  obtain ⟨_, p, h⟩ := h.production
  cases p with
  | noOperand =>
    obtain rfl := h.eq_of_nil
    exact hu.mono fun k hk => List.mem_append_right _ hk
  | nextOperand hk => exact clear_of_token h (operators _ hk)

theorem clear_of_moreArguments {close : Kind} (h : Reads [.phrase (.moreArguments close)] ts us)
    (hc : close ∉ expressionGoesOn) : Clear expressionGoesOn ts := by
  obtain ⟨_, p, h⟩ := h.production
  cases p with
  | lastArgument => exact clear_of_token h hc
  | nextArgument => exact clear_of_token h (by decide)

end Heads

/-! ### Expressions -/

def Below (least : Nat) (ts : List Token) : Prop := ∀ t us l, ts = t :: us → level? t.kind = some l → l < least

theorem level?_of_mem : ∀ k ∈ binaryKinds, (level? k).isSome := by decide

theorem eq_of_tail {ts us : List Token} (h : Reads [.phrase .tail] ts us) (below : Below 0 ts) : ts = us := by
  obtain ⟨_, p, h⟩ := h.production
  cases p with
  | noOperand => exact h.eq_of_nil
  | nextOperand hk =>
    obtain _ | ⟨rfl, _⟩ := h
    obtain ⟨l, hl⟩ := Option.isSome_iff_exists.1 (level?_of_mem _ hk)
    exact absurd (below _ _ l rfl hl) (Nat.not_lt_zero l)

theorem takes_of_row {n : Nat} {ts us : List Token} (h : Reads [.phrase .expression] ts us)
    (row : Reads [.phrase .operand, .phrase .tail] ts us → Leads True (expression n 0) ts
      (fun _ vs => Reads [.phrase .tail] vs us ∧ Below 0 vs) fun _ => False) : Takes (expression n 0) ts us := by
  obtain ⟨_, p, h⟩ := h.production
  cases p
  refine (row h).mono (fun _ vs hv => ?_) fun _ h => h
  exact eq_of_tail hv.1 hv.2

mutual

theorem row_reads : ∀ (n least : Nat) {ts us : List Token}, Reads [.phrase .operand, .phrase .tail] ts us →
    Clear expressionGoesOn us → Leads True (expression n least) ts
      (fun _ vs => Reads [.phrase .tail] vs us ∧ Below least vs) fun _ => False
  | 0, _, _, _, _, _ => by
    rw [expression]
    exact .spent trivial
  | n + 1, least, ts, us, h, hu => by
    obtain ⟨vs, operand, tail⟩ := h.uncons
    rw [expression]
    refine .andThen (operand_takes n operand (clear_of_tail tail hu)) (fun _ h => h) fun left ws hw => ?_
    subst hw
    exact chain_reads n least left tail hu

theorem chain_reads : ∀ (n least : Nat) (left : Node) {ts us : List Token}, Reads [.phrase .tail] ts us →
    Clear expressionGoesOn us → Leads True (chain n least left) ts
      (fun _ vs => Reads [.phrase .tail] vs us ∧ Below least vs) fun _ => False
  | 0, _, _, _, _, _, _ => by
    rw [chain]
    exact .spent trivial
  | n + 1, least, left, ts, us, h, hu => by
    rw [chain]
    refine .takeOperator (fun t vs l hv hl hle => ?_) fun below => .pure ⟨h, below⟩
    subst hv
    obtain ⟨_, p, inner⟩ := h.production
    cases p with
    | noOperand =>
      obtain rfl := inner.eq_of_nil
      exact absurd (List.mem_append_left _ (mem_binaryKinds hl)) (hu t vs rfl)
    | nextOperand hk =>
      obtain _ | ⟨-, row⟩ := inner
      refine .andThen (row_reads n (l + 1) row hu) (fun _ h => h) fun right ws hw => ?_
      exact chain_reads n least _ hw.1 hu

theorem operand_takes : ∀ (n : Nat) {ts us : List Token}, Reads [.phrase .operand] ts us → Clear operandGoesOn us →
    Takes (operand n) ts us
  | 0, _, _, _, _ => by
    rw [operand]
    exact .spent
  | n + 1, ts, us, h, hu => by
    -- an atom first, and then what may go on behind it
    have unsigned {vs : List Token} (h : Reads [.phrase .atom] ts vs) (hv : Clear atomGoesOn vs)
        (rest : ∀ condition : Node, Takes (do
          match ← takeIf .question with
          | none => pure condition
          | some q =>
            let yes ← expression n 0
            let _ ← expect .colon
            let no ← operand n
            pure (.ternary condition yes no q.line)) vs us) : Takes (operand (n + 1)) ts us := by
      have clear : Clear unaryKinds ts := clear_of_atom h (by decide)
      rw [operand]
      refine Leads.peek fun k head => ?_
      split
      case h_4 => exact Takes.bind (atom_takes n h hv) rest
      all_goals exact absurd (by decide) (clear.not_head head)
    obtain ⟨_, p, h⟩ := h.production
    cases p with
    | unary hk =>
      rw [operand]
      refine .peek h ?_
      simp only [unaryKinds, List.mem_cons, List.not_mem_nil, or_false] at hk
      rcases hk with rfl | rfl | rfl <;>
        exact .take h fun t vs h => .bind (operand_takes n h hu) fun e => .pure
    | atom =>
      refine unsigned h (hu.mono (by decide)) fun condition => ?_
      exact .takeIf_of_clear (hu.mono (by decide)) .pure
    | ternary =>
      obtain ⟨vs, atom, h⟩ := h.uncons
      refine unsigned atom (clear_of_token h (by decide)) fun condition => .takeIf h fun q vs h => ?_
      obtain ⟨ws, e, h⟩ := h.uncons
      have e : Takes (expression n 0) vs ws := takes_of_row e fun row => row_reads n 0 row (clear_of_token h (by decide))
      exact .bind e fun yes => .expect h fun _ xs h => .bind (operand_takes n h hu) fun no => .pure

theorem atom_takes : ∀ (n : Nat) {ts us : List Token}, Reads [.phrase .atom] ts us → Clear atomGoesOn us →
    Takes (atom n) ts us
  | 0, _, _, _, _ => by
    rw [atom]
    exact .spent
  | n + 1, ts, us, h, hu => by
    have inner {ts vs : List Token} {ps : List Part} {k : Kind} (h : Reads [.phrase .expression] ts vs)
        (rest : Reads (.token k :: ps) vs us) (hk : k ∉ expressionGoesOn) : Takes (expression n 0) ts vs :=
      takes_of_row h fun row => row_reads n 0 row (clear_of_token rest hk)
    obtain ⟨_, p, h⟩ := h.production
    rw [atom]
    cases p with
    | number => exact .peek h (.take h fun t vs h => h.eq_of_nil ▸ .pure)
    | string hk =>
      refine .peek h ?_
      simp only [stringKinds, List.mem_cons, List.not_mem_nil, or_false] at hk
      rcases hk with rfl | rfl <;> exact .take h fun t vs h => h.eq_of_nil ▸ .pure
    | boolean hk =>
      refine .peek h ?_
      simp only [booleanKinds, List.mem_cons, List.not_mem_nil, or_false] at hk
      rcases hk with rfl | rfl <;> exact .take h fun t vs h => h.eq_of_nil ▸ .pure
    | identifier =>
      refine .peek h (.take h fun t vs h => ?_)
      obtain rfl := h.eq_of_nil
      refine Leads.peek fun k head => ?_
      split
      case h_3 => exact Takes.pure
      all_goals exact absurd (by decide) (hu.not_head head)
    | element =>
      refine .peek h (.take h fun t vs h => .peek h (.take h fun _ ws h => ?_))
      refine .andThen h (fun xs e rest => inner e rest (by decide)) fun index xs h => ?_
      exact .expect h fun _ ys h => h.eq_of_nil ▸ .pure
    | group =>
      refine .peek h (.take h fun t vs h => .andThen h (fun xs e rest => inner e rest (by decide)) fun e xs h => ?_)
      exact .expect h fun _ ys h => h.eq_of_nil ▸ .pure
    | array =>
      exact .peek h (.take h fun t vs h => .bind (arguments_takes n h (by decide) (by decide) (by decide)) fun es => .pure)
    | callAtom =>
      obtain ⟨_, p, h⟩ := h.production
      cases p with
      | call hk =>
        simp only [calleeKinds, List.mem_cons, List.not_mem_nil, or_false] at hk
        rcases hk with rfl | rfl
        · refine .peek h (.take h fun t vs h => .peek h (.take h fun _ ws h => ?_))
          exact .bind (arguments_takes n h (by decide) (by decide) (by decide)) fun args => .pure
        · refine .peek h (.take h fun t vs h => .expect h fun _ ws h => ?_)
          exact .bind (arguments_takes n h (by decide) (by decide) (by decide)) fun args => .pure
      | length =>
        refine .peek h (.take h fun t vs h => .expect h fun _ ws h => ?_)
        refine .andThen h (fun xs e rest => inner e rest (by decide)) fun e xs h => ?_
        exact .expect h fun _ ys h => h.eq_of_nil ▸ .pure

theorem arguments_takes : ∀ (n : Nat) {close : Kind} {ts us : List Token}, Reads [.phrase (.arguments close)] ts us →
    close ∉ expressionGoesOn → close ∉ expressionStarts → close ≠ .comma → Takes (arguments n close) ts us
  | 0, _, _, _, _, _, _, _ => by
    rw [arguments]
    exact .spent
  | n + 1, close, ts, us, h, hc, hs, hn => by
    obtain ⟨_, p, h⟩ := h.production
    rw [arguments]
    cases p with
    | noArguments => exact .takeIf h fun c vs h => h.eq_of_nil ▸ .pure
    | arguments =>
      obtain ⟨vs, e, more⟩ := h.uncons
      have starts : ∀ k ∈ expressionStarts, k ∉ [close] := fun k hk hm => hs (List.mem_singleton.1 hm ▸ hk)
      refine .takeIf_of_clear (clear_of_expression e starts) ?_
      have e : Takes (expression n 0) ts vs := takes_of_row e fun row => row_reads n 0 row (clear_of_moreArguments more hc)
      exact .bind e fun _ => .bind (moreArguments_takes n more hc hn) fun _ => .pure

theorem moreArguments_takes : ∀ (n : Nat) {close : Kind} {ts us : List Token}, Reads [.phrase (.moreArguments close)] ts us →
    close ∉ expressionGoesOn → close ≠ .comma → Takes (moreArguments n close) ts us
  | 0, _, _, _, _, _, _ => by
    rw [moreArguments]
    exact .spent
  | n + 1, close, ts, us, h, hc, hn => by
    obtain ⟨_, p, h⟩ := h.production
    rw [moreArguments]
    cases p with
    | lastArgument =>
      refine .takeIf_of_clear (clear_of_token h fun hm => hn (List.mem_singleton.1 hm)) ?_
      exact .expect h fun c vs h => h.eq_of_nil ▸ .pure
    | nextArgument =>
      refine .takeIf h fun comma vs h => ?_
      obtain ⟨ws, e, more⟩ := h.uncons
      have e : Takes (expression n 0) vs ws := takes_of_row e fun row => row_reads n 0 row (clear_of_moreArguments more hc)
      exact .bind e fun _ => .bind (moreArguments_takes n more hc hn) fun _ => .pure

end

theorem expression_takes (n : Nat) {ts us : List Token} (h : Reads [.phrase .expression] ts us)
    (hu : Clear expressionGoesOn us) : Takes (expression n 0) ts us :=
  takes_of_row h fun row => row_reads n 0 row hu

/-! ### Statements and functions -/

theorem type_takes {ts us : List Token} (h : Reads [.phrase .type] ts us) : Takes type ts us := by
  obtain ⟨_, p, h⟩ := h.production
  cases p with | type hk =>
  refine .peek h ?_
  simp only [typeKinds, List.mem_cons, List.not_mem_nil, or_false] at hk
  rcases hk with rfl | rfl | rfl | rfl | rfl | rfl <;> exact .take h fun t vs h => h.eq_of_nil ▸ .pure

theorem parameter_takes {ts us : List Token} (h : Reads [.phrase .parameter] ts us) : Takes parameter ts us := by
  obtain ⟨_, ⟨⟩, h⟩ := h.production
  exact .expect h fun t vs h => .expect h fun _ ws h => .bind (type_takes h) fun kind => .pure

theorem moreParameters_takes : ∀ (n : Nat) {ts us : List Token}, Reads [.phrase .moreParameters] ts us →
    Takes (moreParameters n) ts us
  | 0, _, _, _ => .spent
  | n + 1, ts, us, h => by
    obtain ⟨_, p, h⟩ := h.production
    rw [moreParameters]
    cases p with
    | lastParameter =>
      refine .takeIf_of_clear (clear_of_token h (by decide)) ?_
      exact .expect h fun c vs h => h.eq_of_nil ▸ .pure
    | nextParameter =>
      refine .takeIf h fun comma vs h => .andThen h (fun ws p _ => parameter_takes p) fun p ws more => ?_
      exact .bind (moreParameters_takes n more) fun _ => .pure

theorem parameters_takes (n : Nat) {ts us : List Token} (h : Reads [.phrase .parameters] ts us) :
    Takes (parameters n) ts us := by
  obtain ⟨_, p, h⟩ := h.production
  unfold parameters
  cases p with
  | noParameters => exact .takeIf h fun c vs h => h.eq_of_nil ▸ .pure
  | parameters =>
    obtain ⟨vs, p, more⟩ := h.uncons
    have clear : Clear [.rightParen] ts := by
      obtain ⟨_, ⟨⟩, p⟩ := p.production
      exact clear_of_token p (by decide)
    exact .takeIf_of_clear clear (.bind (parameter_takes p) fun _ => .bind (moreParameters_takes n more) fun _ => .pure)

theorem takes_expression {n : Nat} {k : Kind} {ps : List Part} {ts us : List Token} {f : Node → Parser β}
    (h : Reads (.phrase .expression :: .token k :: ps) ts us) (hk : k ∉ expressionGoesOn)
    (rest : ∀ e vs, Reads (.token k :: ps) vs us → Takes (f e) vs us) : Takes (expression n 0 >>= f) ts us :=
  .andThen h (fun _ e h => expression_takes n e (clear_of_token h hk)) rest

theorem takes_closed {n : Nat} {ts us : List Token} (h : Reads [.phrase .expression, .token .semicolon] ts us)
    (make : Node → α) : Takes (do
      let e ← expression n 0
      let _ ← expect .semicolon
      pure (make e)) ts us :=
  takes_expression h (by decide) fun e vs h => .expect h fun _ ws h => h.eq_of_nil ▸ .pure

theorem condition_takes (n : Nat) {ts us : List Token} (h : Reads [.phrase .condition] ts us) :
    Takes (condition n) ts us := by
  obtain ⟨_, ⟨⟩, h⟩ := h.production
  refine .expect h fun _ vs h => .expect h fun _ ws h => takes_expression h (by decide) fun e xs h => ?_
  exact .expect h fun _ ys h => .expect h fun _ zs h => h.eq_of_nil ▸ .pure

theorem noteFirst_takes (first : Node) (ts : List Token) : Takes (noteFirst first) ts ts := noteFirst_leads first ts

theorem startsStatement_of_reads {b : Bool} {ts us : List Token} (h : Reads [.phrase (.statement b)] ts us) :
    ∃ t vs, ts = t :: vs ∧ startsStatement t.kind = true := by
  have token {k : Kind} {ps : List Part} {ts us : List Token} (h : Reads (.token k :: ps) ts us)
      (hk : startsStatement k = true) : ∃ t vs, ts = t :: vs ∧ startsStatement t.kind = true := by
    obtain _ | ⟨rfl, _⟩ := h
    exact ⟨_, _, rfl, hk⟩
  obtain ⟨_, p, h⟩ := h.production
  cases p with
  | callStatement =>
    obtain ⟨_, call, -⟩ := h.uncons
    obtain ⟨_, p, call⟩ := call.production
    cases p with
    | call hk => exact token call ((by decide : ∀ k ∈ calleeKinds, startsStatement k = true) _ hk)
    | length => exact token call rfl
  | functionStatement =>
    obtain ⟨_, p, h⟩ := h.production
    cases p <;> exact token h rfl
  | _ => exact token h rfl

theorem clear_of_statements {ts us : List Token} (h : Reads [.phrase .statements] ts us) (hu : Clear [.elseKw] us) :
    Clear [.elseKw] ts := by
  obtain ⟨_, p, h⟩ := h.production
  cases p with
  | noStatement => exact h.eq_of_nil ▸ hu
  | nextStatement b =>
    obtain ⟨_, s, -⟩ := h.uncons
    obtain ⟨t, vs, rfl, ht⟩ := startsStatement_of_reads s
    rintro _ _ ⟨⟩ hk
    rw [List.mem_singleton.1 hk] at ht
    cases ht

def Closing (ts : List Token) : Prop := ∀ t us, ts = t :: us → startsStatement t.kind = false ∧ t.kind ≠ .elseKw

theorem closing_of_token {k : Kind} {ps : List Part} {ts us : List Token} (h : Reads (.token k :: ps) ts us)
    (hk : startsStatement k = false ∧ k ≠ .elseKw) : Closing ts := by
  obtain _ | ⟨rfl, _⟩ := h
  rintro _ _ ⟨⟩
  exact hk

theorem Closing.clear {ts : List Token} (h : Closing ts) : Clear [.elseKw] ts := fun t us ht hk =>
  (h t us ht).2 (List.mem_singleton.1 hk)

theorem takes_list {ts us : List Token} {first : Parser (List Node)} (h : Reads [.phrase .statements] ts us)
    (hu : Closing us)
    (next : ∀ b vs, Reads [.phrase (.statement b)] ts vs → Reads [.phrase .statements] vs us → Takes first ts us) : Takes (do
      match ← peek with
      | some k => if startsStatement k then first else pure []
      | none => pure []) ts us := by
  obtain ⟨_, p, h⟩ := h.production
  refine Leads.peek fun k head => ?_
  cases p with
  | noStatement =>
    obtain rfl := h.eq_of_nil
    split
    · obtain ⟨t, us, rfl, rfl⟩ := exists_of_head head
      rw [(hu t us rfl).1]
      exact Takes.pure
    · exact Takes.pure
  | nextStatement b =>
    obtain ⟨vs, s, ss⟩ := h.uncons
    obtain ⟨t, xs, rfl, ht⟩ := startsStatement_of_reads s
    subst head
    dsimp only [List.head?_cons, Option.map_some]
    rw [if_pos ht]
    exact next b vs s ss

mutual

theorem statement_takes : ∀ (n : Nat) {b : Bool} {ts us : List Token}, Reads [.phrase (.statement b)] ts us →
    (b = true → Clear [.elseKw] us) → Takes (statement n) ts us
  | 0, _, _, _, _, _ => by
    rw [statement]
    exact .spent
  | n + 1, b, ts, us, h, hu => by
    obtain ⟨_, p, h⟩ := h.production
    rw [statement]
    cases p with
    | declaration =>
      refine .peek h (.take h fun t vs h => .peek h (.take h fun _ ws h => ?_))
      refine .andThen h (fun _ kind _ => type_takes kind) fun kind xs h => .takeIf_of_clear (clear_of_token h (by decide)) ?_
      exact .expect h fun _ ys h => h.eq_of_nil ▸ .pure
    | initialised =>
      refine .peek h (.take h fun t vs h => .peek h (.take h fun _ ws h => ?_))
      refine .andThen h (fun _ kind _ => type_takes kind) fun kind xs h => .takeIf h fun eq ys h => ?_
      exact takes_closed h _
    | assignVariable =>
      exact .peek h (.take h fun t vs h => .peek h (.take h fun eq ws h => takes_closed h _))
    | assignElement =>
      refine .peek h (.take h fun t vs h => .peek h (.take h fun _ ws h => ?_))
      refine takes_expression h (by decide) fun index xs h => .expect h fun _ ys h => .expect h fun eq zs h => ?_
      exact takes_closed h _
    | callStatement =>
      obtain ⟨ws, call, semi⟩ := h.uncons
      obtain ⟨_, p, call⟩ := call.production
      have h := call.append semi
      cases p with
      | call hk =>
        simp only [calleeKinds, List.mem_cons, List.not_mem_nil, or_false] at hk
        rcases hk with rfl | rfl
        · refine .peek h (.take h fun t vs h => .peek h (.take h fun _ xs h => ?_))
          refine .andThen h (fun _ args _ => arguments_takes n args (by decide) (by decide) (by decide)) fun args ys h => ?_
          exact .expect h fun _ zs h => h.eq_of_nil ▸ .pure
        · refine .peek h (.take h fun t vs h => .expect h fun _ xs h => ?_)
          refine .andThen h (fun _ args _ => arguments_takes n args (by decide) (by decide) (by decide)) fun args ys h => ?_
          exact .expect h fun _ zs h => h.eq_of_nil ▸ .pure
      | length =>
        refine .peek h (.take h fun t vs h => .expect h fun _ xs h => takes_expression h (by decide) fun e ys h => ?_)
        exact .expect h fun _ zs h => .expect h fun _ vs h => h.eq_of_nil ▸ .pure
    | retNothing => exact .peek h (.take h fun t vs h => .takeIf h fun _ ws h => h.eq_of_nil ▸ .pure)
    | retValue =>
      refine .peek h (.take h fun t vs h => ?_)
      obtain ⟨ws, e, -⟩ := h.uncons
      exact .takeIf_of_clear (clear_of_expression e (by decide)) (takes_closed h _)
    | branch b' =>
      refine .peek h (.take h fun t vs h => .andThen h (fun _ e _ => condition_takes n e) fun e ws h => ?_)
      refine .bind (statement_takes n h fun _ => hu rfl) fun yes => .takeIf_of_clear (hu rfl) .pure
    | branchElse b =>
      refine .peek h (.take h fun t vs h => .andThen h (fun _ e _ => condition_takes n e) fun e ws h => ?_)
      refine .andThen h (fun _ yes _ => statement_takes n yes nofun) fun yes xs h => .takeIf h fun _ ys h => ?_
      exact .bind (statement_takes n h hu) fun no => .pure
    | forLoop =>
      refine .peek h (.take h fun t vs h => .expect h fun _ ws h => .expect h fun var xs h => .expect h fun _ ys h => ?_)
      refine takes_expression h (by decide) fun start vs h => .expect h fun _ ws h => ?_
      refine takes_expression h (by decide) fun stop vs h => .expect h fun _ ws h => .expect h fun _ xs h => ?_
      refine .andThen h (fun _ ss rest => statements_takes n ss (closing_of_token rest (by decide))) fun ss ys h => ?_
      exact .expect h fun _ zs h => h.eq_of_nil ▸ .pure
    | whileLoop b =>
      refine .peek h (.take h fun t vs h => .andThen h (fun _ e _ => condition_takes n e) fun e ws h => ?_)
      exact .bind (statement_takes n h hu) fun body => .pure
    | doLoop b =>
      refine .peek h (.take h fun t vs h => ?_)
      refine .andThen h (fun _ body rest => statement_takes n body fun _ => clear_of_token rest (by decide)) fun body ws h => ?_
      refine .expect h fun _ xs h => .andThen h (fun _ e _ => condition_takes n e) fun e ys h => ?_
      exact .expect h fun _ zs h => h.eq_of_nil ▸ .pure
    | beginEnd =>
      refine .peek h (.take h fun t vs h => ?_)
      refine .andThen h (fun _ ss rest => statements_takes n ss (closing_of_token rest (by decide))) fun ss ws h => ?_
      exact .expect h fun _ xs h => h.eq_of_nil ▸ .pure
    | functionStatement =>
      obtain ⟨_, p, inner⟩ := h.production
      cases p <;> exact .peek inner (function_takes n h)

theorem statements_takes : ∀ (n : Nat) {ts us : List Token}, Reads [.phrase .statements] ts us → Closing us →
    Takes (statements n) ts us
  | 0, _, _, _, _ => by
    rw [statements]
    exact .spent
  | n + 1, ts, us, h, hu => by
    rw [statements]
    refine takes_list h hu fun b vs s ss => ?_
    refine .bind (statement_takes n s fun _ => clear_of_statements ss hu.clear) fun s => ?_
    exact .bind (noteFirst_takes s vs) fun _ => .bind (moreStatements_takes n ss hu) fun _ => .pure

theorem moreStatements_takes : ∀ (n : Nat) {ts us : List Token}, Reads [.phrase .statements] ts us → Closing us →
    Takes (moreStatements n) ts us
  | 0, _, _, _, _ => by
    rw [moreStatements]
    exact .spent
  | n + 1, ts, us, h, hu => by
    rw [moreStatements]
    refine takes_list h hu fun b vs s ss => ?_
    refine .bind (statement_takes n s fun _ => clear_of_statements ss hu.clear) fun s => ?_
    exact .bind (moreStatements_takes n ss hu) fun _ => .pure

theorem function_takes : ∀ (n : Nat) {ts us : List Token}, Reads [.phrase .function] ts us → Takes (function n) ts us
  | 0, _, _, _ => by
    rw [function]
    exact .spent
  | n + 1, ts, us, h => by
    obtain ⟨_, p, h⟩ := h.production
    rw [function]
    cases p with
    | block =>
      refine .expect h fun t vs h => .expect h fun name ws h => .expect h fun _ xs h => ?_
      refine .andThen h (fun _ ps _ => parameters_takes n ps) fun ps ys h => .expect h fun _ zs h => ?_
      refine .andThen h (fun _ kind _ => type_takes kind) fun kind vs h => .expect h fun _ ws h => ?_
      refine .takeIf_of_clear (clear_of_token h (by decide)) (.expect h fun _ xs h => ?_)
      refine .andThen h (fun _ ss rest => statements_takes n ss (closing_of_token rest (by decide))) fun ss ys h => ?_
      exact .expect h fun _ zs h => h.eq_of_nil ▸ .pure
    | arrow =>
      refine .expect h fun t vs h => .expect h fun name ws h => .expect h fun _ xs h => ?_
      refine .andThen h (fun _ ps _ => parameters_takes n ps) fun ps ys h => .expect h fun _ zs h => ?_
      refine .andThen h (fun _ kind _ => type_takes kind) fun kind vs h => .expect h fun _ ws h => ?_
      refine .takeIf h fun _ xs h => .expect h fun ret ys h => takes_expression h (by decide) fun e zs h => ?_
      refine .expect h fun _ vs h => ?_
      obtain rfl := h.eq_of_nil
      split
      · exact .pure
      · exact .pure

end

theorem moreFunctions_takes : ∀ (n : Nat) {ts : List Token}, Reads [.phrase .moreFunctions] ts [] →
    Takes (moreFunctions n) ts []
  | 0, _, _ => .spent
  | n + 1, ts, h => by
    obtain ⟨_, p, h⟩ := h.production
    rw [moreFunctions]
    cases p with
    | noFunction =>
      obtain rfl := h.eq_of_nil
      exact fun _ => rfl
    | nextFunction =>
      obtain ⟨vs, f, fs⟩ := h.uncons
      have step : Takes (do
          let f ← function n
          let fs ← moreFunctions n
          pure (f :: fs)) ts [] := .bind (function_takes n f) fun f => .bind (moreFunctions_takes n fs) fun fs => .pure
      obtain ⟨_, p, f⟩ := f.production
      cases p <;> exact .peek (f.append fs) step

/-- **A sentence is never refused.** -/
theorem program_takes (n : Nat) {ts : List Token} (h : Sentence ts) : Takes (program n) ts [] := by
  obtain ⟨_, ⟨⟩, h⟩ := h.reads.production
  obtain ⟨vs, f, fs⟩ := h.uncons
  exact .bind (function_takes n f) fun f => .bind (moreFunctions_takes n fs) fun fs => .pure

end TesLang.Parser
