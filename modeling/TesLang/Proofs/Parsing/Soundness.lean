import TesLang.Proofs.Parsing.Derivation
import TesLang.Proofs.Parsing.Outcome
/-!
# The parser derives what it reads

Each parser of the grammar makes a phrase of the grammar, with what it makes for a value; and where it gets stuck, what it
has read can be completed to one.  So what a whole program is read from is derived from the grammar (`program_leads`),
and the tree is what the actions of the grammar make of the derivation (`derivation_of_parse`).
-/
namespace TesLang

namespace Parser

open Grammar

/-! ### Expressions -/

/-- A list that may be missing, and the bracket behind it. -/
def Listed (list : List Node → List Token → List Token → Prop) (close : Kind) (xs : List Node) (ts us : List Token) : Prop :=
  ∃ c : Token, c.kind = close ∧ ((xs = [] ∧ ts = c :: us) ∨ (xs ≠ [] ∧ list xs ts (c :: us)))

theorem mem_binaryKinds {k : Kind} {l : Nat} (h : level? k = some l) : k ∈ binaryKinds := by
  cases k <;> first | decide | cases h

theorem text_of_kind {t : Token} {k : Kind} {w : String} (h : t.Spelled) (hk : t.kind = k)
    (table : ∀ e ∈ keywords ++ symbols, e.2 = k → e.1 = w) (fixed : k ≠ .number ∧ k ≠ .string ∧ k ≠ .id) : t.text = w := by
  subst hk
  rcases h with h | h | ⟨h, -⟩ | h
  · exact (fixed.1 h).elim
  · exact (fixed.2.1 h).elim
  · exact (fixed.2.2 h).elim
  · exact table _ h rfl

theorem text_ne_length {t : Token} {k : Kind} (h : t.Spelled) (ht : t.kind = k) (hk : k ∈ calleeKinds) : t.text ≠ "length" := by
  have key : keywords.lookup "length" = some .lengthKw := by decide
  have print : ∀ e ∈ keywords ++ symbols, e.2 = .printKw → e.1 = "print" := by decide
  rcases List.mem_cons.1 hk with rfl | hk
  · rcases h with h | h | ⟨-, -, h⟩ | h
    · rw [ht] at h; cases h
    · rw [ht] at h; cases h
    · intro e
      rw [e, key] at h
      cases h
    · have none : ∀ e ∈ keywords ++ symbols, e.2 ≠ .id := by decide
      exact (none _ h ht).elim
  · obtain rfl := List.mem_singleton.1 hk
    rw [text_of_kind h ht print (by decide)]
    decide

section
variable {t p c : Token} {us vs : List Token}

theorem call_halfway {k : Kind} (hk : k ∈ calleeKinds) (ht : t.kind = k) (hp : p.kind = .leftParen) :
    Halfway .call (t :: p :: us) us [.phrase .arguments, .token .rightParen] fun x => .call t.text x.1 t.line := by
  have item : Halfway .call (t :: p :: us) (p :: us) [.token .leftParen, .phrase .arguments, .token .rightParen]
      fun x => .call t.text x.2.1 t.line :=
    (Halfway.start (.call k hk) (t :: p :: us)).token ht fun spelled _ => if_neg (text_ne_length spelled ht hk)
  exact item.next (spans_token hp us)

theorem spans_call {k : Kind} (hk : k ∈ calleeKinds) (ht : t.kind = k) (hp : p.kind = .leftParen) {args : List Node}
    (h : Listed (Spans (.phrase .arguments)) .rightParen args us vs) :
    Spans (.phrase .call) (.call t.text args t.line) (t :: p :: us) vs := by
  obtain ⟨c, hc, ⟨rfl, rfl⟩ | ⟨-, h⟩⟩ := h
  · have item := (Halfway.start (.callNoArguments k hk) (t :: p :: c :: vs)).next (spans_token ht _)
    exact ((item.next (spans_token hp _)).next (spans_token hc vs)).done
  · exact (((call_halfway hk ht hp).next h).next (spans_token hc vs)).done

theorem length_halfway (ht : t.kind = .lengthKw) (hp : p.kind = .leftParen) :
    Halfway .call (t :: p :: us) us [.phrase .expression, .token .rightParen] fun x => .call t.text [x.1] t.line := by
  have length : ∀ e ∈ keywords ++ symbols, e.2 = .lengthKw → e.1 = "length" := by decide
  have item : Halfway .call (t :: p :: us) (p :: us) [.token .leftParen, .phrase .expression, .token .rightParen]
      fun x => .call t.text [x.2.1] t.line :=
    (Halfway.start .length (t :: p :: us)).token ht fun spelled _ => by rw [text_of_kind spelled ht length (by decide)]; rfl
  exact item.next (spans_token hp us)

end

mutual

theorem expression_leads : ∀ (n least : Nat) (ts : List Token), Leads True (expression n least) ts
    (Spans (.phrase .expression) · ts) (Begins (.phrase .expression) ts)
  | 0, _, _ => by rw [expression]; exact .spent trivial
  | n + 1, least, ts => by
    rw [expression]
    exact .andThen (operand_leads n ts) (fun _ hb => hb) fun left us hl => chain_leads n least left hl

theorem chain_leads : ∀ (n least : Nat) (left : Node) {ts us : List Token}, Spans (.phrase .expression) left ts us →
    Leads True (chain n least left) us (Spans (.phrase .expression) · ts) (Begins (.phrase .expression) ts)
  | 0, _, _, _, _, _ => by rw [chain]; exact .spent trivial
  | n + 1, least, left, ts, us, h => by
    rw [chain]
    refine .takeOperator (fun t vs l hu hl _ => ?_) fun _ => .pure h
    subst hu
    have item := ((Halfway.start (.binary t.kind (mem_binaryKinds hl)) ts).next h).next (spans_token rfl vs)
    exact .andThen (expression_leads n (l + 1) vs) (fun _ hb => item.within hb) fun right ws hr =>
      chain_leads n least _ (item.next hr).done

theorem operand_leads : ∀ (n : Nat) (ts : List Token), Leads True (operand n) ts (Spans (.phrase .expression) · ts)
    (Begins (.phrase .expression) ts)
  | 0, _ => by rw [operand]; exact .spent trivial
  | n + 1, ts => by
    rw [operand]
    have signed {k : Kind} (hk : k ∈ unaryKinds) (head : ts.head?.map (·.kind) = some k) : Leads True (do
        let t ← take
        let e ← operand n
        pure (.unary t.text e t.line)) ts (Spans (.phrase .expression) · ts) (Begins (.phrase .expression) ts) := by
      obtain ⟨t, us, rfl, ht⟩ := exists_of_head head
      have item := (Halfway.start (.unary k hk) (t :: us)).next (spans_token ht us)
      exact .take (.andThen (operand_leads n us) (fun _ hb => item.within hb) fun e vs he => .pure (item.next he).done)
    refine .peek fun k hk => ?_
    split
    · exact signed (by decide) hk
    · exact signed (by decide) hk
    · exact signed (by decide) hk
    · refine .andThen (atom_leads n ts) (fun _ hb => hb) fun condition us hc => ?_
      refine .takeIf (fun q vs hu hq => ?_) fun _ => .pure hc
      subst hu
      have item := ((Halfway.start .ternary ts).next hc).next (spans_token hq vs)
      refine .andThen (expression_leads n 0 vs) (fun _ hb => item.within hb) fun yes ws hy => ?_
      have item := item.next hy
      refine .expect item.begins fun c ws' hw hc => ?_
      subst hw
      have item := item.next (spans_token hc ws')
      exact .andThen (operand_leads n ws') (fun _ hb => item.within hb) fun no ws hn => .pure (item.next hn).done

theorem atom_leads : ∀ (n : Nat) (ts : List Token), Leads True (atom n) ts (Spans (.phrase .expression) · ts)
    (Begins (.phrase .expression) ts)
  | 0, _ => by rw [atom]; exact .spent trivial
  | n + 1, ts => by
    rw [atom]
    refine .peek fun k head => ?_
    split
    case h_1 =>
      obtain ⟨t, us, rfl, ht⟩ := exists_of_head head
      exact .take (.pure ((Halfway.start .number (t :: us)).next (spans_token ht us)).done)
    case h_2 =>
      obtain ⟨t, us, rfl, ht⟩ := exists_of_head head
      have item := (Halfway.start (.string .string (by decide)) (t :: us)).next (spans_token ht us)
      exact .take (.pure item.done)
    case h_3 =>
      obtain ⟨t, us, rfl, ht⟩ := exists_of_head head
      have item := (Halfway.start (.string .mstring (by decide)) (t :: us)).next (spans_token ht us)
      exact .take (.pure item.done)
    case h_4 =>
      obtain ⟨t, us, rfl, ht⟩ := exists_of_head head
      have item := (Halfway.start (.boolean .trueKw (by decide)) (t :: us)).next (spans_token ht us)
      exact .take (.pure item.done)
    case h_5 =>
      obtain ⟨t, us, rfl, ht⟩ := exists_of_head head
      have item := (Halfway.start (.boolean .falseKw (by decide)) (t :: us)).next (spans_token ht us)
      exact .take (.pure item.done)
    case h_6 =>
      obtain ⟨t, us, rfl, ht⟩ := exists_of_head head
      have item := (Halfway.start .group (t :: us)).next (spans_token ht us)
      refine .take (.andThen (expression_leads n 0 us) (fun _ hb => item.within hb) fun e vs he => ?_)
      have item := item.next he
      refine .expect item.begins fun c ws hw hc => .pure ?_
      subst hw
      exact (item.next (spans_token hc ws)).done
    case h_7 =>
      obtain ⟨t, us, rfl, ht⟩ := exists_of_head head
      have item := (Halfway.start .array (t :: us)).next (spans_token ht us)
      refine .take (.andThen (arguments_leads n _ us) (fun _ hb => item.within hb) fun es vs ⟨c, hc, hes⟩ => .pure ?_)
      rcases hes with ⟨rfl, rfl⟩ | ⟨-, hes⟩
      · exact (((Halfway.start .arrayEmpty (t :: c :: vs)).next (spans_token ht _)).next (spans_token hc vs)).done
      · exact ((item.next hes).next (spans_token hc vs)).done
    case h_8 =>
      obtain ⟨t, us, rfl, ht⟩ := exists_of_head head
      have whole := Halfway.start .callExpression (t :: us)
      have item := (Halfway.start (.call .printKw (by decide)) (t :: us)).next (spans_token ht us)
      refine .take (.expect (whole.within item.begins) fun p vs hu hp => ?_)
      subst hu
      have item : Halfway .call _ vs _ _ := call_halfway (by decide) ht hp
      refine .andThen (arguments_leads n _ vs) (fun _ hb => whole.within (item.within hb)) fun es ws hes => .pure ?_
      exact (whole.next (spans_call (by decide) ht hp hes)).done
    case h_9 =>
      obtain ⟨t, us, rfl, ht⟩ := exists_of_head head
      have whole := Halfway.start .callExpression (t :: us)
      have item := (Halfway.start .length (t :: us)).next (spans_token ht us)
      refine .take (.expect (whole.within item.begins) fun p vs hu hp => ?_)
      subst hu
      have item : Halfway .call _ vs _ _ := length_halfway ht hp
      refine .andThen (expression_leads n 0 vs) (fun _ hb => whole.within (item.within hb)) fun e ws he => ?_
      have item := item.next he
      refine .expect (whole.within item.begins) fun c ws' hw hc => .pure ?_
      subst hw
      exact (whole.next (item.next (spans_token hc ws')).done).done
    case h_10 =>
      obtain ⟨t, us, rfl, ht⟩ := exists_of_head head
      refine .take (.peek fun k head => ?_)
      split
      · obtain ⟨p, vs, rfl, hp⟩ := exists_of_head head
        have whole := Halfway.start .callExpression (t :: p :: vs)
        have item : Halfway .call _ vs _ _ := call_halfway (by decide) ht hp
        refine .take (.andThen (arguments_leads n _ vs) (fun _ hb => whole.within (item.within hb)) fun es ws hes => .pure ?_)
        exact (whole.next (spans_call (by decide) ht hp hes)).done
      · obtain ⟨b, vs, rfl, hb⟩ := exists_of_head head
        have whole := Halfway.start .elementExpression (t :: b :: vs)
        have item := ((Halfway.start .element (t :: b :: vs)).next (spans_token ht _)).next (spans_token hb vs)
        refine .take (.andThen (expression_leads n 0 vs) (fun _ hb => whole.within (item.within hb)) fun e ws he => ?_)
        have item := item.next he
        refine .expect (whole.within item.begins) fun c ws' hw hc => .pure ?_
        subst hw
        exact (whole.next (item.next (spans_token hc ws')).done).done
      · exact .pure ((Halfway.start .identifier (t :: us)).next (spans_token ht us)).done
    case h_11 => exact .stuck (Halfway.start .number ts).begins

theorem arguments_leads : ∀ (n : Nat) (close : Kind) (ts : List Token), Leads True (arguments n close) ts
    (Listed (Spans (.phrase .arguments)) close · ts) (Begins (.phrase .arguments) ts)
  | 0, _, _ => by rw [arguments]; exact .spent trivial
  | n + 1, close, ts => by
    rw [arguments]
    have item := Halfway.start .argumentsOne ts
    refine .takeIf (fun c us hu hc => .pure ⟨c, hc, .inl ⟨rfl, hu⟩⟩) fun _ => ?_
    refine .andThen (expression_leads n 0 ts) (fun _ hb => item.within hb) fun e us he => ?_
    refine .andThen (moreArguments_leads n close (item.next he).done) (fun _ hb => hb) fun es vs ⟨c, hc, hes⟩ => .pure ?_
    exact ⟨c, hc, .inr ⟨List.cons_ne_nil e es, hes⟩⟩

theorem moreArguments_leads : ∀ (n : Nat) (close : Kind) {xs : List Node} {ts us : List Token},
    Spans (.phrase .arguments) xs ts us → Leads True (moreArguments n close) us
      (fun es vs => ∃ c : Token, c.kind = close ∧ Spans (.phrase .arguments) (xs ++ es) ts (c :: vs))
      (Begins (.phrase .arguments) ts)
  | 0, _, _, _, _, _ => by rw [moreArguments]; exact .spent trivial
  | n + 1, close, xs, ts, us, h => by
    rw [moreArguments]
    have item := (Halfway.start .argumentsMore ts).next h
    refine .takeIf (fun comma vs hu hc => ?_) fun _ => ?_
    · subst hu
      have item := item.next (spans_token hc vs)
      refine .andThen (expression_leads n 0 vs) (fun _ hb => item.within hb) fun e ws he => ?_
      refine .andThen (moreArguments_leads n close (item.next he).done) (fun _ hb => hb) fun es ws' ⟨c, hc, hes⟩ => .pure ?_
      refine ⟨c, hc, ?_⟩
      have same : xs ++ e :: es = (xs ++ [e]) ++ es := by simp
      rw [same]
      exact hes
    · refine .expect item.begins fun c vs hu hc => .pure ⟨c, hc, ?_⟩
      rw [List.append_nil, ← hu]
      exact h

end

/-! ### Types, parameters and conditions -/

theorem type_leads (ts : List Token) : Leads True type ts (Spans (.phrase .type) · ts) (Begins (.phrase .type) ts) := by
  have named {k : Kind} (hk : k ∈ typeKinds) (head : ts.head?.map (·.kind) = some k) : Leads True (do
      let t ← take
      pure t.text) ts (Spans (.phrase .type) · ts) (Begins (.phrase .type) ts) := by
    obtain ⟨t, us, rfl, ht⟩ := exists_of_head head
    exact .take (.pure ((Halfway.start (.type k hk) (t :: us)).next (spans_token ht us)).done)
  unfold type
  refine .peek fun k head => ?_
  split
  case h_7 => exact .stuck (Halfway.start (.type .intKw (by decide)) ts).begins
  all_goals exact named (by decide) head

theorem parameter_leads (ts : List Token) :
    Leads True parameter ts (Spans (.phrase .parameter) · ts) (Begins (.phrase .parameter) ts) := by
  have item := Halfway.start .parameter ts
  refine .expect item.begins fun t us hu ht => ?_
  subst hu
  have item := item.next (spans_token ht us)
  refine .expect item.begins fun a vs hv ha => ?_
  subst hv
  have item := item.next (spans_token ha vs)
  exact .andThen (type_leads vs) (fun _ hb => item.within hb) fun kind ws hk => .pure (item.next hk).done

theorem moreParameters_leads : ∀ (n : Nat) {xs : List Node} {ts us : List Token}, Spans (.phrase .parameters) xs ts us →
    Leads True (moreParameters n) us
      (fun ps vs => ∃ c : Token, c.kind = .rightParen ∧ Spans (.phrase .parameters) (xs ++ ps) ts (c :: vs))
      (Begins (.phrase .parameters) ts)
  | 0, _, _, _, _ => by rw [moreParameters]; exact .spent trivial
  | n + 1, xs, ts, us, h => by
    rw [moreParameters]
    have item := (Halfway.start .parametersMore ts).next h
    refine .takeIf (fun comma vs hu hc => ?_) fun _ => ?_
    · subst hu
      have item := item.next (spans_token hc vs)
      refine .andThen (parameter_leads vs) (fun _ hb => item.within hb) fun p ws hp => ?_
      refine .andThen (moreParameters_leads n (item.next hp).done) (fun _ hb => hb) fun ps ws' ⟨c, hc, hps⟩ => .pure ?_
      refine ⟨c, hc, ?_⟩
      have same : xs ++ p :: ps = (xs ++ [p]) ++ ps := by simp
      rw [same]
      exact hps
    · refine .expect item.begins fun c vs hu hc => .pure ⟨c, hc, ?_⟩
      rw [List.append_nil, ← hu]
      exact h

theorem parameters_leads (n : Nat) (ts : List Token) : Leads True (parameters n) ts
    (Listed (Spans (.phrase .parameters)) .rightParen · ts) (Begins (.phrase .parameters) ts) := by
  have item := Halfway.start .parametersOne ts
  refine .takeIf (fun c us hu hc => .pure ⟨c, hc, .inl ⟨rfl, hu⟩⟩) fun _ => ?_
  refine .andThen (parameter_leads ts) (fun _ hb => item.within hb) fun p us hp => ?_
  refine .andThen (moreParameters_leads n (item.next hp).done) (fun _ hb => hb) fun ps vs ⟨c, hc, hps⟩ => .pure ?_
  exact ⟨c, hc, .inr ⟨List.cons_ne_nil p ps, hps⟩⟩

/-- An expression between double brackets. -/
def Bracketed (e : Node) (ts us : List Token) : Prop :=
  ∃ (a b c d : Token) (inner : List Token), a.kind = .leftBracket ∧ b.kind = .leftBracket ∧ c.kind = .rightBracket ∧
    d.kind = .rightBracket ∧ ts = a :: b :: inner ∧ Spans (.phrase .expression) e inner (c :: d :: us)

abbrev conditionThen (is : List Item) : List Item :=
  .token .leftBracket :: .token .leftBracket :: .phrase .expression :: .token .rightBracket :: .token .rightBracket :: is

theorem halfway_bracketed {n : Nonterminal} {ts us vs : List Token} {is : List Item}
    {f : Values (conditionThen is) → n.Value} (h : Halfway n ts us (conditionThen is) f) {e : Node}
    (hb : Bracketed e us vs) : ∃ a b c d, Halfway n ts vs is fun x => f (a, b, e, c, d, x) := by
  obtain ⟨a, b, c, d, inner, ha, hb, hc, hd, rfl, he⟩ := hb
  have item := ((h.next (spans_token ha _)).next (spans_token hb _)).next he
  exact ⟨a, b, c, d, (item.next (spans_token hc _)).next (spans_token hd vs)⟩

theorem condition_leads (n : Nat) (ts : List Token) : Leads True (condition n) ts (Bracketed · ts) fun us =>
    ∀ {n : Nonterminal} {ts₀ : List Token} {is : List Item} {f : Values (conditionThen is) → n.Value},
      Halfway n ts₀ ts (conditionThen is) f → Begins (.phrase n) ts₀ us := by
  refine .expect (fun h => h.begins) fun a us hu ha => ?_
  subst hu
  refine .expect (fun h => (h.next (spans_token ha us)).begins) fun b vs hv hb => ?_
  subst hv
  refine .andThen (expression_leads n 0 vs)
    (fun _ he _ _ _ _ h => ((h.next (spans_token ha _)).next (spans_token hb vs)).within he) fun e ws he => ?_
  refine .expect (fun h => (((h.next (spans_token ha _)).next (spans_token hb vs)).next he).begins) fun c ws' hw hc => ?_
  subst hw
  refine .expect (fun h => ((((h.next (spans_token ha _)).next (spans_token hb vs)).next he).next
    (spans_token hc ws')).begins) fun d ws hw hd => .pure ?_
  subst hw
  exact ⟨a, b, c, d, vs, ha, hb, hc, hd, rfl, he⟩

/-! ### Statements and functions -/

theorem noteFirst_leads (first : Node) (ts : List Token) : Leads True (noteFirst first) ts (fun _ us => us = ts) fun _ => False := by
  cases first
  case function name _ _ _ _ =>
    refine .peek fun k _ => ?_
    cases k with
    | none => exact .pure rfl
    | some k =>
      dsimp only
      split
      · exact fun _ => rfl
      · exact .pure rfl
  all_goals exact .pure rfl

theorem named_leads (n : Nat) {t : Token} (ht : t.kind = .id) (ts : List Token) : Leads True (named n t) ts
    (Spans (.phrase .statement) · (t :: ts)) (Begins (.phrase .statement) (t :: ts)) := by
  unfold named
  refine .peek fun k head => ?_
  split
  case h_1 =>
    obtain ⟨c, us, rfl, hc⟩ := exists_of_head head
    have whole := Halfway.start .declarationStatement (t :: c :: us)
    have plain := ((Halfway.start .declaration (t :: c :: us)).next (spans_token ht _)).next (spans_token hc us)
    have initial := ((Halfway.start .initialised (t :: c :: us)).next (spans_token ht _)).next (spans_token hc us)
    refine .take (.andThen (type_leads us) (fun _ hb => whole.within (plain.within hb)) fun kind vs hk => ?_)
    have plain := plain.next hk
    have initial := initial.next hk
    refine .takeIf (fun eq ws hv hq => ?_) fun _ => ?_
    · subst hv
      have initial := initial.next (spans_token hq ws)
      refine .andThen (expression_leads n 0 ws) (fun _ hb => whole.within (initial.within hb)) fun e xs he => ?_
      have initial := initial.next he
      refine .expect (whole.within initial.begins) fun semi xs' hx hs => .pure ?_
      subst hx
      exact (whole.next (initial.next (spans_token hs xs')).done).done
    · refine .expect (whole.within plain.begins) fun semi ws hv hs => .pure ?_
      subst hv
      exact (whole.next (plain.next (spans_token hs ws)).done).done
  case h_2 =>
    obtain ⟨eq, us, rfl, hq⟩ := exists_of_head head
    have whole := Halfway.start .assignmentStatement (t :: eq :: us)
    have item := ((Halfway.start .assignVariable (t :: eq :: us)).next (spans_token ht _)).next (spans_token hq us)
    refine .take (.andThen (expression_leads n 0 us) (fun _ hb => whole.within (item.within hb)) fun e vs he => ?_)
    have item := item.next he
    refine .expect (whole.within item.begins) fun semi ws hv hs => .pure ?_
    subst hv
    exact (whole.next (item.next (spans_token hs ws)).done).done
  case h_3 =>
    obtain ⟨b, us, rfl, hb⟩ := exists_of_head head
    have whole := Halfway.start .assignmentStatement (t :: b :: us)
    have item := Halfway.start .assignElement (t :: b :: us)
    have inner := ((Halfway.start .element (t :: b :: us)).next (spans_token ht _)).next (spans_token hb us)
    refine .take (.andThen (expression_leads n 0 us) (fun _ hb => whole.within (item.within (inner.within hb)))
      fun index vs hi => ?_)
    have inner := inner.next hi
    refine .expect (whole.within (item.within inner.begins)) fun c ws hv hc => ?_
    subst hv
    have item := item.next (inner.next (spans_token hc ws)).done
    refine .expect (whole.within item.begins) fun eq xs hw hq => ?_
    subst hw
    have item := item.next (spans_token hq xs)
    refine .andThen (expression_leads n 0 xs) (fun _ hb => whole.within (item.within hb)) fun e ys he => ?_
    have item := item.next he
    refine .expect (whole.within item.begins) fun semi zs hy hs => .pure ?_
    subst hy
    exact (whole.next (item.next (spans_token hs zs)).done).done
  case h_4 =>
    obtain ⟨p, us, rfl, hp⟩ := exists_of_head head
    have whole := Halfway.start .callStatement (t :: p :: us)
    have item := Halfway.start .callThen (t :: p :: us)
    have inner : Halfway .call _ us _ _ := call_halfway (by decide) ht hp
    refine .take (.andThen (arguments_leads n _ us) (fun _ hb => whole.within (item.within (inner.within hb)))
      fun es vs hes => ?_)
    have item := item.next (spans_call (by decide) ht hp hes)
    refine .expect (whole.within item.begins) fun semi ws hv hs => .pure ?_
    subst hv
    exact (whole.next (item.next (spans_token hs ws)).done).done
  case h_5 =>
    have item := (Halfway.start .assignVariable (t :: ts)).next (spans_token ht ts)
    exact .stuck ((Halfway.start .assignmentStatement (t :: ts)).within item.begins)

/-- The head of a function has been read up to the parenthesis behind its parameters, if it has any.  Both forms of a
function may follow. -/
theorem heads_halfway {t name p : Token} {ts us : List Token} {ps : List Node} (ht : t.kind = .funkKw) (hn : name.kind = .id)
    (hp : p.kind = .leftParen) (hps : Listed (Spans (.phrase .parameters)) .rightParen ps ts us) :
    Halfway .function (t :: name :: p :: ts) us
        [.token .less, .phrase .type, .token .greater, .token .leftBrace, .phrase .statements, .token .rightBrace]
        (fun x => .function name.text (.several ps) x.2.1 (.several x.2.2.2.2.1) t.line) ∧
      Halfway .function (t :: name :: p :: ts) us
        [.token .less, .phrase .type, .token .greater, .token .arrow, .token .returnKw, .phrase .expression, .token .semicolon]
        (fun x => if ps.isEmpty then .function name.text (.text ")") x.2.2.1.text x.2.2.2.2.2.1 t.line
          else .function name.text (.several ps) x.2.1 (.several [.ret x.2.2.2.2.2.1 x.2.2.2.2.1.line]) t.line) := by
  have upTo {is : List Item} (r : Rule .function (.token .funkKw :: .token .id :: .token .leftParen :: is)) :
      Halfway .function (t :: name :: p :: ts) ts is fun x => r.action (t, name, p, x) :=
    (((Halfway.start r _).next (spans_token ht _)).next (spans_token hn _)).next (spans_token hp ts)
  obtain ⟨c, hc, ⟨rfl, rfl⟩ | ⟨hne, hps⟩⟩ := hps
  · refine ⟨(upTo .blockNoParameters).next (spans_token hc us), (upTo .arrowNoParameters).token hc fun spelled _ => ?_⟩
    have close : c.text = ")" := text_of_kind spelled hc (by decide) (by decide)
    show Node.function name.text (.text c.text) _ _ t.line = _
    rw [close]
    rfl
  · have filled : ps.isEmpty = false := List.isEmpty_eq_false_iff.2 hne
    refine ⟨((upTo .block).next hps).next (spans_token hc us), ((upTo .arrow).next hps).token hc fun _ _ => ?_⟩
    rw [filled]
    rfl

mutual

theorem statement_leads : ∀ (n : Nat) (ts : List Token), Leads True (statement n) ts (Spans (.phrase .statement) · ts)
    (Begins (.phrase .statement) ts)
  | 0, _ => by rw [statement]; exact .spent trivial
  | n + 1, ts => by
    rw [statement]
    refine .peek fun k head => ?_
    split
    case h_1 =>
      obtain ⟨t, us, rfl, ht⟩ := exists_of_head head
      exact .take (named_leads n ht us)
    case h_2 =>
      obtain ⟨t, us, rfl, ht⟩ := exists_of_head head
      have whole := Halfway.start .callStatement (t :: us)
      have item := Halfway.start .callThen (t :: us)
      have inner := (Halfway.start (.call .printKw (by decide)) (t :: us)).next (spans_token ht us)
      refine .take (.expect (whole.within (item.within inner.begins)) fun p vs hu hp => ?_)
      subst hu
      have inner : Halfway .call _ vs _ _ := call_halfway (by decide) ht hp
      refine .andThen (arguments_leads n _ vs) (fun _ hb => whole.within (item.within (inner.within hb))) fun es ws hes => ?_
      have item := item.next (spans_call (by decide) ht hp hes)
      refine .expect (whole.within item.begins) fun semi xs hw hs => .pure ?_
      subst hw
      exact (whole.next (item.next (spans_token hs xs)).done).done
    case h_3 =>
      obtain ⟨t, us, rfl, ht⟩ := exists_of_head head
      have whole := Halfway.start .callStatement (t :: us)
      have item := Halfway.start .callThen (t :: us)
      have inner := (Halfway.start .length (t :: us)).next (spans_token ht us)
      refine .take (.expect (whole.within (item.within inner.begins)) fun p vs hu hp => ?_)
      subst hu
      have inner : Halfway .call _ vs _ _ := length_halfway ht hp
      refine .andThen (expression_leads n 0 vs) (fun _ hb => whole.within (item.within (inner.within hb))) fun e ws he => ?_
      have inner := inner.next he
      refine .expect (whole.within (item.within inner.begins)) fun c xs hw hc => ?_
      subst hw
      have item := item.next (inner.next (spans_token hc xs)).done
      refine .expect (whole.within item.begins) fun semi ys hx hs => .pure ?_
      subst hx
      exact (whole.next (item.next (spans_token hs ys)).done).done
    case h_4 =>
      obtain ⟨t, us, rfl, ht⟩ := exists_of_head head
      have whole := Halfway.start .retStatement (t :: us)
      have item := (Halfway.start .retValue (t :: us)).next (spans_token ht us)
      refine .take (.takeIf (fun semi vs hu hs => .pure ?_) fun _ => ?_)
      · subst hu
        have item := (Halfway.start .retNothing (t :: semi :: vs)).next (spans_token ht _)
        exact (whole.next (item.next (spans_token hs vs)).done).done
      · refine .andThen (expression_leads n 0 us) (fun _ hb => whole.within (item.within hb)) fun e vs he => ?_
        have item := item.next he
        refine .expect (whole.within item.begins) fun semi ws hv hs => .pure ?_
        subst hv
        exact (whole.next (item.next (spans_token hs ws)).done).done
    case h_5 =>
      obtain ⟨t, us, rfl, ht⟩ := exists_of_head head
      have whole := Halfway.start .branchStatement (t :: us)
      have short := (Halfway.start .branch (t :: us)).next (spans_token ht us)
      have long := (Halfway.start .branchElse (t :: us)).next (spans_token ht us)
      refine .take (.andThen (condition_leads n us) (fun _ hb => whole.within (hb short)) fun e vs he => ?_)
      obtain ⟨_, _, _, _, short⟩ := halfway_bracketed short he
      obtain ⟨_, _, _, _, long⟩ := halfway_bracketed long he
      refine .andThen (statement_leads n vs) (fun _ hb => whole.within (short.within hb)) fun yes ws hy => ?_
      refine .takeIf (fun el xs hw hl => ?_) fun _ => .pure (whole.next (short.next hy).done).done
      subst hw
      have long := (long.next hy).next (spans_token hl xs)
      exact .andThen (statement_leads n xs) (fun _ hb => whole.within (long.within hb)) fun no ys hn =>
        .pure (whole.next (long.next hn).done).done
    case h_6 =>
      obtain ⟨t, us, rfl, ht⟩ := exists_of_head head
      have whole := Halfway.start .forStatement (t :: us)
      have item := (Halfway.start .forLoop (t :: us)).next (spans_token ht us)
      refine .take (.expect (whole.within item.begins) fun p us₁ h₁ hp => ?_)
      subst h₁
      have item := item.next (spans_token hp us₁)
      refine .expect (whole.within item.begins) fun var us₂ h₂ hv => ?_
      subst h₂
      have item := item.next (spans_token hv us₂)
      refine .expect (whole.within item.begins) fun eq us₃ h₃ hq => ?_
      subst h₃
      have item := item.next (spans_token hq us₃)
      refine .andThen (expression_leads n 0 us₃) (fun _ hb => whole.within (item.within hb)) fun start us₄ ha => ?_
      have item := item.next ha
      refine .expect (whole.within item.begins) fun upto us₅ h₅ ho => ?_
      subst h₅
      have item := item.next (spans_token ho us₅)
      refine .andThen (expression_leads n 0 us₅) (fun _ hb => whole.within (item.within hb)) fun stop us₆ hz => ?_
      have item := item.next hz
      refine .expect (whole.within item.begins) fun c us₇ h₇ hc => ?_
      subst h₇
      have item := item.next (spans_token hc us₇)
      refine .expect (whole.within item.begins) fun b us₈ h₈ hb => ?_
      subst h₈
      have item := item.next (spans_token hb us₈)
      refine .andThen (statements_leads n us₈) (fun _ hb => whole.within (item.within hb)) fun ss us₉ hss => ?_
      have item := item.next hss
      refine .expect (whole.within item.begins) fun e us₁₀ h₁₀ he => .pure ?_
      subst h₁₀
      exact (whole.next (item.next (spans_token he us₁₀)).done).done
    case h_7 =>
      obtain ⟨t, us, rfl, ht⟩ := exists_of_head head
      have whole := Halfway.start .whileStatement (t :: us)
      have item := (Halfway.start .whileLoop (t :: us)).next (spans_token ht us)
      refine .take (.andThen (condition_leads n us) (fun _ hb => whole.within (hb item)) fun e vs he => ?_)
      obtain ⟨_, _, _, _, item⟩ := halfway_bracketed item he
      exact .andThen (statement_leads n vs) (fun _ hb => whole.within (item.within hb)) fun body ws hb =>
        .pure (whole.next (item.next hb).done).done
    case h_8 =>
      obtain ⟨t, us, rfl, ht⟩ := exists_of_head head
      have whole := Halfway.start .doStatement (t :: us)
      have item := (Halfway.start .doLoop (t :: us)).next (spans_token ht us)
      refine .take (.andThen (statement_leads n us) (fun _ hb => whole.within (item.within hb)) fun body vs hb => ?_)
      have item := item.next hb
      refine .expect (whole.within item.begins) fun w ws hv hw => ?_
      subst hv
      have item := item.next (spans_token hw ws)
      refine .andThen (condition_leads n ws) (fun _ hb => whole.within (hb item)) fun e xs he => ?_
      obtain ⟨_, _, _, _, item⟩ := halfway_bracketed item he
      refine .expect (whole.within item.begins) fun semi ys hx hs => .pure ?_
      subst hx
      exact (whole.next (item.next (spans_token hs ys)).done).done
    case h_9 =>
      obtain ⟨t, us, rfl, ht⟩ := exists_of_head head
      have whole := Halfway.start .blockStatement (t :: us)
      have item := (Halfway.start .beginEnd (t :: us)).next (spans_token ht us)
      refine .take (.andThen (statements_leads n us) (fun _ hb => whole.within (item.within hb)) fun ss vs hss => ?_)
      have item := item.next hss
      refine .expect (whole.within item.begins) fun e ws hv he => .pure ?_
      subst hv
      exact (whole.next (item.next (spans_token he ws)).done).done
    case h_10 =>
      have whole := Halfway.start .functionStatement ts
      exact (function_leads n ts).mono (fun f us hf => (whole.next hf).done) fun us hb => whole.within hb
    case h_11 => exact .stuck (Halfway.start .retStatement ts).begins

theorem statements_leads : ∀ (n : Nat) (ts : List Token), Leads True (statements n) ts (Spans (.phrase .statements) · ts)
    (Begins (.phrase .statements) ts)
  | 0, _ => by rw [statements]; exact .spent trivial
  | n + 1, ts => by
    have none : Spans (.phrase .statements) [] ts ts :=
      ((Halfway.start .statementsNone ts).next (Halfway.start .empty ts).done).done
    have item := Halfway.start .statementsOne ts
    rw [statements]
    refine .peek fun k _ => ?_
    cases k with
    | none => exact .pure none
    | some k =>
      dsimp only
      split
      · refine .andThen (statement_leads n ts) (fun _ hb => item.within hb) fun s us hs => ?_
        refine .andThen (noteFirst_leads s us) (fun _ h => h.elim) fun _ vs hv => ?_
        subst hv
        exact .andThen (moreStatements_leads n (item.next hs).done) (fun _ hb => hb) fun ss ws hss => .pure hss
      · exact .pure none

theorem moreStatements_leads : ∀ (n : Nat) {xs : List Node} {ts us : List Token}, Spans (.phrase .statements) xs ts us →
    Leads True (moreStatements n) us (fun ss vs => Spans (.phrase .statements) (xs ++ ss) ts vs) (Begins (.phrase .statements) ts)
  | 0, _, _, _, _ => by rw [moreStatements]; exact .spent trivial
  | n + 1, xs, ts, us, h => by
    have item := (Halfway.start .statementsMore ts).next h
    rw [moreStatements]
    refine .peek fun k _ => ?_
    cases k with
    | none => exact .pure (by rw [List.append_nil]; exact h)
    | some k =>
      dsimp only
      split
      · refine .andThen (statement_leads n us) (fun _ hb => item.within hb) fun s vs hs => ?_
        refine .andThen (moreStatements_leads n (item.next hs).done) (fun _ hb => hb) fun ss ws hss => .pure ?_
        rw [← List.append_assoc]
        exact hss
      · exact .pure (by rw [List.append_nil]; exact h)

theorem function_leads : ∀ (n : Nat) (ts : List Token), Leads True (function n) ts (Spans (.phrase .function) · ts)
    (Begins (.phrase .function) ts)
  | 0, _ => by rw [function]; exact .spent trivial
  | n + 1, ts => by
    have item := Halfway.start .block ts
    rw [function]
    refine .expect item.begins fun t us₁ h₁ ht => ?_
    subst h₁
    have item := item.next (spans_token ht us₁)
    refine .expect item.begins fun name us₂ h₂ hn => ?_
    subst h₂
    have item := item.next (spans_token hn us₂)
    refine .expect item.begins fun p us₃ h₃ hp => ?_
    subst h₃
    have item := item.next (spans_token hp us₃)
    refine .andThen (parameters_leads n us₃) (fun _ hb => item.within hb) fun ps us₄ hps => ?_
    -- with or without parameters, the same parts are still to come
    obtain ⟨block, arrow⟩ := heads_halfway ht hn hp hps
    refine .expect block.begins fun l us₅ h₅ hl => ?_
    subst h₅
    have block := block.next (spans_token hl us₅)
    have arrow := arrow.next (spans_token hl us₅)
    refine .andThen (type_leads us₅) (fun _ hb => block.within hb) fun kind us₆ hk => ?_
    have block := block.next hk
    have arrow := arrow.next hk
    refine .expect block.begins fun g us₇ h₇ hg => ?_
    subst h₇
    have block := block.next (spans_token hg us₇)
    have arrow : Halfway .function _ us₇ [.token .arrow, .token .returnKw, .phrase .expression, .token .semicolon]
        fun x => if ps.isEmpty then .function name.text (.text ")") ">" x.2.2.1 t.line
          else .function name.text (.several ps) kind (.several [.ret x.2.2.1 x.2.1.line]) t.line :=
      arrow.token hg fun spelled _ => by
        have greater : g.text = ">" := text_of_kind spelled hg (by decide) (by decide)
        rw [← greater]
    refine .takeIf (fun a us₈ h₈ ha => ?_) fun _ => ?_
    · subst h₈
      have arrow := arrow.next (spans_token ha us₈)
      refine .expect arrow.begins fun ret us₉ h₉ hr => ?_
      subst h₉
      have arrow := arrow.next (spans_token hr us₉)
      refine .andThen (expression_leads n 0 us₉) (fun _ hb => arrow.within hb) fun e us₁₀ he => ?_
      have arrow := arrow.next he
      refine .expect arrow.begins fun semi us₁₁ h₁₁ hs => ?_
      subst h₁₁
      have arrow := (arrow.next (spans_token hs us₁₁)).done
      dsimp only at arrow
      split
      · next hps => exact .pure (by rw [if_pos hps] at arrow; exact arrow)
      · next hps => exact .pure (by rw [if_neg hps] at arrow; exact arrow)
    · refine .expect block.begins fun b us₈ h₈ hb => ?_
      subst h₈
      have block := block.next (spans_token hb us₈)
      refine .andThen (statements_leads n us₈) (fun _ hb => block.within hb) fun ss us₉ hss => ?_
      have block := block.next hss
      refine .expect block.begins fun e us₁₀ h₁₀ he => .pure ?_
      subst h₁₀
      exact (block.next (spans_token he us₁₀)).done

end

/-! ### Programs -/

theorem moreFunctions_leads : ∀ (n : Nat) {xs : List Node} {ts us : List Token}, Spans (.phrase .functions) xs ts us →
    Leads True (moreFunctions n) us (fun fs vs => vs = [] ∧ Spans (.phrase .functions) (xs ++ fs) ts vs)
      (Begins (.phrase .functions) ts)
  | 0, _, _, _, _ => by rw [moreFunctions]; exact .spent trivial
  | n + 1, xs, ts, us, h => by
    have item := (Halfway.start .functionsMore ts).next h
    rw [moreFunctions]
    refine .peek fun k _ => ?_
    split
    · refine .andThen (function_leads n us) (fun _ hb => item.within hb) fun f vs hf => ?_
      refine .andThen (moreFunctions_leads n (item.next hf).done) (fun _ hb => hb) fun fs ws ⟨hw, hfs⟩ => .pure ⟨hw, ?_⟩
      have same : xs ++ f :: fs = (xs ++ [f]) ++ fs := by simp
      rw [same]
      exact hfs
    · refine .ending item.begins fun hu => .pure ⟨hu, ?_⟩
      rw [List.append_nil]
      exact h

/-- **A program that is read to its end is derived from the grammar**, and where reading gets stuck, what was read can be
completed to a program. -/
theorem program_leads (n : Nat) (ts : List Token) : Leads True (program n) ts
    (fun fs us => us = [] ∧ Spans (.phrase .program) (.program fs) ts us) (Begins (.phrase .program) ts) := by
  have whole := Halfway.start .program ts
  have item := Halfway.start .functionsOne ts
  refine .andThen (function_leads n ts) (fun _ hb => whole.within (item.within hb)) fun f us hf => ?_
  exact .andThen (moreFunctions_leads n (item.next hf).done) (fun _ hb => whole.within hb) fun fs vs ⟨hv, hfs⟩ =>
    .pure ⟨hv, (whole.next hfs).done⟩

end Parser

open Grammar

namespace Parse

theorem program_of_errors_eq_nil {n : Nat} {ts : List Token} {stop : Token.Stop} {fs : List Node}
    (tree : (restarting (n + 1) true ts stop).functions = some fs) (clean : (restarting (n + 1) true ts stop).errors = []) :
    ∃ s, (Parser.program (Parser.depth ts)).run { tokens := ts } = .ok fs s := by
  rw [restarting] at tree clean
  cases hr : (Parser.program (Parser.depth ts)).run { tokens := ts } with
  | ok fs' s =>
    simp only [hr] at tree
    cases stop with
    | fault f => cases tree
    | _ => exact ⟨s, by rw [Option.some.inj tree]⟩
  | error h s =>
    simp only [hr] at tree clean
    cases hs : s.tokens with
    | cons t rest => simp [hs, after, reported] at clean
    | nil =>
      simp only [hs] at tree
      cases stop <;> cases tree

end Parse

/-- **The tree of a text without syntax errors is derived from its tokens.**  The leaves of the derivation are all the
tokens in their order, and the tree is what the actions of the grammar make of it. -/
theorem derivation_of_parse {s : Token.Scan} {fs : List Node} (spelled : s.Spelled) (tree : s.parse.functions = some fs)
    (clean : s.parse.errors = []) : ∃ d : Tree (.phrase .program), d.leaves = s.tokens ∧ d.value = .program fs := by
  obtain ⟨s', run⟩ := Parse.program_of_errors_eq_nil tree clean
  have leads := Parser.program_leads (Parser.depth s.tokens) s.tokens []
  rw [run] at leads
  obtain ⟨rest, d, leaves, value⟩ := leads
  rw [rest, List.append_nil] at leaves
  refine ⟨d, leaves.symm, value fun t ht => spelled t ?_⟩
  rw [leaves]
  exact ht

/-- A text with a declaration that is two statements, and an `else` that two conditions could take. -/
def dangling : String := "funk f(n as int) <int> \x7b x :: int = n; if [[n]] if [[x]] return 1; else return x; \x7d"

theorem dangling_derivation : ∃ d : Tree (.phrase .program), d.leaves = (Token.lex dangling.toList 1).tokens ∧
    d.value = .program [.function "f" (.several [.parameter "n" "int" 1]) "int"
      (.several [.declaration "x" "int" 1, .assignment (.text "x") (.identifier "n" 1) 1,
        .branch (.identifier "n" 1) (.branch (.identifier "x" 1) (.ret (.number 1 1) 1) (.ret (.identifier "x" 1) 1) 1)
          .nothing 1]) 1] := by
  rw [dangling, String.toList_ofList]
  exact derivation_of_parse (Token.lex_spelled _ _) rfl (by decide +kernel)

end TesLang
