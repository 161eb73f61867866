import TesLang.Proofs.Parsing.Outcome
/-!
# The depth of calls is enough

The parsers of the grammar call each other, and each takes a bound on the depth of its calls.  A chain of calls that takes
no token has at most five of them, and eight for each token are allowed.  So the bound that a program is given is never
spent (`program_ends`).

What is shown of each parser is that it is not spent, and that it takes a token at least where the next call depends on
that.
-/
namespace TesLang.Parser

variable {α β : Type}

/-- The parser comes to an end with a result that satisfies `Q`, or gets stuck, before its bound is spent. -/
def Ends (p : Parser α) (ts : List Token) (Q : α → List Token → Prop) : Prop := Leads False p ts Q fun _ => True

theorem Ends.andThen {p : Parser α} {f : α → Parser β} {ts : List Token} {Q : α → List Token → Prop}
    {R : β → List Token → Prop} (first : Ends p ts Q) (rest : ∀ a us, Q a us → Ends (f a) us R) : Ends (p >>= f) ts R :=
  Leads.andThen first (fun _ _ => trivial) rest

theorem Ends.mono {p : Parser α} {ts : List Token} {Q R : α → List Token → Prop} (h : Ends p ts Q)
    (hQ : ∀ a us, Q a us → R a us) : Ends p ts R := Leads.mono h hQ fun _ _ => trivial

abbrev Shorter (ts : List Token) (_ : α) (us : List Token) : Prop := us.length < ts.length

abbrev NoLonger (ts : List Token) (_ : α) (us : List Token) : Prop := us.length ≤ ts.length

theorem shorter_of_cons {ts us : List Token} {t : Token} (h : ts = t :: us) : us.length + 1 = ts.length := by
  rw [h, List.length_cons]

mutual

theorem expression_ends : ∀ (n least : Nat) (ts : List Token), 8 * ts.length + 3 ≤ n →
    Ends (expression n least) ts (Shorter ts)
  | 0, _, _, h => absurd h (by omega)
  | n + 1, least, ts, h => by
    rw [expression]
    refine Ends.andThen (operand_ends n ts (by omega)) fun left us hu => ?_
    refine (chain_ends n least left us (by omega)).mono fun _ vs hv => ?_
    omega

theorem chain_ends : ∀ (n least : Nat) (left : Node) (ts : List Token), 8 * ts.length + 1 ≤ n →
    Ends (chain n least left) ts (NoLonger ts)
  | 0, _, _, _, h => absurd h (by omega)
  | n + 1, least, left, ts, h => by
    rw [chain]
    refine .takeOperator (fun t us l hu _ _ => ?_) fun _ => .pure (Nat.le_refl _)
    have := shorter_of_cons hu
    refine Ends.andThen (expression_ends n (l + 1) us (by omega)) fun right vs hv => ?_
    refine (chain_ends n least _ vs (by omega)).mono fun _ ws hw => ?_
    omega

theorem operand_ends : ∀ (n : Nat) (ts : List Token), 8 * ts.length + 2 ≤ n → Ends (operand n) ts (Shorter ts)
  | 0, _, h => absurd h (by omega)
  | n + 1, ts, h => by
    have signed {k : Kind} (head : ts.head?.map (·.kind) = some k) : Ends (do
        let t ← take
        let e ← operand n
        pure (Node.unary t.text e t.line)) ts (Shorter ts) := by
      obtain ⟨t, us, rfl, -⟩ := exists_of_head head
      rw [List.length_cons] at h
      refine .take (Ends.andThen (operand_ends n us (by omega)) fun e vs hv => .pure ?_)
      exact Nat.lt_succ_of_lt hv
    rw [operand]
    refine .peek fun k head => ?_
    split
    · exact signed head
    · exact signed head
    · exact signed head
    · refine Ends.andThen (atom_ends n ts (by omega)) fun condition us hu => ?_
      refine .takeIf (fun q vs hq _ => ?_) fun _ => .pure hu
      have := shorter_of_cons hq
      refine Ends.andThen (expression_ends n 0 vs (by omega)) fun yes ws hw => ?_
      refine .expect trivial fun c xs hx _ => ?_
      have := shorter_of_cons hx
      refine Ends.andThen (operand_ends n xs (by omega)) fun no ys hy => .pure ?_
      omega

theorem atom_ends : ∀ (n : Nat) (ts : List Token), 8 * ts.length + 1 ≤ n → Ends (atom n) ts (Shorter ts)
  | 0, _, h => absurd h (by omega)
  | n + 1, ts, h => by
    -- a token that is an atom by itself, and arguments behind a parenthesis
    have lone {k : Kind} (head : ts.head?.map (·.kind) = some k) (make : Token → Node) : Ends (do
        let t ← take
        pure (make t)) ts (Shorter ts) := by
      obtain ⟨t, us, rfl, -⟩ := exists_of_head head
      exact .take (.pure (Nat.lt_succ_self _))
    have listed {us : List Token} (hu : us.length < ts.length) (close : Kind) (make : List Node → Node) : Ends (do
        let es ← arguments n close
        pure (make es)) us (Shorter ts) := by
      refine Ends.andThen (arguments_ends n close us (by omega)) fun es vs hv => .pure ?_
      omega
    have inner {us : List Token} (hu : us.length < ts.length) (close : Kind) (make : Node → Node) : Ends (do
        let e ← expression n 0
        let _ ← expect close
        pure (make e)) us (Shorter ts) := by
      refine Ends.andThen (expression_ends n 0 us (by omega)) fun e vs hv => ?_
      refine .expect trivial fun c ws hw _ => .pure ?_
      have := shorter_of_cons hw
      omega
    rw [atom]
    refine .peek fun k head => ?_
    split
    case h_1 => exact lone head fun t => .number t.count t.line
    case h_2 | h_3 => exact lone head fun t => .string t.text t.line
    case h_4 | h_5 => exact lone head fun t => .boolean t.text t.line
    case h_6 =>
      obtain ⟨t, us, rfl, -⟩ := exists_of_head head
      exact .take (inner (Nat.lt_succ_self _) .rightParen id)
    case h_7 =>
      obtain ⟨t, us, rfl, -⟩ := exists_of_head head
      exact .take (listed (Nat.lt_succ_self _) .rightBracket fun es => .array es t.line)
    case h_8 =>
      obtain ⟨t, us, rfl, -⟩ := exists_of_head head
      refine .take (.expect trivial fun p vs hp _ => listed ?_ .rightParen fun args => .call t.text args t.line)
      have := shorter_of_cons hp
      rw [List.length_cons]
      omega
    case h_9 =>
      obtain ⟨t, us, rfl, -⟩ := exists_of_head head
      refine .take (.expect trivial fun p vs hp _ => inner ?_ .rightParen fun e => .call t.text [e] t.line)
      have := shorter_of_cons hp
      rw [List.length_cons]
      omega
    case h_10 =>
      obtain ⟨t, us, rfl, -⟩ := exists_of_head head
      refine .take (.peek fun k head => ?_)
      split
      · obtain ⟨p, vs, rfl, -⟩ := exists_of_head head
        exact .take (listed (by simp only [List.length_cons]; omega) .rightParen fun args => .call t.text args t.line)
      · obtain ⟨b, vs, rfl, -⟩ := exists_of_head head
        exact .take (inner (by simp only [List.length_cons]; omega) .rightBracket fun index => .element t.text index t.line)
      · exact .pure (Nat.lt_succ_self _)
    case h_11 => exact .stuck trivial

theorem arguments_ends : ∀ (n : Nat) (close : Kind) (ts : List Token), 8 * ts.length + 4 ≤ n →
    Ends (arguments n close) ts (Shorter ts)
  | 0, _, _, h => absurd h (by omega)
  | n + 1, close, ts, h => by
    rw [arguments]
    refine .takeIf (fun c us hu _ => .pure ?_) fun _ => ?_
    · have := shorter_of_cons hu
      omega
    · refine Ends.andThen (expression_ends n 0 ts (by omega)) fun e us hu => ?_
      refine Ends.andThen (moreArguments_ends n close us (by omega)) fun es vs hv => .pure ?_
      omega

theorem moreArguments_ends : ∀ (n : Nat) (close : Kind) (ts : List Token), 8 * ts.length + 1 ≤ n →
    Ends (moreArguments n close) ts (NoLonger ts)
  | 0, _, _, h => absurd h (by omega)
  | n + 1, close, ts, h => by
    rw [moreArguments]
    refine .takeIf (fun comma us hu _ => ?_) fun _ => ?_
    · have := shorter_of_cons hu
      refine Ends.andThen (expression_ends n 0 us (by omega)) fun e vs hv => ?_
      refine Ends.andThen (moreArguments_ends n close vs (by omega)) fun es ws hw => .pure ?_
      omega
    · refine .expect trivial fun c us hu _ => .pure ?_
      have := shorter_of_cons hu
      omega

end

theorem type_ends (ts : List Token) : Ends type ts (Shorter ts) := by
  have named {k : Kind} (head : ts.head?.map (·.kind) = some k) : Ends (do
      let t ← take
      pure t.text) ts (Shorter ts) := by
    obtain ⟨t, us, rfl, -⟩ := exists_of_head head
    exact .take (.pure (Nat.lt_succ_self _))
  unfold type
  refine .peek fun k head => ?_
  split
  case h_7 => exact .stuck trivial
  all_goals exact named head

theorem parameter_ends (ts : List Token) : Ends parameter ts (Shorter ts) := by
  refine .expect trivial fun t us hu _ => .expect trivial fun a vs hv _ => ?_
  have := shorter_of_cons hu
  have := shorter_of_cons hv
  refine Ends.andThen (type_ends vs) fun kind ws hw => .pure ?_
  omega

theorem moreParameters_ends : ∀ (n : Nat) (ts : List Token), 8 * ts.length + 1 ≤ n → Ends (moreParameters n) ts (Shorter ts)
  | 0, _, h => absurd h (by omega)
  | n + 1, ts, h => by
    rw [moreParameters]
    refine .takeIf (fun comma us hu _ => ?_) fun _ => ?_
    · have := shorter_of_cons hu
      refine Ends.andThen (parameter_ends us) fun p vs hv => ?_
      refine Ends.andThen (moreParameters_ends n vs (by omega)) fun ps ws hw => .pure ?_
      omega
    · refine .expect trivial fun c us hu _ => .pure ?_
      have := shorter_of_cons hu
      omega

theorem parameters_ends (n : Nat) (ts : List Token) (h : 8 * ts.length ≤ n) : Ends (parameters n) ts (Shorter ts) := by
  refine .takeIf (fun c us hu _ => .pure ?_) fun _ => ?_
  · have := shorter_of_cons hu
    omega
  · refine Ends.andThen (parameter_ends ts) fun p us hu => ?_
    refine Ends.andThen (moreParameters_ends n us (by omega)) fun ps vs hv => .pure ?_
    omega

theorem condition_ends (n : Nat) (ts : List Token) (h : 8 * ts.length ≤ n) : Ends (condition n) ts (Shorter ts) := by
  refine .expect trivial fun a us hu _ => .expect trivial fun b vs hv _ => ?_
  have := shorter_of_cons hu
  have := shorter_of_cons hv
  refine Ends.andThen (expression_ends n 0 vs (by omega)) fun e ws hw => ?_
  refine .expect trivial fun c xs hx _ => .expect trivial fun d ys hy _ => .pure ?_
  have := shorter_of_cons hx
  have := shorter_of_cons hy
  omega

theorem noteFirst_ends (first : Node) (ts : List Token) : Ends (noteFirst first) ts fun _ us => us = ts := by
  cases first
  case function =>
    refine .peek fun k _ => ?_
    cases k with
    | none => exact .pure rfl
    | some k =>
      dsimp only
      split
      · exact fun _ => rfl
      · exact .pure rfl
  all_goals exact .pure rfl

theorem closed_ends {n : Nat} (ts : List Token) {us : List Token} (h : 8 * ts.length ≤ n) (hu : us.length < ts.length) (make : Node → Node) :
    Ends (do
      let e ← expression n 0
      let _ ← expect .semicolon
      pure (make e)) us (Shorter ts) := by
  refine Ends.andThen (expression_ends n 0 us (by omega)) fun e vs hv => .expect trivial fun semi ws hw _ => .pure ?_
  have := shorter_of_cons hw
  omega

theorem named_ends (n : Nat) (t : Token) (ts : List Token) (h : 8 * ts.length ≤ n) : Ends (named n t) ts (Shorter ts) := by
  unfold named
  refine .peek fun k head => ?_
  split
  case h_1 =>
    obtain ⟨c, us, rfl, -⟩ := exists_of_head head
    rw [List.length_cons] at h
    refine .take (Ends.andThen (type_ends us) fun kind vs hv => .takeIf (fun eq ws hw _ => ?_) fun _ => ?_)
    · have := shorter_of_cons hw
      refine closed_ends (c :: us) h ?_ fun e =>
        .several [.declaration t.text kind t.line, .assignment (.text t.text) e eq.line]
      rw [List.length_cons]
      omega
    · refine .expect trivial fun semi ws hw _ => .pure ?_
      have := shorter_of_cons hw
      show ws.length < us.length + 1
      omega
  case h_2 =>
    obtain ⟨eq, us, rfl, -⟩ := exists_of_head head
    exact .take (closed_ends _ h (Nat.lt_succ_self _) fun e => .assignment (.text t.text) e eq.line)
  case h_3 =>
    obtain ⟨b, us, rfl, -⟩ := exists_of_head head
    rw [List.length_cons] at h
    refine .take (Ends.andThen (expression_ends n 0 us (by omega)) fun index vs hv => ?_)
    refine .expect trivial fun c ws hw _ => .expect trivial fun eq xs hx _ => ?_
    have := shorter_of_cons hw
    have := shorter_of_cons hx
    refine closed_ends (b :: us) h ?_ fun e => .assignment (.element t.text index t.line) e eq.line
    rw [List.length_cons]
    omega
  case h_4 =>
    obtain ⟨p, us, rfl, -⟩ := exists_of_head head
    rw [List.length_cons] at h
    refine .take (Ends.andThen (arguments_ends n _ us (by omega)) fun args vs hv => .expect trivial fun semi ws hw _ => .pure ?_)
    have := shorter_of_cons hw
    show ws.length < us.length + 1
    omega
  case h_5 => exact .stuck trivial

mutual

theorem statement_ends : ∀ (n : Nat) (ts : List Token), 8 * ts.length + 2 ≤ n → Ends (statement n) ts (Shorter ts)
  | 0, _, h => absurd h (by omega)
  | n + 1, ts, h => by
    rw [statement]
    refine .peek fun k head => ?_
    split
    case h_10 => exact function_ends n ts (by omega)
    case h_11 => exact .stuck trivial
    all_goals
      obtain ⟨t, us, hu, -⟩ := exists_of_head head
      have hu := shorter_of_cons hu
      subst ts
      apply Leads.take
    case h_1 => exact (named_ends n t us (by omega)).mono fun _ vs hv => by omega
    case h_2 =>
      refine .expect trivial fun p vs hv _ => ?_
      have := shorter_of_cons hv
      refine Ends.andThen (arguments_ends n _ vs (by omega)) fun args ws hw => .expect trivial fun semi xs hx _ => .pure ?_
      have := shorter_of_cons hx
      omega
    case h_3 =>
      refine .expect trivial fun p vs hv _ => ?_
      have := shorter_of_cons hv
      refine Ends.andThen (expression_ends n 0 vs (by omega)) fun e ws hw => ?_
      refine .expect trivial fun c xs hx _ => .expect trivial fun semi ys hy _ => .pure ?_
      have := shorter_of_cons hx
      have := shorter_of_cons hy
      omega
    case h_4 =>
      refine .takeIf (fun semi vs hv _ => .pure ?_) fun _ => ?_
      · have := shorter_of_cons hv
        omega
      · exact closed_ends (t :: us) (by omega) (by omega) fun e => .ret e t.line
    case h_5 =>
      refine Ends.andThen (condition_ends n us (by omega)) fun e vs hv => ?_
      refine Ends.andThen (statement_ends n vs (by omega)) fun yes ws hw => ?_
      refine .takeIf (fun kw xs hx _ => ?_) fun _ => .pure (by omega)
      have := shorter_of_cons hx
      refine Ends.andThen (statement_ends n xs (by omega)) fun no ys hy => .pure ?_
      omega
    case h_6 =>
      refine .expect trivial fun p vs hv _ => .expect trivial fun var ws hw _ => .expect trivial fun eq xs hx _ => ?_
      have := shorter_of_cons hv
      have := shorter_of_cons hw
      have := shorter_of_cons hx
      refine Ends.andThen (expression_ends n 0 xs (by omega)) fun start ys hy => .expect trivial fun kw zs hz _ => ?_
      have := shorter_of_cons hz
      refine Ends.andThen (expression_ends n 0 zs (by omega)) fun stop vs hv => ?_
      refine .expect trivial fun c ws hw _ => .expect trivial fun kw xs hx _ => ?_
      have := shorter_of_cons hw
      have := shorter_of_cons hx
      refine Ends.andThen (statements_ends n xs (by omega)) fun ss ys hy => .expect trivial fun kw zs hz _ => .pure ?_
      have := shorter_of_cons hz
      omega
    case h_7 =>
      refine Ends.andThen (condition_ends n us (by omega)) fun e vs hv => ?_
      refine Ends.andThen (statement_ends n vs (by omega)) fun body ws hw => .pure ?_
      omega
    case h_8 =>
      refine Ends.andThen (statement_ends n us (by omega)) fun body vs hv => .expect trivial fun kw ws hw _ => ?_
      have := shorter_of_cons hw
      refine Ends.andThen (condition_ends n ws (by omega)) fun e xs hx => .expect trivial fun semi ys hy _ => .pure ?_
      have := shorter_of_cons hy
      omega
    case h_9 =>
      refine Ends.andThen (statements_ends n us (by omega)) fun ss vs hv => .expect trivial fun kw ws hw _ => .pure ?_
      have := shorter_of_cons hw
      omega

theorem statements_ends : ∀ (n : Nat) (ts : List Token), 8 * ts.length + 3 ≤ n → Ends (statements n) ts (NoLonger ts)
  | 0, _, h => absurd h (by omega)
  | n + 1, ts, h => by
    rw [statements]
    refine .peek fun k _ => ?_
    split
    · split
      · refine Ends.andThen (statement_ends n ts (by omega)) fun s us hu => ?_
        refine Ends.andThen (noteFirst_ends s us) fun _ vs hv => ?_
        subst hv
        refine Ends.andThen (moreStatements_ends n vs (by omega)) fun ss ws hw => .pure ?_
        omega
      · exact .pure (Nat.le_refl _)
    · exact .pure (Nat.le_refl _)

theorem moreStatements_ends : ∀ (n : Nat) (ts : List Token), 8 * ts.length + 3 ≤ n →
    Ends (moreStatements n) ts (NoLonger ts)
  | 0, _, h => absurd h (by omega)
  | n + 1, ts, h => by
    rw [moreStatements]
    refine .peek fun k _ => ?_
    split
    · split
      · refine Ends.andThen (statement_ends n ts (by omega)) fun s us hu => ?_
        refine Ends.andThen (moreStatements_ends n us (by omega)) fun ss vs hv => .pure ?_
        omega
      · exact .pure (Nat.le_refl _)
    · exact .pure (Nat.le_refl _)

theorem function_ends : ∀ (n : Nat) (ts : List Token), 8 * ts.length + 1 ≤ n → Ends (function n) ts (Shorter ts)
  | 0, _, h => absurd h (by omega)
  | n + 1, ts, h => by
    rw [function]
    refine .expect trivial fun t us hu _ => .expect trivial fun name vs hv _ => .expect trivial fun p ws hw _ => ?_
    have := shorter_of_cons hu
    have := shorter_of_cons hv
    have := shorter_of_cons hw
    refine Ends.andThen (parameters_ends n ws (by omega)) fun ps xs hx => .expect trivial fun a ys hy _ => ?_
    have := shorter_of_cons hy
    refine Ends.andThen (type_ends ys) fun kind zs hz => .expect trivial fun b us hu _ => ?_
    have := shorter_of_cons hu
    refine .takeIf (fun arrow vs hv _ => ?_) fun _ => ?_
    · refine .expect trivial fun ret ws hw _ => ?_
      have := shorter_of_cons hv
      have := shorter_of_cons hw
      refine Ends.andThen (expression_ends n 0 ws (by omega)) fun e xs hx => .expect trivial fun semi ys hy _ => ?_
      have := shorter_of_cons hy
      split
      · exact .pure (by omega)
      · exact .pure (by omega)
    · refine .expect trivial fun brace vs hv _ => ?_
      have := shorter_of_cons hv
      refine Ends.andThen (statements_ends n vs (by omega)) fun ss ws hw => .expect trivial fun brace xs hx _ => .pure ?_
      have := shorter_of_cons hx
      omega

end

theorem moreFunctions_ends : ∀ (n : Nat) (ts : List Token), 8 * ts.length + 2 ≤ n →
    Ends (moreFunctions n) ts (NoLonger ts)
  | 0, _, h => absurd h (by omega)
  | n + 1, ts, h => by
    rw [moreFunctions]
    refine .peek fun k _ => ?_
    split
    · refine Ends.andThen (function_ends n ts (by omega)) fun f us hu => ?_
      refine Ends.andThen (moreFunctions_ends n us (by omega)) fun fs vs hv => .pure ?_
      omega
    · exact .ending trivial fun _ => .pure (Nat.le_refl _)

/-- **Enough depth**: on the depth that its tokens are given, a program is read to its end or to a token that does not
fit. -/
theorem program_ends {n : Nat} (ts : List Token) (h : depth ts ≤ n) : Ends (program n) ts fun _ _ => True := by
  unfold depth at h
  refine Ends.andThen (function_ends n ts (by omega)) fun f us hu => ?_
  exact Ends.andThen (moreFunctions_ends n us (by omega)) fun fs vs _ => .pure trivial

end TesLang.Parser
