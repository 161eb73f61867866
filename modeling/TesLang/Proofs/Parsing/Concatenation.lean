import TesLang.Proofs.Lines.Parsing
import TesLang.Proofs.Parsing.FirstError
import TesLang.Proofs.Parsing.Tandem
import TesLang.Proofs.Reading.Cutting
import TesLang.Proofs.Session.EntryPoints
/-!
# One text behind another

Two texts that can be read, with a line end between them, are a text with the functions of both (`reading_append`).  The
functions of the second text are as many lines further down as there are in the first.

The line end keeps the pieces of the two texts apart, so the tokens of the whole are those of the one and then those of the
other (`lex_append`).  And a function ends with a token of its own, so it is the same function whatever stands behind it
(`function_firm`): the last one of the first text does not depend on whether the input ends there.
-/
namespace TesLang

namespace Parser

variable {α β : Type}

/-! ### Functions are firm -/

/-- The parser takes tokens, and what it makes of them does not depend on those behind them. -/
def Firm (p : Parser α) : Prop :=
  ∀ (ts : List Token) (entered : List String) (a : α) (s : Input), p.run { tokens := ts, entered } = .ok a s →
    ∃ ws, ws ≠ [] ∧ ts = ws ++ s.tokens ∧ ∀ us, p.run { tokens := ws ++ us, entered } = .ok a { s with tokens := us }

namespace Firm

theorem expect (k : Kind) : Firm (expect k) := by
  intro ts entered a s run
  unfold EStateM.run Parser.expect at run ⊢
  cases ts with
  | nil => cases run
  | cons t ts =>
    dsimp only at run
    split at run
    · next hk =>
      cases run
      exact ⟨[a], List.cons_ne_nil _ _, rfl, fun us => by simp [hk]⟩
    · cases run

theorem after {p : Parser α} {f : α → Parser β} (hp : OneAhead p) (hf : ∀ a, Firm (f a)) : Firm (p >>= f) := by
  intro ts entered b s run
  obtain ⟨ws, split, ahead⟩ := hp ts entered
  rw [run_bind] at run
  cases first : p.run { tokens := ts, entered } with
  | error e s₁ =>
    rw [first] at run
    cases run
  | ok a s₁ =>
    rw [first] at run split ahead
    obtain ⟨ws', nonempty, split', firm⟩ := hf a s₁.tokens s₁.entered b s run
    refine ⟨ws ++ ws', by simp [nonempty], ?_, fun us => ?_⟩
    · rw [List.append_assoc, ← split']
      exact split
    · have next : (ws' ++ us).head? = s₁.tokens.head? := by
        obtain ⟨w, ws', rfl⟩ := List.exists_cons_of_ne_nil nonempty
        rw [split']
        rfl
      rw [run_bind, List.append_assoc, ahead _ next]
      exact firm us

theorem last {p : Parser α} {f : α → Parser β} (hp : Firm p) (hf : ∀ a, ∃ b, f a = pure b) : Firm (p >>= f) := by
  intro ts entered b s run
  rw [run_bind] at run
  cases first : p.run { tokens := ts, entered } with
  | error e s₁ =>
    rw [first] at run
    cases run
  | ok a s₁ =>
    obtain ⟨ws, nonempty, split, firm⟩ := hp ts entered a s₁ first
    obtain ⟨b', made⟩ := hf a
    simp only [first, made] at run
    cases run
    refine ⟨ws, nonempty, split, fun us => ?_⟩
    rw [run_bind, firm us]
    simp only [made]
    rfl

end Firm

/-- **What a function is does not depend on what stands behind it.** -/
theorem function_firm (n : Nat) : Firm (function n) := by
  cases n with
  | zero =>
    intro ts entered a s run
    rw [function] at run
    cases run
  | succ n =>
    rw [function]
    refine .after (.expect _) fun t => .after (.expect _) fun name => .after (.expect _) fun _ => ?_
    refine .after (parameters_oneAhead n) fun ps => .after (.expect _) fun _ => .after type_oneAhead fun returnType => ?_
    refine .after (.expect _) fun _ => .after (.takeIf _) fun arrow => ?_
    cases arrow with
    | none =>
      refine .after (.expect _) fun _ => .after (statements_oneAhead n) fun ss => ?_
      exact .last (.expect _) fun _ => ⟨_, rfl⟩
    | some _ =>
      refine .after (.expect _) fun ret => .after (expression_oneAhead n 0) fun e => .last (.expect _) fun _ => ?_
      split
      · exact ⟨_, rfl⟩
      · exact ⟨_, rfl⟩

/-! ### The functions of two inputs -/

theorem function_after (n m : Nat) (ts : List Token) : After Eq (function n) (function m) ts :=
  (function_along abreast_eq n m).after (fun _ _ h => not_swapped h) ts

theorem run_of_after {p q : Parser α} {ts : List Token} {Q : α → List Token → Prop} (same : After Eq p q ts)
    (ends : Ends q ts Q) {entered : List String} {a : α} {s : Input} (run : p.run { tokens := ts, entered } = .ok a s) :
    q.run { tokens := ts, entered } = .ok a s := by
  have same := same entered
  have ends := ends entered
  rw [run] at same
  cases other : q.run { tokens := ts, entered } with
  | ok b s' =>
    rw [other] at same
    cases same with
    | ok entered h =>
      obtain ⟨rfl, rfl⟩ := h
      rfl
  | error e s' =>
    rw [other] at same ends
    cases same with
    | right => exact ends.elim

theorem ran_program {n : Nat} {s s' : Input} {fs : List Node} : Ran (program n) s fs s' ↔ ∃ f gs s₁,
    Ran (function n) s f s₁ ∧ Ran (moreFunctions n) s₁ gs s' ∧ fs = f :: gs := by
  unfold program
  simp only [ran_bind, ran_pure]
  constructor
  · rintro ⟨f, s₁, first, gs, _, rest, rfl, rfl⟩
    exact ⟨f, gs, s₁, first, rest, rfl⟩
  · rintro ⟨f, gs, s₁, first, rest, rfl⟩
    exact ⟨f, s₁, first, gs, s', rest, rfl, rfl⟩

theorem ran_ending {s s' : Input} {u : Unit} : Ran ending s u s' ↔ s.tokens = [] ∧ s' = s := by
  unfold Ran EStateM.run ending
  cases s.tokens with
  | nil => simp [eq_comm]
  | cons t ts => simp

theorem ran_moreFunctions {n : Nat} {s s' : Input} {fs : List Node} : Ran (moreFunctions (n + 1)) s fs s' ↔
    (s.tokens.head?.map (·.kind) = some .funkKw ∧ Ran (program n) s fs s') ∨ (s.tokens = [] ∧ fs = [] ∧ s' = s) := by
  have looked : Ran peek s (s.tokens.head?.map (·.kind)) s := rfl
  rw [moreFunctions, looked.bind_iff]
  by_cases funk : s.tokens.head?.map (·.kind) = some .funkKw
  · have some : s.tokens ≠ [] := by
      intro nil
      simp [nil] at funk
    simp [funk, some, program]
  · split
    · next h => exact absurd h funk
    · simp only [ran_bind, ran_ending, ran_pure, funk, false_and, false_or]
      constructor
      · rintro ⟨_, _, ⟨nil, rfl⟩, rfl, rfl⟩
        exact ⟨nil, rfl, rfl⟩
      · rintro ⟨nil, rfl, rfl⟩
        exact ⟨(), _, ⟨nil, rfl⟩, rfl, rfl⟩

theorem function_head {n : Nat} {s s' : Input} {f : Node} (run : Ran (function n) s f s') :
    s.tokens.head?.map (·.kind) = some .funkKw := by
  cases n with
  | zero =>
    rw [function] at run
    cases run
  | succ n =>
    rw [function] at run
    obtain ⟨t, s₁, first, -⟩ := ran_bind.1 run
    unfold Ran EStateM.run expect at first
    cases ts : s.tokens with
    | nil =>
      rw [ts] at first
      cases first
    | cons t ts =>
      simp only [ts] at first
      split at first
      · next funk => rw [List.head?_cons, Option.map_some, funk]
      · cases first

/-- All of the tokens are functions: with enough depth, they are read to the end. -/
def Whole (ts : List Token) (fs : List Node) (entered entered' : List String) : Prop :=
  ∀ n, 8 * ts.length + 2 ≤ n → Ran (moreFunctions n) { tokens := ts, entered } fs { tokens := [], entered := entered' }

theorem whole_of_ran {n : Nat} {ts : List Token} {entered : List String} {fs : List Node} {s : Input}
    (run : Ran (moreFunctions n) { tokens := ts, entered } fs s) (all : s.tokens = []) : Whole ts fs entered s.entered := by
  intro m hm
  obtain ⟨tokens, entered'⟩ := s
  subst all
  exact run_of_after (steady.moreFunctions n m ts) (moreFunctions_ends m ts hm) run

/-- **Functions, and then functions**: they are read one after another.  The induction is over the depth of the first run,
which is smaller by one behind each function. -/
theorem whole_append {us : List Token} {gs : List Node} {entered'' : List String} : ∀ {n : Nat} {ts : List Token}
    {entered : List String} {fs : List Node} {s : Input}, Ran (moreFunctions n) { tokens := ts, entered } fs s →
      Whole us gs s.entered entered'' → Whole (ts ++ us) (fs ++ gs) entered entered''
  | 0, _, _, _, _, run, _ => by
    rw [moreFunctions] at run
    cases run
  | n + 1, ts, entered, fs, s, run, behind => by
    rcases ran_moreFunctions.1 run with ⟨funk, run⟩ | ⟨nil, rfl, rfl⟩
    · obtain ⟨f, fs, s₁, first, rest, rfl⟩ := ran_program.1 run
      obtain ⟨ws, nonempty, split, firm⟩ := function_firm n ts entered f s₁ first
      have more := whole_append rest behind
      subst split
      intro m hm
      have positive := List.length_pos_iff.2 nonempty
      simp only [List.length_append] at hm
      obtain ⟨m, rfl⟩ := Nat.exists_eq_add_of_le' (Nat.le_trans (by omega) hm : 1 ≤ m)
      have again : Ran (function m) { tokens := ws ++ (s₁.tokens ++ us), entered } f
          { s₁ with tokens := s₁.tokens ++ us } := by
        refine run_of_after (function_after n m _) (function_ends m _ ?_) (firm _)
        simp only [List.length_append]
        omega
      refine ran_moreFunctions.2 (.inl ⟨?_, ran_program.2 ⟨f, fs ++ gs, _, ?_, more m ?_, rfl⟩⟩)
      · obtain ⟨w, ws, rfl⟩ := List.exists_cons_of_ne_nil nonempty
        exact funk
      · rwa [List.append_assoc]
      · simp only [List.length_append]
        omega
    · dsimp only at nil
      subst nil
      exact behind

/-- **A program, and then a program**, is a program with the functions of both. -/
theorem program_append {n m : Nat} {ts us : List Token} {fs gs : List Node} {s s' : Input}
    (first : Ran (program n) { tokens := ts } fs s)
    (second : Ran (program m) { tokens := us, entered := s.entered } gs s') :
    Ran (program (depth (ts ++ us))) { tokens := ts ++ us } (fs ++ gs) { tokens := [], entered := s'.entered } := by
  have leads := program_leads m us s.entered
  rw [show (program m).run _ = _ from second] at leads
  have funk {n : Nat} {s s' : Input} {fs : List Node} (run : Ran (program n) s fs s') :
      s.tokens.head?.map (·.kind) = some .funkKw := by
    obtain ⟨_, _, _, head, -⟩ := ran_program.1 run
    exact function_head head
  have behind := whole_of_ran (ran_moreFunctions.2 (.inl ⟨funk second, second⟩)) leads.1
  have both := whole_append (ran_moreFunctions.2 (.inl ⟨funk first, first⟩)) behind
  rcases ran_moreFunctions.1 (both (depth (ts ++ us) + 1) (by unfold depth; omega)) with ⟨-, run⟩ | ⟨nil, -⟩
  · exact run
  · have := funk first
    simp [(List.append_eq_nil_iff.1 nil).1] at this

end Parser

namespace Token

/-! ### The tokens of two texts -/

theorem prefix_of_newline {cs ds more : List Char} (h : ds <+: cs ++ '\n' :: more) (line : '\n' ∉ ds) : ds <+: cs := by
  rcases List.prefix_or_prefix_of_prefix h (List.prefix_append cs _) with inside | ⟨es, rfl⟩
  · exact inside
  · rw [List.prefix_append_right_inj] at h
    cases es with
    | nil => simp
    | cons c es =>
      obtain ⟨rfl, -⟩ := List.cons_prefix_cons.1 h
      simp at line

theorem head?_newline {cs more : List Char} {c : Char} (h : c ∈ (cs ++ '\n' :: more).head?) : c ∈ cs.head? ∨ c = '\n' := by
  cases cs with
  | nil => exact .inr (Option.some.inj h).symm
  | cons b cs => exact .inl h

theorem NoRule.newline {cs : List Char} (h : NoRule cs) (more : List Char) : NoRule (cs ++ '\n' :: more) where
  nonempty := by simp
  space := by
    obtain ⟨c, cs, rfl⟩ := List.exists_cons_of_ne_nil h.nonempty
    exact h.space
  comment opens := h.comment (prefix_of_newline opens (by decide))
  token lexeme fits k v spells := h.token lexeme (prefix_of_newline fits spells.no_newline) k v spells

/-- **A line end keeps pieces apart.** -/
theorem Fits.newline {p : Piece} {rest : List Char} (h : Fits p rest) (more : List Char) :
    Fits p (rest ++ '\n' :: more) := by
  cases h with
  | space space => exact .space space
  | comment comment => exact .comment comment
  | token spells stop =>
    refine .token spells fun c hc => ?_
    rcases head?_newline hc with hc | rfl
    · exact stop c hc
    · exact joins_separator spells (by decide)
  | stray inside ends none =>
    obtain ⟨c, hc, ends⟩ := ends
    refine .stray inside ⟨c, ?_, ends⟩ ?_
    · obtain ⟨rest, rfl⟩ := List.head?_eq_some_iff.1 hc
      exact hc
    · rw [← List.append_assoc]
      exact none.newline more

theorem AllFit.newline {rest : List Char} : ∀ {ps : List Piece}, AllFit ps rest → ∀ more : List Char,
    AllFit ps (rest ++ '\n' :: more)
  | [], _, _ => trivial
  | p :: ps, ⟨fits, h⟩, more => by
    refine ⟨?_, h.newline more⟩
    rw [← List.append_assoc]
    exact fits.newline more

theorem tokensOf_move (ps : List Piece) (pos line k d : Nat) :
    tokensOf ps (pos + k) (line + d) = (tokensOf ps pos line).map (Token.move (.down d) (· + k)) := by
  induction ps generalizing pos line with
  | nil => rfl
  | cons p ps ih =>
    have next := ih (pos + p.text.length) (line + p.text.count '\n')
    rw [Nat.add_right_comm, Nat.add_right_comm line] at next
    rw [tokensOf, tokensOf, List.map_append, next]
    cases p <;> rfl

theorem unclosed_not_mem_noticesOf (ps : List Piece) (line n : Nat) : .unclosed n ∉ noticesOf ps line := by
  induction ps generalizing line with
  | nil => simp [noticesOf]
  | cons p ps ih => cases p <;> simp [noticesOf, Piece.notices, ih]

theorem Scan.ran_of_clean {s : Scan} (fault : s.parse.fault = none) (errors : s.parse.errors = []) : ∃ fs r,
    Ran (Parser.program (Parser.depth s.tokens)) { tokens := s.tokens } fs r ∧ s.parse.functions = some fs ∧
      ∀ f, s.stop ≠ .fault f := by
  cases tree : s.parse.functions with
  | none => exact absurd errors (Parse.errors_ne_nil fault tree)
  | some fs =>
    obtain ⟨r, run⟩ := Parse.program_of_errors_eq_nil tree errors
    refine ⟨fs, r, run, rfl, fun f stop => ?_⟩
    unfold Scan.parse at tree
    rw [Parse.restarting, run, stop] at tree
    cases tree

end Token

namespace Session

open Token

/-- The text is read without a fault and without a syntax error, and all of its comments are closed. -/
structure Clean (s : Session) (source : String) : Prop where
  fault : (reading s source).fault = none
  errors : (reading s source).errors = []
  closed : ∀ n, .unclosed n ∉ (lex source.toList s.line).notices

theorem Clean.cut {s : Session} {source : String} (h : Clean s source) : ∃ ps fs r, source.toList = textOf ps ∧
    AllFit ps [] ∧ Ran (Parser.program (Parser.depth (tokensOf ps 0 s.line))) { tokens := tokensOf ps 0 s.line } fs r ∧
      (reading s source).functions = some fs := by
  obtain ⟨ps, rest, text, allFit, tokens, -, -, ends⟩ := lex_cut h.closed
  obtain ⟨fs, r, run, tree, whole⟩ := Scan.ran_of_clean h.fault h.errors
  rcases ends with ⟨rfl, -⟩ | ⟨f, -, fault⟩
  · rw [tokens] at run
    exact ⟨ps, fs, r, by rw [text, List.append_nil], allFit, run, tree⟩
  · exact absurd fault (whole f)

theorem reading_of_ran {s : Session} {source : String} {ts : List Token} {fs : List Node} {r : Input}
    (tokens : (lex source.toList s.line).tokens = ts) (stop : (lex source.toList s.line).stop = .finished)
    (ran : Ran (Parser.program (Parser.depth ts)) { tokens := ts } fs r) :
    reading s source = { functions := some fs, entered := r.entered } := by
  subst tokens
  exact Scan.parse_of_whole ran (by simp [stop])

/-- **One text behind another.**  Two texts without syntax errors and unclosed comments, with a line end between them, are a
text without them.  Its functions are those of the first text, and then those of the second, which stand as many lines
further down as there are line ends before them. -/
theorem reading_append {s : Session} {a b : String} (first : Clean s a) (second : Clean s b) :
    Clean s (a ++ "\n" ++ b) ∧ ∃ fs gs, (reading s a).functions = some fs ∧ (reading s b).functions = some gs ∧
      (reading s (a ++ "\n" ++ b)).functions =
        some (fs ++ gs.map (Node.mapLine (.down (1 + a.toList.count '\n')))) := by
  obtain ⟨ps, fs, r, ha, fitA, ranA, treeA⟩ := first.cut
  obtain ⟨qs, gs, r', hb, fitB, ranB, treeB⟩ := second.cut
  have text : (a ++ "\n" ++ b).toList = textOf (ps ++ .space '\n' :: qs) := by
    simp [ha, hb, Piece.text]
  have fit : AllFit (ps ++ .space '\n' :: qs) [] :=
    allFit_append.2 ⟨fitA.newline _, ⟨.space rfl, fitB⟩⟩
  have tokens : tokensOf (ps ++ .space '\n' :: qs) 0 s.line = tokensOf ps 0 s.line ++
      (tokensOf qs 0 s.line).map (Token.move (.down (1 + a.toList.count '\n')) (· + (1 + a.toList.length))) := by
    rw [tokensOf_append, ← tokensOf_move, tokensOf, ha]
    simp [Piece.tokens, Piece.text, Nat.add_comm, Nat.add_left_comm]
  have lexed := lex_textOf fit s.line
  rw [← text, tokens] at lexed
  -- the functions entered in the first text stay behind those of the second, which changes nothing
  have moved := @Parser.program_renumbers (.down (1 + a.toList.count '\n')) (· + (1 + a.toList.length)) r.entered
    (Parser.depth (tokensOf qs 0 s.line)) { tokens := tokensOf qs 0 s.line }
  rw [show (Parser.program _).run { tokens := tokensOf qs 0 s.line } = _ from ranB] at moved
  simp only [Input.move, List.append_nil, outcomeMap] at moved
  have parsed := reading_of_ran (by rw [lexed]) (by rw [lexed]) (Parser.program_append ranA moved)
  refine ⟨⟨by rw [parsed], by rw [parsed], ?_⟩, fs, gs, treeA, treeB, by rw [parsed]⟩
  rw [lexed]
  exact unclosed_not_mem_noticesOf _ _

/-- A text that ends in a comment, behind a stray run. -/
def upper : String := "funk one() <int> \x7b\n  return 1;\n\x7d ~~ </ and\nnothing else />"

/-- A text that starts with a blank line. -/
def lower : String := "\nfunk same(x as int) <int> => return x;"

theorem upper_lower_reading : Clean {} upper ∧ Clean {} lower ∧ upper.toList.count '\n' = 3 ∧
    Clean {} (upper ++ "\n" ++ lower) ∧ ∃ fs gs, (reading {} upper).functions = some fs ∧
      (reading {} lower).functions = some gs ∧ (reading {} (upper ++ "\n" ++ lower)).functions =
        some (fs ++ gs.map (Node.mapLine (.down (1 + upper.toList.count '\n')))) := by
  have first : (lex upper.toList 1).parse.fault = none ∧ (lex upper.toList 1).parse.errors = [] ∧
      (lex upper.toList 1).notices = [.stray "~~" 3] ∧ upper.toList.count '\n' = 3 := by
    rw [upper, String.toList_ofList]
    decide +kernel
  have second : (lex lower.toList 1).parse.fault = none ∧ (lex lower.toList 1).parse.errors = [] ∧
      (lex lower.toList 1).notices = [] := by
    rw [lower, String.toList_ofList]
    decide +kernel
  have clean : Clean {} upper := ⟨first.1, first.2.1, by simp [first.2.2.1]⟩
  have clean' : Clean {} lower := ⟨second.1, second.2.1, by simp [second.2.2]⟩
  exact ⟨clean, clean', first.2.2.2, reading_append clean clean'⟩

end Session
end TesLang
