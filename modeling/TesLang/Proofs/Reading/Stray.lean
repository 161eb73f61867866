import TesLang.Proofs.Lines.Parsing
import TesLang.Proofs.Parsing.Soundness
import TesLang.Proofs.Reading.Coverage
import TesLang.Proofs.WellFormed.Code
/-!
# Stray text does not count

What no rule can read is printed and skipped, and nothing else comes of it.  A text has the same errors as the text that is
left when its stray runs are taken out (`compile_swept`), and so a text may be accepted although there is stray text in it.

What was printed tells.  If a text is accepted the parser has taken all its tokens, and nothing stands in the text but these,
spaces and complete comments (`Covered`) if and only if nothing was printed (`accepted_covered_iff`).
-/
namespace TesLang

namespace Token

/-- **Nothing but tokens, spaces and complete comments** stands in the text, and the tokens are those given, each where it
stands.  The text starts on line `line`. -/
def Covered (source : List Char) (line : Nat) (ts : List Token) : Prop :=
  ∃ ps, source = textOf ps ∧ AllFit ps [] ∧ runsOf ps = [] ∧ ts = tokensOf ps 0 line

def Piece.isStray : Piece → Bool
  | stray _ => true
  | _ => false

/-- The pieces without the stray runs. -/
def swept (ps : List Piece) : List Piece := ps.filter (!·.isStray)

theorem swept_cons_stray (run : List Char) (ps : List Piece) : swept (.stray run :: ps) = swept ps := rfl

theorem swept_cons {p : Piece} (h : p.isStray = false) (ps : List Piece) : swept (p :: ps) = p :: swept ps := by
  rw [swept, List.filter_cons_of_pos (by simp [h])]
  rfl

theorem runsOf_swept : ∀ ps : List Piece, runsOf (swept ps) = []
  | [] => rfl
  | .stray _ :: ps => runsOf_swept ps
  | .space _ :: ps => runsOf_swept ps
  | .comment _ :: ps => runsOf_swept ps
  | .token _ _ _ :: ps => runsOf_swept ps

theorem noticesOf_eq_nil {ps : List Piece} {line : Nat} : noticesOf ps line = [] ↔ runsOf ps = [] := by
  rw [← List.length_eq_zero_iff, ← (noticesOf_runsOf ps line).length_eq, List.length_eq_zero_iff]

/-! ### What is behind a stray run -/

variable {rest : List Char}

theorem head?_swept_of_ends : ∀ {ps : List Piece}, AllFit ps rest → (∃ c ∈ (textOf ps ++ rest).head?, endsStray c = true) →
    (textOf (swept ps) ++ rest).head? = (textOf ps ++ rest).head?
  | [], _, _ => rfl
  | p :: ps, ⟨fits, _⟩, ⟨c, hc, ends⟩ => by
    obtain ⟨b, bs, text⟩ := List.exists_cons_of_ne_nil fits.ne_nil
    cases fits with
    | @stray run _ inside _ _ =>
      obtain rfl : run = b :: bs := text
      obtain rfl : b = c := by simpa [Piece.text] using hc
      simp [inside b List.mem_cons_self] at ends
    | _ =>
      rw [swept_cons rfl, textOf_cons, textOf_cons, text]
      rfl

theorem head?_swept {ps : List Piece} (h : AllFit ps rest) {c : Char} (hc : c ∈ (textOf (swept ps) ++ rest).head?) :
    c ∈ (textOf ps ++ rest).head? ∨ endsStray c = true := by
  cases ps with
  | nil => exact .inl hc
  | cons p ps =>
    obtain ⟨fits, h⟩ := h
    obtain ⟨b, bs, text⟩ := List.exists_cons_of_ne_nil fits.ne_nil
    cases fits with
    | stray _ ends _ =>
      rw [swept_cons_stray, head?_swept_of_ends h ends] at hc
      obtain ⟨d, hd, ends⟩ := ends
      obtain rfl : c = d := Option.some.inj (hc.symm.trans hd)
      exact .inr ends
    | _ =>
      refine .inl ?_
      rw [swept_cons rfl, textOf_cons, text] at hc
      rw [textOf_cons, text]
      exact hc

/-- **Without the stray runs the pieces still fit**: a token never goes on with what ends a stray run. -/
theorem allFit_swept : ∀ {ps : List Piece}, AllFit ps rest → AllFit (swept ps) rest
  | [], _ => trivial
  | p :: ps, ⟨fits, h⟩ => by
    have ih := allFit_swept h
    cases fits with
    | stray => exact ih
    | space space => exact ⟨.space space, ih⟩
    | comment comment => exact ⟨.comment comment, ih⟩
    | token spells stop =>
      refine ⟨.token spells fun c hc => ?_, ih⟩
      rcases head?_swept h hc with same | ends
      · exact stop c same
      · refine joins_separator spells ?_
        simp only [endsStray, Bool.or_eq_true, beq_iff_eq] at ends
        rcases ends with ((rfl | rfl) | rfl) | rfl <;> decide

theorem tokensOf_swept : ∀ {ps : List Piece}, AllFit ps rest → ∀ pos pos' line : Nat,
    (tokensOf (swept ps) pos line).map Token.unplaced = (tokensOf ps pos' line).map Token.unplaced
  | [], _, _, _, _ => rfl
  | p :: ps, ⟨fits, h⟩, pos, pos', line => by
    cases fits with
    | @stray run _ inside _ _ =>
      have newlines : run.count '\n' = 0 := List.count_eq_zero.2 fun hn => absurd (inside _ hn) (by decide)
      rw [swept_cons_stray, tokensOf_swept h pos (pos' + run.length) line, tokensOf]
      simp [Piece.tokens, Piece.text, newlines]
    | _ =>
      rw [swept_cons rfl, tokensOf, tokensOf, List.map_append, List.map_append, tokensOf_swept h]
      rfl

/-! ### Quiet readings -/

theorem covered_of_lex {line : Nat} {source : List Char} (stop : ∀ f, (lex source line).stop ≠ .fault f)
    (quiet : (lex source line).notices = []) : Covered source line (lex source line).tokens := by
  have closed : ∀ n, .unclosed n ∉ (lex source line).notices := by simp [quiet]
  obtain ⟨ps, rest, text, allFit, tokens, notices, -, ends⟩ := lex_cut closed
  obtain ⟨rfl, -⟩ | ⟨f, -, fault⟩ := ends
  · rw [List.append_nil] at text
    exact ⟨ps, text, allFit, noticesOf_eq_nil.1 (notices.symm.trans quiet), tokens⟩
  · exact absurd fault (stop f)

theorem Covered.quiet {line : Nat} {source : List Char} {ts : List Token} (h : Covered source line ts) :
    (lex source line).notices = [] := by
  obtain ⟨ps, rfl, allFit, none, -⟩ := h
  rw [lex_textOf allFit]
  exact noticesOf_eq_nil.2 none

end Token

theorem Parse.stop_of_errors_eq_nil {n : Nat} {ts : List Token} {stop : Token.Stop} {fs : List Node}
    (tree : (restarting (n + 1) true ts stop).functions = some fs) (clean : (restarting (n + 1) true ts stop).errors = [])
    (f : Fault) : stop ≠ .fault f := by
  rintro rfl
  obtain ⟨s, run⟩ := program_of_errors_eq_nil tree clean
  rw [restarting, run] at tree
  cases tree

theorem Text.length_le_unlines (ls : List String) : ls.length ≤ (unlines ls).length := by
  have longer (acc : String) : acc.length + ls.length ≤ (ls.foldl (fun acc l => acc ++ l ++ "\n") acc).length := by
    induction ls generalizing acc with
    | nil => simp
    | cons l ls ih =>
      have := ih (acc ++ l ++ "\n")
      simp only [String.length_append, List.length_cons, List.foldl_cons] at this ⊢
      rw [show "\n".length = 1 from rfl] at this
      omega
  have := longer ""
  rwa [show "".length = 0 from rfl, Nat.zero_add] at this

namespace Session

open Token

variable {s : Session} {source : String}

theorem compile_printed : (compile source s).2.printed =
    s.printed ++ Text.unlines ((read source s).1.notices.map Notice.message) := by
  have kept : (parse source (startAnew s).2).2.printed =
      s.printed ++ Text.unlines ((read source s).1.notices.map Notice.message) := rfl
  rw [compile_eq, ← kept]
  cases (reading s source).fault with
  | some f => rfl
  | none =>
    cases (reading s source).functions with
    | none => rfl
    | some fs =>
      dsimp only
      cases check fs <;> rfl

theorem compile_printed_eq : (compile source s).2.printed = s.printed ↔ (read source s).1.notices = [] := by
  rw [compile_printed]
  constructor
  · intro same
    have length := congrArg String.length same
    have longer := Text.length_le_unlines ((read source s).1.notices.map Notice.message)
    rw [String.length_append] at length
    rw [List.length_map] at longer
    exact List.length_eq_zero_iff.1 (by omega)
  · intro none
    rw [none]
    exact String.append_empty

/-- **Stray runs do not count**: without them the text has the same errors. -/
theorem compile_swept {ps : List Piece} (h : AllFit ps []) (s : Session) :
    (compile (String.ofList (textOf (swept ps))) s).1 = (compile (String.ofList (textOf ps)) s).1 := by
  have alike : (reading s (String.ofList (textOf (swept ps)))).Alike (reading s (String.ofList (textOf ps))) := by
    unfold reading
    rw [String.toList_ofList, String.toList_ofList, lex_textOf h, lex_textOf (allFit_swept h)]
    exact parse_alike (tokensOf_swept h 0 0 s.line) rfl
  rw [compile_fst, compile_fst, alike.errors, complaints, complaints, alike.functions, alike.fault]

/-- **An accepted text is covered by its tokens if and only if nothing was printed.**  The parser has taken all of its
tokens and left none.  But stray text is printed and does not count, so the tokens may not be all that stands in the text
besides spaces and complete comments; they are if nothing was printed, and only then.  If all comments are closed and the
stray runs are taken out of the text, what is left is accepted as well, and is covered. -/
theorem accepted_covered_iff (accepted : (compile source s).1 = []) :
    (∃ fs rest, (Parser.program (Parser.depth (read source s).1.tokens)).run { tokens := (read source s).1.tokens } =
      .ok fs rest ∧ rest.tokens = []) ∧
    ((compile source s).2.printed = s.printed ↔ Covered source.toList s.line (read source s).1.tokens) ∧
    ((∀ n, .unclosed n ∉ (read source s).1.notices) → ∃ ps, source.toList = textOf ps ∧ AllFit ps [] ∧
      (read source s).1.tokens = tokensOf ps 0 s.line ∧ (read source s).1.notices = noticesOf ps s.line ∧
      (compile (String.ofList (textOf (swept ps))) s).1 = [] ∧
      Covered (textOf (swept ps)) s.line (read (String.ofList (textOf (swept ps))) s).1.tokens) := by
  have scanned : (read source s).1 = lex source.toList s.line := rfl
  rw [compile_printed_eq, scanned]
  obtain ⟨-, fs, tree, -⟩ := functions_of_valid accepted
  have clean := (compile_eq_nil.1 accepted).1
  have stop := Parse.stop_of_errors_eq_nil tree clean
  refine ⟨?_, ⟨covered_of_lex stop, Covered.quiet⟩, fun closed => ?_⟩
  · obtain ⟨rest, run⟩ := Parse.program_of_errors_eq_nil tree clean
    have leads := Parser.program_leads (Parser.depth (lex source.toList s.line).tokens) (lex source.toList s.line).tokens []
    rw [run] at leads
    exact ⟨fs, rest, run, leads.1⟩
  · obtain ⟨ps, rest, text, allFit, tokens, notices, -, ends⟩ := lex_cut closed
    obtain ⟨rfl, -⟩ | ⟨f, -, fault⟩ := ends
    · rw [List.append_nil] at text
      have same : source = String.ofList (textOf ps) := by rw [← text, String.ofList_toList]
      refine ⟨ps, text, allFit, tokens, notices, ?_, swept ps, rfl, allFit_swept allFit, runsOf_swept ps, ?_⟩
      · rw [compile_swept allFit, ← same]
        exact accepted
      · show (lex (String.ofList (textOf (swept ps))).toList s.line).tokens = _
        rw [String.toList_ofList, lex_textOf (allFit_swept allFit)]
    · exact absurd fault (stop f)

/-- A program with stray text in front of it, inside of its parentheses and at its end. -/
def littered : String := "@ funk main(~~ ) <null> \x7b return; \x7d & "

theorem littered_swept : (compile littered {}).1 = [] ∧ (compile littered {}).2.printed ≠ "" ∧
    ¬ Covered littered.toList 1 (read littered {}).1.tokens ∧ ∃ ps, littered.toList = textOf ps ∧
      (noticesOf ps 1).length = 3 ∧ (compile (String.ofList (textOf (swept ps))) {}).1 = [] ∧
      Covered (textOf (swept ps)) 1 (read (String.ofList (textOf (swept ps))) {}).1.tokens := by
  have scanned : (read littered {}).1 = lex littered.toList 1 := rfl
  have evaluated : (compile littered {}).1 = [] ∧
      (lex littered.toList 1).notices = [.stray "@" 1, .stray "~~" 1, .stray "&" 1] := by
    rw [compile_fst, reading, littered, String.toList_ofList]
    decide +kernel
  obtain ⟨accepted, notices⟩ := evaluated
  have printed : (compile littered {}).2.printed ≠ "" := by
    intro quiet
    have none := compile_printed_eq.1 quiet
    rw [scanned, notices] at none
    cases none
  obtain ⟨-, covered, closed⟩ := accepted_covered_iff accepted
  rw [scanned, notices] at closed
  obtain ⟨ps, text, -, -, runs, swept⟩ := closed (by simp)
  refine ⟨accepted, printed, fun all => printed (covered.2 all), ps, text, ?_, swept⟩
  rw [show (1 : Nat) = ({} : Session).line from rfl, ← runs]
  rfl

/-- A text that is accepted with a stray character in front of it. -/
def strayText : String := "@ funk main() <null> \x7b return; \x7d"

/-- A text that is accepted with a comment behind it that is never closed. -/
def openText : String := "funk f()<null>\x7breturn;\x7d </   g()<null>\x7breturn;\x7d"

theorem strayTexts_not_covered :
    ((compile strayText {}).1 = [] ∧ ¬ Covered strayText.toList 1 (read strayText {}).1.tokens) ∧
      (compile openText {}).1 = [] ∧ ¬ Covered openText.toList 1 (read openText {}).1.tokens := by
  have evaluated : ∀ source ∈ [strayText, openText], (compile source {}).1 = [] ∧ (lex source.toList 1).notices ≠ [] := by
    simp only [compile_fst, reading]
    rw [List.forall_mem_cons, List.forall_mem_singleton, strayText, openText, String.toList_ofList, String.toList_ofList]
    decide +kernel
  have uncovered : ∀ source ∈ [strayText, openText], (compile source {}).1 = [] ∧
      ¬ Covered source.toList 1 (read source {}).1.tokens := fun source hs =>
    ⟨(evaluated source hs).1, fun covered => (evaluated source hs).2 (Covered.quiet covered)⟩
  exact ⟨uncovered strayText (by simp), uncovered openText (by simp)⟩

end Session
end TesLang
