import Mathlib.Data.List.Forall2
import TesLang.Proofs.Reading.Cutting
import TesLang.Session
/-!
# Tokens and gaps cover a text

If all comments of a text are closed, nothing of it is lost and nothing is read twice.  The tokens stand in the text one
behind another, each at its position and as long as what it is written as.  Before, between and behind them stand spaces,
complete comments, and the stray runs that were noticed (`Laid`).
-/
namespace TesLang

namespace Token

/-- The characters from one position up to another. -/
def slice (cs : List Char) (start stop : Nat) : List Char := (cs.take stop).drop start

/-- **What may stand between tokens**, in front of `rest`: spaces, complete comments, and the stray runs listed. -/
inductive Gap : List Char → (runs : List (List Char)) → (rest : List Char) → Prop where
  | nil {rest : List Char} : Gap [] [] rest
  | space {c : Char} {cs rest : List Char} {runs : List (List Char)} : isSpace c = true → Gap cs runs rest →
      Gap (c :: cs) runs rest
  | comment {comment cs rest : List Char} {runs : List (List Char)} : IsComment comment → Gap cs runs rest →
      Gap (comment ++ cs) runs rest
  | stray {run cs rest : List Char} {runs : List (List Char)} : Fits (.stray run) (cs ++ rest) → Gap cs runs rest →
      Gap (run ++ cs) (run :: runs) rest

/-- **The tokens stand in the text from `start` up to `upto`, each behind the one before it.**  What is between them are
gaps, with the stray runs listed, and the slice from the position of a token up to where the token stops is a way to write
the token. -/
inductive Laid (source : List Char) : (start : Nat) → List Token → (runs : List (List Char)) → (upto : Nat) → Prop where
  | nil {start upto : Nat} {runs : List (List Char)} : start ≤ upto → upto ≤ source.length →
      Gap (slice source start upto) runs (source.drop upto) → Laid source start [] runs upto
  | cons {start stop upto : Nat} {t : Token} {ts : List Token} {runs more : List (List Char)} :
      start ≤ t.pos → t.pos < stop → stop ≤ source.length → Gap (slice source start t.pos) runs (source.drop t.pos) →
      Spells t.kind t.value (slice source t.pos stop) → Laid source stop ts more upto →
      Laid source start (t :: ts) (runs ++ more) upto

theorem slice_append (a b c : List Char) : slice (a ++ b ++ c) a.length (a ++ b).length = b := by
  rw [slice, List.take_left, List.drop_left]

theorem Gap.append {a b rest : List Char} {runs more : List (List Char)} (ha : Gap a runs (b ++ rest))
    (hb : Gap b more rest) : Gap (a ++ b) (runs ++ more) rest := by
  generalize hr : b ++ rest = rest' at ha
  induction ha with
  | nil => exact hb
  | space space _ ih => exact .space space (ih hr)
  | comment comment _ ih =>
    rw [List.append_assoc]
    exact .comment comment (ih hr)
  | stray fits _ ih =>
    subst hr
    rw [List.append_assoc]
    refine .stray ?_ (ih rfl)
    rwa [List.append_assoc]

/-- The stray runs among the pieces. -/
def runsOf (ps : List Piece) : List (List Char) :=
  ps.flatMap fun
    | .stray run => [run]
    | _ => []

theorem laid_of_allFit {rest : List Char} : ∀ {ps : List Piece}, AllFit ps rest → ∀ (before gap : List Char)
    (runs : List (List Char)) (line : Nat), Gap gap runs (textOf ps ++ rest) →
    Laid (before ++ gap ++ (textOf ps ++ rest)) before.length (tokensOf ps (before ++ gap).length line) (runs ++ runsOf ps)
      (before ++ gap ++ textOf ps).length
  | [], _, before, gap, runs, line, hg => by
    rw [textOf_nil, List.nil_append, List.append_nil] at *
    rw [runsOf, List.flatMap_nil, List.append_nil]
    refine .nil (by simp) (by simp) ?_
    rwa [slice_append, List.drop_left]
  | p :: ps, ⟨fits, h⟩, before, gap, runs, line, hg => by
    rw [textOf_cons, List.append_assoc] at hg
    -- what is no token makes the gap longer
    have longer {more : List (List Char)} (hp : Gap p.text more (textOf ps ++ rest))
        (tokens : p.tokens (before ++ gap).length line = []) (stray : runsOf (p :: ps) = more ++ runsOf ps) :
        Laid (before ++ gap ++ (textOf (p :: ps) ++ rest)) before.length (tokensOf (p :: ps) (before ++ gap).length line)
          (runs ++ runsOf (p :: ps)) (before ++ gap ++ textOf (p :: ps)).length := by
      have := laid_of_allFit h before (gap ++ p.text) (runs ++ more) (line + p.text.count '\n') (hg.append hp)
      rw [tokensOf, tokens, stray]
      simpa [Nat.add_assoc] using this
    cases fits with
    | space space => exact longer (.space space .nil) rfl rfl
    | @comment c _ comment =>
      have hp : Gap (c ++ []) [] (textOf ps ++ rest) := .comment comment .nil
      rw [List.append_nil] at hp
      exact longer hp rfl rfl
    | @stray run _ inside ends none =>
      have hp : Gap (run ++ []) [run] (textOf ps ++ rest) := .stray (.stray inside ends none) .nil
      rw [List.append_nil] at hp
      exact longer hp rfl rfl
    | @token k v lexeme _ spells stop =>
      have more := laid_of_allFit h (before ++ gap ++ lexeme) [] [] (line + lexeme.count '\n') .nil
      have text : before ++ gap ++ (textOf (.token k v lexeme :: ps) ++ rest) =
          before ++ gap ++ lexeme ++ (textOf ps ++ rest) := by simp [Piece.text]
      have upto : before ++ gap ++ textOf (.token k v lexeme :: ps) = before ++ gap ++ lexeme ++ textOf ps := by
        simp [Piece.text]
      have next : (before ++ gap).length + lexeme.length = (before ++ gap ++ lexeme).length := List.length_append.symm
      have positive := List.length_pos_iff.2 spells.ne_nil
      rw [List.append_nil] at more
      rw [tokensOf, Piece.tokens, List.singleton_append, text, upto, Piece.text, next]
      refine .cons (by simp) (by simp; omega) (by simp) ?_ ?_ more
      · rw [List.append_assoc (before ++ gap), slice_append, List.drop_left]
        exact hg
      · rwa [slice_append]

theorem Laid.pos_lt {source : List Char} {start upto : Nat} {ts : List Token} {runs : List (List Char)}
    (h : Laid source start ts runs upto) : (ts.map Token.pos).Pairwise (· < ·) ∧ ∀ t ∈ ts, start ≤ t.pos := by
  induction h with
  | nil => simp
  | @cons start stop upto t ts runs more begins inside _ _ _ _ ih =>
    rw [List.map_cons, List.pairwise_cons, List.forall_mem_cons]
    refine ⟨⟨fun pos hp => ?_, ih.1⟩, begins, fun u hu => ?_⟩
    · obtain ⟨u, hu, rfl⟩ := List.mem_map.1 hp
      have := ih.2 u hu
      omega
    · have := ih.2 u hu
      omega

theorem noticesOf_runsOf (ps : List Piece) (line : Nat) :
    List.Forall₂ (fun run n => ∃ l, n = Notice.stray (String.ofList run) l) (runsOf ps) (noticesOf ps line) := by
  induction ps generalizing line with
  | nil => exact .nil
  | cons p ps ih =>
    cases p with
    | stray run => exact .cons ⟨_, rfl⟩ (ih _)
    | _ => exact ih _

end Token

namespace Session

open Token

/-- **Reading loses nothing and duplicates nothing.**  Take a text in which all comments are closed.  Its tokens stand in it
one behind another, each at its position; all that is before, between and behind them are spaces, complete comments and
stray runs.  The stray runs are what is printed, in their order.  If the reading is finished the tokens and gaps reach to
the end of the text, and if it ended at a fault, to a place where the text cannot be read. -/
theorem tokens_laid {s : Session} {source : String} (closed : ∀ n, .unclosed n ∉ (read source s).1.notices) : ∃ runs upto,
    Laid source.toList 0 (read source s).1.tokens runs upto ∧
    ((read source s).1.tokens.map Token.pos).Pairwise (· < ·) ∧
    List.Forall₂ (fun run n => ∃ line, n = Notice.stray (String.ofList run) line) runs (read source s).1.notices ∧
    (read source s).2.printed = s.printed ++ Text.unlines ((read source s).1.notices.map Notice.message) ∧
    (((read source s).1.stop = .finished ∧ upto = source.toList.length) ∨
      ∃ f, (read source s).1.stop = .fault f ∧ Stuck (.fault f) (source.toList.drop upto)) := by
  have scanned : (read source s).1 = lex source.toList s.line := rfl
  rw [scanned] at closed ⊢
  obtain ⟨ps, rest, text, allFit, tokens, notices, -, ends⟩ := lex_cut closed
  have laid := laid_of_allFit allFit [] [] [] s.line .nil
  simp only [List.nil_append, List.length_nil, ← text, ← tokens] at laid
  refine ⟨runsOf ps, (textOf ps).length, laid, laid.pos_lt.1, notices ▸ noticesOf_runsOf ps s.line, rfl, ?_⟩
  rcases ends with ⟨rfl, finished⟩ | ⟨f, stuck, fault⟩
  · exact .inl ⟨finished, by simp [text]⟩
  · refine .inr ⟨f, fault, ?_⟩
    rwa [text, List.drop_left]

/-- A text with tokens of every sort, a comment in a comment, a stray run, and another one at its end, which cannot be
read. -/
def motley : String := "while </ a </ b\n /> /> n<=10 @~ 'it\\'s';\n ~~"

theorem motley_laid : (∀ n, .unclosed n ∉ (read motley {}).1.notices) ∧ (read motley {}).1.tokens.length = 6 ∧
    (read motley {}).1.stop = .fault .runsOff ∧ ∃ runs upto,
      Laid motley.toList 0 (read motley {}).1.tokens runs upto ∧
      ((read motley {}).1.tokens.map Token.pos).Pairwise (· < ·) ∧
      List.Forall₂ (fun run n => ∃ line, n = Notice.stray (String.ofList run) line) runs (read motley {}).1.notices ∧
      (read motley {}).2.printed = "" ++ Text.unlines ((read motley {}).1.notices.map Notice.message) ∧
      (((read motley {}).1.stop = .finished ∧ upto = motley.toList.length) ∨
        ∃ f, (read motley {}).1.stop = .fault f ∧ Stuck (.fault f) (motley.toList.drop upto)) := by
  have scanned : (read motley {}).1 = lex motley.toList 1 := rfl
  have evaluated : (lex motley.toList 1).notices = [.stray "@~" 2] ∧ (lex motley.toList 1).tokens.length = 6 ∧
      (lex motley.toList 1).stop = .fault .runsOff := by
    rw [motley, String.toList_ofList]
    decide +kernel
  have closed : ∀ n, .unclosed n ∉ (read motley {}).1.notices := by
    rw [scanned, evaluated.1]
    simp
  exact ⟨closed, evaluated.2.1, evaluated.2.2, tokens_laid closed⟩

end Session
end TesLang
