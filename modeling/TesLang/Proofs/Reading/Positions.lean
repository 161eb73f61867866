import Mathlib.Data.Prod.Lex
import TesLang.Proofs.Reading.Coverage
/-!
# Lines and columns of tokens

Line ends are counted in two places while a text is read, in runs of line ends and inside comments, and nowhere else:
tokens and stray runs hold none.  So if all comments are closed, the line of a token is the number of line ends before it,
counted from the line on which the text starts (`line_of_mem_tokensOf`).

The column of a position is its distance from the start of its line (`LineFrom`).  Further on in a text is further down, or
further right on the same line (`place_lt`).
-/
namespace TesLang

namespace Token

open Text (column lineStart)

/-- **A line of the text starts at `start`**, at the head of the text or behind a line end, and `pos` is on it. -/
structure LineFrom (source : List Char) (start pos : Nat) : Prop where
  le : start ≤ pos
  first : start = 0 ∨ source[start - 1]? = some '\n'
  same : '\n' ∉ slice source start pos

theorem take_eq_append_slice (source : List Char) {p q : Nat} (h : p ≤ q) :
    source.take q = source.take p ++ slice source p q := by
  have first : (source.take q).take p = source.take p := by rw [List.take_take, Nat.min_eq_left h]
  rw [slice, ← first, List.take_append_drop]

theorem lineStart_append (before : List Char) {line : List Char} (none : '\n' ∉ line) (rest : List Char) :
    lineStart (before ++ line ++ rest) (before ++ line).length = lineStart before before.length := by
  have inside : ∀ c ∈ line.reverse, decide (c ≠ '\n') = true := by
    intro c hc
    refine decide_eq_true ?_
    rintro rfl
    exact none (List.mem_reverse.1 hc)
  unfold lineStart
  dsimp only
  rw [List.take_left, List.take_length, List.reverse_append, List.takeWhile_append_of_pos inside]
  simp only [List.length_append, List.length_reverse]
  omega

theorem lineFrom_lineStart {source : List Char} {pos : Nat} (h : pos ≤ source.length) :
    LineFrom source (lineStart source pos) pos := by
  have split : (source.take pos).reverse.takeWhile (· ≠ '\n') ++ (source.take pos).reverse.dropWhile (· ≠ '\n') =
      (source.take pos).reverse := List.takeWhile_append_dropWhile
  have inside : '\n' ∉ (source.take pos).reverse.takeWhile (· ≠ '\n') := fun hn => by
    simpa using List.all_eq_true.1 List.all_takeWhile _ hn
  have stop : ∀ c ∈ ((source.take pos).reverse.dropWhile (· ≠ '\n')).head?, c = '\n' := fun c hc => by
    simpa using head?_dropWhile (· ≠ '\n') _ c hc
  unfold lineStart
  dsimp only
  generalize (source.take pos).reverse.takeWhile (· ≠ '\n') = line at split inside ⊢
  generalize (source.take pos).reverse.dropWhile (· ≠ '\n') = before at split stop
  have whole : source.take pos = before.reverse ++ line.reverse := by
    rw [← List.reverse_append, split, List.reverse_reverse]
  have length : (source.take pos).length = pos := List.length_take_of_le h
  have start : (source.take pos).length - line.length = before.reverse.length := by simp [whole]
  rw [start]
  refine ⟨?_, ?_, ?_⟩
  · rw [← length, whole, List.length_append]
    omega
  · cases before with
    | nil => exact .inl rfl
    | cons c before =>
      obtain rfl := stop c rfl
      have within : before.length < pos := by
        rw [← length, whole]
        simp
      right
      rw [← List.getElem?_take_of_lt (j := pos) (by simpa using within), whole]
      simp
  · rw [slice, whole, List.drop_left]
    simpa using inside

/-- **Further on in a text is further down, or further right on the same line.** -/
theorem place_lt {source : List Char} {p q : Nat} (h : p < q) (hq : q ≤ source.length) :
    (source.take p).count '\n' < (source.take q).count '\n' ∨
      (source.take p).count '\n' = (source.take q).count '\n' ∧ column source p < column source q := by
  have between := take_eq_append_slice source h.le
  by_cases newline : '\n' ∈ slice source p q
  · left
    have := List.count_pos_iff.2 newline
    rw [between, List.count_append]
    omega
  · right
    have same : lineStart source q = lineStart source p := by
      have whole : source = source.take p ++ slice source p q ++ source.drop q := by
        rw [← between, List.take_append_drop]
      have hp : (source.take p).length = p := List.length_take_of_le (h.le.trans hq)
      have hpq : (source.take p ++ slice source p q).length = q := by rw [← between, List.length_take_of_le hq]
      have here := lineStart_append (source.take p) newline (source.drop q)
      have there := lineStart_append (source.take p) List.not_mem_nil (source.drop p)
      rw [← whole, hpq] at here
      rw [List.append_nil, List.take_append_drop] at there
      rw [here, ← there, hp]
    have := (lineFrom_lineStart (h.le.trans hq)).le
    refine ⟨by rw [between, List.count_append, List.count_eq_zero.2 newline, Nat.add_zero], ?_⟩
    unfold column
    omega

theorem line_of_mem_tokensOf {line : Nat} (rest : List Char) {t : Token} : ∀ {ps : List Piece} (before : List Char),
    t ∈ tokensOf ps before.length (line + before.count '\n') →
      t.pos ≤ (before ++ textOf ps).length ∧ t.line = line + ((before ++ (textOf ps ++ rest)).take t.pos).count '\n'
  | [], _, h => by cases h
  | p :: ps, before, h => by
    rw [tokensOf] at h
    rcases List.mem_append.1 h with h | h
    · cases p with
      | token k v cs =>
        obtain rfl := List.mem_singleton.1 h
        rw [List.take_left]
        exact ⟨by simp, rfl⟩
      | _ => cases h
    · rw [Nat.add_assoc, ← List.count_append, ← List.length_append] at h
      obtain ⟨within, line⟩ := line_of_mem_tokensOf rest _ h
      rw [textOf_cons]
      simp only [List.append_assoc] at within line ⊢
      exact ⟨within, line⟩

end Token

namespace Session

open Token Text

/-- **Positions are exact.**  Take a text in which all comments are closed, and let it start on any line.  The line of each
token is the number of line ends before it, counted from there, and its column is one more than its distance from the start
of that line.  Along the tokens, lines and columns go strictly up.  A text that is read to its end leaves the line count at
the number of its line ends, counted from where it started. -/
theorem positions_exact {s : Session} {source : String} (closed : ∀ n, .unclosed n ∉ (read source s).1.notices) :
    (∀ t ∈ (read source s).1.tokens, t.line = s.line + (source.toList.take t.pos).count '\n' ∧
      ∃ start, LineFrom source.toList start t.pos ∧ column source.toList t.pos = 1 + (t.pos - start)) ∧
    ((read source s).1.tokens.map fun t => toLex (t.line, column source.toList t.pos)).Pairwise (· < ·) ∧
    ((read source s).1.stop = .finished → (read source s).2.line = s.line + source.toList.count '\n') := by
  have scanned : (read source s).1 = lex source.toList s.line ∧ (read source s).2.line = (lex source.toList s.line).line :=
    ⟨rfl, rfl⟩
  rw [scanned.2]
  rw [scanned.1] at closed ⊢
  obtain ⟨ps, rest, text, allFit, tokens, -, line, ends⟩ := lex_cut closed
  have laid := laid_of_allFit allFit [] [] [] s.line .nil
  simp only [List.nil_append, List.length_nil, ← text, ← tokens] at laid
  have place : ∀ t ∈ (lex source.toList s.line).tokens,
      t.pos ≤ source.toList.length ∧ t.line = s.line + (source.toList.take t.pos).count '\n' := by
    intro t ht
    rw [tokens] at ht
    obtain ⟨within, line⟩ := line_of_mem_tokensOf rest [] ht
    rw [List.nil_append] at within line
    rw [text]
    exact ⟨within.trans (by simp), line⟩
  refine ⟨fun t ht => ?_, ?_, fun finished => ?_⟩
  · obtain ⟨within, line⟩ := place t ht
    exact ⟨line, _, lineFrom_lineStart within, Nat.add_comm _ _⟩
  · rw [List.pairwise_map]
    refine (List.pairwise_map.1 laid.pos_lt.1).imp_of_mem fun {t u} ht hu before => ?_
    obtain ⟨-, line⟩ := place t ht
    obtain ⟨within, line'⟩ := place u hu
    rw [Prod.Lex.toLex_lt_toLex, line, line']
    exact (place_lt before within).imp (fun below => by omega) fun ⟨same, right⟩ => ⟨by omega, right⟩
  · rcases ends with ⟨rfl, -⟩ | ⟨f, -, fault⟩
    · rw [line, text, List.append_nil]
    · rw [fault] at finished
      cases finished

/-- A text with a comment over several lines, a string with a quote in it, a stray run, and line ends in a row. -/
def scattered : String := "a </ x\n </ \n/> /> 'it\\'s'\n\n  @# = 7;\n"

theorem scattered_positions : (∀ n, .unclosed n ∉ (read scattered { line := 5 }).1.notices) ∧
    ((read scattered { line := 5 }).1.tokens.map fun t => (t.line, column scattered.toList t.pos)) =
      [(5, 1), (7, 7), (9, 6), (9, 8), (9, 9)] ∧ (read scattered { line := 5 }).1.stop = .finished ∧
    (∀ t ∈ (read scattered { line := 5 }).1.tokens, t.line = 5 + (scattered.toList.take t.pos).count '\n' ∧
      ∃ start, LineFrom scattered.toList start t.pos ∧ column scattered.toList t.pos = 1 + (t.pos - start)) ∧
    ((read scattered { line := 5 }).1.tokens.map fun t => toLex (t.line, column scattered.toList t.pos)).Pairwise (· < ·) ∧
    ((read scattered { line := 5 }).1.stop = .finished →
      (read scattered { line := 5 }).2.line = 5 + scattered.toList.count '\n') := by
  have scanned : (read scattered { line := 5 }).1 = lex scattered.toList 5 := rfl
  have evaluated : (lex scattered.toList 5).notices = [.stray "@#" 9] ∧
      ((lex scattered.toList 5).tokens.map fun t => (t.line, column scattered.toList t.pos)) =
        [(5, 1), (7, 7), (9, 6), (9, 8), (9, 9)] ∧ (lex scattered.toList 5).stop = .finished := by
    rw [scattered, String.toList_ofList]
    decide +kernel
  have closed : ∀ n, .unclosed n ∉ (read scattered { line := 5 }).1.notices := by
    rw [scanned, evaluated.1]
    simp
  exact ⟨closed, evaluated.2.1, evaluated.2.2, positions_exact closed⟩

end Session
end TesLang
