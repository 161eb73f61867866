import TesLang.Proofs.Reading.Lexemes
import TesLang.Token.Scan
/-!
# Cutting a text into pieces

To read a text is to cut it into pieces, of which each fits in front of those behind it (`AllFit`).  The tokens of the text
are those among its pieces, and their positions and lines are the numbers of characters and line ends in the pieces before
them (`tokensOf`); the stray runs among the pieces are what is noticed (`noticesOf`).

If all comments are closed, every text is cut up to its end, or up to where it cannot be read (`lex_cut`).
-/
namespace TesLang.Token

namespace Scan

/-- Tokens and notices, then the rest of the reading. -/
def behind (s : Scan) (ts : List Token) (ns : List Notice) : Scan :=
  { s with tokens := ts ++ s.tokens, notices := ns ++ s.notices }

@[simp] theorem behind_nil (s : Scan) : s.behind [] [] = s := rfl

theorem behind_behind (s : Scan) (ts ts' : List Token) (ns ns' : List Notice) :
    (s.behind ts' ns').behind ts ns = s.behind (ts ++ ts') (ns ++ ns') := by
  simp [behind]

end Scan

def Piece.tokens (pos line : Nat) : Piece → List Token
  | token kind value _ => [⟨kind, value, line, pos⟩]
  | _ => []

def Piece.notices (line : Nat) : Piece → List Notice
  | stray run => [.stray (String.ofList run) line]
  | _ => []

/-- The text that some pieces make up. -/
def textOf (ps : List Piece) : List Char := ps.flatMap Piece.text

/-- The tokens among pieces that start at position `pos` on line `line`. -/
def tokensOf : List Piece → (pos line : Nat) → List Token
  | [], _, _ => []
  | p :: ps, pos, line => p.tokens pos line ++ tokensOf ps (pos + p.text.length) (line + p.text.count '\n')

/-- What is noticed of pieces that start on line `line`. -/
def noticesOf : List Piece → (line : Nat) → List Notice
  | [], _ => []
  | p :: ps, line => p.notices line ++ noticesOf ps (line + p.text.count '\n')

/-- **Each piece fits** in front of the pieces behind it and the rest. -/
def AllFit : List Piece → (rest : List Char) → Prop
  | [], _ => True
  | p :: ps, rest => Fits p (textOf ps ++ rest) ∧ AllFit ps rest

@[simp] theorem textOf_nil : textOf [] = [] := rfl

@[simp] theorem textOf_cons (p : Piece) (ps : List Piece) : textOf (p :: ps) = p.text ++ textOf ps := rfl

@[simp] theorem textOf_append (ps qs : List Piece) : textOf (ps ++ qs) = textOf ps ++ textOf qs := List.flatMap_append

theorem tokensOf_append (ps qs : List Piece) (pos line : Nat) : tokensOf (ps ++ qs) pos line =
    tokensOf ps pos line ++ tokensOf qs (pos + (textOf ps).length) (line + (textOf ps).count '\n') := by
  induction ps generalizing pos line with
  | nil => simp [tokensOf]
  | cons p ps ih => simp [tokensOf, ih, Nat.add_assoc]

theorem noticesOf_append (ps qs : List Piece) (line : Nat) : noticesOf (ps ++ qs) line =
    noticesOf ps line ++ noticesOf qs (line + (textOf ps).count '\n') := by
  induction ps generalizing line with
  | nil => simp [noticesOf]
  | cons p ps ih => simp [noticesOf, ih, Nat.add_assoc]

theorem allFit_append {ps qs : List Piece} {rest : List Char} :
    AllFit (ps ++ qs) rest ↔ AllFit ps (textOf qs ++ rest) ∧ AllFit qs rest := by
  induction ps with
  | nil => simp [AllFit]
  | cons p ps ih => simp [AllFit, ih, and_assoc]

/-! ### Reading pieces -/

theorem scan_skip (cs rest : List Char) (pos line : Nat) :
    scan (cs ++ rest) cs.length pos line = scan rest 0 (pos + cs.length) line := by
  induction cs generalizing pos with
  | nil => rfl
  | cons c cs ih =>
    rw [List.cons_append, List.length_cons, scan, ih]
    congr 1
    omega

section

variable {c : Char} {cs rest : List Char} {pos line : Nat}

theorem scan_gap {newlines : Nat} (h : step c (cs ++ rest) (c :: cs ++ rest) = .gap cs.length newlines) :
    scan (c :: cs ++ rest) 0 pos line = scan rest 0 (pos + (c :: cs).length) (line + newlines) := by
  rw [List.cons_append] at h ⊢
  rw [scan, h]
  dsimp only
  rw [scan_skip, List.length_cons, Nat.add_assoc, Nat.add_comm 1]

theorem scan_token {k : Kind} {v : Value} (h : step c (cs ++ rest) (c :: cs ++ rest) = .token k v cs.length) :
    scan (c :: cs ++ rest) 0 pos line = (scan rest 0 (pos + (c :: cs).length) line).token ⟨k, v, line, pos⟩ := by
  rw [List.cons_append] at h ⊢
  rw [scan, h]
  dsimp only
  rw [scan_skip, List.length_cons, Nat.add_assoc, Nat.add_comm 1]

theorem scan_stray (h : step c (cs ++ rest) (c :: cs ++ rest) = .stray (c :: cs)) : scan (c :: cs ++ rest) 0 pos line =
    (scan rest 0 (pos + (c :: cs).length) line).notice (.stray (String.ofList (c :: cs)) line) := by
  rw [List.cons_append] at h ⊢
  rw [scan, h]
  dsimp only
  rw [List.length_cons, Nat.add_sub_cancel, scan_skip, Nat.add_assoc, Nat.add_comm 1]

end

theorem scan_newline (cs : List Char) (pos line : Nat) :
    scan ('\n' :: cs) 0 pos line = scan cs 0 (pos + 1) (line + 1) := by
  have run (cs : List Char) (pos line : Nat) : scan ('\n' :: cs) 0 pos line =
      scan (cs.dropWhile (· = '\n')) 0 (pos + ((cs.takeWhile (· = '\n')).length + 1))
        (line + ((cs.takeWhile (· = '\n')).length + 1)) := by
    have start : isWordStart '\n' = false ∧ Text.isDigit '\n' = false := by decide
    have whole : cs.takeWhile (· = '\n') ++ cs.dropWhile (· = '\n') = cs := List.takeWhile_append_dropWhile
    have read := @scan_gap '\n' (cs.takeWhile (· = '\n')) (cs.dropWhile (· = '\n')) pos line
      ((cs.takeWhile (· = '\n')).length + 1)
    rw [List.cons_append, whole] at read
    exact read (by simp [step, start])
  rw [run]
  cases cs with
  | nil => simp
  | cons c cs =>
    by_cases hc : c = '\n'
    · subst hc
      rw [run cs]
      congr 1 <;> simp <;> omega
    · simp [hc]

/-- **A piece that fits is read as what it is.** -/
theorem scan_fits {p : Piece} {rest : List Char} (h : Fits p rest) (pos line : Nat) : scan (p.text ++ rest) 0 pos line =
    (scan rest 0 (pos + p.text.length) (line + p.text.count '\n')).behind (p.tokens pos line) (p.notices line) := by
  cases h with
  | @space c rest space =>
    simp only [isSpace, Bool.or_eq_true, beq_iff_eq] at space
    rcases space with blank | rfl
    · have newlines : [c].count '\n' = 0 := by rcases blank with rfl | rfl <;> decide
      have read : step c ([] ++ rest) (c :: [] ++ rest) = .gap 0 0 := by simp [step, blank]
      simp only [Piece.text, newlines]
      exact scan_gap read
    · exact scan_newline rest pos line
  | comment comment =>
    obtain ⟨body, rfl⟩ := comment.opens
    exact scan_gap (step_comment comment rest)
  | @token k v lexeme rest spells stop =>
    obtain ⟨c, cs, rfl, read⟩ := step_token spells stop (lexeme ++ rest)
    have newlines : (c :: cs).count '\n' = 0 := List.count_eq_zero.2 spells.no_newline
    simp only [Piece.text, newlines]
    exact scan_token read
  | @stray run rest inside ends none =>
    have fits : Fits (.stray run) rest := .stray inside ends none
    obtain ⟨c, run, rfl⟩ := List.exists_cons_of_ne_nil fits.ne_nil
    have newlines : (c :: run).count '\n' = 0 := List.count_eq_zero.2 fun hn => absurd (inside _ hn) (by decide)
    simp only [Piece.text, newlines]
    exact scan_stray (step_stray fits)

theorem scan_allFit : ∀ {ps : List Piece} {rest : List Char}, AllFit ps rest → ∀ pos line : Nat,
    scan (textOf ps ++ rest) 0 pos line = (scan rest 0 (pos + (textOf ps).length) (line + (textOf ps).count '\n')).behind
      (tokensOf ps pos line) (noticesOf ps line)
  | [], _, _, _, _ => rfl
  | p :: ps, rest, ⟨fits, h⟩, pos, line => by
    rw [textOf_cons, List.append_assoc, scan_fits fits, scan_allFit h, Scan.behind_behind]
    simp [tokensOf, noticesOf, Nat.add_assoc]

/-- **A text that is cut up to its end** has the tokens of its pieces. -/
theorem lex_textOf {ps : List Piece} (h : AllFit ps []) (line : Nat) : lex (textOf ps) line =
    { tokens := tokensOf ps 0 line, notices := noticesOf ps line, line := line + (textOf ps).count '\n' } := by
  have read := scan_allFit h 0 line
  rw [List.append_nil] at read
  simp [lex, read, scan, Scan.behind, Scan.orAgain]

/-! ### Every text is cut -/

theorem exists_cut (source : List Char) : ∃ ps rest, source = textOf ps ++ rest ∧ AllFit ps rest ∧
    (rest = [] ∨ ∃ r, Stuck r rest) := by
  by_cases nil : source = []
  · exact ⟨[], source, rfl, trivial, .inl nil⟩
  rcases fits_or_stuck nil with ⟨p, rest, text, fits⟩ | stuck
  · have shorter : rest.length < source.length := by
      have := List.length_pos_iff.2 fits.ne_nil
      simp [text]
      omega
    obtain ⟨ps, rest', rfl, allFit, ends⟩ := exists_cut rest
    exact ⟨p :: ps, rest', by simp [text], ⟨fits, allFit⟩, ends⟩
  · exact ⟨[], source, rfl, trivial, .inr stuck⟩
termination_by source.length

theorem scan_stuck {r : Step} {cs : List Char} (h : Stuck r cs) (pos line : Nat) :
    (r = .unclosed ∧ scan cs 0 pos line = { line, notices := [.unclosed line], stop := .unclosed pos }) ∨
      ∃ f, r = .fault f ∧ scan cs 0 pos line = .fault f line := by
  obtain ⟨c, cs, rfl⟩ := List.exists_cons_of_ne_nil h.ne_nil
  have read := step_of_stuck h
  rw [scan, read]
  cases h with
  | unclosed => exact .inl ⟨rfl, rfl⟩
  | digits | runsOff => exact .inr ⟨_, rfl, rfl⟩

/-- **Reading a text in which all comments are closed** cuts it into pieces, up to its end or to where it cannot be read. -/
theorem lex_cut {source : List Char} {line : Nat} (closed : ∀ n, .unclosed n ∉ (lex source line).notices) : ∃ ps rest,
    source = textOf ps ++ rest ∧ AllFit ps rest ∧ (lex source line).tokens = tokensOf ps 0 line ∧
    (lex source line).notices = noticesOf ps line ∧ (lex source line).line = line + (textOf ps).count '\n' ∧
    (rest = [] ∧ (lex source line).stop = .finished ∨ ∃ f, Stuck (.fault f) rest ∧ (lex source line).stop = .fault f) := by
  obtain ⟨ps, rest, rfl, allFit, ends⟩ := exists_cut source
  refine ⟨ps, rest, rfl, allFit, ?_⟩
  rcases ends with rfl | ⟨r, stuck⟩
  · simp [lex_textOf allFit]
  · have read := scan_allFit allFit 0 line
    rw [Nat.zero_add] at read
    rcases scan_stuck stuck (textOf ps).length (line + (textOf ps).count '\n') with ⟨-, ends⟩ | ⟨f, rfl, ends⟩
    · refine absurd ?_ (closed (line + (textOf ps).count '\n'))
      simp [lex, read, ends, Scan.behind, Scan.orAgain]
    · simp [lex, read, ends, Scan.behind, Scan.orAgain, Scan.fault, stuck]

end TesLang.Token
