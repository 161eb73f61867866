import TesLang.Proofs.Reading.Skipping
/-!
# Reading a text ends

A reading is looked at in its smallest moves (`Cursor.move?`): a rule that is applied, or one turn of a loop.  There are two
loops.  One looks for the end of a comment, mark by mark and character by character; the other goes through stray text.
Each move gets further in the text (`move_advances`) and leaves what is found in the whole text as it was (`whole_move`).
So a text has at most as many moves as characters, and the last position tells how the reading ends (`reading_terminates`).
-/
namespace TesLang.Token

/-- Where a reading is: between the pieces of the text, in a comment that was opened at `start` on line `line` with `depth`
comments around it, or in stray text of which some is passed. -/
inductive Mode where
  | outside
  | comment (depth start line : Nat)
  | stray (run : List Char)
  deriving DecidableEq

/-- **How far a reading has come**: what is ahead and where, and what was found before. -/
structure Cursor where
  ahead : List Char
  pos : Nat := 0
  line : Nat
  mode : Mode := .outside
  tokens : List Token := []
  notices : List Notice := []
  deriving DecidableEq

namespace Cursor

/-- So many characters further. -/
def advance (r : Cursor) (n : Nat) : Cursor := { r with ahead := r.ahead.drop n, pos := r.pos + n }

/-- One turn in stray text: the first character is passed, and the second tells whether the stray text ends there. -/
def strayTurn? (r : Cursor) (run : List Char) : Option Cursor :=
  match r.ahead with
  | c :: d :: _ =>
    if endsStray d then
      some { r.advance 1 with
        mode := .outside, notices := r.notices ++ [.stray (String.ofList (run ++ [c])) r.line] }
    else some { r.advance 1 with mode := .stray (run ++ [c]) }
  | _ => none

/-- One turn in a comment. -/
def commentTurn? (r : Cursor) (depth start line : Nat) : Option Cursor :=
  match r.ahead with
  | [] => none
  | '<' :: '/' :: _ => some { r.advance 2 with mode := .comment (depth + 1) start line }
  | '/' :: '>' :: _ =>
    match depth with
    | 0 => some { r.advance 2 with mode := .outside }
    | depth + 1 => some { r.advance 2 with mode := .comment depth start line }
  | c :: _ => some { r.advance 1 with
      mode := .comment depth start line, line := if c = '\n' then r.line + 1 else r.line }

/-- The rule that applies is applied. -/
def ruleTurn? (r : Cursor) : Option Cursor :=
  match r.ahead with
  | [] => none
  | c :: cs =>
    if c = '<' ∧ cs.head? = some '/' then
      some { r.advance 2 with mode := .comment 0 r.pos r.line }
    else
      match step c cs (c :: cs) with
      | .gap extra newlines => some { r.advance (extra + 1) with line := r.line + newlines }
      | .token kind value extra =>
        some { r.advance (extra + 1) with tokens := r.tokens ++ [⟨kind, value, r.line, r.pos⟩] }
      | .stray _ | .fault .runsOff => r.strayTurn? []
      | .unclosed | .fault _ => none

/-- **One move of a reading**, if it can go on. -/
def move? (r : Cursor) : Option Cursor :=
  match r.mode with
  | .outside => r.ruleTurn?
  | .comment depth start line => r.commentTurn? depth start line
  | .stray run => r.strayTurn? run

/-- Some moves in a row. -/
def moves? : Nat → Cursor → Option Cursor
  | 0, r => some r
  | n + 1, r => r.move?.bind (moves? n)

/-- What is found from here on, if stray text is ahead of which `run` is passed already. -/
def strayScan (r : Cursor) (run : List Char) : Scan :=
  match r.ahead with
  | [] => .fault .runsOff r.line
  | c :: cs =>
    let more := cs.takeWhile (!endsStray ·)
    if more.length < cs.length then
      (scan (cs.drop more.length) 0 (r.pos + 1 + more.length) r.line).notice (.stray (String.ofList (run ++ c :: more)) r.line)
    else .fault .runsOff r.line

/-- What is found from here on in a comment. -/
def commentScan (r : Cursor) (depth start line : Nat) : Scan :=
  match closing? depth 0 0 r.ahead with
  | some (taken, newlines) => scan (r.ahead.drop taken) 0 (r.pos + taken) (r.line + newlines)
  | none => { line, notices := [.unclosed line], stop := .unclosed start }

/-- What is found in the whole text, up to a comment that is left open. -/
def found (r : Cursor) : Scan :=
  Scan.behind (match r.mode with
    | .outside => scan r.ahead 0 r.pos r.line
    | .comment depth start line => r.commentScan depth start line
    | .stray run => r.strayScan run) r.tokens r.notices

end Cursor

/-! ### What a rule covers -/

/-- **What can stand at the head of a text**: a comment is opened, or there is a gap or a token within the text, or a number
is too long, or the text is stray and its first character does not end stray text. -/
theorem step_cases (c : Char) (cs : List Char) : c = '<' ∧ cs.head? = some '/' ∨
    (∃ extra newlines, extra ≤ cs.length ∧ step c cs (c :: cs) = .gap extra newlines) ∨
    (∃ kind value extra, extra ≤ cs.length ∧ step c cs (c :: cs) = .token kind value extra) ∨
    (∃ n, step c cs (c :: cs) = .fault (.tooManyDigits n)) ∨
    endsStray c = false ∧ step c cs (c :: cs) = strayStep (c :: cs) := by
  have within (p : Char → Bool) : (cs.takeWhile p).length ≤ cs.length := (List.takeWhile_sublist p).length_le
  generalize read : step c cs (c :: cs) = r
  unfold step at read
  split at read
  · exact .inr (.inl ⟨_, _, Nat.zero_le _, read.symm⟩)
  split at read
  · exact .inr (.inr (.inl ⟨_, _, _, within isWordPart, read.symm⟩))
  split at read
  · dsimp only at read
    split at read
    · exact .inr (.inr (.inr (.inl ⟨_, read.symm⟩)))
    · exact .inr (.inr (.inl ⟨_, _, _, within Text.isDigit, read.symm⟩))
  split at read
  · exact .inr (.inl ⟨_, _, within (· = '\n'), read.symm⟩)
  split at read
  · next opens => exact .inl opens
  next blank _ _ newline _ =>
  split at read
  · next body quoted =>
    split at quoted
    · obtain ⟨-, rest, rfl⟩ := of_quoted? quoted
      exact .inr (.inr (.inl ⟨_, _, _, by simp, read.symm⟩))
    · cases quoted
  split at read
  · next symbol =>
    have short := (prefix_of_symbol? symbol).length_le
    rw [String.length_toList, List.length_cons] at short
    exact .inr (.inr (.inl ⟨_, _, _, Nat.sub_le_of_le_add short, read.symm⟩))
  · next symbol =>
    refine .inr (.inr (.inr (.inr ⟨Bool.eq_false_iff.2 fun ends => ?_, read.symm⟩)))
    simp only [endsStray, Bool.or_eq_true, beq_iff_eq] at ends
    rcases ends with ((rfl | rfl) | rfl) | rfl
    · exact blank (.inl rfl)
    · have := List.find?_eq_none.1 symbol (";", .semicolon) (by decide)
      exact this (List.isPrefixOf_iff_prefix.2 (by simp))
    · exact newline rfl
    · exact blank (.inr rfl)

theorem closing?_shift (depth taken newlines : Nat) (cs : List Char) :
    closing? depth taken newlines cs = (closing? depth 0 0 cs).map fun p => (taken + p.1, newlines + p.2) := by
  cases closed : closing? depth 0 0 cs with
  | none =>
    refine Option.eq_none_iff_forall_ne_some.2 fun p found => ?_
    obtain ⟨body, rest, rfl, closes⟩ := exists_closes (Option.isSome_of_eq_some found)
    simp [closing?_append rest closes] at closed
  | some p =>
    obtain ⟨body, rest, rfl, closes⟩ := exists_closes (Option.isSome_of_eq_some closed)
    rw [closing?_append rest closes] at closed ⊢
    obtain rfl := Option.some.inj closed
    simp

namespace Cursor

variable {r r' : Cursor} {run : List Char} {depth start line : Nat}

/-! ### Each move gets further -/

/-- The cursor is further in the same text. -/
structure Ahead (r r' : Cursor) : Prop where
  further : r.pos < r'.pos
  within : r'.pos + r'.ahead.length = r.pos + r.ahead.length
  same : r'.ahead = r.ahead.drop (r'.pos - r.pos)

theorem ahead_of {n : Nat} (pos : r'.pos = r.pos + n) (ahead : r'.ahead = r.ahead.drop n) (some : 0 < n)
    (le : n ≤ r.ahead.length) : Ahead r r' where
  further := by omega
  within := by rw [pos, ahead, List.length_drop]; omega
  same := by rw [pos, ahead, Nat.add_sub_cancel_left]

theorem strayTurn_ahead (h : r.strayTurn? run = some r') : Ahead r r' := by
  unfold strayTurn? at h
  split at h
  · next c d cs text =>
    have le : 1 ≤ r.ahead.length := by simp [text]
    split at h
    all_goals
      cases h
      exact ahead_of rfl rfl Nat.one_pos le
  · cases h

theorem commentTurn_ahead (h : r.commentTurn? depth start line = some r') : Ahead r r' := by
  unfold commentTurn? at h
  split at h
  · cases h
  · next text =>
    cases h
    exact ahead_of rfl rfl Nat.two_pos (by simp [text])
  · next text =>
    have le : 2 ≤ r.ahead.length := by simp [text]
    split at h
    all_goals
      cases h
      exact ahead_of rfl rfl Nat.two_pos le
  · next text =>
    cases h
    exact ahead_of rfl rfl Nat.one_pos (by simp [text])

theorem ruleTurn_stray {c : Char} {cs : List Char} (text : r.ahead = c :: cs) (other : ¬ (c = '<' ∧ cs.head? = some '/'))
    (read : step c cs (c :: cs) = strayStep (c :: cs)) : r.ruleTurn? = r.strayTurn? [] := by
  simp only [ruleTurn?, text, if_neg other, read, strayStep]
  by_cases short : ((c :: cs).takeWhile (!endsStray ·)).length < (c :: cs).length
  · simp only [if_pos short]
  · simp only [if_neg short]

theorem ruleTurn_ahead (h : r.ruleTurn? = some r') : Ahead r r' := by
  cases text : r.ahead with
  | nil => simp [ruleTurn?, text] at h
  | cons c cs =>
    have le {extra : Nat} (h : extra ≤ cs.length) : extra + 1 ≤ r.ahead.length := by simp [text, h]
    by_cases opens : c = '<' ∧ cs.head? = some '/'
    · simp only [ruleTurn?, text, if_pos opens] at h
      cases h
      obtain ⟨rest, rfl⟩ := List.head?_eq_some_iff.1 opens.2
      exact ahead_of rfl rfl Nat.two_pos (by simp [text])
    rcases (step_cases c cs).resolve_left opens with ⟨extra, newlines, short, read⟩ | ⟨kind, value, extra, short, read⟩ |
      ⟨n, read⟩ | ⟨-, read⟩
    · simp only [ruleTurn?, text, if_neg opens, read] at h
      cases h
      exact ahead_of rfl rfl (Nat.succ_pos _) (le short)
    · simp only [ruleTurn?, text, if_neg opens, read] at h
      cases h
      exact ahead_of rfl rfl (Nat.succ_pos _) (le short)
    · simp only [ruleTurn?, text, if_neg opens, read] at h
      cases h
    · rw [ruleTurn_stray text opens read] at h
      exact strayTurn_ahead h

/-- **Each move gets further in the text**, and not behind its end. -/
theorem move_advances (h : r.move? = some r') : Ahead r r' := by
  unfold move? at h
  split at h
  · exact ruleTurn_ahead h
  · exact commentTurn_ahead h
  · exact strayTurn_ahead h

/-! ### No move changes what is found -/

theorem found_strayTurn (h : r.strayTurn? run = some r') : (r.strayScan run).behind r.tokens r.notices = r'.found := by
  unfold strayTurn? at h
  split at h
  · next c d cs text =>
    split at h
    · next ends =>
      cases h
      simp [strayScan, found, advance, text, ends, Scan.notice, Scan.behind]
    · next inside =>
      cases h
      have place := Nat.add_right_comm (r.pos + 1) (cs.takeWhile (!endsStray ·)).length 1
      simp [strayScan, found, advance, text, inside, ← Nat.add_assoc, place]
  · cases h

theorem commentScan_advance (deeper n newlines : Nat)
    (h : closing? depth 0 0 r.ahead = closing? deeper n newlines (r.ahead.drop n)) :
    r.commentScan depth start line = { r.advance n with line := r.line + newlines }.commentScan deeper start line := by
  unfold commentScan advance
  rw [h, closing?_shift]
  cases closing? deeper 0 0 (r.ahead.drop n) <;> simp [Nat.add_assoc]

theorem found_commentTurn (h : r.commentTurn? depth start line = some r') :
    (r.commentScan depth start line).behind r.tokens r.notices = r'.found := by
  unfold commentTurn? at h
  split at h
  · cases h
  · next text =>
    cases h
    rw [commentScan_advance (depth + 1) 2 0 (by rw [text]; rfl)]
    rfl
  · next text =>
    split at h
    · cases h
      simp [commentScan, found, advance, text, closing?]
    · next depth =>
      cases h
      rw [commentScan_advance depth 2 0 (by rw [text]; rfl)]
      rfl
  · next c cs opens closes text =>
    have unmarked : Unmarked c cs := by
      rcases marks_cases c cs with ⟨rest, rfl, rfl⟩ | ⟨rest, rfl, rfl⟩ | unmarked
      · exact absurd rfl (opens rest rfl)
      · exact absurd rfl (closes rest rfl)
      · exact unmarked
    cases h
    rw [commentScan_advance depth 1 (if c = '\n' then 1 else 0)
      (by rw [text, closing?_cons unmarked]; simp)]
    split <;> rfl

theorem scan_eq_strayScan {c : Char} {cs : List Char} (text : r.ahead = c :: cs) (inside : endsStray c = false)
    (read : step c cs (c :: cs) = strayStep (c :: cs)) : scan r.ahead 0 r.pos r.line = r.strayScan [] := by
  rw [text, scan, read, strayStep, strayScan, text, List.takeWhile_cons_of_pos (by simp [inside])]
  by_cases short : (cs.takeWhile (!endsStray ·)).length < cs.length
  · simp [short, scan_drop cs]
  · simp [short]

theorem found_ruleTurn (outside : r.mode = .outside) (h : r.ruleTurn? = some r') :
    (scan r.ahead 0 r.pos r.line).behind r.tokens r.notices = r'.found := by
  cases text : r.ahead with
  | nil => simp [ruleTurn?, text] at h
  | cons c cs =>
    have place (extra : Nat) : r.pos + 1 + extra = r.pos + (extra + 1) := by omega
    by_cases opens : c = '<' ∧ cs.head? = some '/'
    · simp only [ruleTurn?, text, if_pos opens] at h
      cases h
      obtain ⟨rfl, slash⟩ := opens
      obtain ⟨rest, rfl⟩ := List.head?_eq_some_iff.1 slash
      have start : isWordStart '<' = false ∧ Text.isDigit '<' = false := by decide
      cases closed : closing? 0 0 0 rest with
      | none => simp [scan, step, start, closed, found, commentScan, advance, text]
      | some p => simp [scan, step, start, closed, found, commentScan, advance, text, scan_drop rest, Nat.add_assoc]
    rcases (step_cases c cs).resolve_left opens with ⟨extra, newlines, -, read⟩ | ⟨kind, value, extra, -, read⟩ |
      ⟨n, read⟩ | ⟨inside, read⟩
    · simp only [ruleTurn?, text, if_neg opens, read] at h
      cases h
      rw [scan, read, found]
      simp [outside, advance, text, scan_drop cs, place]
    · simp only [ruleTurn?, text, if_neg opens, read] at h
      cases h
      rw [scan, read, found]
      simp [outside, advance, text, scan_drop cs, place, Scan.token, Scan.behind]
    · simp only [ruleTurn?, text, if_neg opens, read] at h
      cases h
    · rw [ruleTurn_stray text opens read] at h
      rw [← text, scan_eq_strayScan text inside read]
      exact found_strayTurn h

/-- **No move changes what is found in the whole text.** -/
theorem found_move (h : r.move? = some r') : r.found = r'.found := by
  unfold move? at h
  rw [found]
  split at h
  · next outside => exact found_ruleTurn outside h
  · exact found_commentTurn h
  · exact found_strayTurn h

/-- How a reading ends if no comment is left open: nothing is ahead, or stray text runs off the text, or a number has too
many digits. -/
def Ends (r : Cursor) (stop : Stop) : Prop :=
  r.ahead = [] ∧ stop = .finished ∨ ∃ f, (f = .runsOff ∨ ∃ n, f = .tooManyDigits n) ∧ stop = .fault f

theorem strayScan_last (h : r.strayTurn? run = none) : r.strayScan run = .fault .runsOff r.line := by
  unfold strayTurn? at h
  unfold strayScan
  split at h
  · split at h <;> cases h
  · next short =>
    cases text : r.ahead with
    | nil => rfl
    | cons c cs =>
      cases cs with
      | nil => simp
      | cons d cs => exact absurd text (short c d cs)

theorem scan_last (h : r.ruleTurn? = none) :
    ∃ stop, Ends r stop ∧ scan r.ahead 0 r.pos r.line = { line := r.line, stop := stop } := by
  cases text : r.ahead with
  | nil => exact ⟨.finished, .inl ⟨text, rfl⟩, rfl⟩
  | cons c cs =>
    have other : ¬ (c = '<' ∧ cs.head? = some '/') := by
      intro opens
      simp [ruleTurn?, text, opens] at h
    rcases (step_cases c cs).resolve_left other with ⟨extra, newlines, -, read⟩ | ⟨kind, value, extra, -, read⟩ |
      ⟨n, read⟩ | ⟨inside, read⟩
    · simp [ruleTurn?, text, other, read] at h
    · simp [ruleTurn?, text, other, read] at h
    · exact ⟨_, .inr ⟨_, .inr ⟨n, rfl⟩, rfl⟩, by rw [scan, read]; rfl⟩
    · rw [ruleTurn_stray text other read] at h
      rw [← text, scan_eq_strayScan text inside read, strayScan_last h]
      exact ⟨_, .inr ⟨_, .inl rfl, rfl⟩, rfl⟩

/-- **Where no move is left**, the reading ends, or a comment is left open. -/
theorem found_last (h : r.move? = none) :
    ((∀ depth start line, r.mode ≠ .comment depth start line) ∧ ∃ stop, Ends r stop ∧
      r.found = { tokens := r.tokens, notices := r.notices, line := r.line, stop := stop }) ∨
    ∃ depth start line, r.mode = .comment depth start line ∧ r.found =
      { tokens := r.tokens, notices := r.notices ++ [.unclosed line], line := line, stop := .unclosed start } := by
  cases mode : r.mode with
  | outside =>
    simp only [move?, mode] at h
    obtain ⟨stop, ends, read⟩ := scan_last h
    exact .inl ⟨by simp, stop, ends, by simp [found, mode, read, Scan.behind]⟩
  | comment depth start line =>
    simp only [move?, mode] at h
    have nil : r.ahead = [] := by
      unfold commentTurn? at h
      split at h
      · assumption
      · cases h
      · split at h <;> cases h
      · cases h
    exact .inr ⟨depth, start, line, rfl, by simp [found, mode, commentScan, nil, closing?, Scan.behind]⟩
  | stray run =>
    simp only [move?, mode] at h
    refine .inl ⟨by simp, .fault .runsOff, .inr ⟨_, .inl rfl, rfl⟩, ?_⟩
    simp [found, mode, strayScan_last h, Scan.fault, Scan.behind]

/-! ### Moves in a row -/

theorem found_moves {n : Nat} : ∀ {r r' : Cursor}, moves? n r = some r' → r.found = r'.found := by
  induction n with
  | zero =>
    rintro r r' ⟨⟩
    rfl
  | succ n ih =>
    intro r r' h
    obtain ⟨r₁, one, rest⟩ := Option.bind_eq_some_iff.1 h
    exact (found_move one).trans (ih rest)

/-- **There are no more moves than characters ahead.** -/
theorem exists_last (r : Cursor) : ∃ n r', n ≤ r.ahead.length ∧ moves? n r = some r' ∧ r'.move? = none := by
  cases one : r.move? with
  | none => exact ⟨0, r, Nat.zero_le _, rfl, one⟩
  | some r₁ =>
    have ahead := move_advances one
    have shorter : r₁.ahead.length < r.ahead.length := by
      have := ahead.further
      have := ahead.within
      omega
    obtain ⟨n, r', le, moves, last⟩ := exists_last r₁
    exact ⟨n + 1, r', by omega, by rw [moves?, one]; exact moves, last⟩
termination_by r.ahead.length

end Cursor

theorem unclosed_mem_scan (cs : List Char) (skip pos line : Nat) :
    (∃ l, .unclosed l ∈ (scan cs skip pos line).notices) ↔ ∃ p, (scan cs skip pos line).stop = .unclosed p := by
  fun_induction scan cs skip pos line with
  | case1 => simp
  | case2 _ _ _ _ _ ih => exact ih
  | case3 _ _ _ _ _ _ _ ih => exact ih
  | case4 _ _ _ _ _ _ _ _ ih => exact ih
  | case5 _ _ _ _ _ _ ih => simpa [Scan.notice] using ih
  | case6 => simp
  | case7 => simp [Scan.fault]

end TesLang.Token

namespace TesLang.Session

open Token Cursor

/-- **Reading a text ends.**  Each move of a reading, be it that a rule is applied or that a loop makes a turn, gets further in
the text.  From the start of a text there are at most as many moves as it has characters.

Then a comment is left open if and only if the reading is in a comment when no move is left.  If it is not, what the moves
found is all that is found in the text, and either nothing is ahead, or the reading ends with a fault: stray text runs off
the text, or a number has too many digits. -/
theorem reading_terminates (s : Session) (source : String) :
    (∀ r r' : Cursor, r.move? = some r' → Ahead r r') ∧
    ∃ n r, n ≤ source.toList.length ∧ moves? n { ahead := source.toList, line := s.line } = some r ∧ r.move? = none ∧
      ((∃ l, .unclosed l ∈ (read source s).1.notices) ↔ ∃ depth start line, r.mode = .comment depth start line) ∧
      ((∀ depth start line, r.mode ≠ .comment depth start line) → ∃ stop, Ends r stop ∧
        (read source s).1 = { tokens := r.tokens, notices := r.notices, line := r.line, stop := stop }) := by
  refine ⟨fun r r' => move_advances, ?_⟩
  obtain ⟨n, r, le, moves, last⟩ := exists_last { ahead := source.toList, line := s.line }
  have found : scan source.toList 0 0 s.line = r.found := found_moves moves
  have noticed := unclosed_mem_scan source.toList 0 0 s.line
  have lexed : (read source s).1 = (scan source.toList 0 0 s.line).orAgain fun pos line =>
    restart (source.toList.length + 2) source.toList (source.toList.drop pos) line := rfl
  refine ⟨n, r, le, moves, last, ?_⟩
  rw [found] at noticed lexed
  rcases found_last last with ⟨outside, stop, ends, all⟩ | ⟨depth, start, line, inside, all⟩
  · have lexed : (read source s).1 = { tokens := r.tokens, notices := r.notices, line := r.line, stop := stop } := by
      rw [lexed, all]
      rcases ends with ⟨-, rfl⟩ | ⟨f, -, rfl⟩ <;> rfl
    have closed : ¬ ∃ l, .unclosed l ∈ r.notices := by
      rw [all] at noticed
      rw [noticed]
      rcases ends with ⟨-, rfl⟩ | ⟨f, -, rfl⟩ <;> simp
    rw [lexed]
    refine ⟨iff_of_false closed ?_, fun _ => ⟨stop, ends, rfl⟩⟩
    rintro ⟨depth, start, line, inside⟩
    exact outside depth start line inside
  · refine ⟨iff_of_true ⟨line, ?_⟩ ⟨depth, start, line, inside⟩, fun outside => absurd inside (outside depth start line)⟩
    rw [lexed, all]
    simp [Scan.orAgain]

end TesLang.Session
