import TesLang.Proofs.Parsing.Completeness
import TesLang.Proofs.Parsing.Depth
import TesLang.Proofs.Parsing.Lookahead
/-!
# The first syntax error

A reading fails at the earliest token that no program has behind the tokens before it, and nowhere else (`first_error`).
That it fails no later comes from `program_leads`: what was read can be completed to a program.  That it fails no earlier
comes from `program_takes`, which says that no program is refused, and from `program_oneAhead`, by which a token that was
refused is refused whatever stands behind it.
-/
namespace TesLang

open Grammar

namespace Grammar

variable {ts : List Token}

theorem Viable.take (h : Viable ts) (k : Nat) : Viable (ts.take k) := by
  obtain ⟨us, h⟩ := h
  exact ⟨ts.drop k ++ us, by rwa [← List.append_assoc, List.take_append_drop]⟩

theorem Viable.take_of_le {m n : Nat} (h : Viable (ts.take n)) (hmn : m ≤ n) : Viable (ts.take m) := by
  have h := h.take m
  rwa [List.take_take, Nat.min_eq_left hmn] at h

theorem Sentence.viable (h : Sentence ts) : Viable ts := ⟨[], by rwa [List.append_nil]⟩

end Grammar

namespace Parser

/-- How far a program is read: to its end, or as far as what was read can be completed to a program. -/
inductive Reading (ts : List Token) : EStateM.Result Halt Input (List Node) → Prop
  | whole (fs : List Node) (s : Input) (sentence : Sentence ts) : Reading ts (.ok fs s)
  | stuck (k : Nat) (s : Input) (rest : s.tokens = ts.drop k) (hk : k ≤ ts.length) (refused : ¬ Sentence ts)
      (before : Viable (ts.take k)) (behind : k < ts.length → ¬ Viable (ts.take (k + 1))) : Reading ts (.error .stuck s)

theorem program_reading (ts : List Token) : Reading ts ((program (depth ts)).run { tokens := ts }) := by
  have leads := program_leads (depth ts) ts []
  have ends := program_ends ts (Nat.le_refl _) []
  have takes (h : Sentence ts) := program_takes (depth ts) h []
  obtain ⟨ws, split, ahead⟩ := program_oneAhead (depth ts) ts []
  cases run : (program (depth ts)).run { tokens := ts } with
  | ok fs s =>
    rw [run] at leads
    obtain ⟨hs, d, leaves, -⟩ := leads
    rw [hs, List.append_nil] at leaves
    exact .whole fs s ⟨d, leaves.symm⟩
  | error e s =>
    rw [run] at leads ends takes split ahead
    cases e with
    | spent => exact ends.elim
    | stuck =>
      have split : ts = ws ++ s.tokens := split
      obtain ⟨read, rest, hts, d, leaves⟩ := leads
      obtain rfl : read = ws := List.append_cancel_right (hts.symm.trans split)
      have length : read.length ≤ ts.length := by
        rw [split, List.length_append]
        exact Nat.le_add_right _ _
      have before : ts.take read.length = read := by rw [split, List.take_left]
      have from_here : ts.drop read.length = s.tokens := by rw [split, List.drop_left]
      refine .stuck read.length s from_here.symm length takes ⟨rest, d, ?_⟩ fun hk => ?_
      · rw [before, leaves]
      · -- with the same tokens up to the offending one, whatever follows it, reading gets stuck there
        rintro ⟨us, sentence⟩
        obtain ⟨t, rest', hs⟩ : ∃ t rest', s.tokens = t :: rest' := by
          cases h : s.tokens with
          | nil =>
            rw [h, List.append_nil] at split
            rw [split] at hk
            exact absurd hk (Nat.lt_irrefl _)
          | cons t rest' => exact ⟨t, rest', rfl⟩
        have taken : ts.take (read.length + 1) ++ us = read ++ t :: us := by
          rw [split, hs, List.take_length_add_append, List.append_assoc]
          rfl
        have run' := ahead (t :: us) (by show some t = s.tokens.head?; rw [hs]; rfl)
        rw [taken] at sentence
        have takes := program_takes (depth ts) sentence []
        rw [run'] at takes
        exact takes

variable {ts : List Token}

def refusedAt {α : Type} : EStateM.Result Halt Input α → Option (List Token)
  | .error .stuck s => some s.tokens
  | _ => none

theorem exists_of_refusedAt {α : Type} {result : EStateM.Result Halt Input α} (h : refusedAt result = some ts) :
    ∃ s, s.tokens = ts ∧ result = .error .stuck s := by
  cases result with
  | ok a s => cases h
  | error e s =>
    cases e with
    | spent => cases h
    | stuck => exact ⟨s, Option.some.inj h, rfl⟩

end Parser

/-- The first syntax error of a reading is at its token number `k`: the program is read up to this token and no further,
and the token is the first to be reported. -/
def Token.Scan.FailsAt (s : Token.Scan) (k : Nat) : Prop :=
  ∃ t r, s.tokens[k]? = some t ∧ r.tokens = s.tokens.drop k ∧
    (Parser.program (Parser.depth s.tokens)).run { tokens := s.tokens } = .error .stuck r ∧
    s.parse.errors.head? = some (.unexpected t)

namespace Token.Scan

variable {s : Token.Scan} {r : Input} {h : Halt}

theorem parse_of_whole {fs : List Node}
    (run : (Parser.program (Parser.depth s.tokens)).run { tokens := s.tokens } = .ok fs r) (whole : ∀ f, s.stop ≠ .fault f) :
    s.parse = { functions := some fs, entered := r.entered } := by
  unfold Token.Scan.parse
  rw [Parse.restarting, run]
  cases stop : s.stop with
  | fault f => exact absurd stop (whole f)
  | _ => rfl

theorem errors_of_whole {fs : List Node}
    (run : (Parser.program (Parser.depth s.tokens)).run { tokens := s.tokens } = .ok fs r) : s.parse.errors = [] := by
  unfold Token.Scan.parse
  rw [Parse.restarting, run]
  dsimp only
  split <;> rfl

theorem errors_of_token {t : Token} {rest : List Token}
    (run : (Parser.program (Parser.depth s.tokens)).run { tokens := s.tokens } = .error h r) (hr : r.tokens = t :: rest) :
    s.parse.errors.head? = some (.unexpected t) := by
  unfold Token.Scan.parse
  rw [Parse.restarting, run]
  simp only [hr]
  rfl

theorem errors_of_end (run : (Parser.program (Parser.depth s.tokens)).run { tokens := s.tokens } = .error h r)
    (hr : r.tokens = []) (whole : ∀ f, s.stop ≠ .fault f) : s.parse.errors = [.endOfInput] := by
  unfold Token.Scan.parse
  rw [Parse.restarting, run]
  cases stop : s.stop with
  | fault f => exact absurd stop (whole f)
  | _ =>
    simp only [hr]
    rfl

theorem exists_whole (s : Token.Scan) (whole : ∀ f, s.stop ≠ .fault f) (clean : s.parse.errors = []) :
    ∃ fs r, (Parser.program (Parser.depth s.tokens)).run { tokens := s.tokens } = .ok fs r := by
  cases run : (Parser.program (Parser.depth s.tokens)).run { tokens := s.tokens } with
  | ok fs r => exact ⟨fs, r, rfl⟩
  | error e r =>
    cases hr : r.tokens with
    | nil =>
      rw [errors_of_end run hr whole] at clean
      cases clean
    | cons t rest =>
      have first := errors_of_token run hr
      rw [clean] at first
      cases first

end Token.Scan

/-- **The first syntax error.**  A reading fails at a token exactly if the tokens before it start a program and those up to
it do not.  It fails at the end of the input exactly if its tokens are no program but start one.  And it is free of
errors exactly if its tokens are a program. -/
theorem first_error {s : Token.Scan} (whole : ∀ f, s.stop ≠ .fault f) :
    (∀ k, s.FailsAt k ↔ k < s.tokens.length ∧ Viable (s.tokens.take k) ∧ ¬ Viable (s.tokens.take (k + 1))) ∧
    (s.parse.errors.head? = some .endOfInput ↔ ¬ Sentence s.tokens ∧ ∃ us, us ≠ [] ∧ Sentence (s.tokens ++ us)) ∧
    (s.parse.errors = [] ↔ Sentence s.tokens) := by
  have reading := Parser.program_reading s.tokens
  generalize run : (Parser.program (Parser.depth s.tokens)).run { tokens := s.tokens } = result at reading
  cases reading with
  | whole fs r sentence =>
    have clean := Token.Scan.errors_of_whole run
    refine ⟨fun k => ⟨?_, fun h => absurd (sentence.viable.take (k + 1)) h.2.2⟩, ?_, fun _ => sentence, fun _ => clean⟩
    · rintro ⟨t, r', -, -, run', -⟩
      rw [run] at run'
      cases run'
    · rw [clean]
      exact ⟨nofun, fun h => absurd sentence h.1⟩
  | stuck k r rest hk refused before behind =>
    refine ⟨fun j => ⟨?_, fun ⟨hj, viable, stuck⟩ => ?_⟩, ?_, ?_⟩
    · rintro ⟨t, r', ht, rest', run', -⟩
      obtain rfl : r = r' := by
        rw [run] at run'
        cases run'
        rfl
      have hj : j < s.tokens.length := (List.getElem?_eq_some_iff.1 ht).1
      obtain rfl : j = k := by
        have same := congrArg List.length (rest'.symm.trans rest)
        rw [List.length_drop, List.length_drop] at same
        omega
      exact ⟨hj, before, behind hj⟩
    · -- tokens that start a program go on to do so up to the place where reading gets stuck, and not behind it
      obtain rfl : j = k := by
        rcases Nat.lt_trichotomy j k with lt | eq | gt
        · exact absurd (before.take_of_le lt) stuck
        · exact eq
        · exact absurd (viable.take_of_le gt) (behind (by omega))
      have here := List.drop_eq_getElem_cons hj
      exact ⟨_, r, List.getElem?_eq_getElem hj, rest, run, Token.Scan.errors_of_token run (rest.trans here)⟩
    · by_cases inside : k < s.tokens.length
      · rw [Token.Scan.errors_of_token run (rest.trans (List.drop_eq_getElem_cons inside))]
        exact ⟨nofun, fun ⟨_, us, _, h⟩ => absurd (Viable.take ⟨us, h⟩ (k + 1)) (behind inside)⟩
      · obtain rfl : k = s.tokens.length := by omega
        rw [Token.Scan.errors_of_end run (rest.trans List.drop_length) whole]
        rw [List.take_length] at before
        obtain ⟨us, h⟩ := before
        refine ⟨fun _ => ⟨refused, us, ?_, h⟩, fun _ => rfl⟩
        rintro rfl
        exact refused (by rwa [List.append_nil] at h)
    · refine ⟨fun clean => ?_, fun h => absurd h refused⟩
      cases hr : r.tokens with
      | nil =>
        rw [Token.Scan.errors_of_end run hr whole] at clean
        cases clean
      | cons t rest' =>
        have first := Token.Scan.errors_of_token run hr
        rw [clean] at first
        cases first

/-- A text with a semicolon missing, so that `y` does not fit. -/
def unfinished : String := "funk f() <int> \x7b x = 1 y = 2; \x7d"

theorem unfinished_fails : (Token.lex unfinished.toList 1).stop = .finished ∧ (Token.lex unfinished.toList 1).FailsAt 11 ∧
    Viable ((Token.lex unfinished.toList 1).tokens.take 11) ∧ ¬ Viable ((Token.lex unfinished.toList 1).tokens.take 12) := by
  have evaluated : (Token.lex unfinished.toList 1).stop = .finished ∧
      (Token.lex unfinished.toList 1).tokens[11]? = some ⟨.id, .text "y", 1, 23⟩ ∧
      Parser.refusedAt ((Parser.program (Parser.depth (Token.lex unfinished.toList 1).tokens)).run
        { tokens := (Token.lex unfinished.toList 1).tokens }) = some ((Token.lex unfinished.toList 1).tokens.drop 11) ∧
      (Token.lex unfinished.toList 1).parse.errors.head? = some (.unexpected ⟨.id, .text "y", 1, 23⟩) := by
    rw [unfinished, String.toList_ofList]
    decide +kernel
  obtain ⟨stop, token, refused, reported⟩ := evaluated
  have fails : (Token.lex unfinished.toList 1).FailsAt 11 := by
    obtain ⟨r, rest, run⟩ := Parser.exists_of_refusedAt refused
    exact ⟨_, r, token, rest, run, reported⟩
  have first := (first_error (by rw [stop]; exact nofun)).1 11
  exact ⟨stop, fails, (first.1 fails).2⟩

end TesLang
