import TesLang.Proofs.Parsing.FirstError
/-!
# What survives a syntax error

A text breaks at each token that no program has behind the tokens since the break before it.  `Broken` says so by the grammar
alone, and each text breaks in one way (`Broken.unique`).

Reading starts anew behind each break, so what is left of a text is what is read behind its last break
(`parse_of_broken`).  One round of reading ends at the first break or goes to the end of the text (`Round`), and the
induction is on the rounds.
-/
namespace TesLang

namespace Grammar

/-- A token that does not fit, and the tokens that were read since the one before it. -/
structure Break where
  read : List Token
  token : Token

/-- Where a text breaks, and what stands behind its last break. -/
inductive Broken : List Token → List Break → List Token → Prop
  | unbroken {ts : List Token} (viable : Viable ts) : Broken ts [] ts
  | broken {read rest last : List Token} {t : Token} {breaks : List Break} (viable : Viable read)
      (offends : ¬ Viable (read ++ [t])) (others : Broken rest breaks last) :
      Broken (read ++ t :: rest) (⟨read, t⟩ :: breaks) last

theorem Viable.of_append {ts us : List Token} (h : Viable (ts ++ us)) : Viable ts := by
  obtain ⟨vs, h⟩ := h
  exact ⟨us ++ vs, by rwa [← List.append_assoc]⟩

theorem Viable.of_split {read rest : List Token} {t : Token} (h : Viable (read ++ t :: rest)) : Viable (read ++ [t]) := by
  rw [List.append_cons] at h
  exact h.of_append

theorem eq_of_break {read read' rest rest' : List Token} {t t' : Token} (split : read ++ t :: rest = read' ++ t' :: rest')
    (viable : Viable read) (viable' : Viable read') (offends : ¬ Viable (read ++ [t])) (offends' : ¬ Viable (read' ++ [t'])) :
    read = read' ∧ t = t' ∧ rest = rest' := by
  rcases List.append_eq_append_iff.1 split with ⟨us, rfl, rest_eq⟩ | ⟨us, rfl, rest_eq⟩
  · cases us with
    | nil =>
      cases rest_eq
      exact ⟨(List.append_nil _).symm, rfl, rfl⟩
    | cons u us =>
      cases rest_eq
      exact absurd viable'.of_split offends
  · cases us with
    | nil =>
      cases rest_eq
      exact ⟨List.append_nil _, rfl, rfl⟩
    | cons u us =>
      cases rest_eq
      exact absurd viable.of_split offends'

/-- **A text breaks in one way.** -/
theorem Broken.unique {ts last last' : List Token} {breaks breaks' : List Break} (h : Broken ts breaks last)
    (h' : Broken ts breaks' last') : breaks' = breaks ∧ last' = last := by
  induction h generalizing breaks' last' with
  | unbroken viable =>
    cases h' with
    | unbroken _ => exact ⟨rfl, rfl⟩
    | broken _ offends _ => exact absurd viable.of_split offends
  | @broken read rest last t breaks viable offends others ih =>
    generalize split : read ++ t :: rest = us at h'
    cases h' with
    | unbroken viable' =>
      rw [← split] at viable'
      exact absurd viable'.of_split offends
    | broken viable' offends' others' =>
      obtain ⟨rfl, rfl, rfl⟩ := eq_of_break split viable viable' offends offends'
      obtain ⟨rfl, rfl⟩ := ih others'
      exact ⟨rfl, rfl⟩

theorem Broken.viable {ts last : List Token} {breaks : List Break} (h : Broken ts breaks last) : Viable last := by
  induction h with
  | unbroken viable => exact viable
  | broken _ _ _ ih => exact ih

/-- The breaks that are reported, apart from the first one: those with at least three tokens since the one before. -/
def laterReported (breaks : List Break) : List Break := breaks.filter fun b => 3 ≤ b.read.length

/-- The breaks that are reported: the first one always. -/
def reportedBreaks : List Break → List Break
  | [] => []
  | b :: bs => b :: laterReported bs

end Grammar

open Grammar

def Parser.program? (ts : List Token) : Option (List Node) :=
  match (program (depth ts)).run { tokens := ts } with
  | .ok fs _ => some fs
  | .error _ _ => none

theorem Parser.program?_isSome (ts : List Token) : (program? ts).isSome = true ↔ Sentence ts := by
  have reading := program_reading ts
  unfold program?
  generalize (program (depth ts)).run { tokens := ts } = result at reading
  cases reading with
  | whole fs s sentence => simp [sentence]
  | stuck k s rest hk refused before _ => simp [refused]

namespace Parse

/-- What comes of one round of reading: everything is read, or the end comes too early, or a token does not fit and reading
starts anew behind it. -/
inductive Round (n : Nat) (first : Bool) (stop : Token.Stop) : List Token → Parse → Prop
  | whole (ts : List Token) (fs : List Node) (entered : List String) (sentence : Sentence ts)
      (read : Parser.program? ts = some fs) : Round n first stop ts { functions := some fs, entered }
  | short (ts : List Token) (entered : List String) (viable : Viable ts) (refused : ¬ Sentence ts) :
      Round n first stop ts { errors := if first || 3 ≤ ts.length then [.endOfInput] else [], entered }
  | broken (read rest : List Token) (t : Token) (entered : List String) (viable : Viable read)
      (offends : ¬ Viable (read ++ [t])) :
      Round n first stop (read ++ t :: rest)
        ((restarting n false rest stop).after (if first || 3 ≤ read.length then [.unexpected t] else []) entered)

theorem restarting_round {stop : Token.Stop} (whole : ∀ f, stop ≠ .fault f) (n : Nat) (first : Bool) (ts : List Token) :
    Round n first stop ts (restarting (n + 1) first ts stop) := by
  have reading := Parser.program_reading ts
  generalize run : (Parser.program (Parser.depth ts)).run { tokens := ts } = result at reading
  rw [restarting, run]
  cases reading with
  | whole fs s sentence =>
    have read : Parser.program? ts = some fs := by rw [Parser.program?, run]
    cases stop with
    | fault f => exact absurd rfl (whole f)
    | _ => exact .whole ts fs s.entered sentence read
  | stuck k s rest hk refused before behind =>
    dsimp only
    cases left : s.tokens with
    | nil =>
      obtain rfl : k = ts.length := by
        have dropped := congrArg List.length (left.symm.trans rest)
        rw [List.length_drop, List.length_nil] at dropped
        omega
      rw [List.take_length] at before
      cases stop with
      | fault f => exact absurd rfl (whole f)
      | _ => exact .short ts s.entered before refused
    | cons t us =>
      have split : ts = ts.take k ++ t :: us := by rw [← left, rest, List.take_append_drop]
      generalize ts.take k = read at split before
      subst split
      have length : k = read.length := by
        have dropped := congrArg List.length (left.symm.trans rest)
        rw [List.length_drop, List.length_append] at dropped
        rw [List.length_append] at hk
        omega
      subst length
      have offends : ¬ Viable (read ++ [t]) := by
        have behind := behind (by simp)
        rwa [List.append_cons, List.take_left' (by simp)] at behind
      have taken : (read ++ t :: us).length - (t :: us).length = read.length := by simp
      rw [taken]
      exact .broken read us t s.entered before offends

/-- What is left of a text with the last part `last`, where it breaks at `reported` and perhaps elsewhere, and `late` says
whether the end is reported where it comes too early. -/
structure Remains (reported : List Break) (late : Bool) (last : List Token) (p : Parse) : Prop where
  functions : p.functions = Parser.program? last
  errors : Sentence last → p.errors = reported.map (.unexpected ·.token)
  errors_end : ¬ Sentence last → p.errors = reported.map (.unexpected ·.token) ++ if late then [.endOfInput] else []

theorem Remains.after {reported : List Break} {late : Bool} {last : List Token} {p : Parse}
    (h : Remains reported late last p) (before : List Break) (entered : List String) :
    Remains (before ++ reported) late last (p.after (before.map (.unexpected ·.token)) entered) where
  functions := h.functions
  errors sentence := by rw [Parse.after, h.errors sentence, List.map_append]
  errors_end refused := by rw [Parse.after, h.errors_end refused, List.map_append, List.append_assoc]

theorem Round.remains {n : Nat} {first : Bool} {stop : Token.Stop} {ts : List Token} {p : Parse} (round : Round n first stop ts p)
    (later : ∀ rest : List Token, rest.length < ts.length → ∃ breaks last, Broken rest breaks last ∧
      Remains (laterReported breaks) (3 ≤ last.length) last (restarting n false rest stop)) :
    ∃ breaks last, Broken ts breaks last ∧
      Remains (if first then reportedBreaks breaks else laterReported breaks)
        (first && breaks.isEmpty || 3 ≤ last.length) last p := by
  cases round with
  | whole ts fs entered sentence read =>
    refine ⟨[], ts, .unbroken sentence.viable, read.symm, fun _ => ?_, fun refused => absurd sentence refused⟩
    cases first <;> rfl
  | short ts entered viable refused =>
    refine ⟨[], ts, .unbroken viable, ?_, fun sentence => absurd sentence refused, fun _ => ?_⟩
    · have none := mt (Parser.program?_isSome ts).1 refused
      exact (Option.not_isSome_iff_eq_none.1 none).symm
    · cases first <;> rfl
  | broken read rest t entered viable offends =>
    obtain ⟨breaks, last, others, remains⟩ := later rest (by simp; omega)
    refine ⟨⟨read, t⟩ :: breaks, last, .broken viable offends others, ?_⟩
    have announced : (if first then reportedBreaks (⟨read, t⟩ :: breaks) else laterReported (⟨read, t⟩ :: breaks)) =
        (if first || 3 ≤ read.length then [⟨read, t⟩] else []) ++ laterReported breaks := by
      cases first <;> by_cases far : 3 ≤ read.length <;> simp [reportedBreaks, laterReported, far]
    have errors : (if first || 3 ≤ read.length then [.unexpected t] else []) =
        (if first || 3 ≤ read.length then [(⟨read, t⟩ : Break)] else []).map (SyntaxError.unexpected ·.token) := by
      split <;> rfl
    rw [announced, errors, List.isEmpty_cons, Bool.and_false, Bool.false_or]
    exact remains.after _ entered

theorem restarting_later {stop : Token.Stop} (whole : ∀ f, stop ≠ .fault f) (n : Nat) (ts : List Token) (hn : ts.length < n) :
    ∃ breaks last, Broken ts breaks last ∧
      Remains (laterReported breaks) (3 ≤ last.length) last (restarting n false ts stop) := by
  induction n generalizing ts with
  | zero => omega
  | succ n ih => exact (restarting_round whole n false ts).remains fun rest shorter => ih rest (by omega)

end Parse

namespace Token.Scan

variable {s : Token.Scan}

theorem exists_remains (whole : ∀ f, s.stop ≠ .fault f) : ∃ breaks last, Broken s.tokens breaks last ∧
    Parse.Remains (reportedBreaks breaks) (breaks.isEmpty || 3 ≤ last.length) last s.parse :=
  (Parse.restarting_round whole s.tokens.length true s.tokens).remains fun rest shorter =>
    Parse.restarting_later whole s.tokens.length rest shorter

theorem functions_of_viable (whole : ∀ f, s.stop ≠ .fault f) (viable : Viable s.tokens) :
    s.parse.functions = Parser.program? s.tokens := by
  obtain ⟨breaks, last, broken, remains⟩ := exists_remains whole
  obtain ⟨-, rfl⟩ := broken.unique (.unbroken viable)
  exact remains.functions

end Token.Scan

open scoped Classical in
/-- **What survives a syntax error.**  A text breaks in one way.  Reading leaves a tree exactly if what stands behind the
last break is a program, and this is the tree of that program read on its own.  The first break is reported, and a later one
exactly if at least three tokens were read since the break before it; and so is the end of the text, if it comes too
early. -/
theorem parse_of_broken {s : Token.Scan} (whole : ∀ f, s.stop ≠ .fault f) : ∃ breaks last,
    (∀ bs ts, Broken s.tokens bs ts ↔ bs = breaks ∧ ts = last) ∧
    (s.parse.functions.isSome = true ↔ Sentence last) ∧
    s.parse.functions = ({ s with tokens := last } : Token.Scan).parse.functions ∧
    s.parse.errors = (reportedBreaks breaks).map (.unexpected ·.token) ++
      if ¬ Sentence last ∧ (breaks = [] ∨ 3 ≤ last.length) then [.endOfInput] else [] := by
  obtain ⟨breaks, last, broken, remains⟩ := Token.Scan.exists_remains whole
  have alone : ({ s with tokens := last } : Token.Scan).parse.functions = Parser.program? last :=
    Token.Scan.functions_of_viable whole broken.viable
  refine ⟨breaks, last, fun bs ts => ⟨broken.unique, ?_⟩, ?_, remains.functions.trans alone.symm, ?_⟩
  · rintro ⟨rfl, rfl⟩
    exact broken
  · rw [remains.functions]
    exact Parser.program?_isSome last
  · by_cases sentence : Sentence last
    · rw [remains.errors sentence, if_neg fun h => h.1 sentence, List.append_nil]
    · rw [remains.errors_end sentence]
      simp [sentence]

/-- A text that breaks at `y` and at each of the five tokens behind it. -/
def mended : String := "funk f() <int> \x7b x = 1 y = 2; \x7d funk g() <int> \x7b return 3; \x7d"

open scoped Classical in
theorem mended_parse : (Token.lex mended.toList 1).stop = .finished ∧ ∃ breaks last,
    (∀ bs ts, Broken (Token.lex mended.toList 1).tokens bs ts ↔ bs = breaks ∧ ts = last) ∧
    ((Token.lex mended.toList 1).parse.functions.isSome = true ↔ Sentence last) ∧
    (Token.lex mended.toList 1).parse.functions =
      ({ Token.lex mended.toList 1 with tokens := last } : Token.Scan).parse.functions ∧
    (Token.lex mended.toList 1).parse.errors = (reportedBreaks breaks).map (.unexpected ·.token) ++
      if ¬ Sentence last ∧ (breaks = [] ∨ 3 ≤ last.length) then [.endOfInput] else [] := by
  have finished : (Token.lex mended.toList 1).stop = .finished := by decide +kernel
  exact ⟨finished, parse_of_broken (by simp [finished])⟩

end TesLang
