import TesLang.Proofs.Parsing.Spelling
import TesLang.Proofs.Reading.Skipping
import TesLang.Token.Multiline
/-!
# Text between triple quotes

What stands between triple quotes may run over several lines, and there is a rule for it (`multiline`).  But two quotes are a
string already, and strings come first, so the rule is never reached: text between triple quotes is read as an empty string,
and then as what stands behind two quotes (`tripleQuoted_read`).
-/
namespace TesLang.Token

/-- A text between triple quotes. -/
def tripleQuoted (text : String) : String := "\"\"\"" ++ text ++ "\"\"\""

theorem toList_tripleQuoted (text : String) : (tripleQuoted text).toList =
    '\x22' :: '\x22' :: '\x22' :: (text.toList ++ ['\x22', '\x22', '\x22']) := by
  rw [tripleQuoted, String.toList_append, String.toList_append]
  rfl

/-- **No text has tokens of the kind that the rule would give.** -/
theorem kind_ne_mstring {source : List Char} {line : Nat} {t : Token} (h : t ∈ (lex source line).tokens) :
    t.kind ≠ .mstring := by
  have table : ∀ e ∈ keywords ++ symbols, e.2 ≠ .mstring := by decide +kernel
  rcases lex_spelled source line t h with other | other | ⟨other, -⟩ | other
  · simp [other]
  · simp [other]
  · simp [other]
  · exact table _ other

theorem spells_string {text : String} {lexeme : List Char} : Spells .string (.text text) lexeme ↔
    ∃ q, isQuote q = true ∧ isQuotable q text.toList = true ∧ lexeme = q :: (text.toList ++ [q]) := by
  have table : ∀ e ∈ keywords ++ symbols, e.2 ≠ .string := by decide +kernel
  constructor
  · generalize kind : Kind.string = k
    generalize value : Value.text text = v
    intro h
    cases h with
    | keyword mem => exact absurd kind.symm (table _ (List.mem_append_left _ mem))
    | symbol mem => exact absurd kind.symm (table _ (List.mem_append_right _ mem))
    | identifier => cases kind
    | number => cases kind
    | @string q body quote quotable =>
      obtain rfl := Value.text.inj value
      exact ⟨q, quote, by rwa [String.toList_ofList], by rw [String.toList_ofList]⟩
  · rintro ⟨q, quote, quotable, rfl⟩
    have spells := Spells.string quote quotable
    rwa [String.ofList_toList] at spells

theorem fits_string {q : Char} {text : String} (quote : isQuote q = true) (quotable : isQuotable q text.toList = true)
    (rest : List Char) : Fits (.token .string (.text text) (q :: (text.toList ++ [q]))) rest := by
  obtain ⟨word, digit, -⟩ := quote_start quote
  exact .token (spells_string.2 ⟨q, quote, quotable, rfl⟩) fun c _ => by simp [joins, word, digit, quote]

theorem Laid.spells {source : List Char} {start upto : Nat} {ts : List Token} {runs : List (List Char)}
    (h : Laid source start ts runs upto) {t : Token} (mem : t ∈ ts) :
    ∃ lexeme, Spells t.kind t.value lexeme ∧ lexeme <+: source.drop t.pos := by
  induction h with
  | nil => cases mem
  | @cons start stop upto u ts runs more _ inside _ _ spells _ ih =>
    rcases List.mem_cons.1 mem with rfl | mem
    · refine ⟨_, spells, ?_⟩
      rw [drop_eq_slice_append source (Nat.le_of_lt inside)]
      exact List.prefix_append ..
    · exact ih mem

theorem quotable_of_read {text : String} {line : Nat} (quiet : (lex (tripleQuoted text).toList line).notices = [])
    (mem : ⟨.string, .text text, line, 2⟩ ∈ (lex (tripleQuoted text).toList line).tokens) :
    isQuotable '\x22' text.toList = true := by
  have closed : ∀ n, .unclosed n ∉ (lex (tripleQuoted text).toList line).notices := by simp [quiet]
  obtain ⟨ps, rest, source, allFit, tokens, -⟩ := lex_cut closed
  have laid := laid_of_allFit allFit [] [] [] line .nil
  simp only [List.nil_append, List.length_nil, ← source, ← tokens] at laid
  obtain ⟨lexeme, spells, fits⟩ := laid.spells mem
  obtain ⟨q, -, quotable, rfl⟩ := spells_string.1 spells
  rw [toList_tripleQuoted] at fits
  obtain ⟨rfl, -⟩ := List.cons_prefix_cons.1 fits
  exact quotable

theorem lex_tripleQuoted {text : String} (quotable : isQuotable '\x22' text.toList = true) (line : Nat) :
    lex (tripleQuoted text).toList line = { tokens := [⟨.string, .text "", line, 0⟩, ⟨.string, .text text, line, 2⟩,
      ⟨.string, .text "", line, text.length + 4⟩], line } := by
  have quote : isQuote '\x22' = true := by decide
  have empty := @fits_string '\x22' "" quote rfl
  have full := @fits_string '\x22' text quote quotable
  have read := @lex_textOf [.token .string (.text "") ['\x22', '\x22'],
    .token .string (.text text) ('\x22' :: (text.toList ++ ['\x22'])), .token .string (.text "") ['\x22', '\x22']]
    ⟨empty _, full _, empty _, trivial⟩ line
  have source : textOf [.token .string (.text "") ['\x22', '\x22'],
      .token .string (.text text) ('\x22' :: (text.toList ++ ['\x22'])), .token .string (.text "") ['\x22', '\x22']] =
        (tripleQuoted text).toList := by
    simp [textOf, Piece.text, toList_tripleQuoted]
  have lines : (tripleQuoted text).toList.count '\n' = 0 := by
    rw [List.count_eq_zero, toList_tripleQuoted]
    simp [no_newline_of_isQuotable quotable]
  rw [source, lines] at read
  rw [read]
  have plain : text.toList.count '\n' = 0 := List.count_eq_zero.2 (no_newline_of_isQuotable quotable)
  simp [tokensOf, noticesOf, Piece.tokens, Piece.notices, Piece.text, plain, ← String.length_toList]
  omega

theorem reaches_third (text : String) (line : Nat) : Progress.Reaches (tripleQuoted text).toList line
    { pos := 2, line, tokens := [⟨.string, .text "", line, 0⟩] } := by
  refine Progress.reaches_start.next ?_
  have read := @step_string '\x22' [] (by decide) rfl ('\x22' :: (text.toList ++ ['\x22', '\x22', '\x22']))
  rw [List.nil_append] at read
  simp only [Progress.next?, toList_tripleQuoted, List.drop_zero, read]
  rfl

theorem noRule_third {text : List Char} (quotes : '\x22' ∉ text) (ends : '\n' ∈ text) (rest : List Char) :
    NoRule ('\x22' :: (text ++ rest)) := by
  refine noRule_iff.2 ⟨by decide, by decide, by decide, by simp, fun _ => ?_, ?_⟩
  · refine Option.eq_none_iff_forall_ne_some.2 fun body read => ?_
    obtain ⟨quotable, rest', split⟩ := of_quoted? read
    refine no_newline_of_isQuotable quotable ?_
    rcases List.append_eq_append_iff.1 split with ⟨more, rfl, -⟩ | ⟨more, rfl, behind⟩
    · exact List.mem_append_left _ ends
    · cases more with
      | nil => simpa using ends
      | cons c more =>
        obtain ⟨rfl, -⟩ := List.cons.inj behind
        exact absurd (by simp) quotes
  · refine Option.eq_none_iff_forall_ne_some.2 fun s found => ?_
    obtain ⟨c, head, -, -, -, other⟩ := symbols_start s (List.mem_of_find?_eq_some found)
    have fits := prefix_of_symbol? found
    obtain ⟨cs, spelling⟩ := List.head?_eq_some_iff.1 head
    rw [spelling] at fits
    obtain ⟨rfl, -⟩ := List.cons_prefix_cons.1 fits
    exact absurd other (by decide)

theorem stray_third {text : String} (quotes : '\x22' ∉ text.toList) (ends : '\n' ∈ text.toList) (line : Nat) :
    ∃ run, (lex (tripleQuoted text).toList line).notices.head? = some (.stray run line) := by
  have third : (tripleQuoted text).toList.drop 2 = '\x22' :: (text.toList ++ ['\x22', '\x22', '\x22']) := by
    rw [toList_tripleQuoted]
    rfl
  have none := noRule_third quotes ends ['\x22', '\x22', '\x22']
  rw [← third] at none
  by_cases breaks : ∃ stop, Breaks (tripleQuoted text).toList 2 stop
  · obtain ⟨stop, breaks⟩ := breaks
    have next := (reaches_third text line).next (Progress.next?_of_breaks breaks none)
    refine ⟨String.ofList (slice (tripleQuoted text).toList 2 stop), ?_⟩
    rw [next.lex_eq, Progress.whole, Scan.orAgain]
    split <;> rfl
  · -- The end of the line would be a break.
    have stuck := stuck_of_not_breaks none fun stop found => breaks ⟨stop, found⟩
    rw [third] at stuck
    cases stuck with
    | runsOff _ inside => exact absurd (inside '\n' (by simp [ends])) (by decide)

end TesLang.Token

namespace TesLang.Session

open Token Progress

/-- **Text between triple quotes is never one token.**  The rule for it would give the text, and the number of its line ends.
But whatever the text is, the reading comes to the third quote with an empty string, and no token that it finds is of the kind
that the rule gives.

There are three strings, an empty one before and one behind the text, if and only if the text can stand in a string on one
line.  If there is no quote in the text and a line ends in it, the third quote is stray text. -/
theorem tripleQuoted_read (s : Session) (text : String) :
    multiline (tripleQuoted text).toList = (text.toList, text.toList.count '\n') ∧
    Reaches (tripleQuoted text).toList s.line { pos := 2, line := s.line, tokens := [⟨.string, .text "", s.line, 0⟩] } ∧
    (∀ t ∈ (read (tripleQuoted text) s).1.tokens, t.kind ≠ .mstring) ∧
    ((read (tripleQuoted text) s).1 = { tokens := [⟨.string, .text "", s.line, 0⟩, ⟨.string, .text text, s.line, 2⟩,
        ⟨.string, .text "", s.line, text.length + 4⟩], line := s.line } ↔ isQuotable '\x22' text.toList = true) ∧
    ('\x22' ∉ text.toList → '\n' ∈ text.toList →
      ∃ run, (read (tripleQuoted text) s).1.notices.head? = some (.stray run s.line)) := by
  have scanned : (read (tripleQuoted text) s).1 = lex (tripleQuoted text).toList s.line := rfl
  rw [scanned]
  refine ⟨?_, reaches_third text s.line, fun t => kind_ne_mstring, ⟨fun read => ?_, fun quotable => ?_⟩, fun quotes ends => ?_⟩
  · rw [multiline, toList_tripleQuoted]
    simp
  · exact quotable_of_read (by rw [read]) (by rw [read]; simp)
  · exact lex_tripleQuoted quotable s.line
  · exact stray_third quotes ends s.line

theorem twoLines_read : (read (tripleQuoted "a\nb") {}).1 = {
    tokens := [⟨.string, .text "", 1, 0⟩, ⟨.id, .text "b", 2, 5⟩, ⟨.string, .text "", 2, 6⟩]
    notices := [.stray "\"a" 1]
    line := 2
    stop := .fault .runsOff } := by
  have scanned : (read (tripleQuoted "a\nb") {}).1 = lex (tripleQuoted "a\nb").toList 1 := rfl
  rw [scanned, toList_tripleQuoted]
  decide +kernel

end TesLang.Session
