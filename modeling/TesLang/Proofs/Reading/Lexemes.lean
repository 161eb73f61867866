import TesLang.Proofs.Parsing.Spelling
import TesLang.Proofs.Reading.Comments
/-!
# What one step reads

A text is made of spaces, comments, tokens and stray runs.  `Spells` says how each token is written, without regard to
what follows it, and `Fits` when a piece of a text is read as what it is: a token may not be followed by a character that
goes on with it (`joins`), and a stray run begins where no token can be read and ends where `endsStray` says.

Tokens, comments and stray runs that fit are read (`step_token`, `step_comment`, `step_stray`).  At the head of every text
stands a piece that fits, or else the text cannot be read at all (`fits_or_stuck`, `step_of_stuck`).
-/
namespace TesLang.Token

open Text (isDigit ofDigits digit? zeros)

/-- The characters between tokens that are read one by one. -/
def isSpace (c : Char) : Bool := c == ' ' || c == '\t' || c == '\n'

/-! ### Strings -/

/-- Whether a text can stand between two quotes `q`.  A backslash keeps the character after it. -/
def isQuotable (q : Char) : List Char → Bool
  | [] => true
  | '\\' :: c :: cs => c != '\n' && isQuotable q cs
  | c :: cs => c != '\\' && c != '\n' && c != q && isQuotable q cs

theorem isQuotable_kept {q c : Char} {cs : List Char} :
    isQuotable q ('\\' :: c :: cs) = true ↔ c ≠ '\n' ∧ isQuotable q cs = true := by
  simp [isQuotable]

theorem isQuotable_plain {q c : Char} {cs : List Char} (h : c ≠ '\\') :
    isQuotable q (c :: cs) = true ↔ c ≠ '\n' ∧ c ≠ q ∧ isQuotable q cs = true := by
  rw [isQuotable]
  · simp [h, and_assoc]
  · rintro _ _ rfl
    exact absurd rfl h

theorem ne_of_isQuote {q : Char} (h : isQuote q = true) : q ≠ '\n' ∧ q ≠ '\\' := by
  constructor <;> rintro rfl <;> revert h <;> decide

theorem quoted?_append {q : Char} (hq : isQuote q = true) (rest : List Char) : ∀ {body : List Char},
    isQuotable q body = true → quoted? q (body ++ q :: rest) = some body
  | [], _ => by
    have := ne_of_isQuote hq
    rw [List.nil_append, quoted?] <;> simp_all
  | c :: body, h => by
    by_cases slash : c = '\\'
    · subst slash
      cases body with
      | nil => simp [isQuotable] at h
      | cons c body =>
        obtain ⟨hc, h⟩ := isQuotable_kept.1 h
        have ih := quoted?_append hq rest h
        simp [quoted?, ih]
    · obtain ⟨hc, hcq, h⟩ := (isQuotable_plain slash).1 h
      have ih := quoted?_append hq rest h
      rw [List.cons_append, quoted?]
      · simp [hcq, ih]
      all_goals simp_all

theorem of_quoted? {q : Char} : ∀ {cs body : List Char}, quoted? q cs = some body →
    isQuotable q body = true ∧ ∃ rest, cs = body ++ q :: rest := by
  intro cs
  fun_induction quoted? q cs with
  | case1 | case2 | case3 | case4 => simp
  | case5 c cs hc ih =>
    intro body h
    obtain ⟨body, read, rfl⟩ := Option.map_eq_some_iff.1 h
    obtain ⟨quotable, rest, rfl⟩ := ih read
    exact ⟨isQuotable_kept.2 ⟨by simpa using hc, quotable⟩, rest, rfl⟩
  | case6 cs =>
    rintro body ⟨⟩
    exact ⟨rfl, cs, rfl⟩
  | case7 c cs hn hs hc ih =>
    intro body h
    obtain ⟨body, read, rfl⟩ := Option.map_eq_some_iff.1 h
    obtain ⟨quotable, rest, rfl⟩ := ih read
    refine ⟨(isQuotable_plain ?_).2 ⟨?_, hc, quotable⟩, rest, rfl⟩
    · simpa using hs
    · simpa using hn

/-- **A string is closed by the first quote that no backslash keeps.** -/
theorem quoted?_eq_some {q : Char} (hq : isQuote q = true) {cs body : List Char} :
    quoted? q cs = some body ↔ isQuotable q body = true ∧ ∃ rest, cs = body ++ q :: rest := by
  constructor
  · exact of_quoted?
  · rintro ⟨quotable, rest, rfl⟩
    exact quoted?_append hq rest quotable

/-! ### How tokens are written -/

/-- **The ways to write a token**: a keyword, an identifier, a number of not too many digits, a string between two quotes,
or a symbol. -/
inductive Spells : Kind → Value → List Char → Prop where
  | keyword {w : String} {k : Kind} : (w, k) ∈ keywords → Spells k (.text w) w.toList
  | identifier {w : String} : isWord w = true → keywords.lookup w = none → Spells .id (.text w) w.toList
  | number {ds : List Char} : ds ≠ [] → (∀ d ∈ ds, isDigit d = true) → ds.length ≤ maxDigits →
      Spells .number (.number (ofDigits ds)) ds
  | string {q : Char} {body : List Char} : isQuote q = true → isQuotable q body = true →
      Spells .string (.text (String.ofList body)) (q :: (body ++ [q]))
  | symbol {w : String} {k : Kind} : (w, k) ∈ symbols → Spells k (.text w) w.toList

/-- Whether a token that is written as `cs` would go on with the character `c`. -/
def joins (cs : List Char) (c : Char) : Bool :=
  match cs with
  | [] => false
  | d :: _ =>
    if isWordStart d then isWordPart c
    else if isDigit d then isDigit c
    else !isQuote d && (cs ++ [c] == ['<', '/'] || symbols.any fun s => s.1.toList == cs ++ [c])

/-- No rule applies at the head of the text. -/
structure NoRule (cs : List Char) : Prop where
  nonempty : cs ≠ []
  space : ∀ c ∈ cs.head?, isSpace c = false
  comment : ¬ ['<', '/'] <+: cs
  token : ∀ lexeme, lexeme <+: cs → ∀ k v, ¬ Spells k v lexeme

/-- What a text is made of. -/
inductive Piece where
  | space (c : Char)
  | comment (cs : List Char)
  | token (kind : Kind) (value : Value) (cs : List Char)
  /-- characters that no rule fits -/
  | stray (run : List Char)

def Piece.text : Piece → List Char
  | space c => [c]
  | comment cs => cs
  | token _ _ cs => cs
  | stray run => run

/-- **A piece is read in front of a text**, if the text does not go on with the piece. -/
inductive Fits : Piece → List Char → Prop where
  | space {c : Char} {rest : List Char} : isSpace c = true → Fits (.space c) rest
  | comment {cs rest : List Char} : IsComment cs → Fits (.comment cs) rest
  | token {k : Kind} {v : Value} {cs rest : List Char} : Spells k v cs → (∀ c ∈ rest.head?, joins cs c = false) →
      Fits (.token k v cs) rest
  | stray {run rest : List Char} : (∀ c ∈ run, endsStray c = false) → (∃ c ∈ rest.head?, endsStray c = true) →
      NoRule (run ++ rest) → Fits (.stray run) rest

/-- The text cannot be read at all: a comment in it is never closed, a number has too many digits, or a stray run never
ends. -/
inductive Stuck : Step → List Char → Prop where
  | unclosed {cs : List Char} : ['<', '/'] <+: cs → (∀ c, c <+: cs → ¬ IsComment c) → Stuck .unclosed cs
  | digits {cs : List Char} : maxDigits < (cs.takeWhile isDigit).length →
      Stuck (.fault (.tooManyDigits (cs.takeWhile isDigit).length)) cs
  | runsOff {cs : List Char} : NoRule cs → (∀ c ∈ cs, endsStray c = false) → Stuck (.fault .runsOff) cs

/-! ### The characters that tokens begin with -/

theorem symbols_start : ∀ s ∈ symbols, ∃ c ∈ s.1.toList.head?, isSpace c = false ∧ isWordStart c = false ∧
    isDigit c = false ∧ isQuote c = false := by
  have table : symbols.all (fun s => s.1.toList.head?.any fun c =>
      !isSpace c && !isWordStart c && !isDigit c && !isQuote c) = true := by decide +kernel
  intro s h
  simpa [Option.any_eq_true, and_assoc] using List.all_eq_true.1 table s h

theorem digit_start {c : Char} (h : isDigit c = true) : isWordStart c = false ∧ isSpace c = false := by
  have apart : ∀ z ∈ zeros, z = 48 ∨ 122 < z := by decide
  obtain ⟨z, hz⟩ : ∃ z, zeros.find? (fun z => z ≤ c.toNat && c.toNat < z + 10) = some z := by
    simpa [isDigit, digit?, Option.isSome_iff_exists] using h
  have range := List.find?_some hz
  have := apart z (List.mem_of_find?_eq_some hz)
  simp only [Bool.and_eq_true, decide_eq_true_eq] at range
  constructor
  · refine Bool.eq_false_iff.2 fun hw => ?_
    have hw : (decide ('A'.val ≤ c.val ∧ c.val ≤ 'Z'.val) || (decide ('a'.val ≤ c.val) && decide (c.val ≤ 'z'.val)) ||
      c == '_') = true := hw
    simp only [Bool.or_eq_true, Bool.and_eq_true, decide_eq_true_eq, beq_iff_eq, UInt32.le_iff_toNat_le] at hw
    change ((65 ≤ c.toNat ∧ c.toNat ≤ 90) ∨ (97 ≤ c.toNat ∧ c.toNat ≤ 122)) ∨ c = '_' at hw
    rcases hw with hw | rfl
    · omega
    · have : '_'.toNat = 95 := rfl
      omega
  · refine Bool.eq_false_iff.2 fun hs => ?_
    simp only [isSpace, Bool.or_eq_true, beq_iff_eq] at hs
    rcases hs with (rfl | rfl) | rfl <;> simp at range <;> omega

theorem wordStart_not_space {c : Char} (h : isWordStart c = true) : isSpace c = false := by
  refine Bool.eq_false_iff.2 fun hs => ?_
  simp only [isSpace, Bool.or_eq_true, beq_iff_eq] at hs
  rcases hs with (rfl | rfl) | rfl <;> revert h <;> decide

theorem quote_start {c : Char} (h : isQuote c = true) : isWordStart c = false ∧ isDigit c = false ∧ isSpace c = false := by
  simp only [isQuote, Bool.or_eq_true, beq_iff_eq] at h
  rcases h with rfl | rfl <;> decide

theorem cons_of_isWord {w : String} (h : isWord w = true) : ∃ c cs, w.toList = c :: cs ∧ isWordStart c = true ∧
    ∀ b ∈ cs, isWordPart b = true := by
  unfold isWord at h
  cases hw : w.toList with
  | nil => simp [hw] at h
  | cons c cs => exact ⟨c, cs, rfl, by simpa [hw] using h⟩

theorem joins_word {w : String} (h : isWord w = true) (c : Char) : joins w.toList c = isWordPart c := by
  obtain ⟨d, cs, hw, start, -⟩ := cons_of_isWord h
  simp [joins, hw, start]

theorem joins_digits {d : Char} {ds : List Char} (h : isDigit d = true) (c : Char) : joins (d :: ds) c = isDigit c := by
  simp [joins, h, (digit_start h).1]

theorem joins_symbol {s : String × Kind} (h : s ∈ symbols) (c : Char) :
    joins s.1.toList c = (s.1.toList ++ [c] == ['<', '/'] || symbols.any fun t => t.1.toList == s.1.toList ++ [c]) := by
  obtain ⟨d, hd, -, word, digit, quote⟩ := symbols_start s h
  obtain ⟨cs, hcs⟩ := List.head?_eq_some_iff.1 hd
  simp [joins, hcs, word, digit, quote]

theorem keywords_words : ∀ e ∈ keywords, isWord e.1 = true ∧ Kind.ofWord e.1 = e.2 := by decide +kernel

theorem Spells.ne_nil {k : Kind} {v : Value} {lexeme : List Char} (h : Spells k v lexeme) : lexeme ≠ [] := by
  cases h with
  | keyword mem =>
    obtain ⟨c, cs, hw, -⟩ := cons_of_isWord (keywords_words _ mem).1
    simp [hw]
  | identifier isWord _ =>
    obtain ⟨c, cs, hw, -⟩ := cons_of_isWord isWord
    simp [hw]
  | number nonempty _ _ => exact nonempty
  | string _ _ => simp
  | symbol mem =>
    obtain ⟨c, hc, -⟩ := symbols_start _ mem
    obtain ⟨cs, hcs⟩ := List.head?_eq_some_iff.1 hc
    simp [hcs]

theorem no_newline_of_isWord {w : String} (h : isWord w = true) : '\n' ∉ w.toList := by
  obtain ⟨c, cs, hw, start, parts⟩ := cons_of_isWord h
  rw [hw]
  rintro (_ | ⟨_, hn⟩)
  · exact absurd start (by decide)
  · exact absurd (parts _ hn) (by decide)

theorem no_newline_of_isQuotable {q : Char} : ∀ {body : List Char}, isQuotable q body = true → '\n' ∉ body
  | [], _ => List.not_mem_nil
  | c :: body, h => by
    by_cases slash : c = '\\'
    · subst slash
      cases body with
      | nil => simp
      | cons c body =>
        obtain ⟨hc, h⟩ := isQuotable_kept.1 h
        simp [no_newline_of_isQuotable h, hc.symm]
    · obtain ⟨hc, -, h⟩ := (isQuotable_plain slash).1 h
      simp [no_newline_of_isQuotable h, hc.symm]

theorem symbols_length : ∀ s ∈ symbols, s.1.toList.length ≤ 2 ∧ '\n' ∉ s.1.toList := by decide +kernel

/-- **No token reaches over the end of a line.** -/
theorem Spells.no_newline {k : Kind} {v : Value} {lexeme : List Char} (h : Spells k v lexeme) : '\n' ∉ lexeme := by
  cases h with
  | keyword mem => exact no_newline_of_isWord (keywords_words _ mem).1
  | identifier isWord _ => exact no_newline_of_isWord isWord
  | number _ all _ => exact fun hn => absurd (all _ hn) (by decide)
  | string hq hb => simp [no_newline_of_isQuotable hb, (ne_of_isQuote hq).1.symm]
  | symbol mem => exact (symbols_length _ mem).2

theorem joins_separator {k : Kind} {v : Value} {lexeme : List Char} (h : Spells k v lexeme) {c : Char}
    (hc : c ∈ [' ', '\t', '\n', '<', ';']) : joins lexeme c = false := by
  have word : isWordPart c = false ∧ isDigit c = false := by
    simp only [List.mem_cons, List.not_mem_nil, or_false] at hc
    rcases hc with rfl | rfl | rfl | rfl | rfl <;> decide
  have symbol : symbols.all (fun s => [' ', '\t', '\n', '<', ';'].all fun c => !joins s.1.toList c) = true := by
    decide +kernel
  cases h with
  | keyword mem => rw [joins_word (keywords_words _ mem).1, word.1]
  | identifier isWord _ => rw [joins_word isWord, word.1]
  | number nonempty all _ =>
    obtain ⟨d, ds, rfl⟩ := List.exists_cons_of_ne_nil nonempty
    rw [joins_digits (all d List.mem_cons_self), word.2]
  | string hq _ => simp [joins, hq, quote_start hq]
  | symbol mem => simpa using List.all_eq_true.1 (List.all_eq_true.1 symbol _ mem) c hc

/-! ### What fits is read -/

theorem takeWhile_append_stop {p : Char → Bool} {cs rest : List Char} (all : ∀ c ∈ cs, p c = true)
    (stop : ∀ c ∈ rest.head?, p c = false) : (cs ++ rest).takeWhile p = cs := by
  rw [List.takeWhile_append_of_pos all]
  cases rest with
  | nil => simp
  | cons c rest => simp [stop c rfl]

theorem head?_dropWhile (p : Char → Bool) (cs : List Char) : ∀ c ∈ (cs.dropWhile p).head?, p c = false := by
  intro c hc
  have := List.head?_dropWhile_not p cs
  rwa [Option.mem_def.1 hc] at this

theorem step_word {w : String} (h : isWord w = true) {rest : List Char} (stop : ∀ c ∈ rest.head?, isWordPart c = false)
    (there : List Char) : ∃ c cs, w.toList = c :: cs ∧
      step c (cs ++ rest) there = .token (.ofWord w) (.text w) cs.length := by
  obtain ⟨c, cs, hw, start, parts⟩ := cons_of_isWord h
  have space := wordStart_not_space start
  simp only [isSpace, Bool.or_eq_false_iff, beq_eq_false_iff_ne] at space
  have same : String.ofList (c :: cs) = w := by rw [← hw, String.ofList_toList]
  refine ⟨c, cs, hw, ?_⟩
  simp [step, space, start, takeWhile_append_stop parts stop, same]

theorem step_number {d : Char} {ds rest : List Char} (all : ∀ c ∈ d :: ds, isDigit c = true)
    (few : (d :: ds).length ≤ maxDigits) (stop : ∀ c ∈ rest.head?, isDigit c = false) (there : List Char) :
    step d (ds ++ rest) there = .token .number (.number (ofDigits (d :: ds))) ds.length := by
  have digit := all d List.mem_cons_self
  obtain ⟨word, space⟩ := digit_start digit
  simp only [isSpace, Bool.or_eq_false_iff, beq_eq_false_iff_ne] at space
  have taken := takeWhile_append_stop (fun c hc => all c (List.mem_cons_of_mem d hc)) stop
  have few : ¬ maxDigits < ds.length + 1 := Nat.not_lt.2 few
  simp only [step, space, word, digit, taken, few, List.length_cons, Bool.false_eq_true, or_self, if_false, if_true,
    Nat.add_sub_cancel]

theorem step_string {q : Char} {body : List Char} (hq : isQuote q = true) (hb : isQuotable q body = true)
    (rest there : List Char) :
    step q (body ++ q :: rest) there = .token .string (.text (String.ofList body)) (body.length + 1) := by
  obtain ⟨word, digit, space⟩ := quote_start hq
  simp only [isSpace, Bool.or_eq_false_iff, beq_eq_false_iff_ne] at space
  have notComment : q ≠ '<' := by
    rintro rfl
    revert hq
    decide
  simp [step, space, word, digit, notComment, hq, quoted?_append hq rest hb]

theorem symbols_order : symbols.Pairwise fun s t => ¬ s.1.toList <+: t.1.toList := by decide +kernel

theorem symbol?_append {s : String × Kind} (h : s ∈ symbols) {rest : List Char}
    (stop : ∀ c ∈ rest.head?, joins s.1.toList c = false) : symbol? (s.1.toList ++ rest) = some s := by
  obtain ⟨before, after, table⟩ := List.append_of_mem h
  refine List.find?_eq_some_iff_append.2 ⟨by simp, before, after, table, fun t ht => ?_⟩
  have mem : t ∈ symbols := by rw [table]; exact List.mem_append_left _ ht
  have order : ¬ t.1.toList <+: s.1.toList := by
    have := symbols_order
    rw [table, List.pairwise_append] at this
    exact this.2.2 t ht s List.mem_cons_self
  rw [Bool.not_eq_true', ← Bool.not_eq_true, List.isPrefixOf_iff_prefix]
  intro fits
  -- a symbol that fits and is no part of `s` goes on with the next character
  rcases List.prefix_or_prefix_of_prefix fits (List.prefix_append s.1.toList rest) with shorter | ⟨more, longer⟩
  · exact order shorter
  · rw [← longer, List.prefix_append_right_inj] at fits
    have one : more.length ≤ 1 := by
      have := (symbols_length t mem).1
      obtain ⟨c, hc, -⟩ := symbols_start s h
      obtain ⟨cs, hcs⟩ := List.head?_eq_some_iff.1 hc
      rw [← longer, hcs] at this
      simp at this
      omega
    match more, one with
    | [], _ => exact order (by simp [← longer])
    | [c], _ =>
      obtain ⟨rest, rfl⟩ := fits
      have := stop c rfl
      rw [joins_symbol h, Bool.or_eq_false_iff, List.any_eq_false] at this
      exact this.2 t mem (by simp [longer])

theorem step_symbol {s : String × Kind} (h : s ∈ symbols) {rest : List Char}
    (stop : ∀ c ∈ rest.head?, joins s.1.toList c = false) (there : List Char) : ∃ c cs, s.1.toList = c :: cs ∧
      step c (cs ++ rest) there = .token s.2 (.text s.1) cs.length := by
  obtain ⟨c, hc, space, word, digit, quote⟩ := symbols_start s h
  obtain ⟨cs, hcs⟩ := List.head?_eq_some_iff.1 hc
  simp only [isSpace, Bool.or_eq_false_iff, beq_eq_false_iff_ne] at space
  have read := symbol?_append h stop
  have length : s.1.length - 1 = cs.length := by simp [← String.length_toList, hcs]
  have comment : ¬ (c = '<' ∧ (cs ++ rest).head? = some '/') := by
    rintro ⟨rfl, hr⟩
    cases cs with
    | nil =>
      have := stop '/' hr
      rw [joins_symbol h, hcs] at this
      simp at this
    | cons d cs =>
      have table : ∀ s ∈ symbols, ¬ ['<', '/'] <+: s.1.toList := by decide +kernel
      obtain rfl : d = '/' := by simpa using hr
      exact table s h ⟨cs, by rw [hcs]; rfl⟩
  rw [hcs] at read
  refine ⟨c, cs, hcs, ?_⟩
  unfold step
  rw [if_neg (by simpa using space.1), if_neg (by simp [word]), if_neg (by simp [digit]), if_neg space.2, if_neg comment]
  simp only [quote, Bool.false_eq_true, if_false, ← List.cons_append, read, length]

/-- **A token that is not gone on with is read.** -/
theorem step_token {k : Kind} {v : Value} {lexeme rest : List Char} (h : Spells k v lexeme)
    (stop : ∀ c ∈ rest.head?, joins lexeme c = false) (there : List Char) : ∃ c cs, lexeme = c :: cs ∧
      step c (cs ++ rest) there = .token k v cs.length := by
  cases h with
  | @keyword w k mem =>
    obtain ⟨isWord, kind⟩ : isWord w = true ∧ Kind.ofWord w = k := keywords_words _ mem
    simp only [joins_word isWord] at stop
    obtain ⟨c, cs, hw, read⟩ := step_word isWord stop there
    exact ⟨c, cs, hw, kind ▸ read⟩
  | identifier isWord other =>
    simp only [joins_word isWord] at stop
    obtain ⟨c, cs, hw, read⟩ := step_word isWord stop there
    rw [Kind.ofWord, other, Option.getD_none] at read
    exact ⟨c, cs, hw, read⟩
  | number nonempty all few =>
    obtain ⟨d, ds, rfl⟩ := List.exists_cons_of_ne_nil nonempty
    simp only [joins_digits (all d List.mem_cons_self)] at stop
    exact ⟨d, ds, rfl, step_number all few stop there⟩
  | string hq hb =>
    refine ⟨_, _, rfl, ?_⟩
    rw [List.append_assoc, List.length_append]
    exact step_string hq hb rest there
  | symbol mem => exact step_symbol mem stop there

theorem step_comment {body : List Char} (h : IsComment ('<' :: '/' :: body)) (rest : List Char) :
    step '<' ('/' :: body ++ rest) ('<' :: '/' :: body ++ rest) = .gap (body.length + 1) (body.count '\n') := by
  have start : isWordStart '<' = false ∧ isDigit '<' = false := by decide
  have closed : closing? 0 0 0 (body ++ rest) = some (body.length, body.count '\n') :=
    closing?_eq_some.2 ⟨body, rest, rfl, h, rfl, rfl⟩
  simp [step, start, closed]

/-! ### All that is read fits -/

theorem spells_word {w : String} (h : isWord w = true) : Spells (.ofWord w) (.text w) w.toList := by
  unfold Kind.ofWord
  cases hl : keywords.lookup w with
  | some k => exact .keyword (mem_of_lookup hl)
  | none => exact .identifier h hl

def TokenAhead (cs : List Char) : Prop := ∃ k v lexeme rest, cs = lexeme ++ rest ∧ Fits (.token k v lexeme) rest

theorem word_ahead {c : Char} (h : isWordStart c = true) (cs : List Char) : TokenAhead (c :: cs) := by
  have isWord := isWord_word h cs
  have spells := spells_word isWord
  have stop := head?_dropWhile isWordPart cs
  simp only [← joins_word isWord, String.toList_ofList] at stop spells
  exact ⟨_, _, _, cs.dropWhile isWordPart, by simp, .token spells stop⟩

theorem number_ahead {c : Char} (h : isDigit c = true) {cs : List Char}
    (few : ((c :: cs).takeWhile isDigit).length ≤ maxDigits) : TokenAhead (c :: cs) := by
  rw [List.takeWhile_cons_of_pos h] at few
  have all : ∀ d ∈ c :: cs.takeWhile isDigit, isDigit d = true := by
    rintro d (_ | ⟨_, hd⟩)
    · exact h
    · exact List.all_eq_true.1 List.all_takeWhile d hd
  have stop : ∀ b ∈ (cs.dropWhile isDigit).head?, joins (c :: cs.takeWhile isDigit) b = false := by
    simp only [joins_digits h]
    exact head?_dropWhile isDigit cs
  exact ⟨_, _, _, cs.dropWhile isDigit, by simp, .token (.number (List.cons_ne_nil _ _) all few) stop⟩

theorem string_ahead {q : Char} (hq : isQuote q = true) {cs body : List Char} (h : quoted? q cs = some body) :
    TokenAhead (q :: cs) := by
  obtain ⟨quotable, rest, rfl⟩ := (quoted?_eq_some hq).1 h
  refine ⟨_, _, _, rest, ?_, .token (.string hq quotable) fun c _ => ?_⟩
  · simp
  · simp [joins, hq, quote_start hq]

theorem symbol_ahead {s : String × Kind} {cs : List Char} (h : symbol? cs = some s) (comment : ¬ ['<', '/'] <+: cs) :
    TokenAhead cs := by
  obtain ⟨fits, before, after, table, first⟩ := List.find?_eq_some_iff_append.1 h
  have mem : s ∈ symbols := by rw [table]; simp
  obtain ⟨rest, rfl⟩ := List.isPrefixOf_iff_prefix.1 fits
  refine ⟨s.2, .text s.1, s.1.toList, rest, rfl, .token (.symbol mem) fun c hc => ?_⟩
  obtain ⟨rest, rfl⟩ := List.head?_eq_some_iff.1 hc
  rw [joins_symbol mem, Bool.or_eq_false_iff, List.any_eq_false]
  constructor
  · rw [beq_eq_false_iff_ne]
    intro opens
    exact comment ⟨rest, by rw [← opens]; simp⟩
  · -- a longer symbol would stand before `s` in the table, where none fits
    intro t ht eq
    have eq : t.1.toList = s.1.toList ++ [c] := eq_of_beq eq
    have order := symbols_order
    rw [table] at ht order
    rcases List.mem_append.1 ht with ht | ht
    · have := first t ht
      rw [Bool.not_eq_true', ← Bool.not_eq_true, List.isPrefixOf_iff_prefix] at this
      exact this ⟨rest, by rw [eq]; simp⟩
    · rcases List.mem_cons.1 ht with rfl | ht
      · simp at eq
      · have := (List.pairwise_cons.1 (List.pairwise_append.1 order).2.1).1 t ht
        exact this ⟨[c], eq.symm⟩

theorem prefix_cons_iff {c : Char} {cs : List Char} : ['<', '/'] <+: c :: cs ↔ c = '<' ∧ cs.head? = some '/' := by
  rw [List.cons_prefix_cons, eq_comm]
  cases cs with
  | nil => simp
  | cons b cs => simp [List.cons_prefix_cons, eq_comm]

/-- **The ways in which no rule applies**, as a step tries them one after another. -/
theorem noRule_iff {c : Char} {cs : List Char} : NoRule (c :: cs) ↔ isSpace c = false ∧ isWordStart c = false ∧
    isDigit c = false ∧ ¬ ['<', '/'] <+: c :: cs ∧ (isQuote c = true → quoted? c cs = none) ∧ symbol? (c :: cs) = none := by
  constructor
  · intro h
    have none_ahead : ¬ TokenAhead (c :: cs) := by
      rintro ⟨k, v, lexeme, rest, text, ⟨⟩⟩
      exact h.token lexeme ⟨rest, text.symm⟩ k v ‹_›
    refine ⟨h.space c rfl, ?_, ?_, h.comment, fun hq => ?_, ?_⟩
    · exact Bool.eq_false_iff.2 fun hw => none_ahead (word_ahead hw cs)
    · refine Bool.eq_false_iff.2 fun hd => h.token [c] (by simp) _ _ (.number (by simp) (by simpa using hd) ?_)
      simp [maxDigits]
    · exact Option.eq_none_iff_forall_ne_some.2 fun body hb => none_ahead (string_ahead hq hb)
    · exact Option.eq_none_iff_forall_ne_some.2 fun s hs => none_ahead (symbol_ahead hs h.comment)
  · rintro ⟨space, word, digit, comment, quoted, symbol⟩
    have notWord {w : String} (h : isWord w = true) : ¬ w.toList <+: c :: cs := by
      obtain ⟨d, ds, hw, start, -⟩ := cons_of_isWord h
      rw [hw, List.cons_prefix_cons]
      rintro ⟨rfl, -⟩
      simp [word] at start
    refine ⟨List.cons_ne_nil _ _, by simpa using space, comment, fun lexeme fits k v h => ?_⟩
    cases h with
    | keyword mem => exact notWord (keywords_words _ mem).1 fits
    | identifier isWord _ => exact notWord isWord fits
    | number nonempty all _ =>
      obtain ⟨d, ds, rfl⟩ := List.exists_cons_of_ne_nil nonempty
      obtain ⟨rfl, -⟩ := List.cons_prefix_cons.1 fits
      simp [all d List.mem_cons_self] at digit
    | string hq hb =>
      obtain ⟨rfl, rest, rfl⟩ := List.cons_prefix_cons.1 fits
      rw [List.append_assoc] at quoted
      simp [quoted?_append hq rest hb, hq] at quoted
    | @symbol w k mem =>
      have := List.find?_eq_none.1 symbol _ mem
      exact this (List.isPrefixOf_iff_prefix.2 fits)

theorem step_noRule {c : Char} {cs : List Char} (h : NoRule (c :: cs)) (there : List Char) :
    step c cs there = strayStep there := by
  obtain ⟨space, word, digit, comment, quoted, symbol⟩ := noRule_iff.1 h
  simp only [isSpace, Bool.or_eq_false_iff, beq_eq_false_iff_ne] at space
  rw [prefix_cons_iff] at comment
  have none : (if isQuote c = true then quoted? c cs else none) = none := by
    split
    · next hq => exact quoted hq
    · rfl
  unfold step
  rw [if_neg (by simpa using space.1), if_neg (by simp [word]), if_neg (by simp [digit]), if_neg space.2, if_neg comment]
  simp only [none, symbol]

theorem NoRule.not_endsStray {c : Char} {cs : List Char} (h : NoRule (c :: cs)) : endsStray c = false := by
  obtain ⟨space, -, -, -, -, symbol⟩ := noRule_iff.1 h
  refine Bool.eq_false_iff.2 fun ends => ?_
  simp only [isSpace, Bool.or_eq_false_iff, beq_eq_false_iff_ne] at space
  simp only [endsStray, Bool.or_eq_true, beq_iff_eq] at ends
  rcases ends with ((rfl | rfl) | rfl) | rfl
  · exact space.1.1 rfl
  · have := List.find?_eq_none.1 symbol (";", .semicolon) (by decide)
    exact this (List.isPrefixOf_iff_prefix.2 (by simp))
  · exact space.2 rfl
  · exact space.1.2 rfl

theorem step_stray {c : Char} {run rest : List Char} (h : Fits (.stray (c :: run)) rest) :
    step c (run ++ rest) (c :: run ++ rest) = .stray (c :: run) := by
  obtain ⟨_⟩ | ⟨_⟩ | ⟨_⟩ | ⟨inside, ⟨b, hb, ends⟩, none⟩ := h
  rw [List.cons_append] at none ⊢
  rw [step_noRule none, strayStep]
  have taken : (c :: (run ++ rest)).takeWhile (!endsStray ·) = c :: run := by
    rw [← List.cons_append]
    refine takeWhile_append_stop (fun a ha => by simp [inside a ha]) fun a ha => ?_
    obtain rfl : a = b := Option.some.inj (ha.symm.trans hb)
    simp [ends]
  have more : rest.length ≠ 0 := by
    rintro nil
    simp [List.length_eq_zero_iff.1 nil] at hb
  simp only [taken]
  rw [if_pos (by simp; omega)]

theorem comment_or_unclosed {cs : List Char} (h : ['<', '/'] <+: cs) :
    (∃ p rest, cs = Piece.text p ++ rest ∧ Fits p rest) ∨ Stuck .unclosed cs := by
  obtain ⟨cs, rfl⟩ := h
  by_cases closed : ∃ body rest, cs = body ++ rest ∧ IsComment ('<' :: '/' :: body)
  · obtain ⟨body, rest, rfl, comment⟩ := closed
    exact .inl ⟨.comment _, rest, rfl, .comment comment⟩
  · refine .inr (.unclosed (List.prefix_append ..) fun c hc comment => closed ?_)
    obtain ⟨body, rfl⟩ := comment.opens
    obtain ⟨rest, rfl⟩ := (List.prefix_append_right_inj _).1 hc
    exact ⟨body, rest, rfl, comment⟩

theorem stray_or_runsOff {cs : List Char} (h : NoRule cs) :
    (∃ p rest, cs = Piece.text p ++ rest ∧ Fits p rest) ∨ Stuck (.fault .runsOff) cs := by
  have split : cs = cs.takeWhile (!endsStray ·) ++ cs.dropWhile (!endsStray ·) := List.takeWhile_append_dropWhile.symm
  have inside : ∀ c ∈ cs.takeWhile (!endsStray ·), endsStray c = false := by
    intro c hc
    simpa using List.all_eq_true.1 List.all_takeWhile c hc
  cases found : cs.dropWhile (!endsStray ·) with
  | nil =>
    rw [found, List.append_nil] at split
    exact .inr (.runsOff h (split ▸ inside))
  | cons c rest =>
    have ends := head?_dropWhile (!endsStray ·) cs c (by rw [found]; rfl)
    rw [found] at split
    exact .inl ⟨.stray _, c :: rest, split, .stray inside ⟨c, rfl, by simpa using ends⟩ (split ▸ h)⟩

/-- **At the head of every text stands something that fits, or else the text cannot be read.** -/
theorem fits_or_stuck {cs : List Char} (h : cs ≠ []) :
    (∃ p rest, cs = Piece.text p ++ rest ∧ Fits p rest) ∨ ∃ r, Stuck r cs := by
  obtain ⟨c, cs, rfl⟩ := List.exists_cons_of_ne_nil h
  by_cases space : isSpace c = true
  · exact .inl ⟨.space c, cs, rfl, .space space⟩
  by_cases comment : ['<', '/'] <+: c :: cs
  · exact (comment_or_unclosed comment).imp_right fun stuck => ⟨_, stuck⟩
  by_cases none : NoRule (c :: cs)
  · exact (stray_or_runsOff none).imp_right fun stuck => ⟨_, stuck⟩
  by_cases many : maxDigits < ((c :: cs).takeWhile isDigit).length
  · exact .inr ⟨_, .digits many⟩
  have ahead : TokenAhead (c :: cs) := by
    refine Classical.byContradiction fun absent => none (noRule_iff.2 ?_)
    refine ⟨by simpa using space, ?_, ?_, comment, fun hq => ?_, ?_⟩
    · exact Bool.eq_false_iff.2 fun hw => absent (word_ahead hw cs)
    · exact Bool.eq_false_iff.2 fun hd => absent (number_ahead hd (Nat.not_lt.1 many))
    · exact Option.eq_none_iff_forall_ne_some.2 fun body hb => absent (string_ahead hq hb)
    · exact Option.eq_none_iff_forall_ne_some.2 fun s hs => absent (symbol_ahead hs comment)
  obtain ⟨k, v, lexeme, rest, text, fits⟩ := ahead
  exact .inl ⟨.token k v lexeme, rest, text, fits⟩

theorem step_of_stuck {r : Step} {c : Char} {cs : List Char} (h : Stuck r (c :: cs)) : step c cs (c :: cs) = r := by
  cases h with
  | unclosed opens never =>
    obtain ⟨rest, text⟩ := opens
    obtain ⟨rfl, rfl⟩ := List.cons.inj text
    have start : isWordStart '<' = false ∧ isDigit '<' = false := by decide
    have closed : closing? 0 0 0 rest = none := by
      refine Option.eq_none_iff_forall_ne_some.2 fun ⟨taken, newlines⟩ found => ?_
      obtain ⟨body, rest, rfl, comment, -⟩ := closing?_eq_some.1 found
      exact never _ ⟨rest, rfl⟩ comment
    simp [step, start, closed]
  | digits many =>
    have digit : isDigit c = true := by
      refine Classical.byContradiction fun other => ?_
      rw [List.takeWhile_cons_of_neg other] at many
      simp at many
    obtain ⟨word, space⟩ := digit_start digit
    simp only [isSpace, Bool.or_eq_false_iff, beq_eq_false_iff_ne] at space
    simp only [List.takeWhile_cons_of_pos digit, List.length_cons] at many ⊢
    simp [step, space, word, digit, many]
  | runsOff none inside =>
    have taken := @takeWhile_append_stop (!endsStray ·) (c :: cs) [] (fun a ha => by simp [inside a ha]) (by simp)
    rw [List.append_nil] at taken
    simp [step_noRule none, strayStep, taken]

theorem Fits.ne_nil {p : Piece} {rest : List Char} (h : Fits p rest) : p.text ≠ [] := by
  cases h with
  | space _ => simp [Piece.text]
  | comment comment =>
    obtain ⟨body, rfl⟩ := comment.opens
    simp [Piece.text]
  | token spells _ => exact spells.ne_nil
  | @stray run rest _ ends none =>
    rintro rfl
    obtain ⟨c, hc, ends⟩ := ends
    obtain ⟨rest, rfl⟩ := List.head?_eq_some_iff.1 hc
    have := none.not_endsStray
    simp [this] at ends

theorem Stuck.ne_nil {r : Step} {cs : List Char} (h : Stuck r cs) : cs ≠ [] := by
  rintro rfl
  cases h with
  | unclosed opens => simp at opens
  | digits many => simp at many
  | runsOff none => exact none.nonempty rfl

end TesLang.Token
