import TesLang.Proofs.Reading.Coverage
/-!
# Reading undoes writing

Tokens can be written one behind another with spaces, line ends and complete comments between them (`rendered`).  However
that is done, reading gives back the tokens, each at its position and on its line (`lex_rendered`).

Nothing is needed but that tokens are kept apart: a token never goes on with a space or with the beginning of a comment,
although `<` is a token and `</` begins a comment.
-/
namespace TesLang.Token

open Text (isDigit ofDigits digit?)

/-- A token in writing. -/
structure Lexeme where
  kind : Kind
  value : Value
  text : List Char
  spells : Spells kind value text

theorem ofDigits_append (ds : List Char) (d : Char) : ofDigits (ds ++ [d]) = 10 * ofDigits ds + (digit? d).getD 0 := by
  simp [ofDigits]

theorem digit?_digitChar : ∀ {n : Nat}, n < 10 → digit? n.digitChar = some n := by decide

theorem ofDigits_toDigits (n : Nat) : ofDigits (Nat.toDigits 10 n) = n := by
  by_cases small : n < 10
  · rw [Nat.toDigits_of_lt_base small]
    simp [ofDigits, digit?_digitChar small]
  · have digit := digit?_digitChar (Nat.mod_lt n (by decide : 10 > 0))
    rw [Nat.toDigits_of_base_le (by decide) (by omega), ofDigits_append, ofDigits_toDigits (n / 10), digit]
    simp
    omega

theorem isDigit_of_ascii {c : Char} (h : c.isDigit = true) : isDigit c = true := by
  simp only [Char.isDigit, Bool.and_eq_true, decide_eq_true_eq, ge_iff_le, UInt32.le_iff_toNat_le] at h
  have range : 48 ≤ c.toNat ∧ c.toNat ≤ 57 := h
  rw [isDigit, digit?, Option.isSome_map, List.find?_isSome]
  refine ⟨48, by decide, ?_⟩
  simp only [Bool.and_eq_true, decide_eq_true_eq]
  omega

/-- A number in decimal. -/
def Lexeme.number (n : Nat) (few : (Nat.toDigits 10 n).length ≤ maxDigits) : Lexeme where
  kind := .number
  value := .number n
  text := Nat.toDigits 10 n
  spells := by
    have digits : ∀ c ∈ Nat.toDigits 10 n, isDigit c = true :=
      fun c hc => isDigit_of_ascii (Nat.isDigit_of_mem_toDigits (by decide) (by decide) hc)
    have spells := Spells.number Nat.toDigits_ne_nil digits few
    rwa [ofDigits_toDigits] at spells

/-- Spaces, line ends and complete comments. -/
def IsSeparator (cs : List Char) : Prop := Gap cs [] []

/-- Tokens in writing behind some text, each with what separates it from the next. -/
def rendered (before : List Char) (ws : List (Lexeme × List Char)) : List Char :=
  before ++ ws.flatMap fun w => w.1.text ++ w.2

theorem rendered_cons (before : List Char) (w : Lexeme × List Char) (ws : List (Lexeme × List Char)) :
    rendered before (w :: ws) = rendered (before ++ (w.1.text ++ w.2)) ws := by
  simp [rendered]

theorem IsSeparator.head {cs : List Char} (h : IsSeparator cs) : ∀ c ∈ cs.head?, c ∈ [' ', '\t', '\n', '<', ';'] := by
  intro c hc
  unfold IsSeparator at h
  cases h with
  | nil => cases hc
  | space space _ =>
    obtain rfl := Option.some.inj hc
    simp only [isSpace, Bool.or_eq_true, beq_iff_eq] at space
    rcases space with (rfl | rfl) | rfl <;> decide
  | comment comment _ =>
    obtain ⟨body, rfl⟩ := comment.opens
    obtain rfl := Option.some.inj hc
    simp

theorem gap_cut {cs rest : List Char} {runs : List (List Char)} (h : Gap cs runs rest) (none : runs = []) : ∃ ps,
    textOf ps = cs ∧ (∀ rest, AllFit ps rest) ∧ (∀ pos line, tokensOf ps pos line = []) ∧
      ∀ line, noticesOf ps line = [] := by
  induction h with
  | nil => exact ⟨[], rfl, fun _ => trivial, fun _ _ => rfl, fun _ => rfl⟩
  | @space c cs _ _ space _ ih =>
    obtain ⟨ps, rfl, fits, tokens, notices⟩ := ih none
    exact ⟨.space c :: ps, rfl, fun rest => ⟨.space space, fits rest⟩, fun _ _ => tokens _ _, fun _ => notices _⟩
  | @comment c cs _ _ comment _ ih =>
    obtain ⟨ps, rfl, fits, tokens, notices⟩ := ih none
    exact ⟨.comment c :: ps, rfl, fun rest => ⟨.comment comment, fits rest⟩, fun _ _ => tokens _ _, fun _ => notices _⟩
  | stray => cases none

theorem rendered_cut (line : Nat) : ∀ {ws : List (Lexeme × List Char)}, (∀ w ∈ ws, IsSeparator w.2) →
    (∀ w ∈ ws.dropLast, w.2 ≠ []) → ∀ before : List Char, ∃ ps, rendered before ws = before ++ textOf ps ∧ AllFit ps [] ∧
      tokensOf ps before.length (line + before.count '\n') = (ws.mapIdx fun i w =>
        ⟨w.1.kind, w.1.value, line + (rendered before (ws.take i)).count '\n', (rendered before (ws.take i)).length⟩) ∧
      noticesOf ps (line + before.count '\n') = []
  | [], _, _, before => ⟨[], rfl, trivial, rfl, rfl⟩
  | (x, sep) :: ws, separators, apart, before => by
    have separator : IsSeparator sep := separators _ List.mem_cons_self
    obtain ⟨gap, rfl, fits, none, quiet⟩ := gap_cut separator rfl
    have apart' : ∀ w ∈ ws.dropLast, w.2 ≠ [] := by
      intro w hw
      cases ws with
      | nil => cases hw
      | cons w' ws => exact apart w (List.mem_cons_of_mem _ hw)
    obtain ⟨ps, text, allFit, tokens, notices⟩ := rendered_cut line (fun w hw => separators w (List.mem_cons_of_mem _ hw))
      apart' (before ++ (x.text ++ textOf gap))
    refine ⟨.token x.kind x.value x.text :: (gap ++ ps), ?_, ?_, ?_, ?_⟩
    · rw [rendered_cons, text]
      simp [Piece.text]
    · refine ⟨.token x.spells fun c hc => ?_, allFit_append.2 ⟨fits _, allFit⟩⟩
      -- behind the token stands its separator, or nothing at all
      have hc : c ∈ (textOf gap).head? := by
        rw [textOf_append, List.append_nil] at hc
        cases hg : textOf gap with
        | cons b cs => simpa [hg] using hc
        | nil =>
          cases ws with
          | cons w ws => exact absurd hg (apart _ List.mem_cons_self)
          | nil =>
            have : textOf ps = [] := by simpa [rendered] using text
            simp [hg, this] at hc
      exact joins_separator x.spells (separator.head c hc)
    · rw [tokensOf, tokensOf_append, none, List.mapIdx_cons]
      simp only [List.length_append, List.count_append, ← Nat.add_assoc] at tokens
      simp only [List.take_succ_cons, rendered_cons, ← tokens]
      simp [Piece.tokens, Piece.text, rendered]
    · simp only [List.count_append, ← Nat.add_assoc] at notices
      rw [noticesOf, noticesOf_append, quiet]
      exact notices

/-- **Reading undoes writing.**  Tokens that are written one behind another, with spaces, line ends and complete comments
between them, are read again as they are, in their order.  The line of each is the number of line ends written before it,
counted from the first line, and its position is the number of characters. -/
theorem lex_rendered {lead : List Char} {ws : List (Lexeme × List Char)} (first : IsSeparator lead)
    (separators : ∀ w ∈ ws, IsSeparator w.2) (apart : ∀ w ∈ ws.dropLast, w.2 ≠ []) (line : Nat) :
    lex (rendered lead ws) line =
      { tokens := ws.mapIdx fun i w =>
          ⟨w.1.kind, w.1.value, line + (rendered lead (ws.take i)).count '\n', (rendered lead (ws.take i)).length⟩
        line := line + (rendered lead ws).count '\n' } := by
  obtain ⟨gap, rfl, fits, none, quiet⟩ := gap_cut first rfl
  obtain ⟨ps, text, allFit, tokens, notices⟩ := rendered_cut line separators apart (textOf gap)
  have read := lex_textOf (allFit_append.2 ⟨fits (textOf ps ++ []), allFit⟩) line
  rw [tokensOf_append, noticesOf_append, none, quiet, Nat.zero_add, textOf_append, ← text, tokens, notices] at read
  exact read

/-- Tokens that stand close to comments and to each other. -/
def crowd : List (Lexeme × List Char) :=
  [(⟨.less, .text "<", "<".toList, .symbol (by decide)⟩, "</ < </\n/>/>".toList),
   (⟨.divide, .text "/", "/".toList, .symbol (by decide)⟩, "\t".toList),
   (⟨.greater, .text ">", ">".toList, .symbol (by decide)⟩, "\n".toList),
   (.number 10 (by decide), " ".toList),
   (⟨.lengthKw, .text "length", "length".toList, .keyword (by decide)⟩, " ".toList),
   (⟨.id, .text "lengthy", "lengthy".toList, .identifier (by decide) (by decide)⟩, "</></\n/>/>".toList),
   (⟨.string, .text "\\' ", ['\'', '\\', '\'', ' ', '\''],
     .string (by decide) (by decide : isQuotable '\'' ['\\', '\'', ' '] = true)⟩, [])]

theorem crowd_read : IsSeparator [] ∧ (∀ w ∈ crowd, IsSeparator w.2) ∧ (∀ w ∈ crowd.dropLast, w.2 ≠ []) ∧
    lex (rendered [] crowd) 1 =
      { tokens := crowd.mapIdx fun i w =>
          ⟨w.1.kind, w.1.value, 1 + (rendered [] (crowd.take i)).count '\n', (rendered [] (crowd.take i)).length⟩
        line := 1 + (rendered [] crowd).count '\n' } := by
  have comment {c : List Char} (h : IsComment c) : IsSeparator c := by
    have : IsSeparator (c ++ []) := .comment h .nil
    rwa [List.append_nil] at this
  have space {c : Char} (h : isSpace c = true) : IsSeparator [c] := .space h .nil
  have separators : ∀ w ∈ crowd, IsSeparator w.2 := by
    simp only [crowd, List.forall_mem_cons]
    exact ⟨comment (by decide), space rfl, space rfl, space rfl, space rfl, comment (by decide), .nil, by simp⟩
  have apart : ∀ w ∈ crowd.dropLast, w.2 ≠ [] := by
    simp [crowd]
  exact ⟨.nil, separators, apart, lex_rendered .nil separators apart 1⟩

end TesLang.Token
