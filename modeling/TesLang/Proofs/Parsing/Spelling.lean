import TesLang.Parser.Recovery
/-!
# How tokens are spelled

A token is a number, a string, a word that is no keyword, or one of the keywords and symbols in the tables
(`Token.Spelled`).  So is every token of a text, also where the text is read once more because of an unclosed comment
(`lex_spelled`).
-/
namespace TesLang

open Token

/-- Whether a text is a word. -/
def isWord (w : String) : Bool :=
  match w.toList with
  | [] => false
  | c :: cs => isWordStart c && cs.all isWordPart

namespace Token

/-- The token is a number, a string or a word that is no keyword, or it stands in one of the tables. -/
def Spelled (t : Token) : Prop :=
  t.kind = .number ∨ t.kind = .string ∨ (t.kind = .id ∧ isWord t.text = true ∧ keywords.lookup t.text = none) ∨
    (t.text, t.kind) ∈ keywords ++ symbols

theorem Spelled.isWord {t : Token} (h : t.Spelled) (hk : t.kind = .id ∨ t.kind = .printKw ∨ t.kind = .lengthKw) :
    isWord t.text = true := by
  have table : ∀ e ∈ keywords ++ symbols, e.2 = .id ∨ e.2 = .printKw ∨ e.2 = .lengthKw → TesLang.isWord e.1 = true := by
    decide +kernel
  rcases h with h | h | ⟨-, h, -⟩ | h
  · simp [h] at hk
  · simp [h] at hk
  · exact h
  · exact table _ h hk

theorem mem_of_lookup {w : String} {k : Kind} : ∀ {table : List (String × Kind)}, table.lookup w = some k → (w, k) ∈ table
  | [], h => nomatch h
  | entry :: table, h => by
    rw [List.lookup_cons] at h
    split at h
    · next he =>
      obtain rfl := eq_of_beq he
      cases h
      exact List.mem_cons_self
    · exact List.mem_cons_of_mem _ (mem_of_lookup h)

theorem isWord_word {c : Char} (h : isWordStart c = true) (cs : List Char) :
    TesLang.isWord (String.ofList (c :: cs.takeWhile isWordPart)) = true := by
  rw [TesLang.isWord, String.toList_ofList]
  simp [h]

theorem ofWord_spelled {w : String} (h : TesLang.isWord w = true) (line pos : Nat) :
    Spelled ⟨.ofWord w, .text w, line, pos⟩ := by
  unfold Kind.ofWord
  cases hl : keywords.lookup w with
  | some k => exact .inr (.inr (.inr (List.mem_append_left _ (mem_of_lookup hl))))
  | none => exact .inr (.inr (.inl ⟨rfl, h, hl⟩))

theorem step_spelled {c : Char} {cs there : List Char} {kind : Kind} {value : Value} {extra : Nat}
    (h : step c cs there = .token kind value extra) (line pos : Nat) : Spelled ⟨kind, value, line, pos⟩ := by
  unfold step at h
  split at h
  · cases h
  split at h
  · next hw =>
    cases h
    exact ofWord_spelled (isWord_word hw cs) line pos
  split at h
  · dsimp only at h
    split at h
    · cases h
    · cases h
      exact .inl rfl
  split at h
  · cases h
  split at h
  · split at h <;> cases h
  split at h
  · cases h
    exact .inr (.inl rfl)
  split at h
  · next hs =>
    cases h
    exact .inr (.inr (.inr (List.mem_append_right _ (List.mem_of_find?_eq_some hs))))
  · unfold strayStep at h
    dsimp only at h
    split at h <;> cases h

namespace Scan

/-- All tokens of a reading are spelled right. -/
def Spelled (s : Scan) : Prop := ∀ t ∈ s.tokens, t.Spelled

theorem Spelled.token {s : Scan} (h : s.Spelled) {t : Token} (ht : t.Spelled) : (s.token t).Spelled := by
  intro u hu
  rcases List.mem_cons.1 hu with rfl | hu
  · exact ht
  · exact h u hu

theorem Spelled.orAgain {s : Scan} (h : s.Spelled) {again : Nat → Nat → Scan} (ha : ∀ pos line, (again pos line).Spelled) :
    (s.orAgain again).Spelled := by
  unfold Scan.orAgain
  split
  · intro t ht
    rcases List.mem_append.1 ht with ht | ht
    · exact h t ht
    · exact ha _ _ t ht
  · exact h

end Scan

theorem scan_spelled (cs : List Char) (skip pos line : Nat) : (scan cs skip pos line).Spelled := by
  fun_induction scan cs skip pos line with
  | case1 => exact fun _ h => nomatch h
  | case2 _ _ _ _ _ ih => exact ih
  | case3 _ _ _ _ _ _ _ ih => exact ih
  | case4 _ _ _ _ _ _ _ h ih => exact ih.token (step_spelled h _ _)
  | case5 _ _ _ _ _ _ ih => exact ih
  | case6 => exact fun _ h => nomatch h
  | case7 => exact fun _ h => nomatch h

theorem replay_spelled {next : List Char → Nat → Nat → Scan} {again : Nat → Nat → Scan}
    (hn : ∀ there pos line, (next there pos line).Spelled) (ha : ∀ pos line, (again pos line).Spelled)
    (cs there : List Char) (skip pos line : Nat) : (replay next again cs there skip pos line).Spelled := by
  fun_induction replay next again cs there skip pos line with
  | case1 => exact fun _ h => nomatch h
  | case2 _ _ _ _ _ _ ih => exact ih
  | case3 _ _ _ _ _ _ _ _ ih => exact ih
  | case4 _ _ _ _ _ _ _ _ h => exact (hn _ _ _).token (step_spelled h _ _)
  | case5 => exact fun _ h => nomatch h
  | case6 _ _ _ _ _ _ _ _ ih => exact ih
  | case7 => exact ha _ _
  | case8 => exact fun _ h => nomatch h

theorem restart_spelled : ∀ (rounds : Nat) (whole text : List Char) (line : Nat), (restart rounds whole text line).Spelled
  | 0, _, _, _ => fun _ h => nomatch h
  | rounds + 1, _, _, _ =>
    replay_spelled (fun _ _ _ => (scan_spelled _ _ _ _).orAgain fun _ _ => restart_spelled rounds _ _ _)
      (fun _ _ => restart_spelled rounds _ _ _) _ _ _ _ _

/-- **Every token of a text is spelled right.** -/
theorem lex_spelled (source : List Char) (line : Nat) : (lex source line).Spelled :=
  (scan_spelled _ _ _ _).orAgain fun _ _ => restart_spelled _ _ _ _

end Token
end TesLang
