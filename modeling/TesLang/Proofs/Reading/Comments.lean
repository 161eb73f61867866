import TesLang.Token.Step
/-!
# Where comments end

Counted from left to right, every `</` opens a comment and every `/>` closes one (`balance`).  A comment ends at the first
point where the count is back at zero (`IsComment`), and that is where `closing?` finds its end (`closing?_eq_some`): it
keeps the count as a depth, and never reads a character twice.
-/
namespace TesLang.Token

/-- How many more comments a text opens than it closes. -/
def balance : List Char → Int
  | '<' :: '/' :: cs => balance cs + 1
  | '/' :: '>' :: cs => balance cs - 1
  | _ :: cs => balance cs
  | [] => 0

/-- **A complete comment**: a text that opens a comment and ends as soon as no comment is open. -/
structure IsComment (cs : List Char) : Prop where
  opens : ['<', '/'] <+: cs
  balanced : balance cs = 0
  first : ∀ n, 2 ≤ n → n < cs.length → 0 < balance (cs.take n)

structure Closes (d : Nat) (cs : List Char) : Prop where
  balanced : balance cs = -(d + 1)
  first : ∀ n, n < cs.length → -(d + 1 : Int) < balance (cs.take n)

theorem balance_nil : balance [] = 0 := rfl

theorem balance_open (cs : List Char) : balance ('<' :: '/' :: cs) = balance cs + 1 := rfl

theorem balance_close (cs : List Char) : balance ('/' :: '>' :: cs) = balance cs - 1 := rfl

def Unmarked (c : Char) (cs : List Char) : Prop := ¬ (c = '<' ∧ cs.head? = some '/') ∧ ¬ (c = '/' ∧ cs.head? = some '>')

theorem unmarked_append {c : Char} {cs : List Char} (h : cs ≠ []) (rest : List Char) :
    Unmarked c (cs ++ rest) ↔ Unmarked c cs := by
  obtain ⟨b, cs, rfl⟩ := List.exists_cons_of_ne_nil h
  exact Iff.rfl

theorem balance_cons {c : Char} {cs : List Char} (h : Unmarked c cs) : balance (c :: cs) = balance cs := by
  unfold Unmarked at h
  rw [balance]
  · rintro _ rfl rfl
    simp at h
  · rintro _ rfl rfl
    simp at h

theorem balance_singleton (c : Char) : balance [c] = 0 := balance_cons (by simp [Unmarked])

theorem closing?_cons {d t l : Nat} {c : Char} {cs : List Char} (h : Unmarked c cs) :
    closing? d t l (c :: cs) = closing? d (t + 1) (if c = '\n' then l + 1 else l) cs := by
  unfold Unmarked at h
  rw [closing?]
  · rintro _ rfl rfl
    simp at h
  · rintro _ rfl rfl
    simp at h

theorem not_closes_nil {d : Nat} : ¬ Closes d [] := by
  intro h
  have := h.balanced
  rw [balance_nil] at this
  omega

theorem closes_mark {a b : Char} {v : Int} (mark : ∀ cs, balance (a :: b :: cs) = balance cs + v) {d e : Nat}
    (depth : (d : Int) + v = e) {cs : List Char} : Closes d (a :: b :: cs) ↔ Closes e cs := by
  constructor
  · rintro ⟨balanced, first⟩
    rw [mark] at balanced
    refine ⟨by omega, fun n hn => ?_⟩
    have := first (n + 2) (by simpa using hn)
    rw [List.take_succ_cons, List.take_succ_cons, mark] at this
    omega
  · rintro ⟨balanced, first⟩
    refine ⟨by rw [mark]; omega, fun n hn => ?_⟩
    match n with
    | 0 => rw [List.take_zero, balance_nil]; omega
    | 1 => rw [List.take_succ_cons, List.take_zero, balance_singleton]; omega
    | n + 2 =>
      have := first n (by simpa using hn)
      rw [List.take_succ_cons, List.take_succ_cons, mark]
      omega

theorem closes_open {d : Nat} {cs : List Char} : Closes d ('<' :: '/' :: cs) ↔ Closes (d + 1) cs :=
  closes_mark balance_open (by simp)

theorem closes_close {d : Nat} {cs : List Char} : Closes (d + 1) ('/' :: '>' :: cs) ↔ Closes d cs :=
  closes_mark balance_close (by omega)

theorem closes_last {cs : List Char} : Closes 0 ('/' :: '>' :: cs) ↔ cs = [] := by
  constructor
  · rintro ⟨-, first⟩
    cases cs with
    | nil => rfl
    | cons c cs =>
      have := first 2 (by simp)
      simp [balance_close, balance_nil] at this
  · rintro rfl
    refine ⟨by simp [balance_close, balance_nil], fun n hn => ?_⟩
    match n with
    | 0 => simp [balance_nil]
    | 1 => simp [balance_singleton]
    | n + 2 => simp only [List.length_cons, List.length_nil] at hn; omega

theorem closes_cons {d : Nat} {c : Char} {cs : List Char} (h : Unmarked c cs) : Closes d (c :: cs) ↔ Closes d cs := by
  have take (n : Nat) : balance (c :: cs.take n) = balance (cs.take n) := by
    apply balance_cons
    unfold Unmarked at h ⊢
    cases n with
    | zero => simp
    | succ n => simpa [List.head?_take] using h
  constructor
  · rintro ⟨balanced, first⟩
    refine ⟨balance_cons h ▸ balanced, fun n hn => ?_⟩
    rw [← take]
    exact first (n + 1) (by simpa using hn)
  · rintro ⟨balanced, first⟩
    refine ⟨(balance_cons h).trans balanced, fun n hn => ?_⟩
    cases n with
    | zero => rw [List.take_zero, balance_nil]; omega
    | succ n =>
      rw [List.take_succ_cons, take]
      exact first n (by simpa using hn)

theorem marks_cases (c : Char) (cs : List Char) :
    (∃ cs', c = '<' ∧ cs = '/' :: cs') ∨ (∃ cs', c = '/' ∧ cs = '>' :: cs') ∨ Unmarked c cs := by
  unfold Unmarked
  rcases cs with _ | ⟨b, cs⟩
  · simp
  · by_cases opens : c = '<' ∧ b = '/'
    · exact .inl ⟨cs, opens.1, by rw [opens.2]⟩
    · by_cases closes : c = '/' ∧ b = '>'
      · exact .inr (.inl ⟨cs, closes.1, by rw [closes.2]⟩)
      · exact .inr (.inr ⟨by simpa using opens, by simpa using closes⟩)

theorem closing?_append (rest : List Char) : ∀ {cs : List Char} {d : Nat}, Closes d cs → ∀ t l : Nat,
    closing? d t l (cs ++ rest) = some (t + cs.length, l + cs.count '\n')
  | [], _, h, _, _ => absurd h not_closes_nil
  | c :: cs, d, h, t, l => by
    rcases marks_cases c cs with ⟨cs, rfl, rfl⟩ | ⟨cs, rfl, rfl⟩ | unmarked
    · have ih := closing?_append rest (closes_open.1 h) (t + 2) l
      simp only [List.cons_append, closing?, ih]
      simp
      omega
    · cases d with
      | zero =>
        obtain rfl := closes_last.1 h
        simp [closing?]
      | succ d =>
        have ih := closing?_append rest (closes_close.1 h) (t + 2) l
        simp only [List.cons_append, closing?, ih]
        simp
        omega
    · have h := (closes_cons unmarked).1 h
      have nonempty : cs ≠ [] := by
        rintro rfl
        exact not_closes_nil h
      rw [List.cons_append, closing?_cons ((unmarked_append nonempty rest).2 unmarked), closing?_append rest h]
      by_cases hc : c = '\n' <;> simp [hc] <;> omega

theorem exists_closes : ∀ {cs : List Char} {d t l : Nat}, (closing? d t l cs).isSome → ∃ body rest,
    cs = body ++ rest ∧ Closes d body
  | [], _, _, _, h => by simp [closing?] at h
  | c :: cs, d, t, l, h => by
    rcases marks_cases c cs with ⟨cs, rfl, rfl⟩ | ⟨cs, rfl, rfl⟩ | unmarked
    · rw [closing?] at h
      obtain ⟨body, rest, rfl, closes⟩ := exists_closes h
      exact ⟨_, rest, rfl, closes_open.2 closes⟩
    · cases d with
      | zero => exact ⟨['/', '>'], cs, rfl, closes_last.2 rfl⟩
      | succ d =>
        rw [closing?] at h
        obtain ⟨body, rest, rfl, closes⟩ := exists_closes h
        exact ⟨_, rest, rfl, closes_close.2 closes⟩
    · rw [closing?_cons unmarked] at h
      obtain ⟨body, rest, rfl, closes⟩ := exists_closes h
      have nonempty : body ≠ [] := by
        rintro rfl
        exact not_closes_nil closes
      exact ⟨c :: body, rest, rfl, (closes_cons ((unmarked_append nonempty rest).1 unmarked)).2 closes⟩

theorem isComment_cons {cs : List Char} : IsComment ('<' :: '/' :: cs) ↔ Closes 0 cs := by
  constructor
  · rintro ⟨-, balanced, first⟩
    refine ⟨by rw [balance_open] at balanced; omega, fun n hn => ?_⟩
    have := first (n + 2) (by omega) (by simpa using hn)
    rw [List.take_succ_cons, List.take_succ_cons, balance_open] at this
    omega
  · rintro ⟨balanced, first⟩
    refine ⟨⟨cs, rfl⟩, by rw [balance_open]; omega, fun n two hn => ?_⟩
    obtain ⟨n, rfl⟩ := Nat.exists_eq_add_of_le' two
    have := first n (by simpa using hn)
    rw [List.take_succ_cons, List.take_succ_cons, balance_open]
    omega

/-- **A comment is closed where the count of the marks is back at zero for the first time.** -/
theorem closing?_eq_some {cs : List Char} {taken newlines : Nat} : closing? 0 0 0 cs = some (taken, newlines) ↔
    ∃ body rest, cs = body ++ rest ∧ IsComment ('<' :: '/' :: body) ∧ taken = body.length ∧
      newlines = body.count '\n' := by
  constructor
  · intro h
    obtain ⟨body, rest, rfl, closes⟩ := exists_closes (Option.isSome_of_eq_some h)
    rw [closing?_append rest closes] at h
    refine ⟨body, rest, rfl, isComment_cons.2 closes, ?_⟩
    simp at h
    exact ⟨h.1.symm, h.2.symm⟩
  · rintro ⟨body, rest, rfl, comment, rfl, rfl⟩
    rw [closing?_append rest (isComment_cons.1 comment)]
    simp

theorem isComment_iff {cs : List Char} :
    IsComment cs ↔ cs.take 2 = ['<', '/'] ∧ (closing? 0 0 0 (cs.drop 2)).map Prod.fst = some (cs.length - 2) := by
  constructor
  · intro h
    obtain ⟨body, rfl⟩ := h.opens
    have closes : closing? 0 0 0 body = some (body.length, body.count '\n') :=
      closing?_eq_some.2 ⟨body, [], by simp, h, rfl, rfl⟩
    simp [closes]
  · rintro ⟨opens, closes⟩
    obtain ⟨⟨taken, newlines⟩, h, rfl⟩ := Option.map_eq_some_iff.1 closes
    obtain ⟨body, rest, split, comment, taken, -⟩ := closing?_eq_some.1 h
    have whole : cs = '<' :: '/' :: (body ++ rest) := by
      rw [← split, ← List.take_append_drop 2 cs, opens]
      simp
    subst whole
    obtain rfl : rest = [] := by simpa using taken
    simpa using comment

instance (cs : List Char) : Decidable (IsComment cs) := decidable_of_iff _ isComment_iff.symm

example : IsComment "</ a </ b /> </> /> />".toList := by decide

end TesLang.Token
