import TesLang.Proofs.Generation.Position
import TesLang.Proofs.Generation.Reached
import TesLang.Proofs.Scalar.Evaluation
import TesLang.Proofs.Scalar.Generation
/-!
# Arithmetic

An expression is arithmetic if it is made of numbers, truth values, variables that have registers, the operators and `?:`.
What it comes to hangs on nothing but the values of its variables (`value`).

The lines that are generated for it can be put anywhere.  From their first line on, with anything in the registers, the
machine gets behind the last one, with the value in the register that the generator has for it, and all registers that were
taken before are as they were (`Delivers`).  The variables of a second operand are read only after the first operand was
computed, and a variable is not copied: that is why the registers of variables have to be among those that are taken, and
why the registers for results have to be new ones.
-/
namespace TesLang.Scalar

open Code Code.Gen Code.Generator Code.Machine

variable {div : Int → Int → Option Int} {home : String → Option Reg} {e : Node} {s s' : Generator} {r : Reg} {new : List Line}

/-- Whether an expression is arithmetic, if the variables have the registers `home`. -/
def isArithmetic (home : String → Option Reg) : Node → Bool
  | .number .. | .boolean .. => true
  | .identifier x _ => (home x).isSome
  | .binary left op right _ => operators.contains op && isArithmetic home left && isArithmetic home right
  | .ternary condition yes no _ => isArithmetic home condition && isArithmetic home yes && isArithmetic home no
  | _ => false

/-- What an operator means.  What a quotient is is left open. -/
def applied (div : Int → Int → Option Int) (op : String) (a b : Int) : Option Int :=
  match op with
  | "+" => some (a + b)
  | "-" => some (a - b)
  | "*" => some (a * b)
  | "/" => div a b
  | "<" => some (if a < b then 1 else 0)
  | ">" => some (if a > b then 1 else 0)
  | "<=" => some (if a ≤ b then 1 else 0)
  | ">=" => some (if a ≥ b then 1 else 0)
  | "==" => some (if a = b then 1 else 0)
  | "!=" => some (if a ≠ b then 1 else 0)
  | _ => none

/-- What an arithmetic expression comes to, for the values of its variables. -/
def value (div : Int → Int → Option Int) (ρ : Env) : Node → Option Int
  | .number v _ => some v
  | .boolean b _ => some (if b = "true" then 1 else 0)
  | .identifier x _ => ρ x
  | .binary left op right _ => do
    let a ← value div ρ left
    let b ← value div ρ right
    applied div op a b
  | .ternary condition yes no _ => do
    let t ← value div ρ condition
    if t = 0 then value div ρ no else value div ρ yes
  | _ => none

/-- The values of variables are what is in their registers. -/
def contents (home : String → Option Reg) (σ : Regs) : Env := fun x => (home x).bind σ

theorem apply_ofText {op : String} (h : op ∈ operators) (a b : Int) :
    (Operation.ofText op).apply div a b = applied div op a b := by
  simp only [operators, List.mem_cons, List.not_mem_nil, or_false] at h
  rcases h with rfl | rfl | rfl | rfl | rfl | rfl | rfl | rfl | rfl | rfl <;> rfl

theorem isExpr_of_isArithmetic : ∀ {e : Node}, isArithmetic home e = true → isExpr [] e = true
  | .number .., _ | .boolean .., _ | .identifier .., _ => rfl
  | .binary .., h => by
    simp only [isArithmetic, Bool.and_eq_true] at h
    simp only [isExpr, h.1.1, isExpr_of_isArithmetic h.1.2, isExpr_of_isArithmetic h.2, Bool.and_self]
  | .ternary .., h => by
    simp only [isArithmetic, Bool.and_eq_true] at h
    simp only [isExpr, isExpr_of_isArithmetic h.1.1, isExpr_of_isArithmetic h.1.2, isExpr_of_isArithmetic h.2, Bool.and_self]

/-- **An arithmetic expression comes to something** if its variables have values, and quotients exist. -/
theorem value_ne_none (total : ∀ a b, div a b ≠ none) {ρ : Env} (known : ∀ x q, home x = some q → ρ x ≠ none) :
    ∀ {e : Node}, isArithmetic home e = true → value div ρ e ≠ none
  | .number .., _ | .boolean .., _ => nofun
  | .identifier x _, h => by
    obtain ⟨q, hq⟩ := Option.isSome_iff_exists.1 h
    exact known x q hq
  | .binary left op right _, h => by
    simp only [isArithmetic, Bool.and_eq_true, List.contains_iff_mem] at h
    obtain ⟨a, ha⟩ := Option.ne_none_iff_exists'.1 (value_ne_none total known h.1.2)
    obtain ⟨b, hb⟩ := Option.ne_none_iff_exists'.1 (value_ne_none total known h.2)
    have applies : applied div op a b ≠ none := by
      have op := h.1.1
      simp only [operators, List.mem_cons, List.not_mem_nil, or_false] at op
      rcases op with rfl | rfl | rfl | rfl | rfl | rfl | rfl | rfl | rfl | rfl <;> simp [applied, total]
    simpa [value, ha, hb] using applies
  | .ternary condition yes no _, h => by
    simp only [isArithmetic, Bool.and_eq_true] at h
    obtain ⟨t, ht⟩ := Option.ne_none_iff_exists'.1 (value_ne_none total known h.1.1)
    by_cases zero : t = 0
    · simpa [value, ht, zero] using value_ne_none total known h.2
    · simpa [value, ht, zero] using value_ne_none total known h.1.2

/-! ### Lines that deliver a value -/

/-- **Some lines deliver the value of an expression in `r`**, wherever they stand in a program that does not define their
labels before.  What was taken in `s` is left alone. -/
def Delivers (e : Node) (s : Generator) (r : Reg) (new : List Line) : Prop :=
  ∀ ⦃div : Int → Int → Option Int⦄ ⦃prog before after : List Line⦄, prog = before ++ (new ++ after) →
    (∀ l ∈ labelsIn new, l ∉ labelsIn before) → ∀ (m : Machine) (σ : Regs) (w : World) (v : Int),
    value div (contents s.home σ) e = some v → ∃ σ', Steps div prog (m.on (new ++ after) σ w) (m.on after σ' w) ∧
      σ' r = some v ∧ ∀ q ∈ s.bank.taken, σ' q = σ q

theorem numbered_of_ran {t : Option Reg} (run : Ran (visit e) s t s') (code : s'.code.toList = s.code.toList ++ new) :
    Numbered s.labels s'.labels (labelsIn new) ∧ targetsIn new ⊆ labelsIn new := by
  obtain ⟨lines, code', numbered, targets⟩ := visit_labelled e s t s' run
  obtain rfl := List.append_cancel_left (code.symm.trans code')
  exact ⟨numbered, targets⟩

/-- Between `s` and `s'` lines were generated for an expression that deliver its value in `r`. -/
structure Evaluates (e : Node) (s : Generator) (r : Reg) (s' : Generator) (new : List Line) : Prop where
  ran : Ran (visit e) s (some r) s'
  code : s'.code.toList = s.code.toList ++ new
  home : s'.home = s.home
  taken : ∀ q ∈ s.bank.taken, q ∈ s'.bank.taken
  result : r ∈ s'.bank.taken
  delivers : Delivers e s r new

theorem Evaluates.numbered (h : Evaluates e s r s' new) : Numbered s.labels s'.labels (labelsIn new) :=
  (numbered_of_ran h.ran h.code).1

def Homed (s : Generator) : Prop := ∀ x q, s.home x = some q → q ∈ s.bank.taken

theorem Homed.mono (h : Homed s) (home : s'.home = s.home) (taken : ∀ q ∈ s.bank.taken, q ∈ s'.bank.taken) : Homed s' :=
  fun x q hx => taken q (h x q (home ▸ hx))

theorem contents_congr (h : Homed s) {σ σ' : Regs} (same : ∀ q ∈ s.bank.taken, σ' q = σ q) :
    contents s.home σ' = contents s.home σ := by
  funext x
  unfold contents
  cases hx : s.home x with
  | none => rfl
  | some q => exact same q (h x q hx)

theorem label_notMem {l : Label} {ls : List Line} (h : l ∉ labelsIn ls) : Line.label l ∉ ls :=
  fun hm => h (label_mem_labelsIn hm)

/-! ### One kind of expression after another -/

theorem evaluates_literal {v : Int} (ran : Ran (visit e) s (some s.next) (s.draw.add (.mov s.next (.literal v))))
    (means : ∀ div ρ, value div ρ e = some v) :
    Evaluates e s s.next (s.draw.add (.mov s.next (.literal v))) [.mov s.next (.literal v)] where
  ran := ran
  code := by simp
  home := rfl
  taken q hq := (s.mem_taken_draw q).2 (.inl hq)
  result := (s.mem_taken_draw _).2 (.inr rfl)
  delivers := by
    intro div prog before after _ _ m σ w u hv
    obtain rfl : v = u := Option.some.inj ((means div _).symm.trans hv)
    refine ⟨_, steps_literal s.next v, Function.update_self .., fun q hq => Function.update_of_ne ?_ ..⟩
    rintro rfl
    exact s.next_notMem hq

theorem evaluates_identifier {x : String} {line : Int} (homed : Homed s) (hx : s.home x = some r) :
    Evaluates (.identifier x line) s r s [] where
  ran := ran_identifier.2 (.inl ⟨r, hx, rfl, rfl⟩)
  code := by simp
  home := rfl
  taken _ hq := hq
  result := homed x r hx
  delivers := by
    intro div prog before after _ _ m σ w v hv
    refine ⟨σ, .refl _, ?_, fun _ _ => rfl⟩
    simpa [value, contents, hx] using hv

theorem evaluates_binary {left right : Node} {op : String} {line : Int} {a b : Reg} {s₁ s₂ : Generator} {n₁ n₂ : List Line}
    (homed : Homed s) (hop : op ∈ operators) (hl : isExpr [] left = true) (hr : isExpr [] right = true)
    (first : Evaluates left s a s₁ n₁) (second : Evaluates right s₁ b s₂ n₂) :
    Evaluates (.binary left op right line) s s₂.next (s₂.draw.add (.binary (.ofText op) s₂.next (some a) (some b)))
      (n₁ ++ (n₂ ++ [Line.binary (.ofText op) s₂.next (some a) (some b)])) where
  ran := (ran_binary hl hr).2 ⟨_, _, first.ran, _, _, second.ran, rfl, rfl⟩
  code := by simp [first.code, second.code]
  home := second.home.trans first.home
  taken q hq := (s₂.mem_taken_draw q).2 (.inl (second.taken q (first.taken q hq)))
  result := (s₂.mem_taken_draw _).2 (.inr rfl)
  delivers := by
    intro div prog before after hp apart m σ w v hv
    simp only [labelsIn_append, List.mem_append] at apart
    have apart₂ : ∀ l ∈ labelsIn n₂, l ∉ labelsIn (before ++ n₁) := by
      intro l hl hm
      rcases List.mem_append.1 (labelsIn_append before n₁ ▸ hm) with hm | hm
      · exact apart l (.inr (.inl hl)) hm
      · have := (first.numbered.within l hm).2
        have := (second.numbered.within l hl).1
        omega
    simp only [value, Option.bind_eq_bind, Option.bind_eq_some_iff] at hv
    obtain ⟨x, hx, y, hy, hv⟩ := hv
    have split₁ : prog = before ++ (n₁ ++ (n₂ ++ Line.binary (.ofText op) s₂.next (some a) (some b) :: after)) := by
      simp [hp]
    have split₂ : prog = (before ++ n₁) ++ (n₂ ++ Line.binary (.ofText op) s₂.next (some a) (some b) :: after) := by
      simp [hp]
    obtain ⟨σ₁, st₁, v₁, f₁⟩ := first.delivers split₁ (fun l hl => apart l (.inl hl)) m σ w x hx
    rw [← contents_congr homed f₁, ← first.home] at hy
    obtain ⟨σ₂, st₂, v₂, f₂⟩ := second.delivers split₂ apart₂ m σ₁ w y hy
    have still : σ₂ a = some x := (f₂ a first.result).trans v₁
    refine ⟨Function.update σ₂ s₂.next (some v), ?_, Function.update_self .., fun q hq => ?_⟩
    · simp only [List.append_assoc, List.singleton_append]
      exact st₁.trans (st₂.trans (steps_binary still v₂ ((apply_ofText hop x y).trans hv)))
    · have taken := second.taken q (first.taken q hq)
      have other : q ≠ s₂.next := by
        rintro rfl
        exact s₂.next_notMem taken
      rw [Function.update_of_ne other, f₂ q (first.taken q hq), f₁ q hq]

/-- The lines of a choice: `c`, `a` and `b` are the registers of the condition and the two values, and `r` is that of the
result. -/
def choiceLines (c a b r : Reg) (otherwise done : Label) (test yes no : List Line) : List Line :=
  test ++ Line.jumpIfZero (some c) otherwise :: (yes ++ Line.mov r (.reg a) :: .jump done :: .label otherwise ::
    (no ++ [Line.mov r (.reg b), .label done]))

section
variable {c a b : Reg} {otherwise done : Label} {test yes no prog before after : List Line}

theorem mem_labelsIn_choiceLines {l : Label} : l ∈ labelsIn (choiceLines c a b r otherwise done test yes no) ↔
    l ∈ labelsIn test ∨ l ∈ labelsIn yes ∨ l = otherwise ∨ l ∈ labelsIn no ∨ l = done := by
  simp [choiceLines, Line.label?]

theorem choiceLines_yes : before ++ (choiceLines c a b r otherwise done test yes no ++ after) =
    (before ++ (test ++ [Line.jumpIfZero (some c) otherwise])) ++
      (yes ++ Line.mov r (.reg a) :: .jump done :: .label otherwise ::
        (no ++ Line.mov r (.reg b) :: .label done :: after)) := by
  simp [choiceLines]

theorem choiceLines_no : before ++ (choiceLines c a b r otherwise done test yes no ++ after) =
    (before ++ (test ++ Line.jumpIfZero (some c) otherwise ::
      (yes ++ [Line.mov r (.reg a), .jump done, .label otherwise]))) ++
      (no ++ Line.mov r (.reg b) :: .label done :: after) := by
  simp [choiceLines]

theorem linesFrom?_otherwise (hp : prog = before ++ (choiceLines c a b r otherwise done test yes no ++ after))
    (hb : otherwise ∉ labelsIn before) (ht : otherwise ∉ labelsIn test) (hy : otherwise ∉ labelsIn yes) :
    linesFrom? (.label otherwise) prog =
      some (.label otherwise :: (no ++ Line.mov r (.reg b) :: .label done :: after)) := by
  have split : prog = (before ++ (test ++ Line.jumpIfZero (some c) otherwise ::
      (yes ++ [Line.mov r (.reg a), .jump done]))) ++
      Line.label otherwise :: (no ++ Line.mov r (.reg b) :: .label done :: after) := by simp [hp, choiceLines]
  rw [split]
  exact linesFrom?_append (label_notMem (by simp [Line.label?, hb, ht, hy]))

theorem linesFrom?_done (hp : prog = before ++ (choiceLines c a b r otherwise done test yes no ++ after))
    (hb : done ∉ labelsIn before) (ht : done ∉ labelsIn test) (hy : done ∉ labelsIn yes) (ho : done ≠ otherwise)
    (hn : done ∉ labelsIn no) : linesFrom? (.label done) prog = some (.label done :: after) := by
  have split : prog = (before ++ (test ++ Line.jumpIfZero (some c) otherwise :: (yes ++ Line.mov r (.reg a) :: .jump done ::
      .label otherwise :: (no ++ [Line.mov r (.reg b)])))) ++ Line.label done :: after := by simp [hp, choiceLines]
  rw [split]
  exact linesFrom?_append (label_notMem (by simp [Line.label?, hb, ht, hy, ho, hn]))

end

theorem evaluates_ternary {condition yes no : Node} {line : Int} {c a b : Reg} {s₁ s₂ s₃ : Generator}
    {n₁ n₂ n₃ : List Line} (homed : Homed s) (hc : isExpr [] condition = true) (hy : isExpr [] yes = true)
    (hn : isExpr [] no = true) (test : Evaluates condition s c s₁ n₁)
    (first : Evaluates yes (s₁.number.number.draw.add (.jumpIfZero (some c) ⟨"ternary_false", s₁.labels⟩)) a s₂ n₂)
    (second : Evaluates no (((s₂.add (.mov s₁.next (.reg a))).add (.jump ⟨"ternary_end", s₁.labels + 1⟩)).add
      (.label ⟨"ternary_false", s₁.labels⟩)) b s₃ n₃) :
    Evaluates (.ternary condition yes no line) s s₁.next
      ((s₃.add (.mov s₁.next (.reg b))).add (.label ⟨"ternary_end", s₁.labels + 1⟩))
      (choiceLines c a b s₁.next ⟨"ternary_false", s₁.labels⟩ ⟨"ternary_end", s₁.labels + 1⟩ n₁ n₂ n₃) where
  ran := (ran_ternary hc hy hn).2 ⟨_, _, test.ran, _, _, first.ran, _, _, second.ran, rfl, rfl⟩
  code := by simp [test.code, first.code, second.code, choiceLines]
  home := second.home.trans (first.home.trans test.home)
  taken q hq := second.taken q (first.taken q ((s₁.mem_taken_draw q).2 (.inl (test.taken q hq))))
  result := second.taken _ (first.taken _ ((s₁.mem_taken_draw _).2 (.inr rfl)))
  delivers := by
    intro div prog before after hp apart m σ w v hv
    simp only [mem_labelsIn_choiceLines] at apart
    have within₁ := test.numbered.within
    have within₂ : ∀ l ∈ labelsIn n₂, s₁.labels + 2 ≤ l.index ∧ l.index < s₂.labels := first.numbered.within
    have within₃ : ∀ l ∈ labelsIn n₃, s₂.labels ≤ l.index ∧ l.index < s₃.labels := second.numbered.within
    have more : s₁.labels + 2 + (labelsIn n₂).length = s₂.labels := first.numbered.length
    have home₂ : s₂.home = s.home := first.home.trans test.home
    have keep : ∀ q ∈ s.bank.taken, q ∈ s₁.draw.bank.taken ∧ q ≠ s₁.next := by
      intro q hq
      refine ⟨(s₁.mem_taken_draw q).2 (.inl (test.taken q hq)), ?_⟩
      rintro rfl
      exact s₁.next_notMem (test.taken _ hq)
    have otherwise := linesFrom?_otherwise hp (apart _ (.inr (.inr (.inl rfl))))
      (fun hm => Nat.lt_irrefl _ (within₁ _ hm).2) (fun hm => absurd (within₂ _ hm).1 (by simp))
    have done := linesFrom?_done hp (apart _ (.inr (.inr (.inr (.inr rfl))))) (fun hm => absurd (within₁ _ hm).2 (by simp))
      (fun hm => absurd (within₂ _ hm).1 (by simp)) (by simp) (fun hm => absurd (within₃ _ hm).1 (by simp; omega))
    have apart₂ : ∀ l ∈ labelsIn n₂,
        l ∉ labelsIn (before ++ (n₁ ++ [Line.jumpIfZero (some c) ⟨"ternary_false", s₁.labels⟩])) := by
      intro l hl hm
      have := within₂ l hl
      have hm : l ∈ labelsIn before ∨ l ∈ labelsIn n₁ := by simpa [Line.label?] using hm
      rcases hm with hm | hm
      · exact apart l (.inr (.inl hl)) hm
      · have := within₁ l hm
        omega
    have apart₃ : ∀ l ∈ labelsIn n₃, l ∉ labelsIn (before ++ (n₁ ++ Line.jumpIfZero (some c) ⟨"ternary_false", s₁.labels⟩ ::
        (n₂ ++ [Line.mov s₁.next (.reg a), .jump ⟨"ternary_end", s₁.labels + 1⟩,
          .label ⟨"ternary_false", s₁.labels⟩]))) := by
      intro l hl hm
      have := within₃ l hl
      have hm : l ∈ labelsIn before ∨ l ∈ labelsIn n₁ ∨ l ∈ labelsIn n₂ ∨ l = ⟨"ternary_false", s₁.labels⟩ := by
        simpa [Line.label?] using hm
      rcases hm with hm | hm | hm | hm
      · exact apart l (.inr (.inr (.inr (.inl hl)))) hm
      · have := within₁ l hm
        omega
      · have := within₂ l hm
        omega
      · have : l.index = s₁.labels := congrArg Label.index hm
        omega
    simp only [value, Option.bind_eq_bind, Option.bind_eq_some_iff] at hv
    obtain ⟨x, hx, hv⟩ := hv
    obtain ⟨σ₁, st₁, v₁, f₁⟩ := test.delivers (hp.trans (by rw [choiceLines, List.append_assoc]))
      (fun l hl => apart l (.inl hl)) m σ w x hx
    rw [choiceLines]
    simp only [List.append_assoc, List.cons_append, List.nil_append] at st₁ ⊢
    rw [← contents_congr homed f₁] at hv
    split at hv
    · next zero =>
      subst zero
      rw [← home₂] at hv
      obtain ⟨σ₃, st₃, v₃, f₃⟩ := second.delivers (hp.trans choiceLines_no) apart₃ m σ₁ w v hv
      refine ⟨Function.update σ₃ s₁.next (some v), ?_, Function.update_self .., fun q hq => ?_⟩
      · exact st₁.trans (.trans (steps_zero v₁ otherwise) (.trans (steps_pass rfl) (st₃.trans (.trans (steps_move v₃)
          (steps_pass rfl)))))
      · rw [Function.update_of_ne (keep q hq).2, f₃ q (first.taken q (keep q hq).1), f₁ q hq]
    · next nonzero =>
      rw [← test.home] at hv
      obtain ⟨σ₂, st₂, v₂, f₂⟩ := first.delivers (hp.trans choiceLines_yes) apart₂ m σ₁ w v hv
      refine ⟨Function.update σ₂ s₁.next (some v), ?_, Function.update_self .., fun q hq => ?_⟩
      · exact st₁.trans (.trans (steps_nonzero v₁ nonzero) (st₂.trans (.trans (steps_move v₂) (.trans (steps_jump done)
          (steps_pass rfl)))))
      · rw [Function.update_of_ne (keep q hq).2, f₂ q (keep q hq).1, f₁ q hq]

/-! ### All arithmetic expressions -/

theorem evaluates_arithmetic : ∀ {e : Node}, isArithmetic home e = true → ∀ {s : Generator}, s.home = home → Homed s →
    ∃ r s' new, Evaluates e s r s' new
  | .number .., _, _, _, _ => ⟨_, _, _, evaluates_literal (ran_number.2 ⟨rfl, rfl⟩) fun _ _ => rfl⟩
  | .boolean .., _, _, _, _ => ⟨_, _, _, evaluates_literal (ran_boolean.2 ⟨rfl, rfl⟩) fun _ _ => rfl⟩
  | .identifier x _, h, s, same, homed => by
    obtain ⟨r, hr⟩ := Option.isSome_iff_exists.1 h
    exact ⟨r, s, [], evaluates_identifier homed (same ▸ hr)⟩
  | .binary left op right _, h, s, same, homed => by
    simp only [isArithmetic, Bool.and_eq_true, List.contains_iff_mem] at h
    obtain ⟨⟨hop, hl⟩, hr⟩ := h
    obtain ⟨a, s₁, n₁, first⟩ := evaluates_arithmetic hl same homed
    obtain ⟨b, s₂, n₂, second⟩ := evaluates_arithmetic hr (first.home.trans same) (homed.mono first.home first.taken)
    exact ⟨_, _, _, evaluates_binary homed hop (isExpr_of_isArithmetic hl) (isExpr_of_isArithmetic hr) first second⟩
  | .ternary condition yes no _, h, s, same, homed => by
    simp only [isArithmetic, Bool.and_eq_true] at h
    obtain ⟨⟨hc, hy⟩, hn⟩ := h
    obtain ⟨c, s₁, n₁, test⟩ := evaluates_arithmetic hc same homed
    have same₁ : s₁.home = home := test.home.trans same
    have homed₁ : Homed (s₁.number.number.draw.add (.jumpIfZero (some c) ⟨"ternary_false", s₁.labels⟩)) :=
      (homed.mono test.home test.taken).mono rfl fun q hq => (s₁.mem_taken_draw q).2 (.inl hq)
    obtain ⟨a, s₂, n₂, first⟩ := evaluates_arithmetic (s := s₁.number.number.draw.add _) hy same₁ homed₁
    have homed₂ : Homed (((s₂.add (.mov s₁.next (.reg a))).add (.jump ⟨"ternary_end", s₁.labels + 1⟩)).add
        (.label ⟨"ternary_false", s₁.labels⟩)) := homed₁.mono first.home first.taken
    obtain ⟨b, s₃, n₃, second⟩ := evaluates_arithmetic (s := ((s₂.add _).add _).add _) hn (first.home.trans same₁) homed₂
    exact ⟨_, _, _, evaluates_ternary homed (isExpr_of_isArithmetic hc) (isExpr_of_isArithmetic hy)
      (isExpr_of_isArithmetic hn) test first second⟩

/-- **Arithmetic code is correct and frames its context.**  Take any generator that is reached while code is generated, and
any arithmetic expression whose variables have registers in it.  Code is generated for the expression, and a register for
its value.  The new lines jump to no labels but their own, which are not defined before.  Wherever the lines stand in a
program that does not define their labels before, and whatever is in the registers, the machine gets from the first of them
behind the last, and then the value of the expression is in the register, and every register that was taken is as it was.
There is a value if the registers of variables hold numbers and quotients exist. -/
theorem arithmetic_delivered (reached : s.Reached) (h : isArithmetic s.home e = true) : ∃ r s' new,
    Ran (visit e) s (some r) s' ∧ s'.code.toList = s.code.toList ++ new ∧
    targetsIn new ⊆ labelsIn new ∧ (∀ l ∈ labelsIn new, l ∉ labelsIn s.code.toList) ∧
    (∀ (div : Int → Int → Option Int) (before after : List Line), (∀ l ∈ labelsIn new, l ∉ labelsIn before) →
      ∀ (m : Machine) (σ : Regs) (w : World) (v : Int), value div (contents s.home σ) e = some v →
        ∃ σ', Steps div (before ++ (new ++ after)) (m.on (new ++ after) σ w) (m.on after σ' w) ∧ σ' r = some v ∧
          ∀ q ∈ s.bank.taken, σ' q = σ q) ∧
    ∀ (div : Int → Int → Option Int) (σ : Regs), (∀ a b, div a b ≠ none) → (∀ x q, s.home x = some q → σ q ≠ none) →
      value div (contents s.home σ) e ≠ none := by
  have settled := reached.settled
  obtain ⟨r, s', new, evaluates⟩ := evaluates_arithmetic h rfl fun _ _ hx => settled.home hx
  obtain ⟨numbered, targets⟩ := numbered_of_ran evaluates.ran evaluates.code
  refine ⟨r, s', new, evaluates.ran, evaluates.code, targets, fun l hl hm => ?_, ?_, fun div σ total known => ?_⟩
  · have := settled.labels l hm
    have := (numbered.within l hl).1
    omega
  · exact fun div before after apart m σ w v hv => evaluates.delivers rfl apart m σ w v hv
  · refine value_ne_none total (fun x q hx => ?_) h
    rw [contents, hx]
    exact known x q hx

/-- A function that is broken off in its second statement: what it would return is no expression. -/
def brokenOff : Node :=
  .program [.function "f" (.several [.parameter "x" "int" 1, .parameter "y" "int" 1]) "int" (.several
    [.assignment (.text "z") (.binary (.identifier "x" 2) "+" (.number 1 2) 2) 2, .ret (.program [.nothing]) 3]) 1]

/-- A choice in a product, with a choice in it. -/
def choosy : Node :=
  .binary (.identifier "y" 3) "*" (.ternary (.binary (.identifier "x" 3) "<" (.identifier "z" 3) 3)
    (.ternary (.boolean "false" 3) (.number 1 3) (.binary (.identifier "z" 3) "-" (.identifier "y" 3) 3) 3) (.number 0 3) 3) 3

theorem choosy_delivered : isArithmetic (left (visit brokenOff) {}).home choosy = true ∧ ∃ r s' new,
    Ran (visit choosy) (left (visit brokenOff) {}) (some r) s' ∧ ∀ (m : Machine) (w : World), ∃ σ',
      Steps (fun a b => some (a / b)) new (m.on new (passed [5, 7, 0, 0, 20]) w) (m.on [] σ' w) ∧ σ' r = some 91 := by
  have arithmetic : isArithmetic (left (visit brokenOff) {}).home choosy = true := by decide +kernel
  obtain ⟨r, s', new, ran, -, -, -, delivers, -⟩ := arithmetic_delivered ⟨brokenOff, rfl⟩ arithmetic
  refine ⟨arithmetic, r, s', new, ran, fun m w => ?_⟩
  obtain ⟨σ', steps, result, -⟩ := delivers (fun a b => some (a / b)) [] [] (by simp) m (passed [5, 7, 0, 0, 20]) w 91
    (by decide +kernel)
  rw [List.append_nil] at steps
  exact ⟨σ', steps, result⟩

end TesLang.Scalar
