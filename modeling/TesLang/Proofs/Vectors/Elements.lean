import TesLang.Proofs.Generation.Points
import TesLang.Proofs.Scalar.Arithmetic
import TesLang.Proofs.Session.Running
/-!
# The elements of a vector

A vector variable holds the address of its memory.  To assign to an element or to read one, code is generated for the index,
but its value is not used: the cell that is written or read is the one at the address itself.  So all elements of a vector
share one cell, and reading any of them gives what was last assigned to any of them (`elements_coincide`).

What the code of a statement does is said about the values of variables and about memory (`Performs`); the registers are
those of the generator, and no variable but the one that is assigned to gets another value.
-/
namespace TesLang.Code

namespace Heap

/-- Memory with a number in a cell. -/
def write (h : Heap) (address v : Int) : Heap := { h with cells := Function.update h.cells address (some v) }

/-- Memory of which so many more cells are handed out. -/
def handOut (h : Heap) (size : Int) : Heap := { h with bound := h.bound + max size 0 }

end Heap

namespace Machine

variable {div : Int → Int → Option Int} {prog : List Line} {m : Machine} {k : List Line} {σ : Regs} {w : World}

theorem steps_memory {t r : Reg} {n : Int} (h : σ r = some n) : Steps div prog (m.on (.memory t (some r) :: k) σ w)
    ({ m with heap := m.heap.handOut n }.on k (Function.update σ t (some m.heap.bound)) w) := by
  refine .of_step ?_
  simp only [step, h]
  rfl

theorem steps_load {t b : Reg} {address v : Int} (hb : σ b = some address) (hv : m.heap.cells address = some v) :
    Steps div prog (m.on (.load t b :: k) σ w) (m.on k (Function.update σ t (some v)) w) := by
  refine .of_step ?_
  simp only [step, hb]
  show (m.heap.cells address).bind _ = _
  rw [hv]
  rfl

theorem steps_store {r b : Reg} {address v : Int} (hr : σ r = some v) (hb : σ b = some address) :
    Steps div prog (m.on (.store (some r) b :: k) σ w) ({ m with heap := m.heap.write address v }.on k σ w) := by
  refine .of_step ?_
  simp only [step, hr, hb]
  rfl

end Machine
end TesLang.Code

namespace TesLang.Vectors

open Code Code.Gen Code.Generator Code.Machine Scalar

/-! ### Lines that are run to their end -/

section
variable {div : Int → Int → Option Int} {n₁ n₂ : List Line} {m : Machine} {σ : Regs} {w : World} {P Q : Heap → Regs → Prop}

/-- **The machine gets behind some lines**, wherever they stand in a program that does not define their labels before, and
then memory and registers are as `Q` says. -/
def Achieves (div : Int → Int → Option Int) (new : List Line) (m : Machine) (σ : Regs) (w : World) (Q : Heap → Regs → Prop) :
    Prop :=
  ∀ before after : List Line, (∀ l ∈ labelsIn new, l ∉ labelsIn before) → ∃ h σ',
    Steps div (before ++ (new ++ after)) (m.on (new ++ after) σ w) ({ m with heap := h }.on after σ' w) ∧ Q h σ'

theorem Achieves.append (first : Achieves div n₁ m σ w P) (apart : ∀ l ∈ labelsIn n₂, l ∉ labelsIn n₁)
    (second : ∀ h σ₁, P h σ₁ → Achieves div n₂ { m with heap := h } σ₁ w Q) : Achieves div (n₁ ++ n₂) m σ w Q := by
  intro before after fresh
  simp only [labelsIn_append, List.mem_append] at fresh
  obtain ⟨h, σ₁, steps₁, mid⟩ := first before (n₂ ++ after) fun l hl => fresh l (.inl hl)
  have fresh₂ : ∀ l ∈ labelsIn n₂, l ∉ labelsIn (before ++ n₁) := by
    intro l hl hm
    rcases List.mem_append.1 (labelsIn_append before n₁ ▸ hm) with hm | hm
    · exact fresh l (.inr hl) hm
    · exact apart l hl hm
  obtain ⟨h', σ', steps₂, last⟩ := second h σ₁ mid (before ++ n₁) after fresh₂
  refine ⟨h', σ', ?_, last⟩
  rw [List.append_assoc] at steps₂ ⊢
  exact steps₁.trans steps₂

theorem Achieves.line {l : Line} {h : Heap} {σ' : Regs}
    (step : ∀ prog k, Steps div prog (m.on (l :: k) σ w) ({ m with heap := h }.on k σ' w)) (hQ : Q h σ') :
    Achieves div [l] m σ w Q := fun before after _ => ⟨h, σ', step (before ++ ([l] ++ after)) after, hQ⟩

theorem Achieves.imp (h : Achieves div n₁ m σ w P) (imp : ∀ h σ', P h σ' → Q h σ') : Achieves div n₁ m σ w Q := by
  intro before after fresh
  obtain ⟨h', σ', steps, hP⟩ := h before after fresh
  exact ⟨h', σ', steps, imp h' σ' hP⟩

theorem achieves_of_evaluates {e : Node} {s s' : Generator} {r : Reg} {new : List Line} {v : Int} (h : Evaluates e s r s' new)
    (hv : value div (contents s.home σ) e = some v) :
    Achieves div new m σ w fun h σ' => h = m.heap ∧ σ' r = some v ∧ ∀ q ∈ s.bank.taken, σ' q = σ q := by
  intro before after fresh
  obtain ⟨σ', steps, result, same⟩ := h.delivers rfl fresh m σ w v hv
  exact ⟨m.heap, σ', steps, rfl, result, same⟩

end

/-! ### Expressions and statements that work on memory -/

section
variable {s s' s₁ : Generator} {a x : String} {e n i v : Node} {b r : Reg} {new n₁ n₂ : List Line} {k l : Int}

/-- **Code is generated for an expression that works on memory**: its value is left in `r`.  What the value is, and what
becomes of memory, `part` says. -/
structure Yields (e : Node) (s : Generator) (r : Reg) (s' : Generator) (new : List Line)
    (part : (Int → Int → Option Int) → Heap → Env → Option (Heap × Int)) : Prop where
  ran : Ran (visit e) s (some r) s'
  code : s'.code.toList = s.code.toList ++ new
  home : s'.home = s.home
  achieves : ∀ div m σ w h u, part div m.heap (contents s.home σ) = some (h, u) →
    Achieves div new m σ w fun h' σ' => h' = h ∧ σ' r = some u ∧ ∀ q ∈ s.bank.taken, σ' q = σ q

/-- **Code is generated for a statement**: what becomes of memory and of the values of variables, `effect` says. -/
structure Performs (n : Node) (s s' : Generator) (new : List Line)
    (effect : (Int → Int → Option Int) → Heap → Env → Option (Heap × Env)) : Prop where
  ran : Ran (visit n) s none s'
  code : s'.code.toList = s.code.toList ++ new
  achieves : ∀ div m σ w h ρ, effect div m.heap (contents s.home σ) = some (h, ρ) →
    Achieves div new m σ w fun h' σ' => h' = h ∧ contents s'.home σ' = ρ

theorem ran_list (hn : isExpr [] n = true) {t : Option Reg} : Ran (visit (.call "list" [n] k)) s t s' ↔
    ∃ q s₁, Ran (visit n) s q s₁ ∧ t = some s₁.next ∧ s' = s₁.draw.add (.memory s₁.next q) := by
  rw [visit]
  simp only [Builtin.ofName?, String.reduceEq, if_false, if_true]
  rw [visitFirst, operand_expr hn]
  simp only [bind_assoc, pure_bind, makeList, ↓ran_allocate_bind, ↓ran_emit_bind, ran_bind, ran_pure]

theorem ran_element (hi : isExpr [] i = true) {t : Option Reg} : Ran (visit (.element a i k)) s t s' ↔
    ∃ b s₁, Ran (place a) s b s₁ ∧ ∃ q s₂, Ran (visit i) s₁ q s₂ ∧ t = some s₂.next ∧ s' = s₂.draw.add (.load s₂.next b) := by
  rw [visit, operand_expr hi]
  simp only [↓ran_allocate_bind, ↓ran_emit_bind, ran_bind, ran_pure]

theorem ran_elementAssignment (hi : isExpr [] i = true) (hv : isExpr [] v = true) {t : Option Reg} :
    Ran (visit (.assignment (.element a i k) v l)) s t s' ↔ ∃ r s₁, Ran (visit v) s r s₁ ∧ ∃ b s₂, Ran (place a) s₁ b s₂ ∧
      ∃ q s₃, Ran (visit i) s₂ q s₃ ∧ t = none ∧ s' = s₃.add (.store r b) := by
  rw [visit, operand_expr hi, operand_expr hv]
  simp only [↓ran_emit_bind, ran_bind, ran_pure]

/-- **A list is asked for**: the value is the address of the first cell that is handed out. -/
theorem yields_list (hn : isExpr [] n = true) (size : Evaluates n s r s₁ new) :
    Yields (.call "list" [n] k) s s₁.next (s₁.draw.add (.memory s₁.next (some r))) (new ++ [Line.memory s₁.next (some r)])
      fun div h ρ => (value div ρ n).map fun size => (h.handOut size, h.bound) where
  ran := (ran_list hn).2 ⟨_, _, size.ran, rfl, rfl⟩
  code := by simp [size.code]
  home := size.home
  achieves div m σ w h u hp := by
    obtain ⟨count, hv, same⟩ := Option.map_eq_some_iff.1 hp
    obtain ⟨rfl, rfl⟩ := Prod.mk.inj same
    refine (achieves_of_evaluates size hv).append (by simp [Line.label?]) fun h σ₁ ⟨heap, result, kept⟩ => ?_
    subst heap
    refine .line (fun prog l => steps_memory result) ⟨rfl, Function.update_self .., fun q hq => ?_⟩
    have other : q ≠ s₁.next := fun e => s₁.next_notMem (e ▸ size.taken q hq)
    rw [Function.update_of_ne other, kept q hq]

/-- **An element is read**: the cell is the one that the vector points to, and the value of the index is not used. -/
theorem yields_element (homed : Homed s) (hi : isExpr [] i = true) (ha : s.home a = some b) (index : Evaluates i s r s₁ new) :
    Yields (.element a i k) s s₁.next (s₁.draw.add (.load s₁.next b)) (new ++ [Line.load s₁.next b]) fun div h ρ => do
      let address ← ρ a
      let _ ← value div ρ i
      let v ← h.cells address
      some (h, v) where
  ran := (ran_element hi).2 ⟨_, _, ran_place.2 (.inl ⟨ha, rfl⟩), _, _, index.ran, rfl, rfl⟩
  code := by simp [index.code]
  home := index.home
  achieves div m σ w h u hp := by
    simp only [Option.bind_eq_bind, Option.bind_eq_some_iff, Option.some.injEq, Prod.mk.injEq] at hp
    obtain ⟨address, pointer, _, hv, _, cell, rfl, rfl⟩ := hp
    refine (achieves_of_evaluates index hv).append (by simp [Line.label?]) fun h σ₁ ⟨heap, _, kept⟩ => ?_
    subst heap
    have pointer : σ₁ b = some address := by
      rw [kept b (homed a b ha)]
      simpa [contents, ha] using pointer
    refine .line (fun prog l => steps_load pointer cell) ⟨rfl, Function.update_self .., fun q hq => ?_⟩
    have other : q ≠ s₁.next := fun e => s₁.next_notMem (e ▸ index.taken q hq)
    rw [Function.update_of_ne other, kept q hq]

/-- **An element is assigned to**: the cell is the one that the vector points to, and the value of the index is not used. -/
theorem performs_elementAssignment {q : Reg} {s₂ : Generator} (homed : Homed s) (hi : isExpr [] i = true)
    (hv : isExpr [] v = true) (ha : s.home a = some b) (source : Evaluates v s r s₁ n₁) (index : Evaluates i s₁ q s₂ n₂) :
    Performs (.assignment (.element a i k) v l) s (s₂.add (.store (some r) b)) (n₁ ++ (n₂ ++ [Line.store (some r) b]))
      fun div h ρ => do
        let u ← value div ρ v
        let address ← ρ a
        let _ ← value div ρ i
        some (h.write address u, ρ) where
  ran := (ran_elementAssignment hi hv).2
    ⟨_, _, source.ran, _, _, ran_place.2 (.inl ⟨source.home ▸ ha, rfl⟩), _, _, index.ran, rfl, rfl⟩
  code := by simp [source.code, index.code]
  achieves div m σ w h ρ hp := by
    simp only [Option.bind_eq_bind, Option.bind_eq_some_iff, Option.some.injEq, Prod.mk.injEq] at hp
    obtain ⟨u, hu, address, pointer, _, hj, rfl, rfl⟩ := hp
    have apart : ∀ l ∈ labelsIn (n₂ ++ [Line.store (some r) b]), l ∉ labelsIn n₁ := by
      intro l hl hm
      have hl : l ∈ labelsIn n₂ := by simpa [Line.label?] using hl
      have := (source.numbered.within l hm).2
      have := (index.numbered.within l hl).1
      omega
    refine (achieves_of_evaluates source hu).append apart ?_
    rintro h σ₁ ⟨heap, result, kept⟩
    subst heap
    have same : contents s₁.home σ₁ = contents s.home σ := by rw [source.home, contents_congr homed kept]
    refine (achieves_of_evaluates index (same ▸ hj)).append (by simp [Line.label?]) ?_
    rintro h σ₂ ⟨heap, -, kept₂⟩
    subst heap
    have result : σ₂ r = some u := (kept₂ r source.result).trans result
    have pointer : σ₂ b = some address := by
      have taken := homed a b ha
      rw [kept₂ b (source.taken b taken), kept b taken]
      simpa [contents, ha] using pointer
    refine .line (fun prog l => steps_store result pointer) ⟨rfl, ?_⟩
    show contents s₂.home σ₂ = _
    rw [index.home, contents_congr (homed.mono source.home source.taken) kept₂, same]

/-! ### Assignments -/

theorem contents_owns {σ : Regs} {u : Int} (hs : s.Sound) (owns : Owns s x r s') :
    contents s'.home (Function.update σ r (some u)) = Function.update (contents s.home σ) x (some u) := by
  have sound := (owns.advances hs).1
  funext y
  by_cases same : y = x
  · subst same
    simp [contents, owns.home]
  · have home : s'.home y = s.home y := by
      rcases owns with ⟨-, rfl⟩ | ⟨-, own⟩
      · rfl
      · rcases ran_ownPlace.1 own with ⟨-, rfl⟩ | ⟨-, -, rfl⟩
        · rfl
        · rw [home_settle, if_neg (Ne.symm same)]
    rw [Function.update_of_ne same, contents, contents, home]
    cases hy : s.home y with
    | none => rfl
    | some q =>
      have other : q ≠ r := by
        rintro rfl
        exact same (sound.home_inj (home.trans hy) owns.home)
      exact Function.update_of_ne other ..

def moveLines (r target : Reg) : List Line := if some r = some target then [] else [.mov target (.reg r)]

theorem achieves_moveLines {div : Int → Int → Option Int} {m : Machine} {σ : Regs} {w : World} {r target : Reg} {u : Int}
    (h : σ r = some u) : Achieves div (moveLines r target) m σ w fun h σ' => h = m.heap ∧ σ' = Function.update σ target (some u) := by
  unfold moveLines
  split
  · next same =>
    obtain rfl := Option.some.inj same
    exact fun _ _ _ => ⟨m.heap, σ, .refl _, rfl, (Function.update_eq_self_iff.2 h.symm).symm⟩
  · exact .line (fun prog l => steps_move h) ⟨rfl, rfl⟩

/-- **A value is assigned to a variable.** -/
theorem performs_assignment {part : (Int → Int → Option Int) → Heap → Env → Option (Heap × Int)} {target : Reg}
    (hs : s₁.Sound) (homed : Homed s) (operand : operand e (visit e) = visit e) (value : Yields e s r s₁ new part)
    (owns : Owns s₁ x target s') :
    Performs (.assignment (.text x) e k) s (if some r = some target then s' else s'.add (.mov target (.reg r)))
      (new ++ moveLines r target) fun div h ρ => (part div h ρ).map fun p => (p.1, Function.update ρ x (some p.2)) where
  ran := by
    rw [visit, operand, value.ran.bind_iff]
    exact ran_bind.2 ⟨(), _, ran_assign.2 ⟨target, s', owns, rfl⟩, ran_pure.2 ⟨rfl, rfl⟩⟩
  code := by
    unfold moveLines
    split <;> simp [owns.code, value.code]
  achieves div m σ w h ρ hp := by
    obtain ⟨⟨h, u⟩, found, same⟩ := Option.map_eq_some_iff.1 hp
    obtain ⟨rfl, rfl⟩ := Prod.mk.inj same
    have unlabelled : labelsIn (moveLines r target) = [] := by
      unfold moveLines
      split <;> rfl
    refine (value.achieves div m σ w h u found).append (by simp [unlabelled]) fun h₁ σ₁ ⟨heap, result, kept⟩ => ?_
    subst heap
    refine (achieves_moveLines result).imp ?_
    rintro _ _ ⟨rfl, rfl⟩
    refine ⟨rfl, ?_⟩
    have home : (if some r = some target then s' else s'.add (.mov target (.reg r))).home = s'.home := by
      split <;> rfl
    rw [home, contents_owns hs owns, value.home, contents_congr homed kept]

/-! ### Statements one after another -/

/-- Code is generated for some statements: what becomes of memory and of the values of variables, `effect` says. -/
structure PerformsAll (ns : List Node) (s s' : Generator) (new : List Line)
    (effect : (Int → Int → Option Int) → Heap → Env → Option (Heap × Env)) : Prop where
  ran : Ran (visitAll ns) s () s'
  code : s'.code.toList = s.code.toList ++ new
  labels : ∀ l ∈ labelsIn new, s.labels ≤ l.index
  achieves : ∀ div m σ w h ρ, effect div m.heap (contents s.home σ) = some (h, ρ) →
    Achieves div new m σ w fun h' σ' => h' = h ∧ contents s'.home σ' = ρ

theorem PerformsAll.nil (s : Generator) : PerformsAll [] s s [] fun _ h ρ => some (h, ρ) where
  ran := ran_nil.2 rfl
  code := by simp
  labels := nofun
  achieves div m σ w h ρ hp := by
    obtain ⟨rfl, rfl⟩ := Prod.mk.inj (Option.some.inj hp)
    exact fun _ _ _ => ⟨m.heap, σ, .refl _, rfl, rfl⟩

theorem PerformsAll.cons {ns : List Node} {f g : (Int → Int → Option Int) → Heap → Env → Option (Heap × Env)}
    (filled : isFiller n = false) (first : Performs n s s₁ n₁ f) (rest : PerformsAll ns s₁ s' n₂ g) :
    PerformsAll (n :: ns) s s' (n₁ ++ n₂) fun div h ρ => (f div h ρ).bind fun p => g div p.1 p.2 where
  ran := (ran_cons filled).2 ⟨_, _, first.ran, rest.ran⟩
  code := by rw [rest.code, first.code, List.append_assoc]
  labels := by
    have numbered := (numbered_of_ran first.ran first.code).1
    have more := numbered.length
    intro l hl
    rcases List.mem_append.1 (labelsIn_append n₁ n₂ ▸ hl) with hl | hl
    · exact (numbered.within l hl).1
    · have := rest.labels l hl
      omega
  achieves div m σ w h ρ hp := by
    obtain ⟨⟨h₁, ρ₁⟩, hf, hg⟩ := Option.bind_eq_some_iff.1 hp
    have apart : ∀ l ∈ labelsIn n₂, l ∉ labelsIn n₁ := by
      intro l hl hm
      have := ((numbered_of_ran first.ran first.code).1.within l hm).2
      have := rest.labels l hl
      omega
    refine (first.achieves div m σ w h₁ ρ₁ hf).append apart ?_
    rintro _ σ₁ ⟨rfl, rfl⟩
    exact rest.achieves div _ σ₁ w h ρ hg

end

/-! ### All elements share one cell -/

theorem isArithmetic_mono {home home' : String → Option Reg} (keep : ∀ x, (home x).isSome = true → (home' x).isSome = true) :
    ∀ {e : Node}, isArithmetic home e = true → isArithmetic home' e = true
  | .number .., _ | .boolean .., _ => rfl
  | .identifier x _, h => keep x h
  | .binary .., h => by
    simp only [isArithmetic, Bool.and_eq_true] at h ⊢
    exact ⟨⟨h.1.1, isArithmetic_mono keep h.1.2⟩, isArithmetic_mono keep h.2⟩
  | .ternary .., h => by
    simp only [isArithmetic, Bool.and_eq_true] at h ⊢
    exact ⟨⟨isArithmetic_mono keep h.1.1, isArithmetic_mono keep h.1.2⟩, isArithmetic_mono keep h.2⟩

theorem homed_of_sound {s : Generator} (h : s.Sound) : Homed s := fun _ _ hx => (h.home_taken hx).1

theorem exists_assignment {s s₁ : Generator} {e : Node} {r : Reg} {new : List Line}
    {part : (Int → Int → Option Int) → Heap → Env → Option (Heap × Int)} (hs : s.Sound) (he : plain e = true)
    (operand : operand e (visit e) = visit e) (value : Yields e s r s₁ new part) (x : String) (k : Int) :
    ∃ s' new', Performs (.assignment (.text x) e k) s s' new'
        (fun div h ρ => (part div h ρ).map fun p => (p.1, Function.update ρ x (some p.2))) ∧
      s'.Sound ∧ s.Grows s' ∧ ∃ q, s'.home x = some q := by
  obtain ⟨hs₁, -⟩ := visit_advances e he _ _ _ value.ran hs
  obtain ⟨target, s₂, owns⟩ := exists_owns x s₁
  have performs := performs_assignment (k := k) hs₁ (homed_of_sound hs) operand value owns
  obtain ⟨sound, grows⟩ := visit_advances _ (by simp [plain, he]) _ _ _ performs.ran hs
  refine ⟨_, _, performs, sound, grows, target, ?_⟩
  split <;> exact owns.home

theorem exists_elementAssignment {s : Generator} {a : String} {i v : Node} {b : Reg} (hs : s.Sound) (ha : s.home a = some b)
    (hi : isArithmetic s.home i = true) (hv : isArithmetic s.home v = true) (k l : Int) :
    ∃ s' new, Performs (.assignment (.element a i k) v l) s s' new (fun div h ρ => do
        let u ← value div ρ v
        let address ← ρ a
        let _ ← value div ρ i
        some (h.write address u, ρ)) ∧ s'.Sound ∧ s.Grows s' := by
  have homed := homed_of_sound hs
  obtain ⟨r, s₁, n₁, source⟩ := evaluates_arithmetic hv rfl homed
  obtain ⟨q, s₂, n₂, index⟩ := evaluates_arithmetic hi source.home (homed.mono source.home source.taken)
  have exprs := And.intro (isExpr_of_isArithmetic hi) (isExpr_of_isArithmetic hv)
  have performs := performs_elementAssignment (k := k) (l := l) homed exprs.1 exprs.2 ha source index
  obtain ⟨sound, grows⟩ := visit_advances _ (by simp [plain, plain_of_isExpr exprs.1, plain_of_isExpr exprs.2]) _ _ _
    performs.ran hs
  exact ⟨_, _, performs, sound, grows⟩

/-- **All elements of a vector share one cell.**  Take any generator that is reached while code is generated, and arithmetic
expressions whose variables have registers in it.  Code is generated for `a = list(n); a[i] = v; a[j] = w; x = a[i];`.
Wherever it stands in a program that does not define its labels before, and whatever is in the registers and in memory, the
machine gets from the first line of it behind the last if the expressions have values.  Then `x` has the value of `w`,
whatever the indices are, and in memory nothing is written but the cell that `a` points to.  So what `x` has is the element
that was assigned to last if and only if the indices are the same or both values are. -/
theorem elements_coincide {s : Generator} (reached : s.Reached) {n i j v w : Node} (hn : isArithmetic s.home n = true)
    (hi : isArithmetic s.home i = true) (hj : isArithmetic s.home j = true) (hv : isArithmetic s.home v = true)
    (hw : isArithmetic s.home w = true) (a x : String) (k₁ k₂ k₃ k₄ k₅ k₆ k₇ k₈ : Int) : ∃ s' new q,
    Ran (visitAll [.assignment (.text a) (.call "list" [n] k₁) k₂, .assignment (.element a i k₃) v k₄,
      .assignment (.element a j k₅) w k₆, .assignment (.text x) (.element a i k₇) k₈]) s () s' ∧
    s'.code.toList = s.code.toList ++ new ∧ s'.home x = some q ∧
    ∀ (div : Int → Int → Option Int) (before after : List Line), (∀ l ∈ labelsIn new, l ∉ labelsIn before) →
      ∀ (m : Machine) (σ : Regs) (world : World) (size iᵥ jᵥ vᵥ wᵥ : Int),
      let ρ := Function.update (contents s.home σ) a (some m.heap.bound)
      value div (contents s.home σ) n = some size → value div ρ i = some iᵥ → value div ρ j = some jᵥ →
      value div ρ v = some vᵥ → value div ρ w = some wᵥ → ∃ σ',
        Steps div (before ++ (new ++ after)) (m.on (new ++ after) σ world)
          ({ m with heap := (m.heap.handOut size).write m.heap.bound wᵥ }.on after σ' world) ∧
        contents s'.home σ' = Function.update ρ x (some wᵥ) ∧
        (σ' q = some (if iᵥ = jᵥ then wᵥ else vᵥ) ↔ iᵥ = jᵥ ∨ vᵥ = wᵥ) := by
  obtain ⟨hs, -⟩ := reached_tidy reached
  have keep {s₁ s₂ : Generator} (g : s₁.Grows s₂) {e : Node} (h : isArithmetic s₁.home e = true) :
      isArithmetic s₂.home e = true := by
    refine isArithmetic_mono (fun y hy => ?_) h
    obtain ⟨r, hr⟩ := Option.isSome_iff_exists.1 hy
    exact Option.isSome_of_eq_some (g.keep hr)
  obtain ⟨r, s₀, n₀, size⟩ := evaluates_arithmetic hn rfl (homed_of_sound hs)
  have nExpr := isExpr_of_isArithmetic hn
  obtain ⟨s₁, n₁, created, hs₁, g₁, b, ha⟩ := exists_assignment hs (by simp [plain, plainAll, plain_of_isExpr nExpr]) rfl
    (yields_list (k := k₁) nExpr size) a k₂
  obtain ⟨s₂, n₂, first, hs₂, g₂⟩ := exists_elementAssignment hs₁ ha (keep g₁ hi) (keep g₁ hv) k₃ k₄
  obtain ⟨s₃, n₃, second, hs₃, g₃⟩ := exists_elementAssignment hs₂ (g₂.keep ha) (keep g₂ (keep g₁ hj))
    (keep g₂ (keep g₁ hw)) k₅ k₆
  have hi₃ := keep g₃ (keep g₂ (keep g₁ hi))
  obtain ⟨_, s₄, _, index⟩ := evaluates_arithmetic hi₃ rfl (homed_of_sound hs₃)
  have iExpr := isExpr_of_isArithmetic hi₃
  obtain ⟨s₅, n₅, read, -, -, q, hx⟩ := exists_assignment hs₃ (by simp [plain, plain_of_isExpr iExpr]) rfl
    (yields_element (k := k₇) (homed_of_sound hs₃) iExpr (g₃.keep (g₂.keep ha)) index) x k₈
  have all := PerformsAll.cons rfl created (.cons rfl first (.cons rfl second (.cons rfl read (.nil s₅))))
  refine ⟨s₅, _, q, all.ran, all.code, hx, ?_⟩
  intro div before after fresh m σ world count iᵥ jᵥ vᵥ wᵥ ρ hn hi hj hv hw
  have written (u : Int) : ((m.heap.handOut count).write m.heap.bound vᵥ).write m.heap.bound u =
      (m.heap.handOut count).write m.heap.bound u := by simp [Heap.write]
  have cell : ((m.heap.handOut count).write m.heap.bound wᵥ).cells m.heap.bound = some wᵥ := Function.update_self ..
  obtain ⟨_, σ', steps, rfl, values⟩ := all.achieves div m σ world _ (Function.update ρ x (some wᵥ))
    (by simp [hn, hi, hj, hv, hw, written, cell, ρ]; rfl) before after fresh
  have result : σ' q = some wᵥ := by simpa [contents, hx] using congrFun values x
  refine ⟨σ', steps, values, ?_⟩
  rw [result, Option.some.injEq]
  split
  · next same => simp [same]
  · next other => simp [other, eq_comm]

theorem twoElements_coincide : ∃ s' new q, s'.home "z" = some q ∧ Ran (visitAll [
      .assignment (.text "v") (.call "list" [.number 2 3] 3) 3, .assignment (.element "v" (.number 0 3) 3) (.identifier "x" 3) 3,
      .assignment (.element "v" (.binary (.identifier "x" 3) "-" (.number 4 3) 3) 3) (.identifier "y" 3) 3,
      .assignment (.text "z") (.element "v" (.number 0 3) 3) 3]) (left (visit brokenOff) {}) () s' ∧
    ∃ h σ', Steps (fun _ _ => none) new (on ⟨[], passed [], [], ⟨[], []⟩, {}⟩ new (passed [5, 7]) ⟨[], []⟩)
      (on ⟨[], passed [], [], ⟨[], []⟩, h⟩ [] σ' ⟨[], []⟩) ∧ σ' q = some 7 := by
  obtain ⟨s', new, q, ran, -, hq, runs⟩ := elements_coincide (s := left (visit brokenOff) {}) ⟨brokenOff, rfl⟩ (n := .number 2 3)
    (i := .number 0 3) (j := .binary (.identifier "x" 3) "-" (.number 4 3) 3) (v := .identifier "x" 3) (w := .identifier "y" 3)
    rfl rfl (by decide +kernel) (by decide +kernel) (by decide +kernel) "v" "z" 3 3 3 3 3 3 3 3
  obtain ⟨σ', steps, values, -⟩ := runs (fun _ _ => none) [] [] (by simp) ⟨[], passed [], [], ⟨[], []⟩, {}⟩
    (passed [5, 7]) ⟨[], []⟩ 2 0 1 5 7 rfl rfl (by decide +kernel) (by decide +kernel) (by decide +kernel)
  rw [List.append_nil] at steps
  refine ⟨s', new, q, hq, ran, _, σ', steps, ?_⟩
  simpa [contents, hq] using congrFun values "z"

end TesLang.Vectors

namespace TesLang.Session

open Code Code.Machine

/-- A text that assigns to two elements of a vector, and returns the first of them. -/
def overwritten : String :=
  "funk main() <int> \x7b a :: vector; x :: int; a = list(2); a[0] = 5; a[1] = 7; x = a[0]; return x; \x7d"

theorem overwritten_returns : (compile overwritten {}).1 = [] ∧ ∃ lines,
    (compileToCode overwritten {}).1.1 = some (render lines) ∧ ∀ result w,
      Returns (fun _ _ => none) lines "main" [] [] result w ↔ result = some 7 ∧ w = ⟨[], []⟩ := by
  refine returns_iff_of_outcome (n := 30) ?_
  rw [overwritten, reading_ofList]
  decide +kernel

end TesLang.Session
