import TesLang.Proofs.Procedures.Apart
/-!
# Procedures that return

A procedure is closed by a return unless its last line so far ends in the letters of one.  Of the lines inside a procedure
only a return does (`endsInRet_of_inner`), but its head may, since it ends in the name of the function
(`endsInRet_proc`).  So a procedure returns (`EndsInReturn`) unless there is nothing in it and its name ends in these letters
(`fallsOff`); then it is a head and a blank line, and a call of it runs on into whatever code follows.

When there is nothing in a procedure can be read off its function: there are no parameters, which a comment names, and no
statements other than functions and empty blocks (`hollow`).  All other statements have lines.  Most have one of their own
(`emits_of_speaks`).  A declaration and an assignment have one as long as no name has a register, which is so at the start of
a procedure without parameters and stays so until the first line (`line_of_statement`).
-/
namespace TesLang.Code

open Grammar

mutual

/-- Whether a statement has no code where it stands: a function, a block of such statements, or a call for the length of
nothing, which no text has. -/
def hollow : Node → Bool
  | .function .. => true
  | .block ss _ | .several ss => hollowAll ss
  | .call f args _ => Builtin.ofName? f == some .length && args.isEmpty
  | _ => false

def hollowAll : List Node → Bool
  | [] => true
  | n :: ns => hollow n && hollowAll ns

end

/-- Whether the procedure of a function has nothing in it and is taken to be closed because of its name. -/
def fallsOff : Node → Bool
  | .function name params _ body _ => "ret".toList.isSuffixOf name.toList && params.isEmpty && hollow body
  | _ => false

/-- **The procedure of a function ends in a return**: from its head to the blank line that closes it, its last instruction is
one. -/
def EndsInReturn (f : Node) (b : List Line) : Prop :=
  ∃ name inside, f.name? = some name ∧ b = .proc name :: (inside ++ [.ret, .blank]) ∧
    ∀ l ∈ inside, l.isHead = false ∧ l ≠ .blank

theorem not_returns_head (f : Node) (name : String) : ¬ EndsInReturn f [.proc name, .blank] := by
  rintro ⟨_, inside, -, h, -⟩
  have short := congrArg List.length h
  simp only [List.length_cons, List.length_append, List.length_nil] at short
  omega

namespace Gen

open Generator

/-! ### Computations that add lines -/

def Emits {α : Type} (m : Gen α) : Prop := Steady (fun s s' => s.code.size < s'.code.size) m

theorem size_le {α : Type} {m : Gen α} (hm : Steady Opens m) {s s' : Generator} {a : α} (h : Ran m s a s') :
    s.code.size ≤ s'.code.size := by
  obtain ⟨new, hn, -⟩ := hm s a s' h
  rw [← Array.length_toList, ← Array.length_toList, hn, List.length_append]
  omega

namespace Emits

variable {α β : Type} {m : Gen α} {f : α → Gen β}

theorem emit (l : Line) : Emits (emit l) := by
  intro s u s' h
  obtain rfl := ran_emit.1 h
  simp

theorem first (hm : Emits m) (hf : ∀ a, Steady Opens (f a)) : Emits (m >>= f) := by
  intro s b s' h
  obtain ⟨a, s₁, h₁, h₂⟩ := ran_bind.1 h
  have before := hm s a s₁ h₁
  have after := size_le (hf a) h₂
  omega

theorem later (hm : Steady Opens m) (hf : ∀ a, Emits (f a)) : Emits (m >>= f) := by
  intro s b s' h
  obtain ⟨a, s₁, h₁, h₂⟩ := ran_bind.1 h
  have before := size_le hm h₁
  have after := hf a s₁ b s' h₂
  omega

theorem last (l : Line) (b : β) : Emits (do Gen.emit l; pure b) := (emit l).first fun _ => closed_opens.pure b

end Emits

theorem emits_call {f : String} {args : List Node} {line : Int} (h : hollow (.call f args line) = false) :
    Emits (visit (.call f args line)) := by
  have o := closed_opens
  have zero (r : Reg) (l : Line) (a : Option Reg) (hl : l.Inner) :
      Emits (do emit (.mov r (.literal 0)); emit l; pure a) :=
    .first (.emit _) fun _ => o.bind (o.emit hl) fun _ => o.pure a
  rw [visit]
  rw [hollow] at h
  cases hb : Builtin.ofName? f with
  | none =>
    exact .later (o.has (.visitArguments args)) fun rs => .later o.allocate fun _ =>
      .later (o.has (.argumentRegs 0 rs)) fun _ => .last _ _
  | some b =>
    cases b with
    | scan => exact .later o.allocate fun _ => .last _ _
    | print =>
      refine .later (o.has (.visitFirst args)) fun a => ?_
      cases a with
      | some r => exact .last _ _
      | none => exact .later o.allocate fun r => zero r _ _ (.instruction rfl)
    | list =>
      refine .later (o.has (.visitFirst args)) fun a => ?_
      cases a with
      | some size => exact .later o.allocate fun _ => .last _ _
      | none => exact .later o.allocate fun _ => .later o.allocate fun r => zero r _ _ (.instruction rfl)
    | length =>
      cases args with
      | nil => simp [hb] at h
      | cons e es =>
        dsimp only
        rw [visitFirst, bind_assoc]
        refine .later (o.has (.operand e (.visit e))) fun r => ?_
        rw [pure_bind]
        exact .later o.allocate fun _ => .last _ _

/-- Whether a node has a line of its own whatever registers names have. -/
def speaks : Node → Bool
  | .number .. | .boolean .. | .binary .. | .ternary .. | .element .. | .ret .. | .branch .. | .whileLoop .. | .doLoop ..
  | .forLoop .. | .assignment (.element ..) .. => true
  | .call f args line => !hollow (.call f args line)
  | _ => false

theorem emits_of_speaks {n : Node} (h : speaks n = true) : Emits (visit n) := by
  have o := closed_opens
  have operand (n : Node) : Steady Opens (operand n (visit n)) := o.has (.operand n (.visit n))
  have line {l : Line} (hl : l.isInstruction = true) : Steady Opens (emit l) := o.emit (.instruction hl)
  cases n with
  | number | boolean =>
    rw [visit]
    exact .later o.allocate fun _ => .last _ _
  | binary left _ right _ =>
    rw [visit]
    exact .later (operand left) fun _ => .later (operand right) fun _ => .later o.allocate fun _ => .last _ _
  | ternary condition yes no _ =>
    rw [visit]
    exact .later (operand condition) fun _ => .later (o.freshLabel _) fun _ => .later (o.freshLabel _) fun _ =>
      .later o.allocate fun _ => .later (line rfl) fun _ => .later (operand yes) fun _ => .later (line rfl) fun _ =>
      .later (line rfl) fun _ => .later (line rfl) fun _ => .later (operand no) fun _ => .later (line rfl) fun _ => .last _ _
  | element base index _ =>
    rw [visit]
    exact .later (o.place base) fun _ => .later (operand index) fun _ => .later o.allocate fun _ => .last _ _
  | ret value _ =>
    rw [visit]
    refine .later (o.has (.returned value (.visit value))) fun r => ?_
    cases r with
    | some r => exact .later (line rfl) fun _ => .last _ _
    | none => exact .later (line rfl) fun _ => .last _ _
  | branch condition yes no _ =>
    rw [visit]
    exact .later (operand condition) fun _ => .later (o.freshLabel _) fun _ => .later (o.freshLabel _) fun _ =>
      .later (line rfl) fun _ => .later (o.has (.visit yes)) fun _ => .later (line rfl) fun _ => .later (line rfl) fun _ =>
      .later (o.has (.visit no)) fun _ => .last _ _
  | whileLoop condition body _ =>
    rw [visit]
    exact .later (o.freshLabel _) fun _ => .later (o.freshLabel _) fun _ => .later (line rfl) fun _ =>
      .later (operand condition) fun _ => .later (line rfl) fun _ => .later (o.has (.visit body)) fun _ =>
      .later (line rfl) fun _ => .last _ _
  | doLoop body condition _ =>
    rw [visit]
    exact .later (o.freshLabel _) fun _ => .later (line rfl) fun _ => .later (o.has (.doBody body (.visit body))) fun _ =>
      .later (operand condition) fun _ => .last _ _
  | forLoop var start stop body _ =>
    rw [visit]
    exact .later (operand start) fun _ => .later (operand stop) fun _ => .later (o.ownPlace var) fun _ =>
      .later (line rfl) fun _ => .later (o.freshLabel _) fun _ => .later (o.freshLabel _) fun _ =>
      .later (line rfl) fun _ => .later o.allocate fun _ => .later (line rfl) fun _ => .later (line rfl) fun _ =>
      .later (o.has (.visit body)) fun _ => .later o.allocate fun _ => .later (line rfl) fun _ => .later (line rfl) fun _ =>
      .later (line rfl) fun _ => .last _ _
  | call => exact emits_call (by simpa [speaks] using h)
  | assignment target value _ =>
    cases target with
    | element base index _ =>
      rw [visit]
      exact .later (operand value) fun _ => .later (o.place base) fun _ => .later (operand index) fun _ => .last _ _
    | _ => cases h
  | _ => cases h

/-! ### Where no name has a register -/

def Homeless (s : Generator) : Prop := s.params = [] ∧ s.vars = []

theorem Homeless.home {s : Generator} (h : Homeless s) (x : String) : s.home x = none := by
  unfold Generator.home
  rw [h.1, h.2]
  rfl

def SilentIf (nothing : Bool) (s s' : Generator) : Prop :=
  if nothing then s'.code = s.code ∧ Homeless s' else s.code.size < s'.code.size

theorem SilentIf.and {a b : Bool} {s s₁ s' : Generator} (first : SilentIf a s s₁) (le : s₁.code.size ≤ s'.code.size)
    (rest : Homeless s₁ → SilentIf b s₁ s') : SilentIf (a && b) s s' := by
  cases a with
  | false =>
    have first : s.code.size < s₁.code.size := first
    show s.code.size < s'.code.size
    omega
  | true =>
    obtain ⟨same, hs₁⟩ := first
    have rest := rest hs₁
    rw [SilentIf, same] at rest
    exact rest

theorem ran_hollow_call {f : String} {args : List Node} {line : Int} (h : hollow (.call f args line) = true)
    {s s' : Generator} {r : Option Reg} (run : Ran (visit (.call f args line)) s r s') : r = none ∧ s' = s := by
  simp only [hollow, Bool.and_eq_true, beq_iff_eq, List.isEmpty_iff] at h
  rw [visit, h.1, h.2] at run
  exact ran_pure.1 run

mutual

theorem line_of_expression : ∀ {e : Node}, isExpression isWord e = true → ∀ {s s' : Generator} {r : Option Reg},
    Homeless s → Ran (visit e) s r s' → s.code.size < s'.code.size ∨ Homeless s' ∧ ∀ q ∈ r, q ∈ s'.bank.taken
  | .number .., _, _, _, _, _, run | .boolean .., _, _, _, _, _, run | .binary .., _, _, _, _, _, run
  | .ternary .., _, _, _, _, _, run | .element .., _, _, _, _, _, run => .inl (emits_of_speaks rfl _ _ _ run)
  | .identifier x _, _, s, s', r, hs, run => by
    rw [visit, ran_place?_bind, hs.home x] at run
    simp only [ran_allocate_bind, ran_pure] at run
    obtain ⟨rfl, rfl⟩ := run
    refine .inr ⟨hs, ?_⟩
    rintro q ⟨⟩
    exact (s.mem_taken_draw _).2 (.inr rfl)
  | .string .., _, s, s', r, hs, run => by
    rw [visit] at run
    simp only [ran_warn_bind, ran_pure] at run
    obtain ⟨rfl, rfl⟩ := run
    exact .inr ⟨hs, nofun⟩
  | .unary _ e _, he, s, s', r, hs, run => by
    rw [isExpression] at he
    rw [visit, ran_warn_bind] at run
    split at run
    · simp only [ran_bind, ran_discard, ran_pure] at run
      obtain ⟨_, _, ⟨r, run⟩, rfl, rfl⟩ := run
      exact (line_of_expression he (s := s.note _) hs run).imp_right fun h => ⟨h.1, nofun⟩
    · obtain ⟨rfl, rfl⟩ := ran_pure.1 run
      exact .inr ⟨hs, nofun⟩
  | .array es _, he, s, s', r, hs, run => by
    rw [isExpression] at he
    rw [visit, ran_warn_bind] at run
    simp only [ran_bind, ran_pure] at run
    obtain ⟨_, _, run, rfl, rfl⟩ := run
    exact (line_of_expressions he (s := s.note _) hs run).imp_right fun h => ⟨h, nofun⟩
  | .call f args line, _, s, s', r, hs, run => by
    cases hh : hollow (.call f args line) with
    | false => exact .inl (emits_call hh _ _ _ run)
    | true =>
      obtain ⟨rfl, rfl⟩ := ran_hollow_call hh run
      exact .inr ⟨hs, nofun⟩

theorem line_of_expressions : ∀ {es : List Node}, areExpressions isWord es = true → ∀ {s s' : Generator} {u : Unit},
    Homeless s → Ran (visitAll es) s u s' → s.code.size < s'.code.size ∨ Homeless s'
  | [], _, s, s', u, hs, run => by
    rw [visitAll] at run
    obtain ⟨-, rfl⟩ := ran_pure.1 run
    exact .inr hs
  | e :: es, he, s, s', u, hs, run => by
    simp only [areExpressions, Bool.and_eq_true] at he
    rw [visitAll, operand_expression he.1] at run
    obtain ⟨r, s₁, run₁, run₂⟩ := ran_bind.1 run
    have before := size_le (closed_opens.has (.visit e)) run₁
    have after := size_le (closed_opens.has (.visitAll es)) run₂
    rcases line_of_expression he.1 hs run₁ with h | ⟨h, -⟩
    · exact .inl (by omega)
    · exact (line_of_expressions he.2 h run₂).imp_left fun h => by omega

end

theorem line_of_assign {x : String} {s s' : Generator} {r : Option Reg} {u : Unit} (hs : Homeless s)
    (hr : ∀ q ∈ r, q ∈ s.bank.taken) (run : Ran (assign x r) s u s') : s.code.size < s'.code.size := by
  obtain ⟨q, s₁, ⟨h, -⟩ | ⟨-, h⟩, rfl⟩ := ran_assign.1 run
  · rw [hs.1] at h
    cases h
  · rcases ran_ownPlace.1 h with ⟨h, -⟩ | ⟨-, rfl, rfl⟩
    · rw [hs.2] at h
      cases h
    · have moved : r ≠ some s.next := fun e => s.next_notMem (hr _ e)
      rw [if_neg moved]
      simp

mutual

/-- **Where no name has a register, a statement has code unless it is hollow.** -/
theorem line_of_statement : ∀ {n : Node}, isStatement n = true → plain n = true → ∀ {s s' : Generator} {r : Option Reg},
    Homeless s → Ran (visit n) s r s' → SilentIf (hollow n) s s'
  | .ret .., _, _, _, _, _, _, run | .branch .., _, _, _, _, _, _, run | .whileLoop .., _, _, _, _, _, _, run
  | .doLoop .., _, _, _, _, _, _, run | .forLoop .., _, _, _, _, _, _, run => emits_of_speaks rfl _ _ _ run
  | .declaration x _ _, _, _, s, s', r, hs, run => by
    rw [visit] at run
    simp only [ran_bind, ran_pure] at run
    obtain ⟨_, _, run, -, rfl⟩ := run
    rw [declare, ran_place?_bind, hs.home x] at run
    exact Emits.later (closed_opens.place x) (fun _ => .emit _) _ _ _ run
  | .assignment target value _, h, _, s, s', r, hs, run => by
    obtain ⟨hv, ⟨x, rfl, -⟩ | ⟨x, index, k, rfl, -⟩⟩ := isStatement_assignment.1 h
    · rw [visit, operand_expression hv] at run
      simp only [ran_bind, ran_pure] at run
      obtain ⟨r, s₁, run₁, _, _, run₂, -, rfl⟩ := run
      have before := size_le (closed_opens.has (.visit value)) run₁
      have after := size_le (closed_opens.has (.assign x r)) run₂
      show s.code.size < s'.code.size
      rcases line_of_expression hv hs run₁ with h | ⟨h, hr⟩
      · omega
      · have := line_of_assign h hr run₂
        omega
    · exact emits_of_speaks rfl _ _ _ run
  | .call f args line, _, _, s, s', r, hs, run => by
    cases hh : hollow (.call f args line) with
    | false => exact emits_call hh _ _ _ run
    | true =>
      obtain ⟨-, rfl⟩ := ran_hollow_call hh run
      exact ⟨rfl, hs⟩
  | .block ss _, h, hp, s, s', r, hs, run | .several ss, h, hp, s, s', r, hs, run => by
    rw [isStatement] at h
    rw [plain] at hp
    rw [visit] at run
    simp only [ran_bind, ran_pure] at run
    obtain ⟨_, _, run, -, rfl⟩ := run
    rw [hollow]
    exact line_of_statements h hp hs run

theorem line_of_statements : ∀ {ns : List Node}, areStatements ns = true → plainAll ns = true →
    ∀ {s s' : Generator} {u : Unit}, Homeless s → Ran (visitAll ns) s u s' → SilentIf (hollowAll ns) s s'
  | [], _, _, s, s', u, hs, run => by
    rw [visitAll] at run
    obtain ⟨-, rfl⟩ := ran_pure.1 run
    exact ⟨rfl, hs⟩
  | n :: ns, h, hp, s, s', u, hs, run => by
    simp only [areStatements, Bool.and_eq_true, Bool.not_eq_true'] at h
    simp only [plainAll, Bool.and_eq_true] at hp
    rw [visitAll, operand_statement h.1.1 h.1.2] at run
    obtain ⟨r, s₁, run₁, run₂⟩ := ran_bind.1 run
    rw [hollowAll]
    exact (line_of_statement h.1.2 hp.1 hs run₁).and (size_le (closed_opens.has (.visitAll ns)) run₂) fun hs₁ =>
      line_of_statements h.2 hp.2 hs₁ run₂

end

theorem line_of_own {ns : List Node} (h : areStatements ns = true) (hd : ∀ n ∈ ns, n.isFunction = true ∨ plain n = true)
    {s s' : Generator} {u : Unit} (hs : Homeless s) (run : Ran (visitOwn ns) s u s') : SilentIf (hollowAll ns) s s' := by
  induction ns generalizing s with
  | nil =>
    rw [visitOwn] at run
    obtain ⟨-, rfl⟩ := ran_pure.1 run
    exact ⟨rfl, hs⟩
  | cons n ns ih =>
    simp only [areStatements, Bool.and_eq_true, Bool.not_eq_true'] at h
    rw [List.forall_mem_cons] at hd
    rw [visitOwn] at run
    rw [hollowAll]
    by_cases hn : n.isFunction = true
    · have skipped : hollow n = true := by
        cases n with
        | function => rw [hollow]
        | _ => cases hn
      rw [hn] at run
      rw [skipped]
      exact ih h.2 hd.2 hs run
    · rw [Bool.eq_false_iff.2 hn, Bool.not_false, if_pos rfl, operand_statement h.1.1 h.1.2] at run
      simp only [ran_bind, ran_discard] at run
      obtain ⟨_, s₁, ⟨r, run₁⟩, run₂⟩ := run
      exact (line_of_statement h.1.2 (hd.1.resolve_left hn) hs run₁).and (size_le (closed_opens.has (.visitOwn ns)) run₂)
        fun hs₁ => ih h.2 hd.2 hs₁ run₂

end Gen

/-! ### The last line of a procedure -/

theorem isBlank_of_isWordPart {c : Char} (h : Token.isWordPart c = true) : Text.isBlank c = false := by
  have h : ((decide (65 ≤ c.val ∧ c.val ≤ 90) || decide (97 ≤ c.val) && decide (c.val ≤ 122) ||
    decide (48 ≤ c.val) && decide (c.val ≤ 57)) || c == '_') = true := h
  simp only [Bool.or_eq_true, Bool.and_eq_true, decide_eq_true_eq, UInt32.le_iff_toNat_le, beq_iff_eq] at h
  rcases h with ((⟨lower, upper⟩ | ⟨lower, upper⟩) | ⟨lower, upper⟩) | rfl
  · have lower : 65 ≤ c.toNat := lower
    have upper : c.toNat ≤ 90 := upper
    exact isBlank_of_visible (by omega) (by omega)
  · have lower : 97 ≤ c.toNat := lower
    have upper : c.toNat ≤ 122 := upper
    exact isBlank_of_visible (by omega) (by omega)
  · have lower : 48 ≤ c.toNat := lower
    have upper : c.toNat ≤ 57 := upper
    exact isBlank_of_visible (by omega) (by omega)
  · decide

theorem exists_last_of_isWord {w : String} (h : isWord w = true) :
    ∃ cs c, w.toList = cs ++ [c] ∧ Token.isWordPart c = true := by
  unfold isWord at h
  split at h
  · cases h
  · next c cs hw =>
    simp only [Bool.and_eq_true, List.all_eq_true] at h
    have part : ∀ d ∈ c :: cs, Token.isWordPart d = true := by
      intro d hd
      rcases List.mem_cons.1 hd with rfl | hd
      · have start := h.1
        simp only [Token.isWordStart, Token.isWordPart, Char.isAlphanum, Bool.or_eq_true] at start ⊢
        tauto
      · exact h.2 d hd
    have ne : c :: cs ≠ [] := List.cons_ne_nil c cs
    exact ⟨_, _, by rw [hw, List.dropLast_concat_getLast ne], part _ (List.getLast_mem ne)⟩

/-- **The head of a procedure ends in the letters of a return exactly if its name does.** -/
theorem endsInRet_proc {name : String} (h : isWord name = true) :
    Gen.endsInRet (.proc name) = "ret".toList.isSuffixOf name.toList := by
  obtain ⟨cs, c, hn, hc⟩ := exists_last_of_isWord h
  have trimmed : Text.trim (Line.proc name).text.toList = "proc ".toList ++ name.toList := by
    rw [Line.text, String.toList_append, hn, ← List.append_assoc, Gen.trim_append_singleton (isBlank_of_isWordPart hc)]
    rfl
  rw [Gen.endsInRet, trimmed, Bool.eq_iff_iff, List.isSuffixOf_iff_suffix, List.isSuffixOf_iff_suffix]
  constructor
  · rintro ⟨pre, hp⟩
    rcases List.append_eq_append_iff.1 hp with ⟨mid, hm, hr⟩ | ⟨mid, -, hr⟩
    · -- what is left of the letters before the name would end in the space there
      rcases List.eq_nil_or_concat' mid with rfl | ⟨m, d, rfl⟩
      · exact ⟨[], hr⟩
      · have space : "proc ".toList.getLast? = some d := by rw [hm]; simp
        obtain rfl : ' ' = d := Option.some.inj space
        have letter : ' ' ∈ "ret".toList := by rw [hr]; simp
        exact absurd letter (by decide)
    · exact ⟨mid, hr.symm⟩
  · exact fun h => h.trans (List.suffix_append _ _)

theorem returns_of_closing {f : Node} {name returnType : String} {inside : List Line} (hf : f.name? = some name)
    (inner : ∀ l ∈ inside, l.Inner) (h : inside ≠ [] ∨ Gen.endsInRet (.proc name) = false) :
    EndsInReturn f (.proc name :: (inside ++ Gen.closing returnType ((Line.proc name :: inside).getLast?.any Gen.endsInRet))) := by
  have apart : ∀ l ∈ inside, l.isHead = false ∧ l ≠ .blank := fun l hl => ⟨(inner l hl).isHead, (inner l hl).ne_blank⟩
  by_cases ended : (Line.proc name :: inside).getLast?.any Gen.endsInRet = true
  · rw [ended]
    rcases List.eq_nil_or_concat' inside with rfl | ⟨before, last, rfl⟩
    · rw [List.getLast?_singleton, Option.any_some, h.resolve_left (not_not_intro rfl)] at ended
      cases ended
    · -- the last line inside is the return
      rw [List.getLast?_cons, List.getLast?_concat, Option.getD_some, Option.any_some,
        Gen.endsInRet_of_inner (inner last (by simp))] at ended
      obtain rfl := ended
      refine ⟨name, before, hf, by simp [Gen.closing], fun l hl => apart l (by simp [hl])⟩
  · rw [Bool.eq_false_iff.2 ended, Gen.closing]
    by_cases null : returnType = "null"
    · refine ⟨name, inside ++ [.mov .result (.literal 0)], hf, by simp [null], fun l hl => ?_⟩
      rcases List.mem_append.1 hl with hl | hl
      · exact apart l hl
      · obtain rfl := List.mem_singleton.1 hl
        simp [Line.isHead]
    · exact ⟨name, inside, hf, by simp [null], apart⟩

/-- **The procedure of a function returns, or it is a head and a blank line.** -/
theorem returns_codeOf {k : Nat} {f : Node} {c : List Line} (hf : f.isFunction = true) (hs : isStatement f = true)
    (hd : direct f = true) (hc : Gen.codeOf k f = some c) :
    if fallsOff f then ∃ name, c = [.proc name, .blank] else EndsInReturn f c := by
  obtain ⟨_, rest, hb, heads⟩ := isBlock_codeOf hf hs hd hc
  obtain ⟨name, ps, returnType, ss, line, rfl, hn, -, hss⟩ := shape_of_codeOf hf hs hc
  obtain ⟨s₀, s₁, comments, new, run, vars, params, code₀, code₁, rfl, inner, empty, opens⟩ := Gen.codeOf_lines hc
  have whole : s₁.code.toList = .proc name :: (comments ++ new) := by rw [code₁, code₀, List.cons_append]
  rw [← Array.getLast?_toList, whole, List.cons_append] at hb ⊢
  have inside : ∀ l ∈ comments ++ new, l.Inner := by
    obtain ⟨-, rfl⟩ := List.cons.inj hb
    have all : new.takeWhile (!·.isHead) = new := by
      rw [List.takeWhile_eq_self_iff]
      exact fun l hl => by simp [heads l (by simp [hl])]
    rw [all] at opens
    exact fun l hl => (List.mem_append.1 hl).elim (inner l) (opens l)
  have own : ∀ n ∈ ss, n.isFunction = true ∨ plain n = true := fun n hn => by simpa using List.all_eq_true.1 hd n hn
  -- there is nothing inside exactly if there are no parameters and no statements with code
  have nothing : comments ++ new = [] ↔ (Node.several ps).isEmpty = true ∧ hollowAll ss = true := by
    rw [List.append_eq_nil_iff, empty]
    refine and_congr_right fun none => ?_
    have keeps := Gen.line_of_own hss own ⟨params none, vars⟩ run
    have size : s₁.code.size = s₀.code.size + new.length := by
      rw [← Array.length_toList, code₁, List.length_append, Array.length_toList]
    cases hh : hollowAll ss with
    | true =>
      rw [hh] at keeps
      rw [keeps.1] at size
      exact ⟨fun _ => rfl, fun _ => List.length_eq_zero_iff.1 (by omega)⟩
    | false =>
      rw [hh] at keeps
      have grown : s₀.code.size < s₁.code.size := keeps
      constructor
      · rintro rfl
        rw [List.length_nil] at size
        omega
      · nofun
  rw [fallsOff, hollow, ← endsInRet_proc hn]
  by_cases none : comments ++ new = []
  · obtain ⟨hp, hh⟩ := nothing.1 none
    rw [hp, hh, Bool.and_true, Bool.and_true]
    cases ended : Gen.endsInRet (.proc name) with
    | true => exact ⟨name, by simp [none, ended, Gen.closing]⟩
    | false => exact returns_of_closing rfl inside (.inr ended)
  · have some : ¬ (Gen.endsInRet (.proc name) && (Node.several ps).isEmpty && hollowAll ss) = true := by
      simp only [Bool.and_eq_true]
      exact fun h => none (nothing.2 ⟨h.1.2, h.2⟩)
    rw [if_neg some]
    exact returns_of_closing rfl inside (.inl none)

end TesLang.Code

namespace TesLang.Session

open Code

/-- **When control falls off a procedure.**  Take a text whose functions have code and stand only directly in the program or
in the body of another.  The procedure of each function ends in a return if and only if it does not have a name that ends in
the letters of one with nothing in it; such a procedure is a head and a blank line. -/
theorem procedures_return_iff {s : Session} {source : String} {fs : List Node} {lines : List Line}
    (read : (reading s source).functions = some fs) (coded : linesOf fs = some lines) (direct : directOnly fs = true) :
    List.Forall₂
      (fun f b => (EndsInReturn f b ↔ fallsOff f = false) ∧ (fallsOff f = true → ∃ name, b = [.proc name, .blank]))
      (fs.flatMap withNested) (blocksOf lines) := by
  refine (blocks_of_program (parse_areFunctions read) coded direct).imp ?_
  rintro f b ⟨hf, hs, hd, k, hc⟩
  have shape := returns_codeOf hf hs hd hc
  cases falls : fallsOff f with
  | true =>
    rw [falls] at shape
    obtain ⟨name, rfl⟩ := shape
    refine ⟨⟨fun h => ?_, nofun⟩, fun _ => ⟨name, rfl⟩⟩
    exact (not_returns_head f name h).elim
  | false =>
    rw [falls] at shape
    exact ⟨⟨fun _ => rfl, fun _ => shape⟩, nofun⟩

/-- Two functions with names that end in the letters of a return, and in them a parameter and a block; the outer one ends in
a label. -/
def forgetful : String :=
  "funk forget(n as int) <int> \x7b funk secret() <int> \x7b begin return 2; end \x7d if [[n]] return 1; else return secret(); \x7d"

theorem forgetful_returns : ∃ fs lines, (reading {} forgetful).functions = some fs ∧ linesOf fs = some lines ∧
    directOnly fs = true ∧ List.Forall₂
      (fun f b => (EndsInReturn f b ↔ fallsOff f = false) ∧ (fallsOff f = true → ∃ name, b = [.proc name, .blank]))
      (fs.flatMap withNested) (blocksOf lines) := by
  have evaluated : ∃ fs ∈ (reading {} forgetful).functions, (linesOf fs).isSome ∧ directOnly fs = true := by
    rw [forgetful, reading_ofList]
    decide +kernel
  obtain ⟨fs, read, coded, direct⟩ := evaluated
  obtain ⟨lines, hl⟩ := Option.isSome_iff_exists.1 coded
  exact ⟨fs, lines, read, hl, direct, procedures_return_iff read hl direct⟩

/-- A function with nothing in it, in a text without errors. -/
def emptyTurret : String := "funk turret() <null> \x7b \x7d"

theorem emptyTurret_not_returns : (compile emptyTurret {}).1 = [] ∧
    ∃ fs lines, (compileToCode emptyTurret {}).1.1 = some (render lines) ∧ (reading {} emptyTurret).functions = some fs ∧
      linesOf fs = some lines ∧ directOnly fs = true ∧ ∃ b ∈ blocksOf lines, ∀ f, ¬ EndsInReturn f b := by
  have evaluated : ∃ fs ∈ (reading {} emptyTurret).functions, (reading {} emptyTurret).errors = [] ∧
      (reading {} emptyTurret).fault = none ∧ check fs = .ok [] ∧ directOnly fs = true ∧
        [.proc "turret", .blank] ∈ linesOf fs := by
    rw [emptyTurret, reading_ofList]
    decide +kernel
  obtain ⟨fs, hf, errors, fault, clean, direct, hl⟩ := evaluated
  obtain ⟨accepted, compiled⟩ := compiled_of_reading hf errors fault clean hl
  refine ⟨accepted, fs, _, compiled, hf, hl, direct, [.proc "turret", .blank], by decide, fun f => not_returns_head f _⟩

end TesLang.Session
