import TesLang.Proofs.Generation.Registers
import TesLang.Proofs.Machine
import TesLang.Proofs.Scalar.Program
/-!
# Generating code for scalar programs

Code can be generated for every scalar expression and statement.  The value of an expression is left in a register that
is either a new one or that of a variable in the expression (`Draws`), and no variable gets a register on the way.  A
statement gives a register to every variable that it brings.
-/
namespace TesLang.Scalar

open Code Code.Gen Code.Generator

variable {fns params : List String}

/-! ### What stands in the places of scalar nodes -/

theorem operand_expr {e : Node} (h : isExpr fns e = true) (code : Gen (Option Reg)) : operand e code = code :=
  operand_expression (isExpression_of_isExpr h) code

theorem operand_stmt {n : Node} (h : isFiller n = false) (code : Gen (Option Reg)) : operand n code = code := by
  cases n <;> first | rfl | cases h

theorem returned_expr {e : Node} (h : isExpr fns e = true) (code : Gen (Option Reg)) : returned e code = code :=
  returned_expression (isExpression_of_isExpr h) code

def Callable (fns : List String) : Prop := ∀ f ∈ fns, Builtin.ofName? f = none

theorem plain_of_isExpr {e : Node} (h : isExpr fns e = true) : plain e = true :=
  plain_of_isExpression (isExpression_of_isExpr h)

theorem plainAll_of_areExprs {es : List Node} (h : areExprs fns es = true) : plainAll es = true :=
  plainAll_of_areExpressions (areExpressions_of_areExprs h)

mutual

theorem plain_of_isStmt : ∀ {n : Node}, isStmt fns params n = true → plain n = true
  | .assignment _ _ _, h => by
    obtain ⟨⟨x, rfl⟩, h⟩ := isStmt_assignment.1 h
    simp only [plain, plain_of_isExpr h, Bool.and_self]
  | .call name args _, h => by
    simp only [isStmt] at h
    simp only [plain]
    split at h
    · exact plainAll_of_areExprs (Bool.and_eq_true_iff.1 h).2
    · exact plainAll_of_areExprs (Bool.and_eq_true_iff.1 h).2
  | .ret _ _, h => by
    rcases isStmt_ret.1 h with rfl | h
    · rfl
    · simp only [plain, plain_of_isExpr h]
  | .branch .., h => by
    simp only [isStmt, Bool.and_eq_true] at h
    simp only [plain, plain_of_isExpr h.1.1, plain_of_isStmt h.1.2, plain_of_isStmt h.2, Bool.and_self]
  | .whileLoop .., h => by
    simp only [isStmt, Bool.and_eq_true] at h
    simp only [plain, plain_of_isExpr h.1, plain_of_isStmt h.2, Bool.and_self]
  | .doLoop .., h => by
    obtain ⟨-, hb, hc⟩ := isStmt_doLoop.1 h
    simp only [plain, plain_of_isStmt hb, plain_of_isExpr hc, Bool.and_self]
  | .forLoop .., h => by
    simp only [isStmt, Bool.and_eq_true] at h
    simp only [plain, plain_of_isExpr h.1.1.1.2, plain_of_isExpr h.1.1.2, plain_of_isStmt h.1.2, Bool.and_self]
  | .block .., h | .several _, h => by
    simp only [isStmt] at h
    simp only [plain, plainAll_of_areStmts h]
  | .declaration .., _ | .nothing, _ => rfl

theorem plainAll_of_areStmts : ∀ {ns : List Node}, areStmts fns params ns = true → plainAll ns = true
  | [], _ => rfl
  | _ :: _, h => by
    simp only [areStmts, Bool.and_eq_true] at h
    simp only [plainAll, plain_of_isStmt h.1.2, plainAll_of_areStmts h.2, Bool.and_self]

end

/-! ### Runs over single nodes

What a run over a scalar node consists of: runs over its parts, and steps between them.
-/

section
variable {s s' : Generator} {t : Option Reg} {line : Int}

theorem ran_number {v : Int} :
    Ran (visit (.number v line)) s t s' ↔ t = some s.next ∧ s' = s.draw.add (.mov s.next (.literal v)) := by
  rw [visit]
  simp only [↓ran_allocate_bind, ↓ran_emit_bind, ran_pure]

theorem ran_boolean {b : String} :
    Ran (visit (.boolean b line)) s t s' ↔ t = some s.next ∧ s' = s.draw.add (.mov s.next (.literal (truth (b = "true")))) := by
  rw [visit]
  simp only [↓ran_allocate_bind, ↓ran_emit_bind, ran_pure, truth]

theorem ran_identifier {x : String} :
    Ran (visit (.identifier x line)) s t s' ↔
      (∃ r, s.home x = some r ∧ t = some r ∧ s' = s) ∨ (s.home x = none ∧ t = some s.next ∧ s' = s.draw) := by
  rw [visit]
  simp only [↓ran_place?_bind]
  cases s.home x <;> simp [and_comm]

theorem ran_binary {left right : Node} {op : String} (hl : isExpr fns left = true) (hr : isExpr fns right = true) :
    Ran (visit (.binary left op right line)) s t s' ↔ ∃ a s₁, Ran (visit left) s a s₁ ∧ ∃ b s₂, Ran (visit right) s₁ b s₂ ∧
      t = some s₂.next ∧ s' = s₂.draw.add (.binary (.ofText op) s₂.next a b) := by
  rw [visit, operand_expr hl, operand_expr hr]
  simp only [↓ran_allocate_bind, ↓ran_emit_bind, ran_bind, ran_pure]

theorem ran_ternary {condition yes no : Node} (hc : isExpr fns condition = true) (hy : isExpr fns yes = true)
    (hn : isExpr fns no = true) :
    Ran (visit (.ternary condition yes no line)) s t s' ↔ ∃ c s₁, Ran (visit condition) s c s₁ ∧
      ∃ a s₂, Ran (visit yes) (s₁.number.number.draw.add (.jumpIfZero c ⟨"ternary_false", s₁.labels⟩)) a s₂ ∧
      ∃ b s₃, Ran (visit no) (((s₂.add (.mov s₁.next (.ofReg a))).add (.jump ⟨"ternary_end", s₁.labels + 1⟩)).add
        (.label ⟨"ternary_false", s₁.labels⟩)) b s₃ ∧ t = some s₁.next ∧
      s' = (s₃.add (.mov s₁.next (.ofReg b))).add (.label ⟨"ternary_end", s₁.labels + 1⟩) := by
  rw [visit, operand_expr hc, operand_expr hy, operand_expr hn]
  simp only [↓ran_freshLabel_bind, ↓ran_allocate_bind, ↓ran_emit_bind, ran_bind, ran_pure]
  rfl

theorem ran_scan {args : List Node} :
    Ran (visit (.call "scan" args line)) s t s' ↔ t = some s.next ∧ s' = s.draw.add (.input s.next) := by
  rw [visit]
  simp only [Builtin.ofName?, String.reduceEq, if_false, if_true]
  unfold readNumber
  simp only [↓ran_allocate_bind, ↓ran_emit_bind, ran_pure]

theorem ran_print {e : Node} (he : isExpr fns e = true) :
    Ran (visit (.call "print" [e] line)) s t s' ↔ ∃ r s₁, Ran (visit e) s r s₁ ∧ t = none ∧ s' = s₁.add (.output r) := by
  rw [visit]
  simp only [Builtin.ofName?, if_true]
  rw [visitFirst, operand_expr he]
  simp only [bind_assoc, pure_bind, writeNumber, ↓ran_emit_bind, ran_bind, ran_pure]

theorem ran_argumentRegs : ∀ (rs : List Reg) (i : Nat) (s : Generator), Ran (argumentRegs i (rs.map some)) s rs s
  | [], _, _ => ran_pure.2 ⟨rfl, rfl⟩
  | _ :: rs, i, s => ran_bind.2 ⟨rs, s, ran_argumentRegs rs (i + 1) s, ran_pure.2 ⟨rfl, rfl⟩⟩

theorem ran_arguments_cons {e : Node} {es : List Node} {ts : List (Option Reg)} (he : isExpr fns e = true) :
    Ran (visitArguments (e :: es)) s ts s' ↔ ∃ a s₁, Ran (visit e) s a s₁ ∧
      ∃ as, Ran (visitArguments es) s₁ as s' ∧ ts = a :: as := by
  rw [visitArguments, operand_expr he]
  simp only [ran_bind, ran_pure]
  constructor
  · rintro ⟨a, s₁, h₁, as, _, h₂, rfl, rfl⟩
    exact ⟨a, s₁, h₁, as, h₂, rfl⟩
  · rintro ⟨a, s₁, h₁, as, h₂, rfl⟩
    exact ⟨a, s₁, h₁, as, _, h₂, rfl, rfl⟩

theorem ran_call {name : String} {args : List Node} {rs : List Reg} {s₁ : Generator} (hn : Builtin.ofName? name = none)
    (ha : Ran (visitArguments args) s (rs.map some) s₁) :
    Ran (visit (.call name args line)) s t s' ↔ t = some s₁.next ∧ s' = s₁.draw.add (.call name s₁.next rs) := by
  rw [visit, hn]
  unfold callFunction
  rw [ha.bind_iff]
  simp only [↓ran_allocate_bind]
  rw [(ran_argumentRegs rs 0 _).bind_iff]
  simp only [↓ran_emit_bind, ran_pure]

theorem ran_declaration {x type : String} :
    Ran (visit (.declaration x type line)) s t s' ↔ t = none ∧ ((∃ r, s.home x = some r ∧ s' = s) ∨
      (s.home x = none ∧ s' = (s.settle x).add (.comment ("Declare " ++ x ++ " in " ++ s.next.text)))) := by
  rw [visit]
  unfold declare
  simp only [bind_assoc, ↓ran_place?_bind]
  cases hx : s.home x with
  | some r => simp
  | none =>
    simp only [bind_assoc, ran_bind, ran_place, hx, ran_emit, ran_pure]
    constructor
    · rintro ⟨_, _, ⟨h, -⟩ | ⟨-, rfl, rfl⟩, _, _, rfl, rfl, rfl⟩
      · cases h
      · exact ⟨rfl, .inr ⟨trivial, rfl⟩⟩
    · rintro ⟨rfl, ⟨_, h, -⟩ | ⟨-, rfl⟩⟩
      · cases h
      · exact ⟨_, _, .inr ⟨trivial, rfl, rfl⟩, ⟨⟩, _, rfl, rfl, rfl⟩

theorem ran_assignment {x : String} {value : Node} (hv : isExpr fns value = true) :
    Ran (visit (.assignment (.text x) value line)) s t s' ↔ t = none ∧ ∃ a s₁, Ran (visit value) s a s₁ ∧
      ∃ r s₂, Owns s₁ x r s₂ ∧ s' = if a = some r then s₂ else s₂.add (.mov r (.ofReg a)) := by
  rw [visit, operand_expr hv]
  simp only [ran_bind, ran_assign, ran_pure]
  constructor
  · rintro ⟨a, s₁, h₁, _, _, h₂, rfl, rfl⟩
    exact ⟨rfl, a, s₁, h₁, h₂⟩
  · rintro ⟨rfl, a, s₁, h₁, h₂⟩
    exact ⟨a, s₁, h₁, ⟨⟩, _, h₂, rfl, rfl⟩

theorem ran_ret_nothing :
    Ran (visit (.ret .nothing line)) s t s' ↔ t = none ∧ s' = (s.add (.mov .result (.literal 0))).add .ret := by
  rw [visit]
  simp only [returned, Node.isEmpty, if_true, pure_bind, ↓ran_emit_bind, ran_pure]

theorem ran_ret {value : Node} (hv : isExpr fns value = true) {r : Reg} {s₁ : Generator}
    (h : Ran (visit value) s (some r) s₁) :
    Ran (visit (.ret value line)) s t s' ↔ t = none ∧ s' = (s₁.add (.mov .result (.reg r))).add .ret := by
  rw [visit, returned_expr hv, h.bind_iff]
  simp only [↓ran_emit_bind, ran_pure]

theorem ran_branch {condition yes no : Node} (hc : isExpr fns condition = true) :
    Ran (visit (.branch condition yes no line)) s t s' ↔ ∃ c s₁, Ran (visit condition) s c s₁ ∧
      ∃ a s₂, Ran (visit yes) (s₁.number.number.add (.jumpIfZero c ⟨"else", s₁.labels⟩)) a s₂ ∧
      ∃ b s₃, Ran (visit no) ((s₂.add (.jump ⟨"endif", s₁.labels + 1⟩)).add (.label ⟨"else", s₁.labels⟩)) b s₃ ∧
      t = none ∧ s' = s₃.add (.label ⟨"endif", s₁.labels + 1⟩) := by
  rw [visit, operand_expr hc]
  simp only [↓ran_freshLabel_bind, ↓ran_emit_bind, ran_bind, ran_pure]
  rfl

theorem ran_while {condition body : Node} (hc : isExpr fns condition = true) :
    Ran (visit (.whileLoop condition body line)) s t s' ↔
      ∃ c s₁, Ran (visit condition) (s.number.number.add (.label ⟨"while_start", s.labels⟩)) c s₁ ∧
      ∃ a s₂, Ran (visit body) (s₁.add (.jumpIfZero c ⟨"while_end", s.labels + 1⟩)) a s₂ ∧
      t = none ∧ s' = (s₂.add (.jump ⟨"while_start", s.labels⟩)).add (.label ⟨"while_end", s.labels + 1⟩) := by
  rw [visit, operand_expr hc]
  simp only [↓ran_freshLabel_bind, ↓ran_emit_bind, ran_bind, ran_pure]
  rfl

theorem ran_do {body condition : Node} (hb : body ≠ .nothing) (hc : isExpr fns condition = true) :
    Ran (visit (.doLoop body condition line)) s t s' ↔
      ∃ a s₁, Ran (visit body) (s.number.add (.label ⟨"do_start", s.labels⟩)) a s₁ ∧
      ∃ c s₂, Ran (visit condition) s₁ c s₂ ∧ t = none ∧ s' = s₂.add (.jumpUnlessZero c ⟨"do_start", s.labels⟩) := by
  rw [visit, operand_expr hc, doBody_eq hb]
  simp only [↓ran_freshLabel_bind, ↓ran_emit_bind, ran_bind, ran_pure]

/-- Between `s` and `s'` stands the part of a loop over `v` up to `bound` that starts at its first label. -/
def Counts (body : Node) (v : Reg) (bound : Option Reg) (s s' : Generator) : Prop :=
  ∃ a s₁, Ran (visit body) (((s.number.number.add (.label ⟨"for_start", s.labels⟩)).draw.add
      (.binary .less s.next (some v) bound)).add (.jumpIfZero (some s.next) ⟨"for_end", s.labels + 1⟩)) a s₁ ∧
    s' = (((s₁.draw.add (.mov s₁.next (.literal 1))).add (.binary .add v (some v) (some s₁.next))).add
      (.jump ⟨"for_start", s.labels⟩)).add (.label ⟨"for_end", s.labels + 1⟩)

theorem ran_forLoop {x : String} {start stop body : Node} :
    Ran (visit (.forLoop x start stop body line)) s t s' ↔ ∃ first s₁, Ran (operand start (visit start)) s first s₁ ∧
      ∃ bound s₂, Ran (operand stop (visit stop)) s₁ bound s₂ ∧ ∃ v s₃, Ran (ownPlace x) s₂ v s₃ ∧
      t = none ∧ Counts body v bound (s₃.add (.mov v (.ofReg first))) s' := by
  rw [visit]
  unfold Counts
  simp only [↓ran_freshLabel_bind, ↓ran_allocate_bind, ↓ran_emit_bind, ran_bind, ran_pure]
  constructor
  · rintro ⟨_, _, h₁, _, _, h₂, _, _, h₃, _, _, h₄, rfl, rfl⟩
    exact ⟨_, _, h₁, _, _, h₂, _, _, h₃, rfl, _, _, h₄, rfl⟩
  · rintro ⟨_, _, h₁, _, _, h₂, _, _, h₃, rfl, _, _, h₄, rfl⟩
    exact ⟨_, _, h₁, _, _, h₂, _, _, h₃, _, _, h₄, rfl, rfl⟩

theorem ran_for {x : String} {start stop body : Node} (hs : isExpr fns start = true) (he : isExpr fns stop = true) :
    Ran (visit (.forLoop x start stop body line)) s t s' ↔ ∃ first s₁, Ran (visit start) s first s₁ ∧
      ∃ bound s₂, Ran (visit stop) s₁ bound s₂ ∧ ∃ v s₃, Ran (ownPlace x) s₂ v s₃ ∧
      t = none ∧ Counts body v bound (s₃.add (.mov v (.ofReg first))) s' := by
  rw [ran_forLoop, operand_expr hs, operand_expr he]

theorem ran_block {ns : List Node} : Ran (visit (.block ns line)) s t s' ↔ t = none ∧ Ran (visitAll ns) s () s' := by
  rw [visit]
  simp only [ran_bind, ran_pure]
  constructor
  · rintro ⟨_, _, h, ht, hs⟩
    exact ⟨ht, hs ▸ h⟩
  · rintro ⟨ht, h⟩
    exact ⟨_, _, h, ht, rfl⟩

theorem ran_several {ns : List Node} : Ran (visit (.several ns)) s t s' ↔ t = none ∧ Ran (visitAll ns) s () s' := by
  rw [visit]
  simp only [ran_bind, ran_pure]
  constructor
  · rintro ⟨_, _, h, ht, hs⟩
    exact ⟨ht, hs ▸ h⟩
  · rintro ⟨ht, h⟩
    exact ⟨_, _, h, ht, rfl⟩

theorem ran_cons {n : Node} {ns : List Node} (hn : isFiller n = false) :
    Ran (visitAll (n :: ns)) s () s' ↔ ∃ t s₁, Ran (visit n) s t s₁ ∧ Ran (visitAll ns) s₁ () s' := by
  rw [visitAll, operand_stmt hn]
  simp only [ran_bind]

theorem ran_nil : Ran (visitAll []) s () s' ↔ s' = s := by
  rw [visitAll]
  simp

end

/-! ### Expressions -/

/-- Between `s` and `s'` the value of an expression with the variables `xs` was put into `r`. -/
structure Draws (s s' : Generator) (xs : List String) (r : Reg) : Prop where
  home : s'.home = s.home
  taken : r ∈ s'.bank.taken
  origin : r ∉ s.bank.taken ∨ ∃ x ∈ xs, s.home x = some r

theorem Draws.of_free {s s₁ s' : Generator} {xs : List String} {r : Reg} (home : s'.home = s.home)
    (taken : r ∈ s'.bank.taken) (g : s.Grows s₁) (free : r ∉ s₁.bank.taken) : Draws s s' xs r :=
  ⟨home, taken, .inl fun h => free (g.taken h)⟩

mutual

/-- **The value of a scalar expression is left in a register.** -/
theorem visit_expr (hf : Callable fns) : ∀ {e : Node}, isExpr fns e = true → ∀ s : Generator,
    ∃ r s', Ran (visit e) s (some r) s' ∧ (s.Sound → Draws s s' (reads e) r)
  | .number v _, _, s => by
    refine ⟨_, _, ran_number.2 ⟨rfl, rfl⟩, fun _ => ?_⟩
    exact .of_free rfl ((s.mem_taken_draw _).2 (.inr rfl)) (.refl s) s.next_notMem
  | .boolean b _, _, s => by
    refine ⟨_, _, ran_boolean.2 ⟨rfl, rfl⟩, fun _ => ?_⟩
    exact .of_free rfl ((s.mem_taken_draw _).2 (.inr rfl)) (.refl s) s.next_notMem
  | .identifier x _, _, s => by
    cases hx : s.home x with
    | some r =>
      refine ⟨r, s, ran_identifier.2 (.inl ⟨r, hx, rfl, rfl⟩), fun hs => ?_⟩
      exact ⟨rfl, (hs.home_taken hx).1, .inr ⟨x, by simp [reads], hx⟩⟩
    | none =>
      refine ⟨_, _, ran_identifier.2 (.inr ⟨hx, rfl, rfl⟩), fun _ => ?_⟩
      exact .of_free rfl ((s.mem_taken_draw _).2 (.inr rfl)) (.refl s) s.next_notMem
  | .binary left op right _, h, s => by
    simp only [isExpr, Bool.and_eq_true] at h
    obtain ⟨⟨-, hl⟩, hr⟩ := h
    obtain ⟨a, s₁, h₁, d₁⟩ := visit_expr hf hl s
    obtain ⟨b, s₂, h₂, d₂⟩ := visit_expr hf hr s₁
    refine ⟨_, _, (ran_binary hl hr).2 ⟨_, _, h₁, _, _, h₂, rfl, rfl⟩, fun hs => ?_⟩
    obtain ⟨hs₁, g₁⟩ := visit_advances _ (plain_of_isExpr hl) _ _ _ h₁ hs
    obtain ⟨hs₂, g₂⟩ := visit_advances _ (plain_of_isExpr hr) _ _ _ h₂ hs₁
    refine .of_free ?_ ((s₂.mem_taken_draw _).2 (.inr rfl)) (g₁.trans g₂) s₂.next_notMem
    exact (d₂ hs₁).home.trans (d₁ hs).home
  | .ternary condition yes no _, h, s => by
    simp only [isExpr, Bool.and_eq_true] at h
    obtain ⟨⟨hc, hy⟩, hn⟩ := h
    obtain ⟨c, s₁, h₁, d₁⟩ := visit_expr hf hc s
    obtain ⟨a, s₂, h₂, d₂⟩ := visit_expr hf hy _
    obtain ⟨b, s₃, h₃, d₃⟩ := visit_expr hf hn _
    refine ⟨_, _, (ran_ternary hc hy hn).2 ⟨_, _, h₁, _, _, h₂, _, _, h₃, rfl, rfl⟩, fun hs => ?_⟩
    obtain ⟨hs₁, g₁⟩ := visit_advances _ (plain_of_isExpr hc) _ _ _ h₁ hs
    have hs₁' := hs₁.number.number.draw.add (.jumpIfZero (some c) ⟨"ternary_false", s₁.labels⟩)
    obtain ⟨hs₂, g₂⟩ := visit_advances _ (plain_of_isExpr hy) _ _ _ h₂ hs₁'
    have hs₂' := ((hs₂.add (.mov s₁.next (.ofReg (some a)))).add (.jump ⟨"ternary_end", s₁.labels + 1⟩)).add
      (.label ⟨"ternary_false", s₁.labels⟩)
    obtain ⟨hs₃, g₃⟩ := visit_advances _ (plain_of_isExpr hn) _ _ _ h₃ hs₂'
    refine .of_free ?_ (g₃.taken (g₂.taken ((s₁.mem_taken_draw _).2 (.inr rfl)))) g₁ s₁.next_notMem
    exact (d₃ hs₂').home.trans ((d₂ hs₁').home.trans (d₁ hs).home)
  | .call name args _, h, s => by
    simp only [isExpr] at h
    split at h
    · next hn =>
      subst hn
      refine ⟨_, _, ran_scan.2 ⟨rfl, rfl⟩, fun _ => ?_⟩
      exact .of_free rfl ((s.mem_taken_draw _).2 (.inr rfl)) (.refl s) s.next_notMem
    · rw [Bool.and_eq_true] at h
      obtain ⟨rs, s₁, h₁, d₁⟩ := visit_exprs hf h.2 s
      refine ⟨_, _, (ran_call (hf name (List.contains_iff_mem.1 h.1)) h₁).2 ⟨rfl, rfl⟩, fun hs => ?_⟩
      obtain ⟨-, g₁⟩ := visitArguments_advances _ (plainAll_of_areExprs h.2) _ _ _ h₁ hs
      exact .of_free (d₁ hs).1 ((s₁.mem_taken_draw _).2 (.inr rfl)) g₁ s₁.next_notMem

theorem visit_exprs (hf : Callable fns) : ∀ {es : List Node}, areExprs fns es = true → ∀ s : Generator,
    ∃ (rs : List Reg) (s' : Generator), Ran (visitArguments es) s (rs.map some) s' ∧
      (s.Sound → s'.home = s.home ∧ ∀ r ∈ rs, r ∈ s'.bank.taken)
  | [], _, s => by
    refine ⟨[], s, ?_, fun _ => ⟨rfl, fun r hr => by cases hr⟩⟩
    rw [visitArguments]
    exact ran_pure.2 ⟨rfl, rfl⟩
  | e :: es, h, s => by
    simp only [areExprs, Bool.and_eq_true] at h
    obtain ⟨r, s₁, h₁, d₁⟩ := visit_expr hf h.1 s
    obtain ⟨rs, s₂, h₂, d₂⟩ := visit_exprs hf h.2 s₁
    refine ⟨r :: rs, s₂, (ran_arguments_cons h.1).2 ⟨_, _, h₁, _, h₂, rfl⟩, fun hs => ?_⟩
    obtain ⟨hs₁, -⟩ := visit_advances _ (plain_of_isExpr h.1) _ _ _ h₁ hs
    obtain ⟨-, g₂⟩ := visitArguments_advances _ (plainAll_of_areExprs h.2) _ _ _ h₂ hs₁
    refine ⟨(d₂ hs₁).1.trans (d₁ hs).home, fun q hq => ?_⟩
    rcases List.mem_cons.1 hq with rfl | hq
    · exact g₂.taken (d₁ hs).taken
    · exact (d₂ hs₁).2 q hq

end

theorem visit_expr_draws (hf : Callable fns) {e : Node} (h : isExpr fns e = true) {s s' : Generator} {t : Option Reg}
    (hr : Ran (visit e) s t s') (hs : s.Sound) : ∃ r, t = some r ∧ Draws s s' (reads e) r := by
  obtain ⟨r, s'', hr', hd⟩ := visit_expr hf h s
  obtain ⟨rfl, rfl⟩ := hr.unique hr'
  exact ⟨r, rfl, hd hs⟩

/-! ### Statements -/

theorem exists_ownPlace (x : String) (s : Generator) : ∃ r s', Ran (ownPlace x) s r s' := by
  cases h : s.vars.find? x with
  | some r => exact ⟨r, s.draw, ran_ownPlace.2 (.inl ⟨h, rfl⟩)⟩
  | none => exact ⟨s.next, s.settle x, ran_ownPlace.2 (.inr ⟨h, rfl, rfl⟩)⟩

theorem exists_owns (x : String) (s : Generator) : ∃ r s', Owns s x r s' := by
  cases h : s.params.find? x with
  | some r => exact ⟨r, s, .inl ⟨h, rfl⟩⟩
  | none =>
    obtain ⟨r, s', hr⟩ := exists_ownPlace x s
    exact ⟨r, s', .inr ⟨h, hr⟩⟩

mutual

/-- **Code can be generated for every scalar statement.** -/
theorem visit_stmt (hf : Callable fns) : ∀ {n : Node}, isStmt fns params n = true → ∀ s : Generator,
    ∃ t s', Ran (visit n) s t s'
  | .declaration x _ _, _, s => by
    cases hx : s.home x with
    | some r => exact ⟨_, _, ran_declaration.2 ⟨rfl, .inl ⟨r, hx, rfl⟩⟩⟩
    | none => exact ⟨_, _, ran_declaration.2 ⟨rfl, .inr ⟨hx, rfl⟩⟩⟩
  | .assignment _ _ _, h, s => by
    obtain ⟨⟨x, rfl⟩, h⟩ := isStmt_assignment.1 h
    obtain ⟨a, s₁, h₁, -⟩ := visit_expr hf h s
    obtain ⟨r, s₂, h₂⟩ := exists_owns x s₁
    exact ⟨_, _, (ran_assignment h).2 ⟨rfl, _, _, h₁, _, _, h₂, rfl⟩⟩
  | .call name args _, h, s => by
    simp only [isStmt] at h
    split at h
    · next hn =>
      subst hn
      rw [Bool.and_eq_true] at h
      obtain ⟨e, rfl⟩ := List.length_eq_one_iff.1 (beq_iff_eq.1 h.1)
      have he : isExpr fns e = true := by simpa [areExprs] using h.2
      obtain ⟨r, s₁, h₁, -⟩ := visit_expr hf he s
      exact ⟨_, _, (ran_print he).2 ⟨_, _, h₁, rfl, rfl⟩⟩
    · rw [Bool.and_eq_true] at h
      obtain ⟨rs, s₁, h₁, -⟩ := visit_exprs hf h.2 s
      exact ⟨_, _, (ran_call (hf name (List.contains_iff_mem.1 h.1)) h₁).2 ⟨rfl, rfl⟩⟩
  | .ret _ _, h, s => by
    rcases isStmt_ret.1 h with rfl | h
    · exact ⟨_, _, ran_ret_nothing.2 ⟨rfl, rfl⟩⟩
    · obtain ⟨r, s₁, h₁, -⟩ := visit_expr hf h s
      exact ⟨_, _, (ran_ret h h₁).2 ⟨rfl, rfl⟩⟩
  | .branch _ _ _ _, h, s => by
    simp only [isStmt, Bool.and_eq_true] at h
    obtain ⟨c, s₁, h₁, -⟩ := visit_expr hf h.1.1 s
    obtain ⟨a, s₂, h₂⟩ := visit_stmt hf h.1.2 _
    obtain ⟨b, s₃, h₃⟩ := visit_stmt hf h.2 _
    exact ⟨_, _, (ran_branch h.1.1).2 ⟨_, _, h₁, _, _, h₂, _, _, h₃, rfl, rfl⟩⟩
  | .whileLoop _ _ _, h, s => by
    simp only [isStmt, Bool.and_eq_true] at h
    obtain ⟨c, s₁, h₁, -⟩ := visit_expr hf h.1 _
    obtain ⟨a, s₂, h₂⟩ := visit_stmt hf h.2 _
    exact ⟨_, _, (ran_while h.1).2 ⟨_, _, h₁, _, _, h₂, rfl, rfl⟩⟩
  | .doLoop _ _ _, h, s => by
    obtain ⟨hb, hs, hc⟩ := isStmt_doLoop.1 h
    obtain ⟨a, s₁, h₁⟩ := visit_stmt hf hs _
    obtain ⟨c, s₂, h₂, -⟩ := visit_expr hf hc s₁
    exact ⟨_, _, (ran_do hb hc).2 ⟨_, _, h₁, _, _, h₂, rfl, rfl⟩⟩
  | .forLoop x _ _ _ _, h, s => by
    simp only [isStmt, Bool.and_eq_true] at h
    obtain ⟨⟨⟨⟨-, hs⟩, he⟩, hb⟩, -⟩ := h
    obtain ⟨first, s₁, h₁, -⟩ := visit_expr hf hs s
    obtain ⟨bound, s₂, h₂, -⟩ := visit_expr hf he s₁
    obtain ⟨v, s₃, h₃⟩ := exists_ownPlace x s₂
    obtain ⟨a, s₄, h₄⟩ := visit_stmt hf hb _
    exact ⟨_, _, (ran_for hs he).2 ⟨_, _, h₁, _, _, h₂, _, _, h₃, rfl, _, _, h₄, rfl⟩⟩
  | .block _ _, h, s => by
    obtain ⟨s', h⟩ := visit_stmts hf h s
    exact ⟨_, _, ran_block.2 ⟨rfl, h⟩⟩
  | .several _, h, s => by
    obtain ⟨s', h⟩ := visit_stmts hf h s
    exact ⟨_, _, ran_several.2 ⟨rfl, h⟩⟩
  | .nothing, _, s => by
    rw [visit]
    exact ⟨_, _, ran_pure.2 ⟨rfl, rfl⟩⟩

theorem visit_stmts (hf : Callable fns) : ∀ {ns : List Node}, areStmts fns params ns = true → ∀ s : Generator,
    ∃ s', Ran (visitAll ns) s () s'
  | [], _, s => ⟨s, ran_nil.2 rfl⟩
  | n :: ns, h, s => by
    simp only [areStmts, Bool.and_eq_true, Bool.not_eq_true'] at h
    obtain ⟨t, s₁, h₁⟩ := visit_stmt hf h.1.2 s
    obtain ⟨s', h₂⟩ := visit_stmts hf h.2 s₁
    exact ⟨s', (ran_cons h.1.1).2 ⟨_, _, h₁, h₂⟩⟩

end

/-- All of the given variables have registers. -/
def Housed (s : Generator) (xs : List String) : Prop := ∀ x ∈ xs, ∃ r, s.home x = some r

namespace Housed

variable {s s' : Generator} {xs ys : List String}

theorem mono (h : Housed s xs) (g : s.Grows s') : Housed s' xs := fun x hx =>
  (h x hx).imp fun _ => g.keep

theorem of_home (h : Housed s xs) (e : s'.home = s.home) : Housed s' xs := fun x hx => e ▸ h x hx

theorem append (h : Housed s xs) (h' : Housed s ys) : Housed s (xs ++ ys) := fun x hx =>
  (List.mem_append.1 hx).elim (h x) (h' x)

theorem nil : Housed s [] := fun x hx => by cases hx

theorem cons {x : String} {r : Reg} (hx : s.home x = some r) (h : Housed s xs) : Housed s (x :: xs) := by
  intro y hy
  rcases List.mem_cons.1 hy with rfl | hy
  · exact ⟨r, hx⟩
  · exact h y hy

end Housed

theorem housed_ownPlace {s s' : Generator} {x : String} {r : Reg} (h : Ran (ownPlace x) s r s') : Housed s' [x] := by
  intro y hy
  obtain rfl := List.mem_singleton.1 hy
  cases hp : s.params.find? y with
  | some q => rcases ran_ownPlace.1 h with ⟨-, rfl⟩ | ⟨-, -, rfl⟩ <;> exact ⟨q, home_eq_some.2 (.inl hp)⟩
  | none => exact ⟨r, Owns.home (.inr ⟨hp, h⟩)⟩

mutual

/-- **Every variable that a statement brings has a register behind it.** -/
theorem visit_brings (hf : Callable fns) : ∀ {n : Node}, isStmt fns params n = true →
    ∀ ⦃s s' : Generator⦄ ⦃t : Option Reg⦄, Ran (visit n) s t s' → s.Sound → Housed s' (brings n)
  | .declaration x _ _, _ => by
    intro s s' t hr hs
    obtain ⟨-, ⟨r, hx, rfl⟩ | ⟨hx, rfl⟩⟩ := ran_declaration.1 hr
    · exact .cons hx .nil
    · have hn : (s.settle x).home x = some s.next := by
        rw [home_settle, if_pos rfl, (Option.or_eq_none_iff.1 hx).1]
        rfl
      exact .cons (home_add _ _ ▸ hn) .nil
  | .assignment _ _ _, h => by
    intro s s' t hr hs
    obtain ⟨⟨x, rfl⟩, h⟩ := isStmt_assignment.1 h
    obtain ⟨-, a, s₁, -, r, s₂, ho, rfl⟩ := (ran_assignment h).1 hr
    simp only [brings]
    split
    · exact .cons ho.home .nil
    · exact .cons (r := r) ho.home .nil
  | .branch condition yes no _, h => by
    intro s s' t hr hs
    simp only [isStmt, Bool.and_eq_true] at h
    obtain ⟨⟨hc, hy⟩, hn⟩ := h
    obtain ⟨c, s₁, h₁, a, s₂, h₂, b, s₃, h₃, -, rfl⟩ := (ran_branch hc).1 hr
    obtain ⟨hs₁, -⟩ := visit_advances _ (plain_of_isExpr hc) _ _ _ h₁ hs
    obtain ⟨hs₂, -⟩ := visit_advances _ (plain_of_isStmt hy) _ _ _ h₂ (hs₁.number.number.add _)
    obtain ⟨-, g₃⟩ := visit_advances _ (plain_of_isStmt hn) _ _ _ h₃ ((hs₂.add _).add _)
    have by' := visit_brings hf hy h₂ (hs₁.number.number.add _)
    have bn := visit_brings hf hn h₃ ((hs₂.add _).add _)
    simp only [brings]
    exact .append (by'.mono (g₃.of_add.of_add.trans (Grows.refl _).of_add)) bn
  | .whileLoop condition body _, h => by
    intro s s' t hr hs
    simp only [isStmt, Bool.and_eq_true] at h
    obtain ⟨c, s₁, h₁, a, s₂, h₂, -, rfl⟩ := (ran_while h.1).1 hr
    obtain ⟨hs₁, -⟩ := visit_advances _ (plain_of_isExpr h.1) _ _ _ h₁ (hs.number.number.add _)
    simp only [brings]
    exact (visit_brings hf h.2 h₂ (hs₁.add _)).of_home rfl
  | .doLoop body condition _, h => by
    intro s s' t hr hs
    obtain ⟨hn, hb, hc⟩ := isStmt_doLoop.1 h
    obtain ⟨a, s₁, h₁, c, s₂, h₂, -, rfl⟩ := (ran_do hn hc).1 hr
    obtain ⟨hs₁, -⟩ := visit_advances _ (plain_of_isStmt hb) _ _ _ h₁ (hs.number.add _)
    obtain ⟨-, g₂⟩ := visit_advances _ (plain_of_isExpr hc) _ _ _ h₂ hs₁
    exact (visit_brings hf hb h₁ (hs.number.add _)).mono (g₂.trans (Grows.refl _).of_add)
  | .forLoop x start stop body _, h => by
    intro s s' t hr hs
    simp only [isStmt, Bool.and_eq_true] at h
    obtain ⟨⟨⟨⟨-, hst⟩, he⟩, hb⟩, -⟩ := h
    obtain ⟨first, s₁, h₁, bound, s₂, h₂, v, s₃, h₃, -, a, s₄, h₄, rfl⟩ := (ran_for hst he).1 hr
    obtain ⟨hs₁, -⟩ := visit_advances _ (plain_of_isExpr hst) _ _ _ h₁ hs
    obtain ⟨hs₂, -⟩ := visit_advances _ (plain_of_isExpr he) _ _ _ h₂ hs₁
    obtain ⟨hs₃, -⟩ := Advancing.ownPlace x _ _ _ h₃ hs₂
    have hb' := visit_brings hf hb h₄ ((((hs₃.add _).number.number.add _).draw.add _).add _)
    obtain ⟨-, g₄⟩ := visit_advances _ (plain_of_isStmt hb) _ _ _ h₄ ((((hs₃.add _).number.number.add _).draw.add _).add _)
    have hx := (housed_ownPlace h₃).mono g₄.of_add.of_add.of_draw.of_add.of_number.of_number.of_add
    simp only [brings]
    exact (hx.append hb').of_home rfl
  | .block _ _, h => by
    intro s s' t hr hs
    obtain ⟨-, hr⟩ := ran_block.1 hr
    simp only [brings]
    exact visit_bringsAll hf h hr hs
  | .several _, h => by
    intro s s' t hr hs
    obtain ⟨-, hr⟩ := ran_several.1 hr
    simp only [brings]
    exact visit_bringsAll hf h hr hs
  | .call .., _ | .ret .., _ | .nothing, _ => fun _ _ _ _ _ => .nil

theorem visit_bringsAll (hf : Callable fns) : ∀ {ns : List Node}, areStmts fns params ns = true →
    ∀ ⦃s s' : Generator⦄, Ran (visitAll ns) s () s' → s.Sound → Housed s' (bringsAll ns)
  | [], _ => fun _ _ _ _ => .nil
  | n :: ns, h => by
    intro s s' hr hs
    simp only [areStmts, Bool.and_eq_true, Bool.not_eq_true'] at h
    obtain ⟨t, s₁, h₁, h₂⟩ := (ran_cons h.1.1).1 hr
    obtain ⟨hs₁, -⟩ := visit_advances _ (plain_of_isStmt h.1.2) _ _ _ h₁ hs
    obtain ⟨-, g₂⟩ := visitAll_advances _ (plainAll_of_areStmts h.2) _ _ _ h₂ hs₁
    simp only [bringsAll]
    exact .append ((visit_brings hf h.1.2 h₁ hs).mono g₂) (visit_bringsAll hf h.2 h₂ hs₁)

end

end TesLang.Scalar
