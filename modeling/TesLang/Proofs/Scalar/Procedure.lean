import TesLang.Proofs.Generation.Closing
import TesLang.Proofs.Scalar.Statement
/-!
# Procedures of scalar programs

A procedure finds its arguments in the registers of its parameters, and returns where the function does.  At its end it
returns as well: a `ret` is left out there only behind a `return` that execution cannot get past (`visit_stmt_ended`).
With that, calls do what functions mean (`call_step`), which closes the induction (`simulates`).
-/
namespace TesLang.Scalar

open Code Code.Gen Code.Generator Code.Machine

variable {div : Int → Int → Option Int} {fs : List Node} {fns params : List String}

/-! ### The last line of a procedure -/

def Ended (s : Generator) : Prop := s.code.back?.any endsInRet = true

@[simp] theorem ended_add (s : Generator) (l : Line) : Ended (s.add l) ↔ endsInRet l = true := by
  unfold Ended
  simp

theorem not_ended_add {s : Generator} {l : Line} (h : l.isInstruction = true) : ¬ Ended (s.add l) := by
  rw [ended_add, endsInRet_of_isInstruction h]
  exact Bool.false_ne_true

theorem visit_expr_ended (hf : Callable fns) {e : Node} {s s' : Generator} {t : Option Reg} (h : isExpr fns e = true)
    (hr : Ran (visit e) s t s') (ended : Ended s') : Ended s := by
  cases e with
  | number v _ =>
    obtain ⟨-, rfl⟩ := ran_number.1 hr
    exact (not_ended_add rfl ended).elim
  | boolean b _ =>
    obtain ⟨-, rfl⟩ := ran_boolean.1 hr
    exact (not_ended_add rfl ended).elim
  | identifier x _ =>
    rcases ran_identifier.1 hr with ⟨_, -, -, rfl⟩ | ⟨-, -, rfl⟩
    · exact ended
    · exact ended
  | binary left op right _ =>
    simp only [isExpr, Bool.and_eq_true] at h
    obtain ⟨a, s₁, -, b, s₂, -, -, rfl⟩ := (ran_binary h.1.2 h.2).1 hr
    exact (not_ended_add rfl ended).elim
  | ternary condition yes no _ =>
    simp only [isExpr, Bool.and_eq_true] at h
    obtain ⟨c, s₁, -, a, s₂, -, b, s₃, -, -, rfl⟩ := (ran_ternary h.1.1 h.1.2 h.2).1 hr
    exact (not_ended_add rfl ended).elim
  | call name args _ =>
    simp only [isExpr] at h
    split at h
    · next hn =>
      subst hn
      obtain ⟨-, rfl⟩ := ran_scan.1 hr
      exact (not_ended_add rfl ended).elim
    · rw [Bool.and_eq_true] at h
      obtain ⟨rs, s₁, h₁, -⟩ := visit_exprs hf h.2 s
      obtain ⟨-, rfl⟩ := (ran_call (hf name (List.contains_iff_mem.1 h.1)) h₁).1 hr
      exact (not_ended_add rfl ended).elim
  | _ => cases h

variable (div fs) in
def Stops (node : Node) : Prop := ∀ n known ρ w ρ' w' p, exec div fs n known ρ node w ≠ some (.next ρ', w', p)

variable (div fs) in
def StopsAll (nodes : List Node) : Prop :=
  ∀ n known ρ w ρ' w' p, execAll div fs n known ρ nodes w ≠ some (.next ρ', w', p)

theorem stops_ret {value : Node} {line : Int} (h : value = .nothing ∨ isExpr fns value = true) :
    Stops div fs (.ret value line) := by
  intro n known ρ w ρ' w' p he
  cases n with
  | zero => cases he
  | succ n =>
    rcases h with rfl | h
    · cases he
    · have he : ((eval div fs n known ρ value w).andThen fun v w => some (Outcome.returned v, w, [])) = some (.next ρ', w', p) := by
        cases value <;> first | exact he | cases h
      obtain ⟨_, _, _, -, _, e, -⟩ := Result.andThen_eq_some.1 he
      cases e

theorem StopsAll.block {ss : List Node} {line : Int} (h : StopsAll div fs ss) : Stops div fs (.block ss line)
  | 0, _, _, _, _, _, _, he => by cases he
  | n + 1, _, _, _, _, _, _, he => h n _ _ _ _ _ _ (by simpa only [exec] using he)

theorem StopsAll.several {ss : List Node} (h : StopsAll div fs ss) : Stops div fs (.several ss)
  | 0, _, _, _, _, _, _, he => by cases he
  | n + 1, _, _, _, _, _, _, he => h n _ _ _ _ _ _ (by simpa only [exec] using he)

theorem stopsAll_cons {s : Node} {ss : List Node} (h : Stops div fs s ∨ StopsAll div fs ss) : StopsAll div fs (s :: ss) := by
  intro n known ρ w ρ' w' p he
  cases n with
  | zero => cases he
  | succ n =>
    simp only [execAll, Result.andThen_eq_some] at he
    obtain ⟨o, w₁, _, e₁, _, e₂, -⟩ := he
    cases o with
    | returned v => cases e₂
    | next ρ₁ => exact h.elim (fun h => h _ _ _ _ _ _ _ e₁) fun h => h _ _ _ _ _ _ _ e₂

mutual

/-- **Where the code of a statement ends in `ret`, execution does not get past the statement**, unless it has no code and
the line before it ends so. -/
theorem visit_stmt_ended (hf : Callable fns) : ∀ {node : Node}, isStmt fns params node = true →
    ∀ ⦃s s' : Generator⦄ ⦃t : Option Reg⦄, Ran (visit node) s t s' → Ended s' → Ended s ∨ Stops div fs node
  | .declaration x _ _, _ => by
    intro s s' t hr ended
    obtain ⟨-, ⟨r, -, rfl⟩ | ⟨-, rfl⟩⟩ := ran_declaration.1 hr
    · exact .inl ended
    · rw [ended_add, endsInRet_comment (.append _ (.reg _))] at ended
      cases ended
  | .assignment _ _ _, h => by
    intro s s' t hr ended
    obtain ⟨⟨x, rfl⟩, h⟩ := isStmt_assignment.1 h
    obtain ⟨-, a, s₁, h₁, r, s₂, ho, rfl⟩ := (ran_assignment h).1 hr
    split at ended
    · refine .inl (visit_expr_ended hf h h₁ ?_)
      rwa [Ended, ← ho.code]
    · exact (not_ended_add rfl ended).elim
  | .call name args _, h => by
    intro s s' t hr ended
    simp only [isStmt] at h
    split at h
    · next hn =>
      subst hn
      rw [Bool.and_eq_true] at h
      obtain ⟨e, rfl⟩ := List.length_eq_one_iff.1 (beq_iff_eq.1 h.1)
      have he : isExpr fns e = true := by simpa [areExprs] using h.2
      obtain ⟨r, s₁, -, -, rfl⟩ := (ran_print he).1 hr
      exact (not_ended_add rfl ended).elim
    · rw [Bool.and_eq_true] at h
      obtain ⟨rs, s₁, h₁, -⟩ := visit_exprs hf h.2 s
      obtain ⟨-, rfl⟩ := (ran_call (hf name (List.contains_iff_mem.1 h.1)) h₁).1 hr
      exact (not_ended_add rfl ended).elim
  | .ret _ _, h => fun _ _ _ _ _ => .inr (stops_ret (isStmt_ret.1 h))
  | .branch _ _ _ _, h => by
    intro s s' t hr ended
    simp only [isStmt, Bool.and_eq_true] at h
    obtain ⟨c, s₁, -, a, s₂, -, b, s₃, -, -, rfl⟩ := (ran_branch h.1.1).1 hr
    exact (not_ended_add rfl ended).elim
  | .whileLoop _ _ _, h => by
    intro s s' t hr ended
    simp only [isStmt, Bool.and_eq_true] at h
    obtain ⟨c, s₁, -, a, s₂, -, -, rfl⟩ := (ran_while h.1).1 hr
    exact (not_ended_add rfl ended).elim
  | .doLoop _ _ _, h => by
    intro s s' t hr ended
    obtain ⟨hb, -, hc⟩ := isStmt_doLoop.1 h
    obtain ⟨a, s₁, -, c, s₂, -, -, rfl⟩ := (ran_do hb hc).1 hr
    exact (not_ended_add rfl ended).elim
  | .forLoop _ _ _ _ _, h => by
    intro s s' t hr ended
    simp only [isStmt, Bool.and_eq_true] at h
    obtain ⟨_, _, -, _, _, -, _, _, -, -, _, _, -, rfl⟩ := (ran_for h.1.1.1.2 h.1.1.2).1 hr
    exact (not_ended_add rfl ended).elim
  | .block _ _, h => by
    intro s s' t hr ended
    exact (visit_stmts_ended hf h (ran_block.1 hr).2 ended).imp_right StopsAll.block
  | .several _, h => by
    intro s s' t hr ended
    exact (visit_stmts_ended hf h (ran_several.1 hr).2 ended).imp_right StopsAll.several
  | .nothing, _ => by
    intro s s' t hr ended
    rw [visit] at hr
    obtain ⟨-, rfl⟩ := ran_pure.1 hr
    exact .inl ended

theorem visit_stmts_ended (hf : Callable fns) : ∀ {nodes : List Node}, areStmts fns params nodes = true →
    ∀ ⦃s s' : Generator⦄, Ran (visitAll nodes) s () s' → Ended s' → Ended s ∨ StopsAll div fs nodes
  | [], _ => by
    intro s s' hr ended
    obtain rfl := ran_nil.1 hr
    exact .inl ended
  | n :: ns, h => by
    intro s s' hr ended
    simp only [areStmts, Bool.and_eq_true, Bool.not_eq_true'] at h
    obtain ⟨t, s₁, h₁, h₂⟩ := (ran_cons h.1.1).1 hr
    rcases visit_stmts_ended hf h.2 h₂ ended with ended | stops
    · exact (visit_stmt_ended hf h.1.2 h₁ ended).imp_right fun h => stopsAll_cons (.inl h)
    · exact .inr (stopsAll_cons (.inr stops))

end

/-! ### The registers of parameters -/

def paramReg (ps : List String) (i : Nat) (x : String) : Option Reg := ((ps.zipIdx i).lookup x).map fun k => ⟨k⟩

theorem paramReg_cons (p : String) (ps : List String) (i : Nat) (x : String) :
    paramReg (p :: ps) i x = if p = x then some ⟨i⟩ else paramReg ps (i + 1) x := by
  unfold paramReg
  rw [List.zipIdx_cons, List.lookup_cons]
  by_cases h : p = x
  · subst h
    simp
  · rw [if_neg h, beq_eq_false_iff_ne.2 fun h' => h h'.symm]

theorem paramReg_of_notMem : ∀ {ps : List String} {x : String} (i : Nat), x ∉ ps → paramReg ps i x = none
  | [], _, _, _ => rfl
  | p :: ps, x, i, h => by
    have hne : p ≠ x := fun e => h (e ▸ List.mem_cons_self)
    rw [paramReg_cons, if_neg hne]
    exact paramReg_of_notMem (i + 1) fun hm => h (List.mem_cons_of_mem _ hm)

theorem paramReg_of_mem : ∀ {ps : List String} {x : String} (i : Nat), x ∈ ps → ∃ r, paramReg ps i x = some r
  | p :: ps, x, i, h => by
    rw [paramReg_cons]
    split
    · exact ⟨_, rfl⟩
    · next hn => exact paramReg_of_mem (i + 1) ((List.mem_cons.1 h).resolve_left fun e => hn e.symm)

theorem passed_paramReg : ∀ (ps : List String) (args before : List Int) {x : String} {v : Int},
    (ps.zip args).lookup x = some v →
      ∃ r, paramReg ps (before.length + 1) x = some r ∧ passed (before ++ args) r = some v
  | [], _, _, _, _, h => by cases h
  | _ :: _, [], _, _, _, h => by cases h
  | p :: ps, a :: args, before, x, v, h => by
    rw [List.zip_cons_cons, List.lookup_cons] at h
    rw [paramReg_cons]
    by_cases hx : p = x
    · subst hx
      rw [beq_self_eq_true] at h
      cases h
      refine ⟨_, if_pos rfl, ?_⟩
      have positive : ¬ ((before.length + 1 : Nat) : Int) ≤ 0 := by omega
      unfold passed
      rw [if_neg positive]
      simp
    · rw [beq_eq_false_iff_ne.2 fun h' => hx h'.symm] at h
      rw [if_neg hx]
      have := passed_paramReg ps args (before ++ [a]) h
      rwa [List.length_append, List.append_assoc] at this

theorem placeParams_spec : ∀ (ps : List Node) (i : Nat) (s : Generator), ps.all isParam = true →
    (ps.filterMap Node.name?).Nodup → 0 < i → s.Sound → s.vars = [] → (∀ q ∈ s.bank.taken, q.index < i) →
    ∃ texts s', Ran (placeParams i ps) s texts s' ∧ s'.code = s.code ∧ s'.Sound ∧
      (∀ x, s'.params.find? x = (paramReg (ps.filterMap Node.name?) i x).or (s.params.find? x)) ∧
      texts.length = ps.length ∧ ∀ t ∈ texts, Unclosing t
  | [], i, s, _, _, _, hs, _, _ => ⟨[], s, ran_pure.2 ⟨rfl, rfl⟩, rfl, hs, fun _ => rfl, rfl, fun _ h => by cases h⟩
  | p :: ps, i, s, h, nodup, hi, hs, hv, below => by
    rw [List.all_cons, Bool.and_eq_true] at h
    obtain ⟨hp, h⟩ := h
    cases p with
    | parameter name type line =>
      rw [List.filterMap_cons_some (show Node.name? (.parameter name type line) = some name from rfl)] at nodup ⊢
      obtain ⟨hn, nodup⟩ := List.nodup_cons.1 nodup
      have below' : ∀ q ∈ (bindParam s name i).bank.taken, q.index < (i + 1 : Nat) := by
        intro q hq
        rcases mem_taken_bindParam.1 hq with hq | rfl
        · have := below q hq
          omega
        · show (i : Int) < _
          omega
      obtain ⟨texts, s', hr, hc, hs', hf, hl, ht⟩ := placeParams_spec ps (i + 1) (bindParam s name i) h nodup (by omega)
        (sound_bindParam hs hi below) hv below'
      refine ⟨(name ++ " => " ++ (⟨i⟩ : Reg).text) :: texts, s', ?_, hc, hs', fun x => ?_, by simp [hl], ?_⟩
      · unfold placeParams
        simp only [Node.name?, ran_bind, ran_modify, ran_pure]
        exact ⟨⟨⟩, _, rfl, _, _, hr, rfl, rfl⟩
      · rw [hf x, paramReg_cons, bindParam, Bindings.find?_insert]
        by_cases hx : name = x
        · subst hx
          rw [if_pos rfl, if_pos rfl, paramReg_of_notMem _ hn]
          rfl
        · rw [if_neg hx, if_neg hx]
      · intro t h
        rcases List.mem_cons.1 h with rfl | h
        · exact .append _ (.reg _)
        · exact ht t h
    | _ => cases hp

structure Opened (ps : List String) (s : Generator) : Prop where
  sound : s.Sound
  params : ∀ x, s.params.find? x = paramReg ps 1 x
  not_ended : ¬ Ended s

/-- **A procedure starts with its head** and gives its parameters the registers from 1 on. -/
theorem openProc_spec {name : String} {params : Node} (hp : areParams params = true)
    (hn : endsInRet (.proc name) = false) (s : Generator) : ∃ s₁ s₀, Ran (openProc name params) s () s₀ ∧
      s₁.code = (s.add (.proc name)).code ∧ (s₀ = s₁ ∨ ∃ text, s₀ = s₁.add (.comment text)) ∧
      Opened (paramNames params) s₀ := by
  cases params with
  | several ps =>
    simp only [areParams, Bool.and_eq_true, decide_eq_true_eq] at hp
    let start : Generator := ({ s with function := some name, vars := [], params := [], bank := s.bank.clear } :
      Generator).add (.proc name)
    have sound : start.Sound := by
      refine ⟨List.mem_cons_self, ?_, ?_, ?_, ?_, ?_⟩
      all_goals
        intros
        contradiction
    have below : ∀ q ∈ start.bank.taken, q.index < (1 : Nat) := by
      intro q hq
      obtain rfl := List.mem_singleton.1 hq
      decide
    have opening : ∀ s₀, Ran (placeParameters (.several ps)) start () s₀ → Ran (openProc name (.several ps)) s () s₀ := by
      intro s₀ h
      unfold openProc
      simp only [ran_bind, ran_modify, ran_emit]
      exact ⟨⟨⟩, _, rfl, ⟨⟩, _, rfl, h⟩
    cases ps with
    | nil =>
      refine ⟨start, start, opening _ (ran_pure.2 ⟨rfl, rfl⟩), rfl, .inl rfl, sound, fun _ => rfl, ?_⟩
      rw [ended_add, hn]
      exact Bool.false_ne_true
    | cons p ps =>
      obtain ⟨texts, s₁, hr, hc, hs, hf, hl, ht⟩ := placeParams_spec (p :: ps) 1 start hp.1 hp.2 (by decide) sound rfl below
      have hne : texts ≠ [] := fun h => by rw [h] at hl; cases hl
      refine ⟨s₁, s₁.add (.comment ("Parameters: " ++ ", ".intercalate texts)), opening _ ?_, hc, .inr ⟨_, rfl⟩, hs.add _,
        fun x => ?_, ?_⟩
      · unfold placeParameters
        simp only [Node.isEmpty, List.isEmpty_cons, Bool.false_eq_true, if_false, pure_bind, ran_bind, ran_emit]
        exact ⟨_, _, hr, rfl⟩
      · exact (hf x).trans (Option.or_none ..)
      · rw [ended_add, endsInRet_comment (.append _ (.intercalate hne ht))]
        exact Bool.false_ne_true
  | _ => cases hp

theorem ran_closeProc {returnType : String} {s s' : Generator} : Ran (closeProc returnType) s () s' ↔
    (Ended s ∧ s' = s.add .blank) ∨ (¬ Ended s ∧ returnType = "null" ∧
      s' = ((s.add (.mov .result (.literal 0))).add .ret).add .blank) ∨
      (¬ Ended s ∧ returnType ≠ "null" ∧ s' = (s.add .ret).add .blank) := by
  unfold closeProc Ended
  rw [(ran_get.2 ⟨rfl, rfl⟩ : Ran get s s s).bind_iff]
  dsimp only
  cases s.code.back?.any endsInRet with
  | true => simp
  | false =>
    by_cases h : returnType = "null"
    · simp [h]
    · simp [h]

theorem exists_closeProc (returnType : String) (s : Generator) : ∃ s', Ran (closeProc returnType) s () s' := by
  by_cases he : Ended s
  · exact ⟨_, ran_closeProc.2 (.inl ⟨he, rfl⟩)⟩
  · by_cases hn : returnType = "null"
    · exact ⟨_, ran_closeProc.2 (.inr (.inl ⟨he, hn, rfl⟩))⟩
    · exact ⟨_, ran_closeProc.2 (.inr (.inr ⟨he, hn, rfl⟩))⟩

theorem visitOwn_iff : ∀ {ns : List Node}, areStmts fns params ns = true → ∀ {s s' : Generator},
    Ran (visitOwn ns) s () s' ↔ Ran (visitAll ns) s () s'
  | [], _, s, s' => by rw [visitOwn, visitAll]
  | n :: ns, h, s, s' => by
    simp only [areStmts, Bool.and_eq_true, Bool.not_eq_true'] at h
    rw [ran_cons h.1.1, visitOwn, isFunction_of_isStmt h.1.2, operand_stmt h.1.1]
    simp only [Bool.not_false, if_true, ran_bind, ran_discard]
    constructor
    · rintro ⟨_, s₁, ⟨t, h₁⟩, h₂⟩
      exact ⟨t, s₁, h₁, (visitOwn_iff h.2).1 h₂⟩
    · rintro ⟨t, s₁, h₁, h₂⟩
      exact ⟨⟨⟩, s₁, ⟨t, h₁⟩, (visitOwn_iff h.2).2 h₂⟩

theorem visit_function (name returnType : String) (ps : Node) {body : Node} (line : Int)
    (h : isStmt fns params body = true) : ∃ code, visit (.function name ps returnType body line) = procedure name ps returnType code ∧
      ∀ s s', Ran code s () s' ↔ ∃ t, Ran (visit body) s t s' := by
  cases body with
  | several ns =>
    simp only [isStmt] at h
    refine ⟨visitOwn ns, by rw [visit], fun s s' => ?_⟩
    rw [visitOwn_iff h]
    simp [ran_several]
  | block ns _ =>
    simp only [isStmt] at h
    refine ⟨visitOwn ns, by rw [visit], fun s s' => ?_⟩
    rw [visitOwn_iff h]
    simp [ran_block]
  | function _ _ _ _ _ => cases h
  | _ =>
    refine ⟨discard (visit _), ?_, fun s s' => ran_discard⟩
    rw [visit] <;> (intros; contradiction)

/-- **A run over a function**: its procedure is opened, its body is visited, and the procedure is closed. -/
theorem ran_function {name returnType : String} {ps body : Node} {line : Int} {s s' : Generator} {t : Option Reg}
    (h : isStmt fns params body = true) : Ran (visit (.function name ps returnType body line)) s t s' ↔
      t = none ∧ ∃ s₀ sf u, Ran (openProc name ps) s () s₀ ∧ Ran (visit body) s₀ u sf ∧ Ran (closeProc returnType) sf () s' := by
  obtain ⟨code, e, hc⟩ := visit_function name returnType ps line h
  rw [e]
  unfold procedure
  simp only [ran_bind, ran_pure]
  constructor
  · rintro ⟨_, s₀, h₀, _, sf, h₁, _, _, h₂, rfl, rfl⟩
    obtain ⟨u, h₁⟩ := (hc _ _).1 h₁
    exact ⟨rfl, s₀, sf, u, h₀, h₁, h₂⟩
  · rintro ⟨rfl, s₀, sf, u, h₀, h₁, h₂⟩
    exact ⟨⟨⟩, s₀, h₀, ⟨⟩, sf, (hc _ _).2 ⟨u, h₁⟩, ⟨⟩, _, h₂, rfl, rfl⟩

/-! ### Calls -/

/-- The code of all functions is part of the program, which defines neither a label nor a procedure twice. -/
structure Compiled (fs : List Node) (prog : List Line) : Prop where
  labels : (labelsIn prog).Nodup
  heads : (headsOf (outlineIn prog)).Nodup
  functions : ∀ f ∈ fs, ∃ s t s', Ran (visit f) s t s' ∧ s'.code.toList <+: prog

theorem represents_passed {ps : List String} {args : List Int} {s sf : Generator} (opened : Opened ps s)
    (g : s.Grows sf) : Represents sf (passed args) (Env.ofArgs ps args) := by
  intro x v hx
  obtain ⟨r, hr, hv⟩ := passed_paramReg ps args [] hx
  exact ⟨r, g.keep (home_eq_some.2 (.inl ((opened.params x).trans hr))), hv⟩

section
variable {prog : List Line} {n : Nat}

theorem head_isPrefix {name : String} {s s₁ s₀ : Generator} (hc : s₁.code = (s.add (.proc name)).code)
    (h₀ : s₀ = s₁ ∨ ∃ text, s₀ = s₁.add (.comment text)) (hp : s₀.code.toList <+: prog) :
    (s.add (.proc name)).code.toList <+: prog := by
  rw [← hc]
  rcases h₀ with rfl | ⟨text, rfl⟩
  · exact hp
  · exact (Grows.refl _).of_add.isPrefix hp

theorem steps_open {name : String} {s s₁ s₀ : Generator} (hc : s₁.code = (s.add (.proc name)).code)
    (h₀ : s₀ = s₁ ∨ ∃ text, s₀ = s₁.add (.comment text)) (hp : s₀.code.toList <+: prog) (m : Machine) (σ : Regs)
    (w : World) : Steps div prog (m.on (here prog s) σ w) (m.on (here prog s₀) σ w) := by
  have same : here prog s₁ = here prog (s.add (.proc name)) := by unfold here; rw [hc]
  rw [here_add (head_isPrefix hc h₀ hp), ← same]
  refine .trans (steps_pass rfl) ?_
  rcases h₀ with rfl | ⟨text, rfl⟩
  · exact .refl _
  · rw [here_add hp]
    exact steps_pass rfl

theorem steps_close {returnType : String} {sf s' : Generator} (ended : ¬ Ended sf)
    (hr : Ran (closeProc returnType) sf () s') (hp : s'.code.toList <+: prog) (m : Machine) {σ : Regs} (w : World)
    (hσ : σ .result = none) : Steps div prog (m.on (here prog sf) σ w)
      (m.returning (if returnType = "null" then some 0 else none) w) := by
  rcases ran_closeProc.1 hr with ⟨h, -⟩ | ⟨-, hn, rfl⟩ | ⟨-, hn, rfl⟩
  · exact (ended h).elim
  · have hp₁ := (Grows.refl _).of_add.isPrefix hp
    rw [if_pos hn, here_add ((Grows.refl _).of_add.isPrefix hp₁), here_add hp₁]
    exact .trans (steps_literal _ _) (Function.update_self Reg.result (some 0) σ ▸ steps_ret)
  · rw [if_neg hn, here_add ((Grows.refl _).of_add.isPrefix hp), ← hσ]
    exact steps_ret

theorem call_step (compiled : Compiled fs prog) (program : isProgram fs = true) (hf : Callable (names fs))
    (ih : Simulates div fs prog n) {name : String} {args : List Int} {w w' : World} {result : Option Int}
    (he : call div fs (n + 1) name args w = some (result, w', [])) : ∃ head, linesFrom? (.proc name) prog = some head ∧
      ∀ m : Machine, Steps div prog (m.on head (passed args) w) (m.returning result w') := by
  simp only [call] at he
  split at he
  case h_2 => cases he
  case h_1 fname ps returnType body line found =>
    split at he
    case isFalse => cases he
    have mem := List.mem_of_find?_eq_some found
    obtain rfl : fname = name := by simpa [Node.name?] using List.find?_some found
    have function := List.all_eq_true.1 (Bool.and_eq_true_iff.1 program).1 _ mem
    simp only [isFunction, Bool.and_eq_true, Bool.not_eq_true'] at function
    obtain ⟨⟨⟨-, hret⟩, hps⟩, hb⟩ := function
    obtain ⟨s, t, s', hr, hp⟩ := compiled.functions _ mem
    obtain ⟨-, s₀, sf, u, h₀, h₁, h₂⟩ := (ran_function hb).1 hr
    obtain ⟨s₁, _, h₀', hc, hs₀, opened⟩ := openProc_spec hps hret s
    obtain ⟨-, rfl⟩ := h₀.unique h₀'
    obtain ⟨hsf, g⟩ := visit_advances _ (plain_of_isStmt hb) _ _ _ h₁ opened.sound
    have hpf : sf.code.toList <+: prog := by
      rcases ran_closeProc.1 h₂ with ⟨-, rfl⟩ | ⟨-, -, rfl⟩ | ⟨-, -, rfl⟩
      · exact (Grows.refl _).of_add.isPrefix hp
      · exact (Grows.refl _).of_add.of_add.of_add.isPrefix hp
      · exact (Grows.refl _).of_add.of_add.isPrefix hp
    have site : Site prog sf (paramNames ps) s₀ sf := by
      refine ⟨hsf, hpf, compiled.labels, opened.sound, .refl sf, fun x hx => ?_⟩
      obtain ⟨r, hr⟩ := paramReg_of_mem 1 hx
      exact ⟨r, home_eq_some.2 (.inl ((opened.params x).trans hr))⟩
    have locals : Locals sf (paramNames ps) := fun x hx => by
      rw [g.params, opened.params x, paramReg_of_notMem 1 hx]
    have hp₀ := g.isPrefix hpf
    refine ⟨here prog s, linesFrom?_proc compiled.heads (head_isPrefix hc hs₀ hp₀), fun m => ?_⟩
    refine (steps_open hc hs₀ hp₀ m (passed args) w).trans ?_
    have represents : Represents sf (passed args) (Env.ofArgs (paramNames ps) args) := represents_passed opened g
    split at he
    case h_1 v w₁ _ e =>
      cases he
      exact ih.exec site locals hb h₁ e m _ represents
    case h_2 ρ w₁ _ e =>
      cases he
      obtain ⟨σ', st, -, keeps⟩ := ih.exec site locals hb h₁ e m _ represents
      refine st.trans (steps_close (fun ended => ?_) h₂ hp m _ ?_)
      · have before : Ended s₀ ∨ Stops div fs body := visit_stmt_ended hf hb h₁ ended
        rcases before with ended | stops
        · exact opened.not_ended ended
        · exact stops _ _ _ _ _ _ _ e
      · rw [keeps _ opened.sound.result fun x _ hx => (hsf.home_taken hx).2 rfl]
        rfl
    case h_3 => cases he

/-- **The machine does what scalar programs mean.** -/
theorem simulates (compiled : Compiled fs prog) (program : isProgram fs = true) (hf : Callable (names fs))
    (n : Nat) : Simulates div fs prog n := by
  induction n with
  | zero =>
    exact
      { eval _ _ _ h := nomatch h
        evalAll _ _ _ h := nomatch h
        call h := nomatch h
        exec _ _ _ _ h := nomatch h
        execAll _ _ _ _ h := nomatch h
        count _ _ _ _ _ _ _ h := nomatch h }
  | succ n ih =>
    exact
      { eval site h hr he _ _ hσ := eval_step ih hf site h hr he hσ
        evalAll site h hr he _ _ hσ := evalAll_step ih hf site h hr he hσ
        call he := call_step compiled program hf ih he
        exec site locals h hr he _ _ hσ := exec_step ih hf site locals h hr he hσ
        execAll site locals h hr he _ _ hσ := execAll_step ih hf site locals h hr he hσ
        count site locals hb hr hx hbt hbx he _ _ hσ hσb := count_step ih site locals hb hr hx hbt hbx he hσ hσb }

end

end TesLang.Scalar
