import TesLang.Proofs.Written.Expression
/-!
# Code in which registers are written before they are read

The code of a program follows its events (`program_goes`): its procedures are the functions of the program, and all that is
read in it has been written before just in case all variables of the program are set before they are used.
-/
namespace TesLang.Code

open Grammar Generator

/-! ### Parameters -/

theorem mem_parameterRegs {n : Nat} {r : Reg} : r ∈ parameterRegs n ↔ 0 < r.index ∧ r.index ≤ n := by
  obtain ⟨i⟩ := r
  simp only [parameterRegs, List.mem_map, List.mem_range, Reg.mk.injEq]
  constructor
  · rintro ⟨j, hj, rfl⟩
    omega
  · rintro ⟨h₀, h₁⟩
    exact ⟨i.toNat - 1, by omega, by omega⟩

/-- Parameters have got their registers, which are the first ones. -/
structure Placed (names : List String) (s : Generator) : Prop where
  sound : s.Sound
  vars : s.vars = []
  bound : ∀ {x}, x ∈ names ↔ ∃ r, s.params.find? x = some r
  regs : ∀ {x r}, s.params.find? x = some r → r ∈ parameterRegs names.length
  taken : ∀ {r}, r ∈ parameterRegs names.length → r ∈ s.bank.taken
  below : ∀ q ∈ s.bank.taken, q.index < (names.length + 1 : Nat)

namespace Placed

variable {names : List String} {s : Generator}

theorem add (h : Placed names s) (l : Line) : Placed names (s.add l) :=
  ⟨h.sound.add l, h.vars, h.bound, h.regs, h.taken, h.below⟩

theorem bindParam (h : Placed names s) (x : String) : Placed (names ++ [x]) (s.bindParam x (names.length + 1)) := by
  have found : ∀ y, (s.bindParam x (names.length + 1)).params.find? y =
      if x = y then some ⟨(names.length + 1 : Nat)⟩ else s.params.find? y := fun y => Bindings.find?_insert ..
  refine ⟨sound_bindParam h.sound (Nat.succ_pos _) h.below, h.vars, ?_, ?_, ?_, ?_⟩
  · intro y
    rw [found, List.mem_append, List.mem_singleton, h.bound]
    split
    · next e => exact ⟨fun _ => ⟨_, rfl⟩, fun _ => .inr e.symm⟩
    · next e => rw [or_iff_left (Ne.symm e)]
  · intro y r hy
    rw [found] at hy
    rw [mem_parameterRegs, List.length_append, List.length_singleton]
    split at hy
    · cases hy
      exact ⟨Int.natCast_pos.2 (Nat.succ_pos _), Int.le_refl _⟩
    · have := mem_parameterRegs.1 (h.regs hy)
      omega
  · intro r hr
    rw [mem_parameterRegs, List.length_append, List.length_singleton] at hr
    rw [mem_taken_bindParam]
    by_cases hle : r.index ≤ names.length
    · exact .inl (h.taken (mem_parameterRegs.2 ⟨hr.1, hle⟩))
    · refine .inr ?_
      obtain ⟨i⟩ := r
      simp only at hr hle
      exact congrArg Reg.mk (by omega)
  · intro q hq
    rw [List.length_append, List.length_singleton]
    rcases mem_taken_bindParam.1 hq with hq | rfl
    · have := h.below q hq
      omega
    · show ((names.length + 1 : Nat) : Int) < _
      omega

theorem placeParams : ∀ {ps : List Node} {names : List String} {s s' : Generator} {texts : List String},
    ps.all isParameter = true → Placed names s → Ran (Gen.placeParams (names.length + 1) ps) s texts s' →
      Placed (names ++ ps.filterMap Node.name?) s' ∧ s'.code = s.code
  | [], names, s, s', texts, _, h, hr => by
    obtain ⟨-, rfl⟩ := ran_pure.1 hr
    rw [List.filterMap_nil, List.append_nil]
    exact ⟨h, rfl⟩
  | p :: ps, names, s, s', texts, hp, h, hr => by
    rw [List.all_cons, Bool.and_eq_true] at hp
    cases p with
    | parameter x type line =>
      have hr : Ran (do
          modify fun s => s.bindParam x (names.length + 1)
          let texts ← Gen.placeParams (names.length + 1 + 1) ps
          pure ((x ++ " => " ++ (⟨(names.length + 1 : Nat)⟩ : Reg).text) :: texts)) s texts s' := hr
      obtain ⟨_, _, h₁, hr⟩ := ran_bind.1 hr
      obtain rfl := ran_modify.1 h₁
      obtain ⟨texts', s₂, h₂, h₃⟩ := ran_bind.1 hr
      obtain ⟨-, rfl⟩ := ran_pure.1 h₃
      have length : names.length + 1 = (names ++ [x]).length := by simp
      have next := h.bindParam x
      rw [length] at next h₂
      have placed := placeParams hp.2 next h₂
      rw [List.append_assoc] at placed
      exact placed
    | _ => cases hp.1

theorem tracks (h : Placed names s) : Tracks s (parameterRegs names.length) ⟨names, names⟩ := by
  have home : ∀ x, s.home x = s.params.find? x := by
    intro x
    unfold Generator.home
    rw [h.vars, Bindings.find?_nil, Option.or_none]
  refine ⟨h.sound, h.taken, ?_, ?_, id, fun hx => h.bound.2 ⟨_, hx⟩⟩
  · intro x
    rw [home, h.bound]
  · intro x r hx
    rw [home] at hx
    exact iff_of_true (h.regs hx) (h.bound.2 ⟨r, hx⟩)

end Placed

namespace Gen

theorem placeParameters_placed {ps : List Node} (hp : ps.all isParameter = true) {s s' : Generator} {u : Unit}
    (h : Placed [] s) (hr : Ran (placeParameters (.several ps)) s u s') : Placed (parameterNames (.several ps)) s' ∧
      (s'.code = s.code ∨ ∃ text, s'.code = (s.add (.comment text)).code) := by
  cases ps with
  | nil =>
    obtain ⟨-, rfl⟩ := ran_pure.1 hr
    exact ⟨h, .inl rfl⟩
  | cons p ps =>
    have hr : Ran (do
        let texts ← placeParams 1 (p :: ps)
        emit (.comment ("Parameters: " ++ ", ".intercalate texts))) s u s' := hr
    obtain ⟨texts, s₁, h₁, h₂⟩ := ran_bind.1 hr
    obtain rfl := ran_emit.1 h₂
    obtain ⟨placed, code⟩ := h.placeParams hp h₁
    exact ⟨placed.add _, .inr ⟨_, congrArg (Array.push · _) code⟩⟩

theorem openProc_placed {f : String} {ps : List Node} (hp : ps.all isParameter = true) {s s' : Generator} {u : Unit}
    (hr : Ran (openProc f (.several ps)) s u s') : Placed (parameterNames (.several ps)) s' ∧
      (s'.code = (s.add (.proc f)).code ∨ ∃ text, s'.code = ((s.add (.proc f)).add (.comment text)).code) := by
  unfold openProc at hr
  simp only [ran_bind, ran_modify, ran_emit] at hr
  obtain ⟨-, _, rfl, -, _, rfl, hr⟩ := hr
  have start : Placed [] (Generator.add { s with function := some f, vars := [], params := [], bank := s.bank.clear }
      (.proc f)) := by
    have unset {x : String} {r : Reg} (h : Bindings.find? [] x = some r) : False := by cases h
    refine ⟨⟨List.mem_cons_self, fun h => (unset h).elim, fun h => (unset h).elim, fun h => (unset h).elim,
      fun h => (unset h).elim, fun h => (unset h).elim⟩, rfl, by simp, fun h => (unset h).elim, ?_, ?_⟩
    · intro q hq
      cases hq
    · intro q hq
      obtain rfl := List.mem_singleton.1 hq
      decide
  obtain ⟨placed, code⟩ := placeParameters_placed hp start hr
  exact ⟨placed, code⟩

theorem openProc_goes (f : String) {ps : List Node} (hp : ps.all isParameter = true) (s : Generator) (W : List Reg)
    (k : Variables) :
    Goes (openProc f (.several ps)) s W k [.head f (parameterNames (.several ps))] fun _ _ _ => True := by
  intro u s' hr
  obtain ⟨placed, code | ⟨text, code⟩⟩ := openProc_placed hp hr
  · exact ⟨[.proc f], _, by rw [code, toList_add], ⟨rfl, fun _ => rfl, fun _ => rfl⟩, placed.tracks, trivial⟩
  · exact ⟨[.proc f, .comment text], _, by rw [code, toList_add, toList_add, List.append_assoc]; rfl,
      ⟨rfl, fun _ => rfl, fun _ => rfl⟩, placed.tracks, trivial⟩

section
variable {s : Generator} {W : List Reg} {k : Variables}

theorem Goes.emit {l : Line} (hl : l.isHead = false) (reads : l.reads = []) (writes : l.writes = none) (t : Tracks s W k) :
    Goes (emit l) s W k [] fun _ _ _ => True := by
  intro u s' hr
  obtain rfl := ran_emit.1 hr
  have follows : Follows W k [] [l] (l.writes.toList ++ W) := .line hl rfl (by rw [reads]; rfl)
  rw [writes] at follows
  exact ⟨[l], W, s.toList_add l, follows, t.add l, trivial⟩

theorem closeProc_goes (returnType : String) (t : Tracks s W k) : Goes (closeProc returnType) s W k [] fun _ _ _ => True := by
  have blank : ∀ {s W}, Tracks s W k → Goes (Gen.emit .blank) s W k [] fun _ _ _ => True := fun t => .emit rfl rfl rfl t
  unfold closeProc
  refine .step (ran_get.2 ⟨rfl, rfl⟩) rfl ?_
  split
  · split
    · have result := t.write t.sound.result fun x hx => (t.sound.home_taken hx).2 rfl
      exact .sure rfl rfl (.sure rfl rfl (blank ((result.add _).add _)))
    · exact .sure rfl rfl (blank (t.add _))
  · exact blank t

theorem procedure_goes (f returnType : String) {ps : List Node} (hp : ps.all isParameter = true) {code : Gen Unit}
    {es : List Event} (h : ∀ ⦃s W k⦄, Tracks s W k → Goes code s W k es fun _ _ _ => True) :
    Goes (procedure f (.several ps) returnType code) s W k (.head f (parameterNames (.several ps)) :: es)
      fun _ _ _ => True := by
  refine .bind (openProc_goes f hp s W k) fun _ s₁ W₁ t₁ _ => .before (h t₁) fun _ s₂ W₂ t₂ _ =>
    .after (closeProc_goes returnType t₂) fun _ s₃ W₃ t₃ _ => .pure t₃ trivial

end

/-! ### Assignments -/

section
variable {x : String} {value : Node} {s : Generator} {W : List Reg} {k : Variables} {r : Option Reg}

theorem assign_goes (hx : isVariable x value = false) (t : Tracks s W k) (h : Held value k r s W) :
    Goes (assign x r) s W k (worth value ++ [Event.set x]) fun _ _ _ => True := by
  intro u s' hr
  obtain ⟨q, s₁, ho, rfl⟩ := ran_assign.1 hr
  have other : r ≠ some q := by
    rintro rfl
    rcases ho.has with hq | hq
    · exact Bool.false_ne_true (hx.symm.trans (h.apart q rfl x hq))
    · exact hq (h.taken q rfl)
  rw [if_neg other]
  refine ⟨[.mov q (.ofReg r)], q :: W, ?_, .line rfl ?_ ?_, ?_, trivial⟩
  · rw [toList_add, ho.code]
  · rw [procedures_append, procedures_worth]
    rfl
  · rw [reads_mov, h.reads, Variables.orderly_append]
    exact (Bool.and_true _).symm
  · rw [Variables.after_append, Variables.after_worth]
    exact (t.owns ho).add _

/-- A variable that is assigned to itself is left alone.  If it has no register, it gets one, and another one is moved
there that nobody has written. -/
theorem keep_goes (x : String) (line : Int) (plain : Bool) (t : Tracks s W k) :
    Goes (do let r ← visit (.identifier x line); assign x r; Pure.pure (none : Option Reg)) s W k [.keep x plain]
      fun _ _ _ => True := by
  intro a s' hr
  obtain ⟨r, s₁, h₁, hr⟩ := ran_bind.1 hr
  obtain ⟨_, s₂, h₂, h₃⟩ := ran_bind.1 hr
  obtain ⟨-, rfl⟩ := ran_pure.1 h₃
  obtain ⟨q, s₃, ho, rfl⟩ := ran_assign.1 h₂
  rw [visit, ran_place?_bind] at h₁
  cases hx : s.home x with
  | some p =>
    rw [hx] at h₁
    obtain ⟨rfl, rfl⟩ := ran_pure.1 h₁
    have bound : x ∈ k.bound := t.bound.2 ⟨p, hx⟩
    have tracks : Tracks s₃ W k ∧ q = p := by
      rcases ho with ⟨hp, rfl⟩ | ⟨hp, hr⟩
      · exact ⟨t, Option.some.inj ((home_eq_some.2 (.inl hp)).symm.trans hx)⟩
      · rcases ran_ownPlace.1 hr with ⟨hv, rfl⟩ | ⟨hv, -, -⟩
        · exact ⟨t.draw, Option.some.inj ((home_eq_some.2 (.inr ⟨hp, hv⟩)).symm.trans hx)⟩
        · exact (Option.some_ne_none p (hx.symm.trans (Option.or_eq_none_iff.2 ⟨hp, hv⟩))).elim
    obtain ⟨tracks, rfl⟩ := tracks
    rw [if_pos rfl]
    refine ⟨[], W, by rw [ho.code, List.append_nil], ⟨rfl, fun _ => rfl, fun _ => ?_⟩, ?_, trivial⟩
    · simpa [Written.ordered, Variables.orderly, Variables.fine] using bound
    · show Tracks s₃ W (if x ∈ k.bound then k else k.put x)
      rw [if_pos bound]
      exact tracks
  | none =>
    rw [hx] at h₁
    obtain ⟨_, _, h, h₁⟩ := ran_bind.1 h₁
    obtain ⟨rfl, rfl⟩ := ran_allocate.1 h
    obtain ⟨rfl, rfl⟩ := ran_pure.1 h₁
    have unbound : x ∉ k.bound := t.home_eq_none.1 hx
    have other : some s.next ≠ some q := by
      rintro ⟨⟩
      exact ho.has.elim (not_has hx _) fun hn => hn ((s.mem_taken_draw _).2 (.inr rfl))
    rw [if_neg other]
    refine ⟨[.mov q (.reg s.next)], q :: W, by rw [toList_add, ho.code]; rfl, .line rfl rfl ?_, ?_, trivial⟩
    · simpa [Line.reads, Variables.orderly, Variables.fine, t.next_notMem] using unbound
    · show Tracks _ (q :: W) (if x ∈ k.bound then k else k.put x)
      rw [if_neg unbound]
      exact (t.draw.owns ho).add _

end

/-! ### Loops -/

/-- The upper end of a loop is read behind the line that writes the variable of the loop. -/
def Bounded (x : String) (stop : Node) (k : Variables) (r : Option Reg) (s : Generator) (W : List Reg) : Prop :=
  ∀ v s', Ran (ownPlace x) s v s' → r.toList.all (List.contains (v :: W)) = k.orderly (bounding x stop)

theorem eq_identifier {x : String} {e : Node} (h : isVariable x e = true) : ∃ line, e = .identifier x line := by
  cases e with
  | identifier y line => exact ⟨line, by rw [beq_iff_eq.1 h]⟩
  | _ => cases h

section
variable {x : String} {stop : Node} {s : Generator} {W : List Reg} {k : Variables} {r : Option Reg}

theorem bounded_of_held (hx : isVariable x stop = false) (h : Held stop k r s W) : Bounded x stop k r s W := by
  intro v s' hr
  rw [bounding, hx, if_neg Bool.false_ne_true, ← h.reads]
  cases r with
  | none => rfl
  | some q =>
    have other : q ≠ v := by
      rintro rfl
      rcases has_of_ownPlace hr with hq | hq
      · exact Bool.false_ne_true (hx.symm.trans (h.apart q rfl x (.inr hq)))
      · exact hq (h.taken q rfl)
    simp [other]

theorem bounded_of_identifier {q : Reg} {line : Int} (t : Tracks s W k) (h : Held (.identifier x line) k (some q) s W)
    (hq : s.home x = some q ∨ s.home x = none) : Bounded x (.identifier x line) k (some q) s W := by
  intro v s' hr
  have events : bounding x (.identifier x line) = [.keep x false] := if_pos (beq_self_eq_true x)
  rw [events]
  rcases hq with hq | hq
  · have bound : x ∈ k.bound := t.bound.2 ⟨q, hq⟩
    have written : q = v ∨ q ∈ W := by
      rcases home_eq_some.1 hq with hp | ⟨-, hv⟩
      · exact .inr ((t.set hq).2 (t.params hp))
      · rcases ran_ownPlace.1 hr with ⟨hv', -⟩ | ⟨hn, -, -⟩
        · exact .inl (Option.some.inj (hv.symm.trans hv'))
        · exact (Option.some_ne_none q (hv.symm.trans hn)).elim
    simpa [Variables.orderly, Variables.fine, bound] using written
  · have unbound : x ∉ k.bound := t.home_eq_none.1 hq
    have unwritten : q ∉ W := by
      intro hm
      have set : k.set.contains x = true := by
        have reads := h.reads
        simpa [worth, Variables.orderly, Variables.fine, hm] using reads
      exact unbound (t.within (List.contains_iff_mem.1 set))
    have other : q ≠ v := by
      rintro rfl
      exact (has_of_ownPlace hr).elim (fun hv => not_has hq q (.inr hv)) fun hn => hn (h.taken q rfl)
    simp [Variables.orderly, Variables.fine, unbound, unwritten, other]

theorem bound_goes {right : String → Bool} (x : String) (h : isExpression right stop = true) (t : Tracks s W k) :
    Goes (visit stop) s W k (effects stop) fun r s' W' =>
      Later s W s' W' ∧ Bounded x stop (k.after (effects stop)) r s' W' := by
  cases hx : isVariable x stop with
  | false => exact (expression_goes h t).mono fun r s' W' _ hr => ⟨hr.1, bounded_of_held hx hr.2⟩
  | true =>
    obtain ⟨line, rfl⟩ := eq_identifier hx
    rw [effects]
    · refine (identifier_goes x line t).mono ?_
      rintro _ s' W' t' ⟨hr, q, rfl, hq⟩
      exact ⟨hr.1, bounded_of_identifier t' hr.2 hq⟩
    all_goals
      intros
      contradiction

theorem Goes.plain {n : Node} {es : List Event} {R : Option Reg → Generator → List Reg → Prop} (hn : Code.plain n = true)
    (h : Goes (visit n) s W k es R) : Goes (visit n) s W k es fun _ _ W' => ∀ r ∈ W, r ∈ W' := by
  intro a s' hr
  obtain ⟨new, W', hc, hf, ht, -⟩ := h a s' hr
  have heads : headsOf (outlineIn new) = [] := by
    have outlines := visit_outlines n s a s' hr
    rw [hc, outlineIn_append] at outlines
    rw [List.append_cancel_left outlines, headsOf_plain hn]
  refine ⟨new, W', hc, hf, ht, fun r hr => ?_⟩
  have written := Written.mem_after (w := ⟨arities es ++ [], W⟩) heads hr
  rwa [hf.written] at written

theorem after_bounding (x : String) (stop : Node) (k : Variables) : k.after (bounding x stop) = k ∨
    k.orderly (bounding x stop) = false ∧ k.after (bounding x stop) = k.put x := by
  unfold bounding
  split
  · by_cases hx : x ∈ k.bound
    · exact .inl (if_pos hx)
    · exact .inr ⟨by simp [Variables.orderly, Variables.fine, hx], if_neg hx⟩
  · exact .inl (k.after_worth stop)

theorem procedures_bounding (x : String) (stop : Node) : procedures (bounding x stop) = [] := by
  unfold bounding
  split
  · rfl
  · exact procedures_worth stop

theorem loop_follows {start : Node} {first : Option Reg} {v : Reg} (test : Reg) (again done : Label)
    (hf : Held start k first s W) (hb : r.toList.all (List.contains (v :: W)) = k.orderly (bounding x stop)) :
    Follows W k (bounding x stop ++ (worth start ++ [Event.set x]))
      [.mov v (.ofReg first), .label again, .binary .less test (some v) r, .jumpIfZero (some test) done]
      (test :: v :: W) := by
  have procs : procedures (bounding x stop ++ (worth start ++ [Event.set x])) = [] := by
    rw [procedures_append, procedures_append, procedures_bounding, procedures_worth]
    rfl
  have arities : arities (bounding x stop ++ (worth start ++ [Event.set x])) = [] := by
    unfold Code.arities
    rw [procs]
    rfl
  refine ⟨by rw [procs]; rfl, fun _ => by rw [arities]; rfl, fun coming => ?_⟩
  have code : Written.ordered ⟨coming, W⟩ [.mov v (.ofReg first), .label again, .binary .less test (some v) r,
      .jumpIfZero (some test) done] = (first.toList.all W.contains && r.toList.all (List.contains (v :: W))) := by
    show ((Line.mov v (.ofReg first)).reads.all W.contains && (true && (([v] ++ r.toList).all (List.contains (v :: W)) &&
      ([test].all (List.contains (test :: v :: W)) && true)))) = _
    rw [reads_mov, List.all_append]
    simp
  rw [arities, List.nil_append, code, hf.reads, hb, Variables.orderly_append, Variables.orderly_append, Bool.and_comm]
  rcases after_bounding x stop k with after | ⟨unbound, -⟩
  · rw [after]
    exact congrArg _ (Bool.and_true _).symm
  · rw [unbound, Bool.false_and, Bool.false_and]

theorem tracks_loop {start : Node} (t : Tracks s W (k.put x)) :
    Tracks s W (k.after (bounding x stop ++ (worth start ++ [Event.set x]))) := by
  rw [Variables.after_append, Variables.after_append, Variables.after_worth]
  rcases after_bounding x stop k with after | ⟨-, after⟩
  · rw [after]
    exact t
  · rw [after]
    exact t.put_of_mem List.mem_cons_self

theorem for_goes {right : String → Bool} {start body : Node} {es : List Event} (line : Int)
    (ha : isExpression right start = true) (hb : isExpression right stop = true) (hp : Code.plain body = true)
    (t : Tracks s W k) (h : ∀ ⦃s W k⦄, Tracks s W k → Goes (visit body) s W k es fun _ _ _ => True) :
    Goes (visit (.forLoop x start stop body line)) s W k (looping x start stop ++ es) fun _ _ _ => True := by
  have plain : Goes (visit (.forLoop x start stop body line)) s W k
      (effects start ++ (effects stop ++ ((bounding x stop ++ (worth start ++ [Event.set x])) ++ es)))
      fun _ _ _ => True := by
    rw [visit, operand_expression ha, operand_expression hb]
    refine .bind (expression_goes ha t) fun first s₁ W₁ t₁ ⟨l₁, hf⟩ => .bind (bound_goes x hb t₁)
      fun bound s₂ W₂ t₂ ⟨l₂, hd⟩ => .skip ?_ fun v s₃ h₃ => ?_
    · intro v s₃ h₃
      rcases ran_ownPlace.1 h₃ with ⟨-, rfl⟩ | ⟨-, -, rfl⟩ <;> rfl
    intro a s' hr
    simp only [ran_emit_bind, ran_freshLabel_bind, ran_allocate_bind] at hr
    refine Goes.ahead (s := s₃) (R := fun _ _ _ => True) ?_ (loop_follows s₃.next ⟨"for_start", s₃.labels⟩ ⟨"for_end", s₃.labels + 1⟩
      (hf.after_effects l₂) (hd v s₃ h₃)) ?_ hr
    · simp
    have t₄ := ((((t₂.ownPlace h₃).add (.mov v (.ofReg first))).number.number.add (.label ⟨"for_start", s₃.labels⟩)).fill)
    refine .before ((h (tracks_loop ((t₄.add _).add _))).plain hp) fun _ s₅ W₅ t₅ keeps => ?_
    have written : v ∈ W₅ := keeps v (List.mem_cons_of_mem _ List.mem_cons_self)
    refine .allocate (.sure rfl rfl (.sure rfl ?_ (.sure rfl rfl (.sure rfl rfl (.pure ?_ trivial)))))
    · simp [Line.reads, Line.writes, written]
    · exact ((((t₅.fill.add _).again (List.mem_cons_of_mem _ written)).add _).add _).add _
  rw [looping, List.append_assoc]
  refine Goes.doubt ?_ x
  simpa only [List.append_assoc] using plain

end

/-! ### Statements -/

mutual

theorem loopsPlain_of_plain : ∀ {n : Node}, plain n = true → loopsPlain n = true
  | .branch .., h => by
    simp only [plain, Bool.and_eq_true] at h
    simp only [loopsPlain, loopsPlain_of_plain h.1.2, loopsPlain_of_plain h.2, Bool.and_self]
  | .whileLoop .., h => by
    simp only [plain, Bool.and_eq_true] at h
    simp only [loopsPlain, loopsPlain_of_plain h.2]
  | .doLoop .., h => by
    simp only [plain, Bool.and_eq_true] at h
    simp only [loopsPlain, loopsPlain_of_plain h.1]
  | .forLoop .., h => by
    simp only [plain, Bool.and_eq_true] at h
    simp only [loopsPlain, h.2]
  | .block .., h | .several .., h => by
    simp only [plain] at h
    simp only [loopsPlain, loopsPlainAll_of_plainAll h]
  | .declaration .., _ | .assignment .., _ | .call .., _ | .ret .., _ | .parameter .., _ | .binary .., _ | .unary .., _
  | .identifier .., _ | .number .., _ | .string .., _ | .boolean .., _ | .ternary .., _ | .element .., _ | .array .., _
  | .listOf .., _ | .bare, _ | .nothing, _ | .text _, _ | .integer _, _ => by
    rw [loopsPlain] <;> (intros; contradiction)

theorem loopsPlainAll_of_plainAll : ∀ {ns : List Node}, plainAll ns = true → loopsPlainAll ns = true
  | [], _ => by rw [loopsPlainAll]
  | _ :: _, h => by
    simp only [plainAll, Bool.and_eq_true] at h
    simp only [loopsPlainAll, loopsPlain_of_plain h.1, loopsPlainAll_of_plainAll h.2, Bool.and_self]

end

theorem assignment_goes {right : String → Bool} {x : String} {value : Node} (line : Int) {s : Generator} {W : List Reg}
    {k : Variables} (h : isExpression right value = true) (t : Tracks s W k) :
    Goes (visit (.assignment (.text x) value line)) s W k (assigning x value) fun _ _ _ => True := by
  rw [visit, operand_expression h]
  unfold assigning
  cases hx : isVariable x value with
  | true =>
    obtain ⟨line, rfl⟩ := eq_identifier hx
    exact keep_goes x line true t
  | false =>
    exact .bind (expression_goes h t) fun r s₁ W₁ t₁ hr => .before (assign_goes hx t₁ hr.2) fun _ _ _ t₂ _ =>
      .pure t₂ trivial

theorem elementAssignment_goes {right : String → Bool} {x : String} {index value : Node} (line line' : Int) {s : Generator}
    {W : List Reg} {k : Variables} (hi : isExpression right index = true) (hv : isExpression right value = true)
    (t : Tracks s W k) : Goes (visit (.assignment (.element x index line) value line')) s W k
      (effects value ++ ([Event.bind x] ++ (effects index ++ (worth value ++ [Event.use x false])))) fun _ _ _ => True := by
  rw [visit, operand_expression hi, operand_expression hv]
  refine .bind (expression_goes hv t) fun r s₁ W₁ t₁ valued => .bind (place_goes x t₁) fun b s₂ W₂ t₂ placed =>
    .bind (expression_goes hi t₂) fun _ s₃ W₃ t₃ indexed => .last rfl ?_ ?_ ?_ (.pure (t₃.add _) trivial)
  all_goals
    obtain ⟨-, hr⟩ := valued
    obtain ⟨-, hb, l₂⟩ := placed
    obtain ⟨l₃, -⟩ := indexed
  · rw [procedures_append, procedures_worth]
    rfl
  · have held : Held value (((k.after (effects value)).after [.bind x]).after (effects index)) r s₃ W₃ :=
      Held.after_effects (hr.later l₂ rfl) l₃
    show (r.toList ++ [b]).all W₃.contains = _
    rw [List.all_append, held.reads, t₃.check_use (l₃.keep hb) false, Variables.orderly_append, Variables.after_worth]
  · rw [Variables.after_append, Variables.after_worth]
    rfl

theorem declare_goes (x : String) {s : Generator} {W : List Reg} {k : Variables} (t : Tracks s W k) :
    Goes (declare x) s W k [.bind x] fun _ _ _ => True := by
  intro u s' hr
  unfold declare at hr
  rw [ran_place?_bind] at hr
  cases hx : s.home x with
  | some r =>
    -- as far as the events go, the register might as well have been asked for
    rw [hx] at hr
    obtain ⟨-, rfl⟩ := ran_pure.1 hr
    obtain ⟨new, W', hc, hf, ht, -⟩ := place_goes x t r _ (ran_place.2 (.inl ⟨hx, rfl⟩))
    exact ⟨new, W', hc, hf, ht, trivial⟩
  | none =>
    rw [hx] at hr
    have placed : Goes (do let r ← place x; emit (.comment ("Declare " ++ x ++ " in " ++ r.text))) s W k [.bind x]
        fun _ _ _ => True :=
      .before (place_goes x t) fun _ _ _ t₁ _ => .emit rfl rfl rfl t₁
    exact placed u s' hr

theorem returned_goes {value : Node} {s : Generator} {W : List Reg} {k : Variables}
    (h : value = .nothing ∨ isExpression isWord value = true) (t : Tracks s W k) :
    Goes (returned value (visit value)) s W k (effects value) fun r s' W' => Held value (k.after (effects value)) r s' W' := by
  rcases h with rfl | h
  · rw [effects] <;> first | exact .pure t (.none rfl) | (intros; contradiction)
  · rw [returned_expression h]
    exact (expression_goes h t).mono fun _ _ _ _ hr => hr.2

mutual

/-- **The code of a statement follows its events.** -/
theorem statement_goes : ∀ {n : Node}, isStatement n = true → loopsPlain n = true →
    ∀ ⦃s : Generator⦄ ⦃W : List Reg⦄ ⦃k : Variables⦄, Tracks s W k → Goes (visit n) s W k (events n) fun _ _ _ => True
  | .declaration x _ _, h, _ => by
    intro s W k t
    rw [visit, events]
    exact .before (declare_goes x t) fun _ _ _ t₁ _ => .pure t₁ trivial
  | .assignment target value line, h, _ => by
    intro s W k t
    obtain ⟨hv, ⟨x, rfl, -⟩ | ⟨x, index, l, rfl, -, hi⟩⟩ := isStatement_assignment.1 h
    · rw [events]
      exact assignment_goes line hv t
    · rw [events]
      exact elementAssignment_goes l line hi hv t
  | .call f args line, h, _ => by
    intro s W k t
    have he : isExpression isWord (.call f args line) = true := by simpa only [isStatement, isExpression] using h
    rw [events] <;> first
      | exact (expression_goes he t).mono fun _ _ _ _ _ => trivial
      | (intros; contradiction)
  | .ret value _, h, _ => by
    intro s W k t
    rw [visit, events]
    refine .bind (returned_goes (isStatement_ret.1 h) t) fun r s₁ W₁ t₁ hr => ?_
    have result := t₁.write t₁.sound.result fun x hx => (t₁.sound.home_taken hx).2 rfl
    cases r with
    | some q => exact .last rfl (procedures_worth _) hr.reads (Variables.after_worth _ _) (.sure rfl rfl
        (.pure ((result.add _).add _) trivial))
    | none => exact .last rfl (procedures_worth _) hr.reads (Variables.after_worth _ _) (.sure rfl rfl
        (.pure ((result.add _).add _) trivial))
  | .branch condition yes no _, h, hl => by
    intro s W k t
    obtain ⟨hc, hy, hn⟩ := isStatement_branch.1 h
    simp only [loopsPlain, Bool.and_eq_true] at hl
    have otherwise : ∀ ⦃s W k⦄, Tracks s W k → Goes (visit no) s W k (events no) fun _ _ _ => True := by
      rcases hn with rfl | hn
      · intro s W k t
        rw [visit, events, effects] <;> first | exact .pure t trivial | (intros; contradiction)
      · exact statement_goes hn hl.2
    rw [visit, events, operand_expression hc]
    exact .bind (expression_goes hc t) fun c s₁ W₁ t₁ ⟨_, hc⟩ => .freshLabel (.freshLabel (.line rfl (procedures_worth _)
      hc.reads (Variables.after_worth _ _) (.bind (statement_goes hy hl.1 (t₁.number.number.add _)) fun _ s₂ W₂ t₂ _ =>
      .sure rfl rfl (.sure rfl rfl (.before (otherwise ((t₂.add _).add _)) fun _ s₃ W₃ t₃ _ => .sure rfl rfl
      (.pure (t₃.add _) trivial))))))
  | .whileLoop condition body _, h, hl => by
    intro s W k t
    simp only [isStatement, Bool.and_eq_true] at h
    simp only [loopsPlain] at hl
    rw [visit, events, operand_expression h.1]
    exact .freshLabel (.freshLabel (.sure rfl rfl (.bind (expression_goes h.1 (t.number.number.add _))
      fun c s₁ W₁ t₁ ⟨_, hc⟩ => .line rfl (procedures_worth _) hc.reads (Variables.after_worth _ _)
      (.before (statement_goes h.2 hl (t₁.add _)) fun _ s₂ W₂ t₂ _ => .sure rfl rfl (.sure rfl rfl
      (.pure ((t₂.add _).add _) trivial))))))
  | .doLoop body condition _, h, hl => by
    intro s W k t
    simp only [isStatement, Bool.and_eq_true] at h
    simp only [loopsPlain] at hl
    have hb : body ≠ .nothing := by
      rintro rfl
      simp [isStatement] at h
    rw [visit, events, operand_expression h.2, doBody_eq hb]
    exact .freshLabel (.sure rfl rfl (.bind (statement_goes h.1 hl (t.number.add _)) fun _ s₁ W₁ t₁ _ =>
      .bind (expression_goes h.2 t₁) fun c s₂ W₂ t₂ ⟨_, hc⟩ => .last rfl (procedures_worth _) hc.reads
      (Variables.after_worth _ _) (.pure (t₂.add _) trivial)))
  | .forLoop x start stop body line, h, hl => by
    intro s W k t
    obtain ⟨hx, ha, hb, ss, rfl, hs⟩ := isStatement_forLoop.1 h
    simp only [loopsPlain] at hl
    rw [events]
    refine for_goes line ha hb hl t fun s W k t => ?_
    rw [visit, events]
    rw [plain] at hl
    exact .before (statements_goes hs (loopsPlainAll_of_plainAll hl) t) fun _ s₁ W₁ t₁ _ => .pure t₁ trivial
  | .block ss _, h, hl | .several ss, h, hl => by
    intro s W k t
    simp only [isStatement] at h
    simp only [loopsPlain] at hl
    rw [visit, events]
    exact .before (statements_goes h hl t) fun _ s₁ W₁ t₁ _ => .pure t₁ trivial
  | .function f params returnType body line, h, hl => by
    intro s W k t
    obtain ⟨hf, ⟨ps, ss, rfl, rfl, hp, hs⟩ | ⟨rfl, -⟩⟩ := isStatement_function.1 h
    · simp only [loopsPlain] at hl
      rw [visit, events]
      exact procedure_goes f returnType hp (own_goes hs hl)
    · obtain ⟨code, hv⟩ := visit_function f (.text ")") returnType body line
      rw [hv]
      exact fun _ _ hr => (not_ran_procedure_text hr).elim
termination_by n => sizeOf n
decreasing_by all_goals (subst_vars; simp +arith)

theorem statements_goes : ∀ {ns : List Node}, areStatements ns = true → loopsPlainAll ns = true →
    ∀ ⦃s : Generator⦄ ⦃W : List Reg⦄ ⦃k : Variables⦄, Tracks s W k → Goes (visitAll ns) s W k (eventsAll ns) fun _ _ _ => True
  | [], _, _ => by
    intro s W k t
    rw [visitAll, eventsAll]
    exact .pure t trivial
  | n :: ns, h, hl => by
    intro s W k t
    simp only [areStatements, Bool.and_eq_true, Bool.not_eq_true'] at h
    simp only [loopsPlainAll, Bool.and_eq_true] at hl
    rw [visitAll, eventsAll, operand_statement h.1.1 h.1.2]
    exact .bind (statement_goes h.1.2 hl.1 t) fun _ s₁ W₁ t₁ _ => statements_goes h.2 hl.2 t₁
termination_by ns => sizeOf ns
decreasing_by all_goals simp +arith

theorem own_goes : ∀ {ns : List Node}, areStatements ns = true → loopsPlainAll ns = true →
    ∀ ⦃s : Generator⦄ ⦃W : List Reg⦄ ⦃k : Variables⦄, Tracks s W k → Goes (visitOwn ns) s W k (eventsOwn ns) fun _ _ _ => True
  | [], _, _ => by
    intro s W k t
    rw [visitOwn, eventsOwn]
    exact .pure t trivial
  | n :: ns, h, hl => by
    intro s W k t
    simp only [areStatements, Bool.and_eq_true, Bool.not_eq_true'] at h
    simp only [loopsPlainAll, Bool.and_eq_true] at hl
    rw [visitOwn, eventsOwn, operand_statement h.1.1 h.1.2]
    cases n.isFunction with
    | true => exact own_goes h.2 hl.2 t
    | false =>
      exact .bind (.discard (statement_goes h.1.2 hl.1 t) fun _ _ _ _ => trivial) fun _ s₁ W₁ t₁ (_ : True) =>
        own_goes h.2 hl.2 t₁
termination_by ns => sizeOf ns
decreasing_by all_goals simp +arith

end

/-! ### Programs -/

mutual

theorem functions_goes : ∀ {ns : List Node}, areStatements ns = true → loopsPlainAll ns = true →
    ∀ ⦃s : Generator⦄ ⦃W : List Reg⦄ ⦃k : Variables⦄, Tracks s W k → Goes (visitNested ns) s W k (eventsOf ns) fun _ _ _ => True
  | [], _, _ => by
    intro s W k t
    rw [visitNested, eventsOf]
    exact .pure t trivial
  | n :: ns, h, hl => by
    intro s W k t
    simp only [areStatements, Bool.and_eq_true] at h
    simp only [loopsPlainAll, Bool.and_eq_true] at hl
    rw [visitNested, eventsOf]
    cases hn : n.isFunction with
    | false => exact functions_goes h.2 hl.2 t
    | true =>
      rw [if_pos rfl, if_pos rfl, List.append_assoc]
      exact .bind (statement_goes h.1.2 hl.1 t) fun _ _ _ t₁ _ => .bind (inside_goes h.1.2 hn hl.1 t₁) fun _ _ _ t₂ _ =>
        functions_goes h.2 hl.2 t₂
termination_by ns => sizeOf ns
decreasing_by all_goals simp +arith

theorem inside_goes : ∀ {n : Node}, isStatement n = true → n.isFunction = true → loopsPlain n = true →
    ∀ ⦃s : Generator⦄ ⦃W : List Reg⦄ ⦃k : Variables⦄, Tracks s W k →
      Goes (visitNestedIn n) s W k (eventsInside n) fun _ _ _ => True
  | .function f params returnType body line, h, _, hl => by
    intro s W k t
    obtain ⟨-, ⟨ps, ss, rfl, rfl, -, hs⟩ | ⟨rfl, he⟩⟩ := isStatement_function.1 h
    · simp only [loopsPlain] at hl
      rw [visitNestedIn, eventsInside, visitNestedUnder]
      exact functions_goes hs hl t
    · rw [visitNestedIn, eventsInside, isFunction_of_isExpression he, visitNestedUnder_expression he]
      · exact .pure t trivial
      · rintro _ _ _ ns _ ⟨⟩
        simp [isExpression] at he
termination_by n => sizeOf n
decreasing_by all_goals (subst_vars; simp +arith)

end

theorem allFunctions_goes : ∀ {fs : List Node}, areFunctions fs = true → loopsPlainAll fs = true →
    ∀ ⦃s : Generator⦄ ⦃W : List Reg⦄ ⦃k : Variables⦄, Tracks s W k → Goes (visitProgram fs) s W k (eventsOf fs) fun _ _ _ => True
  | [], _, _ => by
    intro s W k t
    rw [visitProgram, eventsOf]
    exact .pure t trivial
  | f :: fs, h, hl => by
    intro s W k t
    simp only [areFunctions, List.all_cons, Bool.and_eq_true] at h
    obtain ⟨⟨hf, hs⟩, rest⟩ := h
    simp only [loopsPlainAll, Bool.and_eq_true] at hl
    rw [visitProgram, eventsOf, if_pos hf, List.append_assoc]
    exact .bind (statement_goes hs hl.1 t) fun _ _ _ t₁ _ => .bind (inside_goes hs hf hl.1 t₁) fun _ _ _ t₂ _ =>
      allFunctions_goes rest hl.2 t₂

theorem tracks_empty : Tracks {} [] {} := by
  refine ⟨⟨List.mem_cons_self, nofun, nofun, nofun, nofun, nofun⟩, nofun, ⟨nofun, ?_⟩, nofun, nofun, nofun⟩
  rintro ⟨r, hr⟩
  cases hr

/-- **All that is read in the code of a program has been written before if and only if all variables of the program are set
before they are used.** -/
theorem ordered_program {fs : List Node} (h : areFunctions fs = true) (hl : loopsPlainAll fs = true) {r : Option Reg}
    {g : Generator} (hr : Ran (visitTree (.program fs)) {} r g) :
    headsOf (outlineIn g.code.toList) = (procedures (eventsOf fs)).map (·.1) ∧
      Written.ordered ⟨arities (eventsOf fs), []⟩ g.code.toList = Variables.orderly {} (eventsOf fs) := by
  have goes : Goes (visit (.program fs)) {} [] {} (eventsOf fs) fun _ _ _ => True := by
    rw [visit, requireBodies_of_areFunctions h, pure_bind]
    exact .before (allFunctions_goes h hl tracks_empty) fun _ _ _ t₁ _ => .pure t₁ trivial
  obtain ⟨new, W', hc, hf, -, -⟩ := goes r g hr
  have code : g.code.toList = new := by rw [hc]; rfl
  have check := hf.check []
  rw [List.append_nil] at check
  rw [code]
  exact ⟨hf.heads, check⟩

end Gen
end TesLang.Code
