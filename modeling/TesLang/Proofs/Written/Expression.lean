import TesLang.Proofs.WellFormed.Support
import TesLang.Proofs.Written.Steps
/-!
# Values and what they are read from

The code of an expression follows its events (`expression_goes`).  The only registers that it leaves for others to read
are those of variables and new ones that it has filled.
-/
namespace TesLang.Code

open Grammar Generator

theorem reads_mov (r : Reg) (v : Option Reg) : (Line.mov r (.ofReg v)).reads = v.toList := by cases v <;> rfl

theorem Variables.after_worth (k : Variables) (e : Node) : k.after (worth e) = k := by cases e <;> rfl

theorem Variables.after_flatMap_worth (k : Variables) (es : List Node) : k.after (es.flatMap worth) = k := by
  induction es with
  | nil => rfl
  | cons e es ih => rw [List.flatMap_cons, after_append, after_worth, ih]

theorem procedures_worth (e : Node) : procedures (worth e) = [] := procedures_of_quiet (quiet_worth e)

namespace Gen

section
variable {e : Node} {s s₀ : Generator} {W W₀ : List Reg} {k k₀ : Variables} {es : List Event}

theorem Valued.none (hw : worth e = []) (later : Later s₀ W₀ s W) : Valued e s₀ W₀ k none s W := ⟨later, .none hw⟩

theorem Goes.result {l : Reg → Line} (hw : worth e = []) (hl : ∀ r, (l r).isHead = false)
    (hr : ∀ r, (l r).writes = some r) (hp : procedures es = []) (check : ∀ r, (l r).reads.all W.contains = k.orderly es)
    (hk : k.after es = k) (t : Tracks s W k) (later : Later s₀ W₀ s W) :
    Goes (do let r ← Gen.allocate; emit (l r); Pure.pure (some r)) s W k es (Valued e s₀ W₀ k₀) := by
  refine .allocate (.last (hl _) hp (check _) hk ?_)
  rw [hr]
  exact .pure (t.fill.add _) ⟨later.fill.add _, .filled hw t⟩

end

/-! ### Calls -/

/-- The value of the first argument of a call, if there is one. -/
def HeldFirst (k : Variables) (s : Generator) (W : List Reg) : List Node → Option (Option Reg) → Prop
  | [], none => True
  | e :: _, some r => Held e k r s W
  | _, _ => False

section
variable {e : Node} {s s₀ : Generator} {W W₀ : List Reg} {k k₀ : Variables}

theorem writeNumber_goes (hw : worth e = []) (t : Tracks s W k) (later : Later s₀ W₀ s W) :
    ∀ {args : List Node} {o : Option (Option Reg)}, HeldFirst k s W args o →
      Goes (writeNumber o) s W k ((args.take 1).flatMap worth) (Valued e s₀ W₀ k₀)
  | [], none, _ => .allocate (.sure rfl rfl (.sure rfl (by simp [Line.reads, Line.writes])
      (.pure ((t.fill.add _).add _) (.none hw ((later.fill.add _).add _)))))
  | a :: _, some r, h => .line rfl (procedures_worth a) h.reads (k.after_worth a)
      (.pure (t.add _) (.none hw (later.add _)))

theorem makeList_goes (hw : worth e = []) (t : Tracks s W k) (later : Later s₀ W₀ s W) :
    ∀ {args : List Node} {o : Option (Option Reg)}, HeldFirst k s W args o →
      Goes (makeList o) s W k ((args.take 1).flatMap worth) (Valued e s₀ W₀ k₀)
  | [], none, _ => by
    have taken : s.next ∈ s.draw.draw.bank.taken :=
      (s.draw.mem_taken_draw _).2 (.inl ((s.mem_taken_draw _).2 (.inr rfl)))
    refine .allocate (.allocate (.sure rfl rfl (.sure rfl ?_ (.pure ?_ ⟨?_, ?_⟩))))
    · simp [Line.reads, Line.writes]
    · exact ((t.draw.fill.add _).write taken fun x hx => t.not_has_next x (.of_home hx)).add _
    · exact ((later.draw.fill.add _).write fun h => s.next_notMem (later.taken h)).add _
    · exact .some hw List.mem_cons_self taken t.not_has_next
  | a :: rest, some r, h => by
    refine .result hw (fun _ => rfl) (fun _ => rfl) ?_ (fun _ => ?_) ?_ t later
    · exact procedures_of_quiet (quiet_flatMap_worth _)
    · show r.toList.all W.contains = k.orderly (worth a ++ [])
      rw [List.append_nil, h.reads]
    · exact k.after_flatMap_worth _

theorem takeLength_goes (hw : worth e = []) (t : Tracks s W k) (later : Later s₀ W₀ s W) :
    ∀ o : Option (Option Reg), Goes (takeLength o) s W k [] (Valued e s₀ W₀ k₀)
  | none => .pure t (.none hw later)
  | some _ => .result hw (fun _ => rfl) (fun _ => rfl) rfl (fun _ => rfl) rfl t later

theorem argumentRegs_goes (t : Tracks s W k) : ∀ (i : Nat) (rs : List (Option Reg)),
    Goes (argumentRegs i rs) s W k [] fun regs s' W' => s' = s ∧ W' = W ∧ rs.flatMap Option.toList = regs
  | _, [] => .pure t ⟨rfl, rfl, rfl⟩
  | _, none :: _ => fun _ _ h => (ran_throw h).elim
  | i, some r :: rest => by
    refine .before (argumentRegs_goes t (i + 1) rest) ?_
    rintro regs _ _ t' ⟨rfl, rfl, rfl⟩
    exact .pure t' ⟨rfl, rfl, rfl⟩

theorem callFunction_goes {f : String} {args : List Node} {rs : List (Option Reg)} (hw : worth e = []) (t : Tracks s W k)
    (later : Later s₀ W₀ s W) (h : HeldAll args k rs s W) :
    Goes (callFunction f rs) s W k (args.flatMap worth) (Valued e s₀ W₀ k₀) := by
  refine .allocate (.after (argumentRegs_goes t.draw 0 rs) ?_)
  rintro regs _ _ - ⟨rfl, rfl, rfl⟩
  refine .last rfl (procedures_of_quiet (quiet_flatMap_worth _)) h.reads (k.after_flatMap_worth args)
    (.pure (t.fill.add _) ⟨later.fill.add _, .filled hw t⟩)

end

/-! ### Expressions -/

theorem identifier_goes (x : String) (line : Int) {s : Generator} {W : List Reg} {k : Variables} (t : Tracks s W k) :
    Goes (visit (.identifier x line)) s W k [] fun r s' W' => Valued (.identifier x line) s W k r s' W' ∧
      ∃ q, r = some q ∧ (s'.home x = some q ∨ s'.home x = none) := by
  rw [visit]
  refine .step (ran_place?.2 ⟨rfl, rfl⟩) rfl ?_
  cases hx : s.home x with
  | some r =>
    refine .pure t ⟨⟨.refl s W, t.check_use hx true, ?_, ?_⟩, r, rfl, .inl hx⟩
    · rintro q ⟨⟩
      exact (t.sound.home_taken hx).1
    · rintro q ⟨⟩ y hy
      exact beq_iff_eq.2 (t.sound.has_inj (.of_home hx) hy)
  | none =>
    have unset : x ∉ k.set := fun h => t.home_eq_none.1 hx (t.within h)
    refine .allocate (.pure t.draw ⟨⟨.draw (.refl s W), ?_, ?_, ?_⟩, s.next, rfl, .inr hx⟩)
    · show (W.contains s.next && true) = (k.set.contains x && true)
      rw [Bool.eq_iff_iff]
      simp [t.next_notMem, unset]
    · rintro q ⟨⟩
      exact (s.mem_taken_draw _).2 (.inr rfl)
    · rintro q ⟨⟩ y hy
      exact (t.not_has_next y hy).elim

theorem place_goes (x : String) {s : Generator} {W : List Reg} {k : Variables} (t : Tracks s W k) :
    Goes (place x) s W k [.bind x] fun r s' W' => W' = W ∧ s'.home x = some r ∧ Later s W s' W' := by
  intro r s' hr
  rcases ran_place.1 hr with ⟨hx, rfl⟩ | ⟨hx, rfl, rfl⟩
  · refine ⟨[], W, (List.append_nil _).symm, ⟨rfl, fun _ => rfl, fun _ => rfl⟩, ?_, rfl, hx, .refl _ W⟩
    refine ⟨t.sound, t.taken, fun {y} => ?_, t.set, fun h => List.mem_cons_of_mem _ (t.within h), t.params⟩
    show y ∈ x :: k.bound ↔ _
    rw [List.mem_cons, t.bound]
    exact ⟨fun h => h.elim (fun e => ⟨r, e ▸ hx⟩) id, .inr⟩
  · refine ⟨[], W, (List.append_nil _).symm, ⟨rfl, fun _ => rfl, fun _ => rfl⟩, t.settle hx, rfl, ?_,
      .settle (.refl s W) hx⟩
    rw [home_settle, if_pos rfl, (Option.or_eq_none_iff.1 hx).1]
    rfl

mutual

/-- **The code of an expression follows its events**, and the register of its value has been written unless it is that of a
variable that is not set. -/
theorem expression_goes {right : String → Bool} : ∀ {e : Node}, isExpression right e = true →
    ∀ ⦃s : Generator⦄ ⦃W : List Reg⦄ ⦃k : Variables⦄, Tracks s W k →
      Goes (visit e) s W k (effects e) (Valued e s W (k.after (effects e)))
  | .number .., _ | .boolean .., _ => by
    intro s W k t
    rw [visit, effects] <;> first
      | exact .result rfl (fun _ => rfl) (fun _ => rfl) rfl (fun _ => rfl) rfl t (.refl s W)
      | (intros; contradiction)
  | .string .., _ => by
    intro s W k t
    rw [visit, effects] <;> first
      | exact .warn (.pure (t.note _) (.none rfl (.note (.refl s W) _)))
      | (intros; contradiction)
  | .identifier x line, _ => by
    intro s W k t
    rw [effects] <;> first | exact (identifier_goes x line t).mono fun _ _ _ _ hr => hr.1 | (intros; contradiction)
  | .call f args _, h => by
    intro s W k t
    simp only [isExpression, Bool.and_eq_true] at h
    rw [visit, effects]
    cases Builtin.ofName? f with
    | none =>
      exact .bind (arguments_goes h.2 t) fun rs s₁ W₁ t₁ ⟨l₁, hr⟩ => callFunction_goes rfl t₁ l₁ hr
    | some b =>
      cases b with
      | scan => exact .result rfl (fun _ => rfl) (fun _ => rfl) rfl (fun _ => rfl) rfl t (.refl s W)
      | print => exact .bind (first_goes h.2 t) fun o s₁ W₁ t₁ ⟨l₁, ho⟩ => writeNumber_goes rfl t₁ l₁ ho
      | list => exact .bind (first_goes h.2 t) fun o s₁ W₁ t₁ ⟨l₁, ho⟩ => makeList_goes rfl t₁ l₁ ho
      | length => exact .before (first_goes h.2 t) fun o s₁ W₁ t₁ ⟨l₁, ho⟩ => takeLength_goes rfl t₁ l₁ o
  | .element x index _, h => by
    intro s W k t
    simp only [isExpression, Bool.and_eq_true] at h
    rw [visit, effects, operand_expression h.2]
    refine .bind (place_goes x t) fun b s₁ W₁ t₁ ⟨_, hb, l₁⟩ => .bind (expression_goes h.2 t₁) fun _ s₂ W₂ t₂ ⟨l₂, _⟩ =>
      .result rfl (fun _ => rfl) (fun _ => rfl) rfl (fun _ => t₂.check_use (l₂.keep hb) false) rfl t₂ (l₁.trans l₂)
  | .binary left op right _, h => by
    intro s W k t
    simp only [isExpression, Bool.and_eq_true] at h
    rw [visit, effects, operand_expression h.1, operand_expression h.2]
    refine .bind (expression_goes h.1 t) fun a s₁ W₁ t₁ ⟨l₁, ha⟩ => .bind (expression_goes h.2 t₁)
      fun b s₂ W₂ t₂ ⟨l₂, hb⟩ => ?_
    refine .result rfl (fun _ => rfl) (fun _ => rfl) ?_ (fun _ => ?_) ?_ t₂ (l₁.trans l₂)
    · rw [procedures_append, procedures_worth, procedures_worth]
      rfl
    · show (a.toList ++ b.toList).all W₂.contains = _
      rw [List.all_append, (ha.after_effects l₂).reads, hb.reads, Variables.orderly_append, Variables.after_worth]
    · rw [Variables.after_append, Variables.after_worth, Variables.after_worth]
  | .unary _ n _, h => by
    intro s W k t
    simp only [isExpression] at h
    rw [visit, effects]
    refine .warn ?_
    cases hasCode n with
    | false => exact .pure (t.note _) (.none rfl (.note (.refl s W) _))
    | true =>
      exact .before (.discard (expression_goes h (t.note _)) fun _ _ _ hr => hr.1) fun _ s₁ W₁ t₁ l₁ =>
        .pure t₁ (.none rfl (.trans (.note (.refl s W) _) l₁))
  | .ternary condition yes no _, h => by
    intro s W k t
    simp only [isExpression, Bool.and_eq_true] at h
    rw [visit, effects, operand_expression h.1.1, operand_expression h.1.2, operand_expression h.2]
    refine .bind (expression_goes h.1.1 t) fun test s₁ W₁ t₁ ⟨l₁, hc⟩ => .freshLabel (.freshLabel (.allocate
      (.line rfl (procedures_worth _) hc.reads (Variables.after_worth _ _) ?_)))
    have taken : s₁.next ∈ s₁.draw.bank.taken := (s₁.mem_taken_draw _).2 (.inr rfl)
    have free : s₁.next ∉ s.bank.taken := fun hn => s₁.next_notMem (l₁.taken hn)
    refine .bind (expression_goes h.1.2 (t₁.number.number.draw.add _)) fun a s₂ W₂ t₂ ⟨l₂, ha⟩ => .line rfl
      (procedures_worth _) (by rw [reads_mov]; exact ha.reads) (Variables.after_worth _ _) (.sure rfl rfl (.sure rfl rfl ?_))
    have spare := l₂.spare taken t₁.not_has_next
    have written := t₂.write (l₂.taken taken) fun x hx => spare x (.of_home hx)
    refine .bind (expression_goes h.2 (((written.add _).add _).add _)) fun b s₃ W₃ t₃ ⟨l₃, hb⟩ => .last rfl
      (procedures_worth _) (by rw [reads_mov]; exact hb.reads) (Variables.after_worth _ _) (.sure rfl rfl (.pure ?_ ⟨?_, ?_⟩))
    · exact ((t₃.write (l₃.taken (l₂.taken taken)) fun x hx => l₃.spare (l₂.taken taken) spare x (.of_home hx)).add _).add _
    · have later := ((l₁.number.number.draw.add _).trans l₂).write free
      exact ((((((later.add _).add _).add _).trans l₃).write free).add _).add _
    · exact .some rfl List.mem_cons_self (l₃.taken (l₂.taken taken)) (l₃.spare (l₂.taken taken) spare)
  | .array es _, h => by
    intro s W k t
    simp only [isExpression] at h
    rw [visit, effects]
    exact .warn (.before (expressions_goes h (t.note _)) fun _ s₁ W₁ t₁ l₁ => .pure t₁ (.none rfl (.trans (.note (.refl s W) _) l₁)))

theorem first_goes {right : String → Bool} : ∀ {es : List Node}, areExpressions right es = true →
    ∀ ⦃s : Generator⦄ ⦃W : List Reg⦄ ⦃k : Variables⦄, Tracks s W k →
      Goes (visitFirst es) s W k (effectsFirst es) fun o s' W' =>
        Later s W s' W' ∧ HeldFirst (k.after (effectsFirst es)) s' W' es o
  | [], _ => by
    intro s W k t
    rw [visitFirst, effectsFirst]
    exact .pure t ⟨.refl s W, trivial⟩
  | e :: es, h => by
    intro s W k t
    simp only [areExpressions, Bool.and_eq_true] at h
    rw [visitFirst, effectsFirst, operand_expression h.1]
    exact .before (expression_goes h.1 t) fun r s₁ W₁ t₁ hr => .pure t₁ hr

theorem arguments_goes {right : String → Bool} : ∀ {es : List Node}, areExpressions right es = true →
    ∀ ⦃s : Generator⦄ ⦃W : List Reg⦄ ⦃k : Variables⦄, Tracks s W k →
      Goes (visitArguments es) s W k (effectsAll es) fun rs s' W' =>
        Later s W s' W' ∧ HeldAll es (k.after (effectsAll es)) rs s' W'
  | [], _ => by
    intro s W k t
    rw [visitArguments, effectsAll]
    exact .pure t ⟨.refl s W, rfl, nofun⟩
  | e :: es, h => by
    intro s W k t
    simp only [areExpressions, Bool.and_eq_true] at h
    rw [visitArguments, effectsAll, operand_expression h.1]
    refine .bind (expression_goes h.1 t) fun r s₁ W₁ t₁ ⟨l₁, hr⟩ =>
      .before (arguments_goes h.2 t₁) fun rs s₂ W₂ t₂ ⟨l₂, hrs⟩ => .pure t₂ ⟨l₁.trans l₂, ?_, ?_⟩
    · have hr := hr.later l₂ (set_after_of_quiet (k.after (effects e)) (quiet_effectsAll es))
      rw [List.flatMap_cons, List.all_append, hr.reads, hrs.reads, List.flatMap_cons, Variables.orderly_append,
        Variables.after_worth, Variables.after_append]
    · intro q hq
      rcases List.mem_append.1 hq with hq | hq
      · exact l₂.taken (hr.taken q (Option.mem_toList.1 hq))
      · exact hrs.taken q hq

theorem expressions_goes {right : String → Bool} : ∀ {es : List Node}, areExpressions right es = true →
    ∀ ⦃s : Generator⦄ ⦃W : List Reg⦄ ⦃k : Variables⦄, Tracks s W k →
      Goes (visitAll es) s W k (effectsAll es) fun _ s' W' => Later s W s' W'
  | [], _ => by
    intro s W k t
    rw [visitAll, effectsAll]
    exact .pure t (.refl s W)
  | e :: es, h => by
    intro s W k t
    simp only [areExpressions, Bool.and_eq_true] at h
    rw [visitAll, effectsAll, operand_expression h.1]
    exact .bind (expression_goes h.1 t) fun _ s₁ W₁ t₁ ⟨l₁, _⟩ =>
      (expressions_goes h.2 t₁).mono fun _ _ _ _ l₂ => l₁.trans l₂

end

end Gen
end TesLang.Code
