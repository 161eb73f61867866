import TesLang.Proofs.Homes.Trace
/-!
# The uses of a name

Generating with a diary is generating (`Traces.erases`), and what is noted are the names that the tree mentions, one by one
and in the same manners (`Traces.tells`).  The registers noted for a name form a chain (`NameChain`): between two uses of the
name nothing happens to it, and each use takes the register that the name has, or else one that was not taken before
(`Takes`).  `traced_statement` says all this of every statement that holds no function.
-/
namespace TesLang.Code

open Generator Grammar

/-! ### Chains of uses -/

/-- The register that a name has, as far as uses in this manner know. -/
def Manner.sought (k : Manner) (s : Generator) (x : String) : Option Reg :=
  match k with
  | .looped => s.vars.find? x
  | _ => s.home x

structure Idle (x : String) (s s' : Generator) : Prop where
  params : s'.params = s.params
  vars : s'.vars.find? x = s.vars.find? x
  taken : ∀ {q}, q ∈ s.bank.taken → q ∈ s'.bank.taken

/-- **A name is used**: the register that it has, or one that was not taken.  If the name is more than read, it has that
register from now on. -/
structure Takes (x : String) (k : Manner) (r : Reg) (s s' : Generator) : Prop where
  params : s'.params = s.params
  taken : ∀ {q}, q ∈ s.bank.taken → q ∈ s'.bank.taken
  found : (k.sought s x = some r ∧ s'.vars.find? x = s.vars.find? x) ∨
    (k.sought s x = none ∧ r ∉ s.bank.taken ∧ r ∈ s'.bank.taken ∧
      s'.vars.find? x = if k = .read then s.vars.find? x else some r)

/-- The uses of a name on the way from one generator to another. -/
inductive NameChain (x : String) : Generator → List NameUse → Generator → Prop where
  | idle {s s' : Generator} (h : Idle x s s') : NameChain x s [] s'
  | use {s s₀ s₁ s' : Generator} {u : NameUse} {us : List NameUse} (before : Idle x s s₀) (h : Takes x u.manner u.reg s₀ s₁)
      (rest : NameChain x s₁ us s') : NameChain x s (u :: us) s'

theorem Idle.refl (x : String) (s : Generator) : Idle x s s := ⟨rfl, rfl, id⟩

theorem Idle.trans {x : String} {s s' s'' : Generator} (h : Idle x s s') (h' : Idle x s' s'') : Idle x s s'' :=
  ⟨h'.params.trans h.params, h'.vars.trans h.vars, fun hq => h'.taken (h.taken hq)⟩

theorem Takes.vars_eq_some {x : String} {k : Manner} {r v : Reg} {s s' : Generator} (h : Takes x k r s s')
    (hv : s.vars.find? x = some v) : s'.vars.find? x = some v := by
  rcases h.found with ⟨-, same⟩ | ⟨none, -, -, set⟩
  · exact same.trans hv
  · cases k with
    | looped => simp [Manner.sought, hv] at none
    | declared | settled | read => simp [Manner.sought, Generator.home, hv] at none

theorem Takes.vars_ne {x : String} {k : Manner} {r q : Reg} {s s' : Generator} (h : Takes x k r s s')
    (hq : q ∈ s.bank.taken) (hv : s.vars.find? x ≠ some q) : s'.vars.find? x ≠ some q := by
  rcases h.found with ⟨-, same⟩ | ⟨-, free, -, set⟩
  · rw [same]
    exact hv
  · rw [set]
    split
    · exact hv
    · rintro ⟨⟩
      exact free hq

namespace NameChain

variable {x : String} {s s' s'' : Generator} {us vs : List NameUse}

theorem after (h : Idle x s s') : NameChain x s' us s'' → NameChain x s us s''
  | .idle h' => .idle (h.trans h')
  | .use before next rest => .use (h.trans before) next rest

theorem append (h : NameChain x s us s') (h' : NameChain x s' vs s'') : NameChain x s (us ++ vs) s'' := by
  induction h with
  | idle h => exact h'.after h
  | use before next _ ih => exact .use before next (ih h')

theorem vars_eq_some (h : NameChain x s us s') {r : Reg} (hr : s.vars.find? x = some r) : s'.vars.find? x = some r := by
  induction h with
  | idle h => exact h.vars.trans hr
  | use before next _ ih => exact ih (next.vars_eq_some (before.vars.trans hr))

end NameChain

/-- **What a diary tells of the way from one generator to another**: the names in their manners, and a chain of registers for
each name. -/
def Told (ms : List Mention) (d d' : Diary) : Prop :=
  ∃ us, d'.uses = d.uses ++ us ∧ us.map NameUse.toMention = ms ∧ ∀ x, NameChain x d.gen (us.filter (·.name = x)) d'.gen

namespace Told

theorem nothing {d d' : Diary} (uses : d'.uses = d.uses) (idle : ∀ x, Idle x d.gen d'.gen) : Told [] d d' :=
  ⟨[], by rw [uses, List.append_nil], rfl, fun x => .idle (idle x)⟩

theorem trans {ms ms' : List Mention} {d d' d'' : Diary} (h : Told ms d d') (h' : Told ms' d' d'') :
    Told (ms ++ ms') d d'' := by
  obtain ⟨us, hu, hm, chain⟩ := h
  obtain ⟨us', hu', hm', chain'⟩ := h'
  refine ⟨us ++ us', by rw [hu', hu, List.append_assoc], by rw [List.map_append, hm, hm'], fun x => ?_⟩
  rw [List.filter_append]
  exact (chain x).append (chain' x)

theorem one {x : String} {k : Manner} {r : Reg} {d : Diary} {s' : Generator} (h : Takes x k r d.gen s')
    (others : ∀ y, x ≠ y → Idle y d.gen s') : Told [⟨x, k⟩] d ⟨s', d.uses ++ [⟨⟨x, k⟩, r⟩]⟩ := by
  refine ⟨[⟨⟨x, k⟩, r⟩], rfl, rfl, fun y => ?_⟩
  by_cases hy : x = y
  · subst hy
    simp only [List.filter_cons, decide_true, if_true, List.filter_nil]
    exact .use (.refl x _) h (.idle (.refl x s'))
  · simp only [List.filter_cons, hy, decide_false, Bool.false_eq_true, if_false, List.filter_nil]
    exact .idle (others y hy)

theorem vars_eq_some {ms : List Mention} {d d' : Diary} (h : Told ms d d') {x : String} {v : Reg}
    (hv : d.gen.vars.find? x = some v) : d'.gen.vars.find? x = some v := by
  obtain ⟨us, -, -, chain⟩ := h
  exact (chain x).vars_eq_some hv

end Told

/-! ### Single steps -/

theorem Idle.draw (y : String) (s : Generator) : Idle y s s.draw := ⟨rfl, rfl, fun hq => (s.mem_taken_draw _).2 (.inl hq)⟩

theorem Idle.settle {x y : String} (h : x ≠ y) (s : Generator) : Idle y s (s.settle x) where
  params := rfl
  vars := by rw [settle_vars, Bindings.find?_insert, if_neg h]
  taken hq := (s.mem_taken_draw _).2 (.inl hq)

namespace Takes

variable {x : String} {k : Manner} {r : Reg} {s : Generator}

theorem held (h : k.sought s x = some r) : Takes x k r s s := ⟨rfl, id, .inl ⟨h, rfl⟩⟩

theorem held_draw (h : k.sought s x = some r) : Takes x k r s s.draw := ⟨rfl, (Idle.draw x s).taken, .inl ⟨h, rfl⟩⟩

theorem stray (h : s.home x = none) : Takes x .read s.next s s.draw :=
  ⟨rfl, (Idle.draw x s).taken, .inr ⟨h, s.next_notMem, (s.mem_taken_draw _).2 (.inr rfl), rfl⟩⟩

theorem settle (h : k.sought s x = none) (hk : k ≠ .read) : Takes x k s.next s (s.settle x) := by
  refine ⟨rfl, (Idle.draw x s).taken, .inr ⟨h, s.next_notMem, (s.mem_taken_draw _).2 (.inr rfl), ?_⟩⟩
  rw [if_neg hk, settle_vars, Bindings.find?_insert, if_pos rfl]

end Takes

namespace Gen

def Quiet {α : Type} (m : Gen α) : Prop := Steady (fun s s' => ∀ x, Idle x s s') m

namespace Quiet

variable {α β : Type}

theorem pure (a : α) : Quiet (pure a) := Steady.pure (fun s x => .refl x s) a

theorem bind {m : Gen α} {f : α → Gen β} (first : Quiet m) (rest : ∀ a, Quiet (f a)) : Quiet (m >>= f) :=
  Steady.bind (R := fun s s' => ∀ x, Idle x s s') (fun h h' x => (h x).trans (h' x)) first rest

theorem emit (l : Line) : Quiet (emit l) := by
  intro s u s' h x
  obtain rfl := ran_emit.1 h
  exact ⟨rfl, rfl, id⟩

theorem warn (kind : String) : Quiet (warn kind) := by
  intro s u s' h x
  obtain rfl := ran_warn.1 h
  exact ⟨rfl, rfl, id⟩

theorem freshLabel (stem : String) : Quiet (freshLabel stem) := by
  intro s l s' h x
  obtain ⟨-, rfl⟩ := ran_freshLabel.1 h
  exact ⟨rfl, rfl, id⟩

theorem allocate : Quiet allocate := by
  intro s r s' h x
  obtain ⟨-, rfl⟩ := ran_allocate.1 h
  exact .draw x s

theorem last (l : Line) (a : α) : Quiet (do Gen.emit l; Pure.pure a) := .bind (emit l) fun _ => .pure a

theorem argumentRegs : ∀ (i : Nat) (args : List (Option Reg)), Quiet (argumentRegs i args)
  | _, [] => .pure []
  | _, none :: _ => fun _ _ _ h => (ran_throw h).elim
  | i, some r :: rest => .bind (argumentRegs (i + 1) rest) fun rs => .pure (r :: rs)

theorem readNumber : Quiet readNumber := .bind .allocate fun _ => .last _ _

theorem writeNumber (r : Option (Option Reg)) : Quiet (writeNumber r) := by
  cases r with
  | some r => exact .last _ _
  | none => exact .bind .allocate fun _ => .bind (.emit _) fun _ => .last _ _

theorem makeList (r : Option (Option Reg)) : Quiet (makeList r) := by
  cases r with
  | some size => exact .bind .allocate fun _ => .last _ _
  | none => exact .bind .allocate fun _ => .bind .allocate fun _ => .bind (.emit _) fun _ => .last _ _

theorem takeLength (r : Option (Option Reg)) : Quiet (takeLength r) := by
  cases r with
  | some _ => exact .bind .allocate fun _ => .last _ _
  | none => exact .pure none

theorem callFunction (name : String) (args : List (Option Reg)) : Quiet (callFunction name args) :=
  .bind .allocate fun _ => .bind (.argumentRegs 0 args) fun _ => .last _ _

end Quiet

/-! ### Steps with a diary -/

section
variable {α β : Type}

@[simp] theorem ran_plainly {m : Gen α} {d d' : Diary} {a : α} :
    Ran (plainly m) d a d' ↔ ∃ g, Ran m d.gen a g ∧ d' = { d with gen := g } := by
  unfold Ran plainly EStateM.run
  dsimp only
  cases m d.gen with
  | ok b g => simp [eq_comm (a := d')]
  | error e g => simp

@[simp] theorem ran_note {x : String} {k : Manner} {r : Reg} {d d' : Diary} {u : Unit} :
    Ran (note x k r) d u d' ↔ d' = { d with uses := d.uses ++ [⟨⟨x, k⟩, r⟩] } := ran_modify

/-- **Generating with a diary**: it is the same as generating without it, and it tells of the mentioned names. -/
structure Traces (t : Tracing α) (m : Gen α) (ms : List Mention) : Prop where
  erases : Carries Diary.gen (fun a => a) t m
  tells : Steady (Told ms) t

theorem carries_plainly (m : Gen α) : Carries Diary.gen (fun a => a) (plainly m) m := by
  intro d
  unfold plainly EStateM.run
  dsimp only
  cases m d.gen <;> rfl

theorem carries_note {x : String} {k : Manner} {r : Reg} {t : Unit → Tracing α} {m : Gen α}
    (h : Carries Diary.gen (fun a => a) (t ()) m) : Carries Diary.gen (fun a => a) (note x k r >>= t) m :=
  fun d => h { d with uses := d.uses ++ [⟨⟨x, k⟩, r⟩] }

namespace Traces

variable {t : Tracing α} {m : Gen α} {t' : α → Tracing β} {m' : α → Gen β} {ms ms' : List Mention}

theorem pure (a : α) : Traces (pure a) (pure a) [] :=
  ⟨.pure rfl, Steady.pure (fun _ => .nothing rfl fun x => .refl x _) a⟩

theorem bind (first : Traces t m ms) (rest : ∀ a, Traces (t' a) (m' a) ms') :
    Traces (t >>= t') (m >>= m') (ms ++ ms') := by
  refine ⟨first.erases.bind fun a => (rest a).erases, fun d b d' h => ?_⟩
  obtain ⟨a, d₁, h₁, h₂⟩ := ran_bind.1 h
  exact (first.tells d a d₁ h₁).trans ((rest a).tells d₁ b d' h₂)

theorem plainly (h : Quiet m) : Traces (plainly m) m [] := by
  refine ⟨carries_plainly m, fun d a d' hr => ?_⟩
  obtain ⟨g, hg, rfl⟩ := ran_plainly.1 hr
  exact .nothing rfl (h d.gen a g hg)

theorem after {m : Gen α} (h : Quiet m) (rest : ∀ a, Traces (t' a) (m' a) ms) :
    Traces (Gen.plainly m >>= t') (m >>= m') ms := (plainly h).bind rest

theorem before (first : Traces t m ms) (rest : ∀ a, Traces (t' a) (m' a) []) : Traces (t >>= t') (m >>= m') ms :=
  List.append_nil ms ▸ first.bind rest

theorem discard (h : Traces t m ms) : Traces (discard t) (discard m) ms := by
  refine ⟨h.erases.discard, fun d u d' hr => ?_⟩
  obtain ⟨a, hr⟩ := ran_discard.1 hr
  exact h.tells d a d' hr

end Traces

end

/-! ### Names that are noted -/

theorem traces_read (x : String) (line : Int) : Traces (tracedRead x) (visit (.identifier x line)) [⟨x, .read⟩] := by
  rw [visit]
  constructor
  · refine (carries_plainly (place? x)).bind fun r => ?_
    cases r with
    | some r => exact carries_note (.pure rfl)
    | none => exact (carries_plainly allocate).bind fun r => carries_note (.pure rfl)
  · intro d r d' h
    unfold tracedRead at h
    simp only [ran_bind, ran_plainly, ran_place?] at h
    obtain ⟨_, _, ⟨_, ⟨rfl, rfl⟩, rfl⟩, h⟩ := h
    cases hx : d.gen.home x with
    | some q =>
      simp only [hx, ran_bind, ran_note, ran_pure] at h
      obtain ⟨_, _, rfl, -, rfl⟩ := h
      exact .one (.held hx) fun y _ => .refl y _
    | none =>
      simp only [hx, ran_bind, ran_plainly, ran_allocate, ran_note, ran_pure] at h
      obtain ⟨_, _, ⟨_, ⟨rfl, rfl⟩, rfl⟩, _, _, rfl, -, rfl⟩ := h
      exact .one (.stray hx) fun y _ => .draw y _

theorem told_place {x : String} {k : Manner} (hk : k = .declared ∨ k = .settled) {d : Diary} {s' : Generator} {r : Reg}
    (h : Ran (place x) d.gen r s') : Told [⟨x, k⟩] d ⟨s', d.uses ++ [⟨⟨x, k⟩, r⟩]⟩ := by
  have sought : k.sought d.gen x = d.gen.home x := by rcases hk with rfl | rfl <;> rfl
  rcases ran_place.1 h with ⟨hx, rfl⟩ | ⟨hx, rfl, rfl⟩
  · exact .one (.held (sought.trans hx)) fun y _ => .refl y _
  · exact .one (.settle (sought.trans hx) (by rcases hk with rfl | rfl <;> decide)) fun y hy => .settle hy _

theorem traces_base (x : String) : Traces (tracedBase x) (place x) [⟨x, .settled⟩] := by
  constructor
  · rw [← bind_pure (place x)]
    exact (carries_plainly (place x)).bind fun r => carries_note (.pure rfl)
  · intro d r d' h
    unfold tracedBase at h
    simp only [ran_bind, ran_plainly, ran_note, ran_pure] at h
    obtain ⟨_, _, ⟨g, hg, rfl⟩, _, _, rfl, rfl, rfl⟩ := h
    exact told_place (.inr rfl) hg

theorem traces_declare (x : String) : Traces (tracedDeclare x) (declare x) [⟨x, .declared⟩] := by
  constructor
  · refine (carries_plainly (place? x)).bind fun r => ?_
    cases r with
    | some r => exact Carries.modify fun _ => rfl
    | none => exact (carries_plainly (place x)).bind fun r => carries_note (carries_plainly _)
  · intro d u d' h
    unfold tracedDeclare at h
    simp only [ran_bind, ran_plainly, ran_place?] at h
    obtain ⟨_, _, ⟨_, ⟨rfl, rfl⟩, rfl⟩, h⟩ := h
    cases hx : d.gen.home x with
    | some q =>
      simp only [hx, ran_note] at h
      obtain rfl := h
      exact .one (.held hx) fun y _ => .refl y _
    | none =>
      simp only [hx, ran_bind, ran_plainly, ran_note, ran_emit] at h
      obtain ⟨r, _, ⟨g, hg, rfl⟩, _, _, rfl, _, rfl, rfl⟩ := h
      exact (told_place (.inl rfl) hg).trans (.nothing rfl fun y => ⟨rfl, rfl, id⟩)

theorem told_assign {x : String} {d : Diary} {r : Reg} {s' : Generator} (h : Owns d.gen x r s') :
    Told [⟨x, .settled⟩] d ⟨s', d.uses ++ [⟨⟨x, .settled⟩, r⟩]⟩ := by
  rcases h with ⟨hp, rfl⟩ | ⟨hp, h⟩
  · exact .one (.held (home_eq_some.2 (.inl hp))) fun y _ => .refl y _
  · rcases ran_ownPlace.1 h with ⟨hv, rfl⟩ | ⟨hv, rfl, rfl⟩
    · exact .one (.held_draw (home_eq_some.2 (.inr ⟨hp, hv⟩))) fun y _ => .draw y _
    · have unknown : d.gen.home x = none := by
        unfold Generator.home
        rw [hp, hv]
        rfl
      exact .one (.settle unknown (by decide)) fun y hy => .settle hy _

theorem traces_assign (x : String) (value : Option Reg) :
    Traces (tracedAssign x value) (assign x value) [⟨x, .settled⟩] := by
  have move (r : Reg) : Traces (if value ≠ some r then plainly (emit (.mov r (.ofReg value))) else pure ())
      (if value ≠ some r then emit (.mov r (.ofReg value)) else pure ()) [] := by
    split
    · exact .plainly (.emit _)
    · exact .pure ()
  constructor
  · refine (carries_plainly get).bind fun s => ?_
    dsimp only
    cases s.params.find? x with
    | some r =>
      dsimp only
      rw [pure_bind]
      exact carries_note (move r).erases
    | none => exact (carries_plainly (ownPlace x)).bind fun r => carries_note (move r).erases
  · intro d u d' h
    unfold tracedAssign at h
    simp only [ran_bind, ran_plainly, ran_get] at h
    obtain ⟨_, _, ⟨_, ⟨rfl, rfl⟩, rfl⟩, h⟩ := h
    cases hp : d.gen.params.find? x with
    | some r =>
      simp only [hp] at h
      rw [pure_bind] at h
      obtain ⟨_, _, hn, h⟩ := ran_bind.1 h
      obtain rfl := ran_note.1 hn
      exact (told_assign (.inl ⟨hp, rfl⟩)).trans ((move r).tells _ _ _ h)
    | none =>
      simp only [hp] at h
      obtain ⟨r, _, ho, h⟩ := ran_bind.1 h
      obtain ⟨g, own, rfl⟩ := ran_plainly.1 ho
      obtain ⟨_, _, hn, h⟩ := ran_bind.1 h
      obtain rfl := ran_note.1 hn
      exact (told_assign (.inr ⟨hp, own⟩)).trans ((move r).tells _ _ _ h)

/-! ### Expressions -/

theorem traced_call {f : String} {args : List Node} {line : Int}
    (first : Traces (tracedFirst args) (visitFirst args) (mentionsFirst args))
    (all : Traces (tracedArguments args) (visitArguments args) (mentionsAll args)) :
    Traces (traced (.call f args line)) (visit (.call f args line)) (mentions (.call f args line)) := by
  rw [traced, visit, mentions]
  cases Builtin.ofName? f with
  | none => exact .before all fun rs => .plainly (.callFunction f rs)
  | some b =>
    cases b with
    | scan => exact .plainly .readNumber
    | print => exact .before first fun r => .plainly (.writeNumber r)
    | list => exact .before first fun r => .plainly (.makeList r)
    | length => exact .before first fun r => .plainly (.takeLength r)

mutual

theorem traced_expression : ∀ {e : Node}, isExpression isWord e = true → Traces (traced e) (visit e) (mentions e)
  | .number .., _ | .boolean .., _ => by
    rw [traced, mentions, visit]
    exact .plainly (.bind .allocate fun _ => .last _ _)
  | .string .., _ => by
    rw [traced, mentions, visit]
    exact .plainly (.bind (.warn _) fun _ => .pure none)
  | .identifier x line, _ => by
    rw [traced, mentions]
    exact traces_read x line
  | .element x index _, h => by
    simp only [isExpression, Bool.and_eq_true] at h
    rw [traced, visit, operand_expression h.2, mentions]
    exact .bind (traces_base x) fun _ => .before (traced_expression h.2) fun _ => .after .allocate fun _ =>
      .after (.emit _) fun _ => .pure _
  | .binary left _ right _, h => by
    simp only [isExpression, Bool.and_eq_true] at h
    rw [traced, visit, operand_expression h.1, operand_expression h.2, mentions]
    exact .bind (traced_expression h.1) fun _ => .before (traced_expression h.2) fun _ => .after .allocate fun _ =>
      .after (.emit _) fun _ => .pure _
  | .ternary condition yes no _, h => by
    simp only [isExpression, Bool.and_eq_true] at h
    rw [traced, visit, operand_expression h.1.1, operand_expression h.1.2, operand_expression h.2, mentions]
    exact .bind (traced_expression h.1.1) fun _ => .after (.freshLabel _) fun _ => .after (.freshLabel _) fun _ =>
      .after .allocate fun _ => .after (.emit _) fun _ => .bind (traced_expression h.1.2) fun _ => .after (.emit _) fun _ =>
      .after (.emit _) fun _ => .after (.emit _) fun _ => .before (traced_expression h.2) fun _ => .after (.emit _) fun _ =>
      .after (.emit _) fun _ => .pure _
  | .unary _ e _, h => by
    rw [isExpression] at h
    rw [traced, visit, mentions]
    refine .after (.warn _) fun _ => ?_
    split
    · exact .before (traced_expression h).discard fun _ => .pure none
    · exact .pure none
  | .array es _, h => by
    rw [isExpression] at h
    rw [traced, visit, mentions]
    exact .after (.warn _) fun _ => .before (traced_expressions h) fun _ => .pure none
  | .call f args _, h => by
    simp only [isExpression, Bool.and_eq_true] at h
    exact traced_call (traced_first h.2) (traced_arguments h.2)

theorem traced_first : ∀ {es : List Node}, areExpressions isWord es = true →
    Traces (tracedFirst es) (visitFirst es) (mentionsFirst es)
  | [], _ => by
    rw [tracedFirst, visitFirst, mentionsFirst]
    exact .pure none
  | e :: _, h => by
    simp only [areExpressions, Bool.and_eq_true] at h
    rw [tracedFirst, visitFirst, operand_expression h.1, mentionsFirst]
    exact .before (traced_expression h.1) fun r => .pure (some r)

theorem traced_arguments : ∀ {es : List Node}, areExpressions isWord es = true →
    Traces (tracedArguments es) (visitArguments es) (mentionsAll es)
  | [], _ => by
    rw [tracedArguments, visitArguments, mentionsAll]
    exact .pure []
  | e :: es, h => by
    simp only [areExpressions, Bool.and_eq_true] at h
    rw [tracedArguments, visitArguments, operand_expression h.1, mentionsAll]
    exact .bind (traced_expression h.1) fun r => .before (traced_arguments h.2) fun rs => .pure (r :: rs)

theorem traced_expressions : ∀ {es : List Node}, areExpressions isWord es = true →
    Traces (tracedAll es) (visitAll es) (mentionsAll es)
  | [], _ => by
    rw [tracedAll, visitAll, mentionsAll]
    exact .pure ()
  | e :: es, h => by
    simp only [areExpressions, Bool.and_eq_true] at h
    rw [tracedAll, visitAll, operand_expression h.1, mentionsAll]
    exact .bind (traced_expression h.1) fun _ => traced_expressions h.2

end

/-! ### Statements -/

theorem told_ownPlace {x : String} {v : Reg} {d : Diary} {s' : Generator} (h : Ran (ownPlace x) d.gen v s') :
    Told [⟨x, .looped⟩] d ⟨s', d.uses ++ [⟨⟨x, .looped⟩, v⟩]⟩ ∧ s'.vars.find? x = some v := by
  rcases ran_ownPlace.1 h with ⟨hv, rfl⟩ | ⟨hv, rfl, rfl⟩
  · exact ⟨.one (.held_draw hv) fun y _ => .draw y _, hv⟩
  · refine ⟨.one (.settle hv (by decide)) fun y hy => .settle hy _, ?_⟩
    rw [settle_vars, Bindings.find?_insert, if_pos rfl]

/-- What is told in a loop over `x`, which has the register `v` as a variable. -/
def Looping (x : String) (v : Reg) {α : Type} (t : Tracing α) (ms : List Mention) : Prop :=
  ∀ d a d', d.gen.vars.find? x = some v → Ran t d a d' → Told ms d d'

namespace Looping

variable {α β : Type} {x : String} {v : Reg} {t : Tracing α} {t' : α → Tracing β} {ms ms' : List Mention}

theorem of_traces {m : Gen α} (h : Traces t m ms) : Looping x v t ms := fun d a d' _ run => h.tells d a d' run

theorem bind (first : Looping x v t ms) (rest : ∀ a, Looping x v (t' a) ms') : Looping x v (t >>= t') (ms ++ ms') := by
  intro d b d' hv run
  obtain ⟨a, d₁, run₁, run₂⟩ := ran_bind.1 run
  have told := first d a d₁ hv run₁
  exact told.trans (rest a d₁ b d' (told.vars_eq_some hv) run₂)

theorem after {m : Gen α} (h : Quiet m) (rest : ∀ a, Looping x v (t' a) ms) : Looping x v (plainly m >>= t') ms :=
  (of_traces (.plainly h)).bind rest

theorem note {t' : Unit → Tracing β} (rest : Looping x v (t' ()) ms) :
    Looping x v (note x .looped v >>= t') (⟨x, .looped⟩ :: ms) := by
  have one : Looping x v (Gen.note x .looped v) [⟨x, .looped⟩] := by
    intro d u d' hv run
    obtain rfl := ran_note.1 run
    exact .one (.held hv) fun y _ => .refl y _
  exact one.bind fun _ => rest

end Looping

theorem traced_forLoop {x : String} {start stop body : Node} {line : Int} (h₁ : isExpression isWord start = true)
    (h₂ : isExpression isWord stop = true) (hb : Traces (traced body) (visit body) (mentions body)) :
    Traces (traced (.forLoop x start stop body line)) (visit (.forLoop x start stop body line))
      (mentions (.forLoop x start stop body line)) := by
  have e₁ := traced_expression h₁
  have e₂ := traced_expression h₂
  rw [traced, visit, operand_expression h₁, operand_expression h₂, mentions]
  constructor
  · have plain {α : Type} (m : Gen α) := carries_plainly m
    exact e₁.erases.bind fun _ => e₂.erases.bind fun _ => (plain _).bind fun _ => carries_note ((plain _).bind fun _ =>
      (plain _).bind fun _ => (plain _).bind fun _ => (plain _).bind fun _ => (plain _).bind fun _ =>
      carries_note ((plain _).bind fun _ => (plain _).bind fun _ => hb.erases.bind fun _ => (plain _).bind fun _ =>
      (plain _).bind fun _ => carries_note ((plain _).bind fun _ => (plain _).bind fun _ => (plain _).bind fun _ => .pure rfl)))
  · intro d r d' run
    obtain ⟨_, d₁, run₁, run⟩ := ran_bind.1 run
    obtain ⟨_, d₂, run₂, run⟩ := ran_bind.1 run
    obtain ⟨v, _, run₃, run⟩ := ran_bind.1 run
    obtain ⟨g, own, rfl⟩ := ran_plainly.1 run₃
    obtain ⟨_, _, run₄, run⟩ := ran_bind.1 run
    obtain rfl := ran_note.1 run₄
    obtain ⟨told, has⟩ := told_ownPlace own
    have rest := Looping.after (v := v) (.emit _) (fun _ => .after (.freshLabel _) fun _ => .after (.freshLabel _) fun _ =>
      .after (.emit _) fun _ => .after .allocate fun _ => .note (.after (.emit _) fun _ => .after (.emit _) fun _ =>
      .bind (.of_traces hb) fun _ => .after .allocate fun _ => .after (.emit _) fun _ => .note (.after (.emit _) fun _ =>
      .after (.emit _) fun _ => .after (.emit _) fun _ => .of_traces (.pure none)))) _ _ _ has run
    exact (e₁.tells d _ d₁ run₁).trans ((e₂.tells d₁ _ d₂ run₂).trans (told.trans rest))

mutual

/-- **Generating a statement with a diary**, if no function is in it. -/
theorem traced_statement : ∀ {n : Node}, isStatement n = true → plain n = true → Traces (traced n) (visit n) (mentions n)
  | .declaration x _ _, _, _ => by
    rw [traced, visit, mentions]
    exact .before (traces_declare x) fun _ => .pure none
  | .assignment target value _, h, _ => by
    obtain ⟨hv, ⟨x, rfl, -⟩ | ⟨x, index, k, rfl, -, hi⟩⟩ := isStatement_assignment.1 h
    · rw [traced, visit, operand_expression hv, mentions]
      exact .bind (traced_expression hv) fun r => .before (traces_assign x r) fun _ => .pure none
    · rw [traced, visit, operand_expression hv, operand_expression hi, mentions]
      exact .bind (traced_expression hv) fun _ => .bind (traces_base x) fun _ => .before (traced_expression hi) fun _ =>
        .after (.emit _) fun _ => .pure none
  | .call f args _, h, _ => by
    simp only [isStatement, Bool.and_eq_true] at h
    exact traced_call (traced_first h.2) (traced_arguments h.2)
  | .ret value _, h, _ => by
    rw [traced, visit, mentions]
    have returned : Traces (traced value) (returned value (visit value)) (mentions value) := by
      rcases isStatement_ret.1 h with rfl | h
      · rw [traced, visit, mentions]
        exact .plainly (.pure none)
      · rw [returned_expression h]
        exact traced_expression h
    refine .before returned fun r => ?_
    cases r with
    | some r => exact .after (.emit _) fun _ => .after (.emit _) fun _ => .pure none
    | none => exact .after (.emit _) fun _ => .after (.emit _) fun _ => .pure none
  | .branch condition yes no _, h, hp => by
    obtain ⟨hc, hy, hn⟩ := isStatement_branch.1 h
    simp only [plain, Bool.and_eq_true] at hp
    rw [traced, visit, operand_expression hc, mentions]
    have otherwise : Traces (traced no) (visit no) (mentions no) := by
      rcases hn with rfl | hn
      · rw [traced, visit, mentions]
        exact .plainly (.pure none)
      · exact traced_statement hn hp.2
    exact .bind (traced_expression hc) fun _ => .after (.freshLabel _) fun _ => .after (.freshLabel _) fun _ =>
      .after (.emit _) fun _ => .bind (traced_statement hy hp.1.2) fun _ => .after (.emit _) fun _ => .after (.emit _) fun _ =>
      .before otherwise fun _ => .after (.emit _) fun _ => .pure none
  | .whileLoop condition body _, h, hp => by
    simp only [isStatement, Bool.and_eq_true] at h
    simp only [plain, Bool.and_eq_true] at hp
    rw [traced, visit, operand_expression h.1, mentions]
    exact .after (.freshLabel _) fun _ => .after (.freshLabel _) fun _ => .after (.emit _) fun _ =>
      .bind (traced_expression h.1) fun _ => .after (.emit _) fun _ => .before (traced_statement h.2 hp.2) fun _ =>
      .after (.emit _) fun _ => .after (.emit _) fun _ => .pure none
  | .doLoop body condition _, h, hp => by
    simp only [isStatement, Bool.and_eq_true] at h
    simp only [plain, Bool.and_eq_true] at hp
    have hb : body ≠ .nothing := by
      rintro rfl
      simp [isStatement] at h
    rw [traced, visit, operand_expression h.2, doBody_eq hb, mentions]
    exact .after (.freshLabel _) fun _ => .after (.emit _) fun _ => .bind (traced_statement h.1 hp.1) fun _ =>
      .before (traced_expression h.2) fun _ => .after (.emit _) fun _ => .pure none
  | .forLoop x start stop body _, h, hp => by
    obtain ⟨-, h₁, h₂, -⟩ := isStatement_forLoop.1 h
    simp only [plain, Bool.and_eq_true] at hp
    exact traced_forLoop h₁ h₂ (traced_statement (isStatement_loopBody h) hp.2)
  | .block ss _, h, hp | .several ss, h, hp => by
    rw [isStatement] at h
    rw [plain] at hp
    rw [traced, visit, mentions]
    exact .before (traced_statements h hp) fun _ => .pure none

theorem traced_statements : ∀ {ns : List Node}, areStatements ns = true → plainAll ns = true →
    Traces (tracedAll ns) (visitAll ns) (mentionsAll ns)
  | [], _, _ => by
    rw [tracedAll, visitAll, mentionsAll]
    exact .pure ()
  | n :: ns, h, hp => by
    simp only [areStatements, Bool.and_eq_true, Bool.not_eq_true'] at h
    simp only [plainAll, Bool.and_eq_true] at hp
    rw [tracedAll, visitAll, operand_statement h.1.1 h.1.2, mentionsAll]
    exact .bind (traced_statement h.1.2 hp.1) fun _ => traced_statements h.2 hp.2

end

theorem traced_own {ns : List Node} (h : areStatements ns = true)
    (hd : ∀ n ∈ ns, n.isFunction = true ∨ plain n = true) : Traces (tracedOwn ns) (visitOwn ns) (mentionsOwn ns) := by
  induction ns with
  | nil =>
    rw [tracedOwn, visitOwn, mentionsOwn]
    exact .pure ()
  | cons n ns ih =>
    simp only [areStatements, Bool.and_eq_true, Bool.not_eq_true'] at h
    rw [List.forall_mem_cons] at hd
    rw [tracedOwn, visitOwn, mentionsOwn]
    by_cases hn : n.isFunction = true
    · rw [hn]
      exact ih h.2 hd.2
    · rw [Bool.eq_false_iff.2 hn, operand_statement h.1.1 h.1.2]
      exact .bind (traced_statement h.1.2 (hd.1.resolve_left hn)).discard fun _ => ih h.2 hd.2

/-- **The code of a function by itself has a diary**, which tells of its own statements from where its parameters have their
registers. -/
theorem usesOf_codeOf {k : Nat} {name returnType : String} {ps ss : List Node} {line : Int} {c : List Line}
    (hp : ps.all isParameter = true) (hs : areStatements ss = true)
    (hd : direct (.function name (.several ps) returnType (.several ss) line) = true)
    (hc : codeOf k (.function name (.several ps) returnType (.several ss) line) = some c) :
    ∃ us s₀ d, usesOf k (.function name (.several ps) returnType (.several ss) line) = some (c, us) ∧
      Placed (parameterNames (.several ps)) s₀ ∧ Told (mentionsOwn ss) { gen := s₀ } d ∧ d.uses = us := by
  have own := traced_own hs fun n hn => by simpa using List.all_eq_true.1 hd n hn
  have erases : Carries Diary.gen (fun a => a) (tracedFunction (.function name (.several ps) returnType (.several ss) line))
      (visit (.function name (.several ps) returnType (.several ss) line)) := by
    rw [visit_procedure, bodyCode]
    exact (carries_plainly _).bind fun _ => own.erases.bind fun _ => (carries_plainly _).bind fun _ => .pure rfl
  obtain ⟨r, g, run, rfl⟩ := codeOf_eq_some.1 hc
  obtain ⟨_, d, traced, rfl, rfl⟩ := erases.ran (s := { gen := { labels := k } }) run
  have uses : usesOf k (.function name (.several ps) returnType (.several ss) line) =
      some (d.gen.code.toList, d.uses) := by
    unfold Ran at traced
    rw [usesOf, traced]
  unfold tracedFunction at traced
  simp only [ran_bind, ran_plainly, ran_pure] at traced
  obtain ⟨_, _, ⟨s₀, opened, rfl⟩, _, d₁, body, _, _, ⟨_, -, rfl⟩, -, rfl⟩ := traced
  exact ⟨_, s₀, d₁, uses, (openProc_placed hp opened).1, own.tells _ _ _ body, rfl⟩

end Gen
end TesLang.Code
