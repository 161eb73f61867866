import TesLang.Proofs.Generation.Outline
import TesLang.Proofs.WellFormed.Text
/-!
# Steps that leave nothing out

Where a value is wanted that no register holds, an operand is missing, or the generator gives up.  Each step of the
generator is checked for that (`Writes`): from a generator that is in order, a run of the step adds lines in which nothing
is missing if and only if some condition is met; and if it is, there is a run.
-/
namespace TesLang.Code

open Grammar

/-! ### Generators in order -/

theorem Reg.Unsigned.of_mem {r : Reg} (h : r.Unsigned) : ∀ q ∈ some r, q.Unsigned := by
  rintro q ⟨⟩
  exact h

theorem Bank.current_le_free (b : Bank) : b.current ≤ b.free := by
  unfold free
  cases h : b.candidates.find? fun i => !b.taken.contains ⟨i⟩ with
  | none => exact Int.le_refl _
  | some i =>
    obtain ⟨k, -, rfl⟩ := List.mem_map.1 (List.mem_of_find?_eq_some h)
    exact Int.le_add_of_nonneg_right (Int.natCast_nonneg k)

namespace Generator

/-- All lines are spelled right, and no register is below the first. -/
structure Proper (s : Generator) : Prop where
  lines : ∀ l ∈ s.code.toList, l.Spelled
  point : 0 ≤ s.bank.current
  params : ∀ x r, s.params.find? x = some r → r.Unsigned
  vars : ∀ x r, s.vars.find? x = some r → r.Unsigned

def complete (s : Generator) : Bool := s.code.toList.all Line.complete

variable {s : Generator}

theorem Proper.home (h : s.Proper) {x : String} : ∀ r ∈ s.home x, r.Unsigned := by
  intro r hr
  rcases home_eq_some.1 hr with hr | ⟨-, hr⟩
  · exact h.params x r hr
  · exact h.vars x r hr

theorem Proper.next (h : s.Proper) : s.next.Unsigned := Int.le_trans h.point s.bank.current_le_free

theorem Proper.draw (h : s.Proper) : s.draw.Proper :=
  ⟨h.lines, Int.le_add_one h.next, h.params, h.vars⟩

theorem Proper.settle (h : s.Proper) (x : String) : (s.settle x).Proper := by
  refine ⟨h.lines, h.draw.point, h.params, fun y r hr => ?_⟩
  rw [settle_vars, Bindings.find?_insert] at hr
  split at hr
  · cases hr
    exact h.next
  · exact h.vars y r hr

theorem Proper.add (h : s.Proper) {l : Line} (hl : l.Spelled) : (s.add l).Proper := by
  refine ⟨fun k hk => ?_, h.point, h.params, h.vars⟩
  rw [add_code, Array.toList_push, List.mem_append, List.mem_singleton] at hk
  rcases hk with hk | rfl
  · exact h.lines k hk
  · exact hl

end Generator

namespace Gen

theorem not_ran_procedure_text {f returnType : String} {code : Gen Unit} {s s' : Generator} {r : Option Reg} :
    ¬ Ran (procedure f (.text ")") returnType code) s r s' := by
  have stuck : ∀ s u s', ¬ Ran (placeParameters (.text ")")) s u s' := by
    intro s u s' h
    simp [placeParameters, Node.isEmpty, placeParams, Node.name?] at h
  intro hr
  unfold procedure openProc at hr
  simp only [ran_bind] at hr
  obtain ⟨u, s₃, ⟨_, s₁, -, _, s₂, -, h⟩, -⟩ := hr
  exact stuck s₂ u s₃ h

/-! ### Steps that are checked -/

/-- From a generator in order, a run of `m` leads to one in order with a result that has the property `P`, and nothing is
missing in the lines that it adds if and only if `ok`; and if `ok`, there is such a run. -/
structure Writes {α : Type} (m : Gen α) (ok : Bool) (P : α → Prop) : Prop where
  ends : ∀ {s a s'}, s.Proper → Ran m s a s' → s'.Proper ∧ P a ∧ s'.complete = (s.complete && ok)
  runs : ok = true → ∀ {s}, s.Proper → ∃ a s', Ran m s a s'

def Holds (v : Bool) (r : Option Reg) : Prop := r.isSome = v ∧ ∀ q ∈ r, q.Unsigned

theorem Holds.some {r : Reg} (h : r.Unsigned) : Holds true (some r) := ⟨rfl, h.of_mem⟩

theorem Holds.none : Holds false none := ⟨rfl, nofun⟩

namespace Writes

variable {α β : Type} {m : Gen α} {f : α → Gen β} {ok ok' : Bool} {P : α → Prop} {Q : β → Prop}

theorem pure {a : α} (h : P a) : Writes (pure a) true P where
  ends hs hr := by
    obtain ⟨rfl, rfl⟩ := ran_pure.1 hr
    exact ⟨hs, h, (Bool.and_true _).symm⟩
  runs _ _ _ := ⟨a, _, ran_pure.2 ⟨rfl, rfl⟩⟩

theorem throw (e : Fault) : Writes (throw e : Gen α) false P where
  ends _ hr := (ran_throw hr).elim
  runs h := nomatch h

theorem bind (first : Writes m ok P) (rest : ∀ a, P a → Writes (f a) ok' Q) : Writes (m >>= f) (ok && ok') Q where
  ends hs hr := by
    obtain ⟨a, s₁, h₁, h₂⟩ := ran_bind.1 hr
    obtain ⟨hs₁, ha, hc₁⟩ := first.ends hs h₁
    obtain ⟨hs', hb, hc⟩ := (rest a ha).ends hs₁ h₂
    exact ⟨hs', hb, by rw [hc, hc₁, Bool.and_assoc]⟩
  runs h s hs := by
    obtain ⟨hok, hok'⟩ := Bool.and_eq_true_iff.1 h
    obtain ⟨a, s₁, h₁⟩ := first.runs hok hs
    obtain ⟨hs₁, ha, -⟩ := first.ends hs h₁
    obtain ⟨b, s', h₂⟩ := (rest a ha).runs hok' hs₁
    exact ⟨b, s', ran_bind.2 ⟨a, s₁, h₁, h₂⟩⟩

theorem after (first : Writes m true P) (rest : ∀ a, P a → Writes (f a) ok Q) : Writes (m >>= f) ok Q := .bind first rest

theorem before (first : Writes m ok P) (rest : ∀ a, P a → Writes (f a) true Q) : Writes (m >>= f) ok Q :=
  Bool.and_true ok ▸ .bind first rest

theorem mono {R : α → Prop} (h : Writes m ok P) (hR : ∀ a, P a → R a) : Writes m ok R where
  ends hs hr := by
    obtain ⟨hs', ha, hc⟩ := h.ends hs hr
    exact ⟨hs', hR _ ha, hc⟩
  runs := h.runs

theorem of_eq (h : Writes m ok P) (he : ok = ok') : Writes m ok' P := he ▸ h

theorem discard (h : Writes m ok P) : Writes (discard m) ok fun _ => True where
  ends hs hr := by
    obtain ⟨a, hr⟩ := ran_discard.1 hr
    obtain ⟨hs', -, hc⟩ := h.ends hs hr
    exact ⟨hs', trivial, hc⟩
  runs hok _ hs := by
    obtain ⟨a, s', hr⟩ := h.runs hok hs
    exact ⟨⟨⟩, s', ran_discard.2 ⟨a, hr⟩⟩

theorem modify {g : Generator → Generator} (proper : ∀ s : Generator, s.Proper → (g s).Proper)
    (code : ∀ s, (g s).code = s.code) : Writes (modify g : Gen Unit) true fun _ => True where
  ends hs hr := by
    obtain rfl := ran_modify.1 hr
    refine ⟨proper _ hs, trivial, ?_⟩
    rw [Generator.complete, code, Bool.and_true, Generator.complete]
  runs _ s _ := ⟨(), g s, ran_modify.2 rfl⟩

theorem get : Writes (get : Gen Generator) true Generator.Proper where
  ends hs hr := by
    obtain ⟨rfl, rfl⟩ := ran_get.1 hr
    exact ⟨hs, hs, (Bool.and_true _).symm⟩
  runs _ s _ := ⟨s, s, ran_get.2 ⟨rfl, rfl⟩⟩

theorem emit {l : Line} (h : l.Spelled) : Writes (emit l) l.complete fun _ => True where
  ends {s a s'} hs hr := by
    obtain rfl := ran_emit.1 hr
    refine ⟨hs.add h, trivial, ?_⟩
    simp [Generator.complete]
  runs _ s _ := ⟨(), s.add l, ran_emit.2 rfl⟩

theorem emit_of {l : Line} (h : l.Spelled) (hc : l.complete = ok) : Writes (Gen.emit l) ok fun _ => True := hc ▸ .emit h

theorem allocate : Writes allocate true Reg.Unsigned where
  ends hs hr := by
    obtain ⟨rfl, rfl⟩ := ran_allocate.1 hr
    exact ⟨hs.draw, hs.next, (Bool.and_true _).symm⟩
  runs _ s _ := ⟨s.next, s.draw, ran_allocate.2 ⟨rfl, rfl⟩⟩

theorem freshLabel {stem : String} (h : stem ∈ stems) : Writes (freshLabel stem) true fun l => l.stem ∈ stems where
  ends hs hr := by
    obtain ⟨rfl, rfl⟩ := ran_freshLabel.1 hr
    exact ⟨⟨hs.lines, hs.point, hs.params, hs.vars⟩, h, (Bool.and_true _).symm⟩
  runs _ s _ := ⟨_, s.number, ran_freshLabel.2 ⟨rfl, rfl⟩⟩

theorem warn (kind : String) : Writes (warn kind) true fun _ => True :=
  .modify (fun _ hs => ⟨hs.lines, hs.point, hs.params, hs.vars⟩) fun _ => rfl

theorem place? (x : String) : Writes (place? x) true fun o => ∀ r ∈ o, r.Unsigned :=
  .after .get fun _ hs => .pure hs.home

theorem place (x : String) : Writes (place x) true Reg.Unsigned where
  ends hs hr := by
    obtain ⟨hh, rfl⟩ | ⟨-, rfl, rfl⟩ := ran_place.1 hr
    · exact ⟨hs, hs.home _ hh, (Bool.and_true _).symm⟩
    · exact ⟨hs.settle x, hs.next, (Bool.and_true _).symm⟩
  runs _ s _ := by
    cases hh : s.home x with
    | some r => exact ⟨r, s, ran_place.2 (.inl ⟨hh, rfl⟩)⟩
    | none => exact ⟨s.next, s.settle x, ran_place.2 (.inr ⟨hh, rfl, rfl⟩)⟩

theorem ownPlace (x : String) : Writes (ownPlace x) true Reg.Unsigned where
  ends hs hr := by
    obtain ⟨hh, rfl⟩ | ⟨-, rfl, rfl⟩ := ran_ownPlace.1 hr
    · exact ⟨hs.draw, hs.vars _ _ hh, (Bool.and_true _).symm⟩
    · exact ⟨hs.settle x, hs.next, (Bool.and_true _).symm⟩
  runs _ s _ := by
    cases hh : s.vars.find? x with
    | some r => exact ⟨r, s.draw, ran_ownPlace.2 (.inl ⟨hh, rfl⟩)⟩
    | none => exact ⟨s.next, s.settle x, ran_ownPlace.2 (.inr ⟨hh, rfl, rfl⟩)⟩

theorem declare {x : String} (h : isWord x = true) : Writes (declare x) true fun _ => True :=
  .after (.place? x) fun
    | some _, _ => .pure trivial
    | none, _ => .after (.place x) fun r _ => .emit (by
      have text : Solid (x ++ "in" ++ r.text) := ((Solid.word h).append (by decide)).append (.reg r)
      simpa [Line.Spelled, Solid, not_or] using text.2)

theorem move {target : Reg} {value : Option Reg} {v : Bool} (ht : target.Unsigned) (hv : Holds v value) :
    Writes (Gen.emit (.mov target (.ofReg value))) v fun _ => True := by
  obtain ⟨rfl, hu⟩ := hv
  cases value with
  | none => exact .emit ⟨ht, nofun⟩
  | some q => exact .emit ⟨ht, fun p hp => by cases hp; exact hu q rfl⟩

theorem assign (x : String) {value : Option Reg} {v : Bool} (hv : Holds v value) :
    Writes (assign x value) v fun _ => True := by
  have move : ∀ r : Reg, r.Unsigned →
      Writes (if value ≠ some r then Gen.emit (.mov r (.ofReg value)) else Pure.pure ()) v fun _ => True := by
    intro r hr
    split
    · exact .move hr hv
    · next he =>
      obtain rfl := Decidable.not_not.1 he
      obtain rfl := hv.1
      exact .pure trivial
  refine .after .get fun s hs => ?_
  dsimp only
  cases hp : s.params.find? x with
  | some r => exact .after (.pure (hs.params x r hp)) move
  | none => exact .after (.ownPlace x) move

/-! ### Procedures -/

theorem placeParams : ∀ {i : Nat} {ps : List Node}, ps.all isParameter = true →
    Writes (placeParams i ps) true fun texts => ∀ t ∈ texts, '\n' ∉ t.toList
  | _, [], _ => .pure (by simp)
  | i, p :: ps, h => by
    obtain ⟨hp, hps⟩ := Bool.and_eq_true_iff.1 (List.all_cons ▸ h)
    cases p with
    | parameter x _ _ =>
      have text : '\n' ∉ (x ++ " => " ++ (Reg.mk i).text).toList := by
        have : Solid (x ++ "=>" ++ (Reg.mk i).text) := ((Solid.word hp).append (by decide)).append (.reg _)
        simpa [Solid, not_or] using this.2
      have unsigned : (Reg.mk (i : Int)).Unsigned := Int.natCast_nonneg i
      refine .after (.modify (fun s hs => ⟨hs.lines, ?_, fun y r hr => ?_, hs.vars⟩) fun _ => rfl) fun _ _ =>
        .after (placeParams hps) fun texts ht => .pure fun t hm => ?_
      · exact Int.le_trans hs.point (Int.le_max_left _ _)
      · rw [Bindings.find?_insert] at hr
        split at hr
        · cases hr
          exact unsigned
        · exact hs.params y r hr
      · rcases List.mem_cons.1 hm with rfl | hm
        · exact text
        · exact ht t hm
    | _ => cases hp

theorem placeParameters {ps : List Node} (h : ps.all isParameter = true) :
    Writes (placeParameters (.several ps)) true fun _ => True := by
  unfold Gen.placeParameters
  split
  · exact .pure trivial
  · refine .after (.pure rfl) fun ps' hps => .after (P := fun texts => ∀ t ∈ texts, '\n' ∉ t.toList) ?_ fun texts ht =>
      .emit ?_
    · subst hps
      exact .placeParams h
    · simpa [Line.Spelled] using newline_notMem_intercalate ht

theorem closeProc (returnType : String) : Writes (closeProc returnType) true fun _ => True := by
  have zero : Line.Spelled (.mov .result (.literal 0)) := ⟨Int.le_refl 0, nofun⟩
  unfold Gen.closeProc
  refine .after .get fun s _ => ?_
  dsimp only
  split
  · split
    · exact .after (.emit zero) fun _ _ => .after (.emit trivial) fun _ _ => .emit trivial
    · exact .after (.emit trivial) fun _ _ => .emit trivial
  · exact .emit trivial

theorem openProc {f : String} (hf : isWord f = true) {ps : List Node} (hp : ps.all isParameter = true) :
    Writes (openProc f (.several ps)) true fun _ => True :=
  .after (.modify (fun _ hs => ⟨hs.lines, Int.le_refl 0, nofun, nofun⟩) fun _ => rfl) fun _ _ =>
    .after (.emit hf) fun _ _ => .placeParameters hp

theorem procedure {f : String} (hf : isWord f = true) {ps : List Node} (hp : ps.all isParameter = true)
    (returnType : String) {code : Gen Unit} (h : Writes code ok fun _ => True) :
    Writes (procedure f (.several ps) returnType code) ok fun _ => True :=
  .after (.openProc hf hp) fun _ _ => .before h fun _ _ => .after (.closeProc returnType) fun _ _ =>
    .pure trivial

theorem procedure_text (f returnType : String) (code : Gen Unit) :
    Writes (Gen.procedure f (.text ")") returnType code) false fun _ => True :=
  ⟨fun _ hr => (not_ran_procedure_text hr).elim, nofun⟩

/-! ### Calls -/

theorem argumentRegs : ∀ (i : Nat) {rs : List (Option Reg)}, (∀ r ∈ rs, ∀ q ∈ r, q.Unsigned) →
    Writes (argumentRegs i rs) (rs.all Option.isSome) fun qs => ∀ q ∈ qs, q.Unsigned
  | _, [], _ => .pure nofun
  | _, none :: _, _ => .throw _
  | i, some r :: rest, h => by
    obtain ⟨hr, hrest⟩ := List.forall_mem_cons.1 h
    exact .before (argumentRegs (i + 1) hrest) fun qs hq => .pure (List.forall_mem_cons.2 ⟨hr r rfl, hq⟩)

theorem callFunction {f : String} (hf : isWord f = true) {rs : List (Option Reg)} (h : ∀ r ∈ rs, ∀ q ∈ r, q.Unsigned) :
    Writes (callFunction f rs) (rs.all Option.isSome && f ≠ "None") (Holds true) :=
  .after .allocate fun _ hr => .bind (.argumentRegs 0 h) fun _ hq =>
    .before (.emit_of ⟨hf, hr, hq⟩ rfl) fun _ _ => .pure (.some hr)

theorem readNumber : Writes readNumber true (Holds true) :=
  .after .allocate fun _ hr => .after (.emit hr) fun _ _ => .pure (.some hr)

theorem zero {r : Reg} (hr : r.Unsigned) : Writes (Gen.emit (.mov r (.literal 0))) true fun _ => True :=
  .emit ⟨hr, nofun⟩

theorem writeNumber : ∀ {o : Option (Option Reg)}, (∀ r ∈ o, ∀ q ∈ r, q.Unsigned) →
    Writes (writeNumber o) (o.all Option.isSome) (Holds false)
  | some r, h => .before (.emit (h r rfl)) fun _ _ => .pure .none
  | none, _ => .after .allocate fun _ hr => .after (.zero hr) fun _ _ =>
    .after (.emit hr.of_mem) fun _ _ => .pure .none

theorem makeList : ∀ {o : Option (Option Reg)}, (∀ r ∈ o, ∀ q ∈ r, q.Unsigned) →
    Writes (makeList o) (o.all Option.isSome) (Holds true)
  | some r, h => .after .allocate fun _ hq => .before (.emit ⟨hq, h r rfl⟩) fun _ _ => .pure (.some hq)
  | none, _ => .after .allocate fun _ hq => .after .allocate fun _ hz => .after (.zero hz) fun _ _ =>
    .after (.emit ⟨hq, hz.of_mem⟩) fun _ _ => .pure (.some hq)

theorem takeLength (o : Option (Option Reg)) : Writes (takeLength o) true (Holds o.isSome) := by
  cases o with
  | some _ => exact .after .allocate fun _ hq => .after (.emit ⟨hq, nofun⟩) fun _ _ => .pure (.some hq)
  | none => exact .pure .none

end Writes

end Gen
end TesLang.Code
