import Mathlib.Data.List.Nodup
import Mathlib.Data.List.Perm.Subperm
import TesLang.Proofs.Generation.Outline
import TesLang.Proofs.Generation.Walk
/-!
# Registers while code is generated

A bank never hands out a register that is taken (`Bank.free_notMem`), so a generator keeps its registers apart
(`Generator.Sound`): parameters and variables have registers of their own, none of them the first one, and all of them
are taken.

While the statements of one function are walked the generator only goes on (`Generator.Grows`): lines are added at the
end, what is taken stays taken, and a name that has a register keeps it.  A register that a name gets later on was free
before.  `visit_advances` says so of every node that holds no function; a function starts its registers anew.
-/
namespace TesLang.Code

namespace Bank

theorem nodup_candidates (b : Bank) : (b.candidates.map Reg.mk).Nodup := by
  unfold candidates
  rw [List.map_map]
  refine List.Nodup.map (fun i j h => ?_) List.nodup_range
  simp only [Function.comp_apply, Reg.mk.injEq] at h
  omega

/-- **The register that is handed out next is not taken**: there is one candidate more than registers are taken. -/
theorem free_notMem (b : Bank) : (⟨b.free⟩ : Reg) ∉ b.taken := by
  unfold free
  cases h : b.candidates.find? fun i => !b.taken.contains ⟨i⟩ with
  | some i =>
    have hi := List.find?_some h
    simpa using hi
  | none =>
    exfalso
    have hall : ∀ r ∈ b.candidates.map Reg.mk, r ∈ b.taken := by
      intro r hr
      obtain ⟨i, hi, rfl⟩ := List.mem_map.1 hr
      have := List.find?_eq_none.1 h i hi
      simpa using this
    have hlen := (List.subperm_of_subset b.nodup_candidates hall).length_le
    simp only [candidates, List.length_map, List.length_range] at hlen
    omega

@[simp] theorem mem_taken_allocate (b : Bank) (q : Reg) :
    q ∈ b.allocate.2.taken ↔ q ∈ b.taken ∨ q = b.allocate.1 := by
  unfold allocate
  exact mem_taken_reserve b _ q

end Bank

namespace Generator

theorem next_notMem (s : Generator) : s.next ∉ s.bank.taken := s.bank.free_notMem

theorem mem_taken_draw (s : Generator) (q : Reg) : q ∈ s.draw.bank.taken ↔ q ∈ s.bank.taken ∨ q = s.next :=
  Bank.mem_taken_allocate _ _

/-- **Registers are kept apart**: no two parameters or variables share one, none has the first one, and all of these
registers are taken. -/
structure Sound (s : Generator) : Prop where
  result : Reg.result ∈ s.bank.taken
  params_taken : ∀ {x r}, s.params.find? x = some r → r ∈ s.bank.taken ∧ r ≠ Reg.result
  vars_taken : ∀ {x r}, s.vars.find? x = some r → r ∈ s.bank.taken ∧ r ≠ Reg.result
  params_inj : ∀ {x y r}, s.params.find? x = some r → s.params.find? y = some r → x = y
  vars_inj : ∀ {x y r}, s.vars.find? x = some r → s.vars.find? y = some r → x = y
  apart : ∀ {x y r}, s.params.find? x = some r → s.vars.find? y ≠ some r

/-- **The generator only goes on.** -/
structure Grows (s s' : Generator) : Prop where
  code : ∃ new, s'.code.toList = s.code.toList ++ new
  taken : ∀ {q}, q ∈ s.bank.taken → q ∈ s'.bank.taken
  params : s'.params = s.params
  keep : ∀ {x r}, s.home x = some r → s'.home x = some r
  fresh : ∀ {x r}, s'.home x = some r → s.home x = some r ∨ r ∉ s.bank.taken

theorem Sound.home_taken {s : Generator} (h : s.Sound) {x : String} {r : Reg} (hx : s.home x = some r) :
    r ∈ s.bank.taken ∧ r ≠ Reg.result := by
  rcases home_eq_some.1 hx with hx | ⟨-, hx⟩
  · exact h.params_taken hx
  · exact h.vars_taken hx

theorem Sound.home_inj {s : Generator} (h : s.Sound) {x y : String} {r : Reg} (hx : s.home x = some r)
    (hy : s.home y = some r) : x = y := by
  rcases home_eq_some.1 hx with hx | ⟨-, hx⟩ <;> rcases home_eq_some.1 hy with hy | ⟨-, hy⟩
  · exact h.params_inj hx hy
  · exact (h.apart hx hy).elim
  · exact (h.apart hy hx).elim
  · exact h.vars_inj hx hy

namespace Grows

theorem refl (s : Generator) : Grows s s := ⟨⟨[], by simp⟩, id, rfl, id, .inl⟩

theorem trans {s s' s'' : Generator} (h : Grows s s') (h' : Grows s' s'') : Grows s s'' where
  code := by
    obtain ⟨a, ha⟩ := h.code
    obtain ⟨b, hb⟩ := h'.code
    exact ⟨a ++ b, by rw [hb, ha, List.append_assoc]⟩
  taken hq := h'.taken (h.taken hq)
  params := h'.params.trans h.params
  keep hx := h'.keep (h.keep hx)
  fresh hx := by
    rcases h'.fresh hx with hx | hx
    · exact h.fresh hx
    · exact .inr fun ht => hx (h.taken ht)

end Grows

def Advances (s s' : Generator) : Prop := s.Sound → s'.Sound ∧ s.Grows s'

theorem Advances.refl (s : Generator) : Advances s s := fun h => ⟨h, .refl s⟩

theorem Advances.trans {s s' s'' : Generator} (h : Advances s s') (h' : Advances s' s'') : Advances s s'' := by
  intro hs
  obtain ⟨hs', hg⟩ := h hs
  obtain ⟨hs'', hg'⟩ := h' hs'
  exact ⟨hs'', hg.trans hg'⟩

theorem Sound.of_same {s s' : Generator} (h : s.Sound) (bank : s'.bank = s.bank) (params : s'.params = s.params)
    (vars : s'.vars = s.vars) : s'.Sound := by
  refine ⟨?_, ?_, ?_, ?_, ?_, ?_⟩
  all_goals (try rw [bank]); (try rw [params]); (try rw [vars])
  · exact h.result
  · exact h.params_taken
  · exact h.vars_taken
  · exact h.params_inj
  · exact h.vars_inj
  · exact h.apart

theorem Advances.of_same {s s' : Generator} (new : List Line) (code : s'.code.toList = s.code.toList ++ new)
    (bank : s'.bank = s.bank) (params : s'.params = s.params) (vars : s'.vars = s.vars) : Advances s s' := by
  have home : ∀ x, s'.home x = s.home x := fun x => by unfold home; rw [params, vars]
  intro h
  exact ⟨h.of_same bank params vars, ⟨new, code⟩, fun hq => bank ▸ hq, params, fun hx => home _ ▸ hx,
    fun hx => .inl (home _ ▸ hx)⟩

end Generator

namespace Gen

open Generator

def Advancing {α : Type} (m : Gen α) : Prop := Steady Advances m

namespace Advancing

theorem emit (l : Line) : Advancing (emit l) := by
  intro s u s' h
  obtain rfl := ran_emit.1 h
  exact .of_same [l] (by simp) rfl rfl rfl

theorem warn (kind : String) : Advancing (warn kind) := by
  intro s u s' h
  obtain rfl := ran_warn.1 h
  exact .of_same [] (by simp) rfl rfl rfl

theorem freshLabel (stem : String) : Advancing (freshLabel stem) := by
  intro s l s' h
  obtain ⟨-, rfl⟩ := ran_freshLabel.1 h
  exact .of_same [] (by simp) rfl rfl rfl

theorem allocate : Advancing allocate := by
  intro s r s' h
  obtain ⟨-, rfl⟩ := ran_allocate.1 h
  intro hs
  have mono : ∀ {q}, q ∈ s.bank.taken → q ∈ s.bank.allocate.2.taken := fun hq =>
    (Bank.mem_taken_allocate _ _).2 (.inl hq)
  refine ⟨⟨mono hs.result, fun hx => ?_, fun hx => ?_, hs.params_inj, hs.vars_inj, hs.apart⟩, ⟨[], by simp⟩, mono, rfl,
    id, .inl⟩
  · exact ⟨mono (hs.params_taken hx).1, (hs.params_taken hx).2⟩
  · exact ⟨mono (hs.vars_taken hx).1, (hs.vars_taken hx).2⟩

end Advancing

end Gen

/-! ### Single steps, forwards and backwards -/

namespace Generator

section
variable {s sf : Generator}

theorem Sound.add (h : s.Sound) (l : Line) : (s.add l).Sound := h.of_same rfl rfl rfl

theorem Sound.number (h : s.Sound) : s.number.Sound := h.of_same rfl rfl rfl

theorem Sound.draw (h : s.Sound) : s.draw.Sound := (Gen.Advancing.allocate s _ _ (Gen.ran_allocate.2 ⟨rfl, rfl⟩) h).1

theorem Grows.of_add {l : Line} (h : (s.add l).Grows sf) : s.Grows sf where
  code := by
    obtain ⟨new, hn⟩ := h.code
    exact ⟨l :: new, by simp [hn]⟩
  taken := h.taken
  params := h.params
  keep := h.keep
  fresh := h.fresh

theorem Grows.of_number (h : s.number.Grows sf) : s.Grows sf := ⟨h.code, h.taken, h.params, h.keep, h.fresh⟩

theorem Grows.of_draw (h : s.draw.Grows sf) : s.Grows sf where
  code := h.code
  taken hq := h.taken ((s.mem_taken_draw _).2 (.inl hq))
  params := h.params
  keep := h.keep
  fresh hx := (h.fresh hx).imp_right fun hn ht => hn ((s.mem_taken_draw _).2 (.inl ht))

theorem Grows.isPrefix {prog : List Line} (h : s.Grows sf) (hp : sf.code.toList <+: prog) : s.code.toList <+: prog := by
  obtain ⟨new, hn⟩ := h.code
  exact List.IsPrefix.trans ⟨new, hn.symm⟩ hp

theorem Grows.home_ne_next (h : s.draw.Grows sf) (hs : s.Sound) (x : String) : sf.home x ≠ some s.next := by
  intro hx
  rcases h.fresh hx with hx | hx
  · exact s.next_notMem (hs.home_taken hx).1
  · exact hx ((s.mem_taken_draw _).2 (.inr rfl))

end

/-- A parameter gets register `i`. -/
def bindParam (s : Generator) (name : String) (i : Nat) : Generator :=
  { s with
    params := s.params.insert name ⟨i⟩
    bank := (s.bank.reserve ⟨i⟩).moveTo (max s.bank.current (i + 1)) }

theorem mem_taken_bindParam {s : Generator} {name : String} {i : Nat} {q : Reg} :
    q ∈ (bindParam s name i).bank.taken ↔ q ∈ s.bank.taken ∨ q = ⟨i⟩ := Bank.mem_taken_reserve _ _ _

theorem sound_bindParam {s : Generator} {name : String} {i : Nat} (hs : s.Sound) (hi : 0 < i)
    (below : ∀ q ∈ s.bank.taken, q.index < i) : (bindParam s name i).Sound := by
  have free : (⟨i⟩ : Reg) ∉ s.bank.taken := fun h => Int.lt_irrefl _ (below _ h)
  have found : ∀ {x r}, (bindParam s name i).params.find? x = some r →
      (name = x ∧ r = ⟨i⟩) ∨ (name ≠ x ∧ s.params.find? x = some r) := by
    intro x r h
    rw [bindParam, Bindings.find?_insert] at h
    split at h
    · next e => cases h; exact .inl ⟨e, rfl⟩
    · next e => exact .inr ⟨e, h⟩
  refine ⟨mem_taken_bindParam.2 (.inl hs.result), fun h => ?_, fun h => ?_, fun h h' => ?_, hs.vars_inj, fun h h' => ?_⟩
  · rcases found h with ⟨-, rfl⟩ | ⟨-, h⟩
    · refine ⟨mem_taken_bindParam.2 (.inr rfl), fun h => ?_⟩
      have : (i : Int) = 0 := congrArg Reg.index h
      omega
    · exact ⟨mem_taken_bindParam.2 (.inl (hs.params_taken h).1), (hs.params_taken h).2⟩
  · exact ⟨mem_taken_bindParam.2 (.inl (hs.vars_taken h).1), (hs.vars_taken h).2⟩
  · rcases found h with ⟨rfl, rfl⟩ | ⟨-, h⟩ <;> rcases found h' with ⟨rfl, e⟩ | ⟨-, h'⟩
    · rfl
    · exact (free (hs.params_taken h').1).elim
    · exact (free (e ▸ (hs.params_taken h).1)).elim
    · exact hs.params_inj h h'
  · rcases found h with ⟨-, rfl⟩ | ⟨-, h⟩
    · exact free (hs.vars_taken h').1
    · exact hs.apart h h'

theorem vars_settle {s : Generator} {x y : String} {r : Reg} (h : (s.settle x).vars.find? y = some r) :
    (x = y ∧ r = s.next) ∨ (x ≠ y ∧ s.vars.find? y = some r) := by
  rw [settle_vars, Bindings.find?_insert] at h
  split at h
  · next e => cases h; exact .inl ⟨e, rfl⟩
  · next e => exact .inr ⟨e, h⟩

theorem Sound.settle {s : Generator} (hs : s.Sound) (x : String) : (s.settle x).Sound := by
  have mono : ∀ {q}, q ∈ s.bank.taken → q ∈ (s.settle x).bank.taken := fun hq =>
    (Bank.mem_taken_allocate _ _).2 (.inl hq)
  have free := s.next_notMem
  refine ⟨mono hs.result, fun hy => ?_, fun hy => ?_, hs.params_inj, fun hy hz => ?_, fun hy hz => ?_⟩
  · exact ⟨mono (hs.params_taken hy).1, (hs.params_taken hy).2⟩
  · rcases vars_settle hy with ⟨-, rfl⟩ | ⟨-, hy⟩
    · exact ⟨(Bank.mem_taken_allocate _ _).2 (.inr rfl), fun h => free (h ▸ hs.result)⟩
    · exact ⟨mono (hs.vars_taken hy).1, (hs.vars_taken hy).2⟩
  · rcases vars_settle hy with ⟨rfl, rfl⟩ | ⟨-, hy⟩ <;> rcases vars_settle hz with ⟨rfl, h⟩ | ⟨-, hz⟩
    · rfl
    · exact (free (hs.vars_taken hz).1).elim
    · exact (free (h ▸ (hs.vars_taken hy).1)).elim
    · exact hs.vars_inj hy hz
  · rcases vars_settle hz with ⟨-, rfl⟩ | ⟨-, hz⟩
    · exact free (hs.params_taken hy).1
    · exact hs.apart hy hz

end Generator

namespace Gen

open Generator

theorem settle_advances {s : Generator} {x : String} (hx : s.vars.find? x = none) : Advances s (s.settle x) := by
  intro hs
  refine ⟨hs.settle x, ⟨[], by simp⟩, fun hq => (Bank.mem_taken_allocate _ _).2 (.inl hq), rfl, fun hy => ?_, fun hy => ?_⟩
  · rcases home_eq_some.1 hy with hy | ⟨hn, hy⟩
    · exact home_eq_some.2 (.inl hy)
    · refine home_eq_some.2 (.inr ⟨hn, ?_⟩)
      rw [settle_vars, Bindings.find?_insert, if_neg, hy]
      rintro rfl
      rw [hx] at hy
      cases hy
  · rcases home_eq_some.1 hy with hy | ⟨hn, hy⟩
    · exact .inl (home_eq_some.2 (.inl hy))
    · rcases vars_settle hy with ⟨-, rfl⟩ | ⟨-, hy⟩
      · exact .inr s.next_notMem
      · exact .inl (home_eq_some.2 (.inr ⟨hn, hy⟩))

namespace Advancing

theorem place (x : String) : Advancing (place x) := by
  intro s r s' h
  rcases ran_place.1 h with ⟨-, rfl⟩ | ⟨hn, -, rfl⟩
  · exact .refl _
  · refine settle_advances ?_
    unfold home at hn
    exact (Option.or_eq_none_iff.1 hn).2

theorem ownPlace (x : String) : Advancing (ownPlace x) := by
  intro s r s' h
  rcases ran_ownPlace.1 h with ⟨-, rfl⟩ | ⟨hn, -, rfl⟩
  · exact allocate s _ _ (ran_allocate.2 ⟨rfl, rfl⟩)
  · exact settle_advances hn

end Advancing

theorem Owns.home {s s' : Generator} {x : String} {r : Reg} (h : Owns s x r s') : s'.home x = some r := by
  rcases h with ⟨h, rfl⟩ | ⟨hp, h⟩
  · exact home_eq_some.2 (.inl h)
  · rcases ran_ownPlace.1 h with ⟨hv, rfl⟩ | ⟨-, rfl, rfl⟩
    · exact home_eq_some.2 (.inr ⟨hp, hv⟩)
    · rw [home_settle, if_pos rfl, hp]
      rfl

theorem Owns.code {s s' : Generator} {x : String} {r : Reg} (h : Owns s x r s') : s'.code = s.code := by
  rcases h with ⟨-, rfl⟩ | ⟨-, h⟩
  · rfl
  · rcases ran_ownPlace.1 h with ⟨-, rfl⟩ | ⟨-, -, rfl⟩ <;> rfl

theorem Owns.advances {s s' : Generator} {x : String} {r : Reg} (h : Owns s x r s') : Advances s s' := by
  rcases h with ⟨-, rfl⟩ | ⟨-, h⟩
  · exact .refl _
  · exact Advancing.ownPlace x _ _ _ h

/-! ### Nodes -/

/-- What is added has an outline, and if there is no head of a procedure in it, the generator has only gone on. -/
def Going (s s' : Generator) : Prop :=
  ∃ es, outlineIn s'.code.toList = outlineIn s.code.toList ++ es ∧ (headsOf es = [] → Advances s s')

namespace Going

theorem refl (s : Generator) : Going s s := ⟨[], (List.append_nil _).symm, fun _ => .refl s⟩

theorem trans {s s' s'' : Generator} (h : Going s s') (h' : Going s' s'') : Going s s'' := by
  obtain ⟨es, lines, advances⟩ := h
  obtain ⟨es', lines', advances'⟩ := h'
  refine ⟨es ++ es', by rw [lines', lines, List.append_assoc], fun none => ?_⟩
  obtain ⟨none, none'⟩ := List.append_eq_nil_iff.1 ((headsOf_append es es').symm.trans none)
  exact (advances none).trans (advances' none')

theorem step {α : Type} {m : Gen α} {es : List Entry} (lines : Outlines m es) (h : Advancing m) : Steady Going m :=
  fun s a s' hr => ⟨es, lines s a s' hr, fun _ => h s a s' hr⟩

theorem procedure (name : String) (params : Node) (returnType : String) {code : Gen Unit} (h : Steady Going code) :
    Steady Going (procedure name params returnType code) := by
  intro s t s' hr
  obtain ⟨_, s₁, h₁, hr⟩ := ran_bind.1 hr
  obtain ⟨_, s₂, h₂, hr⟩ := ran_bind.1 hr
  obtain ⟨_, s₃, h₃, h₄⟩ := ran_bind.1 hr
  obtain ⟨-, rfl⟩ := ran_pure.1 h₄
  obtain ⟨es, lines, -⟩ := h _ _ _ h₂
  refine ⟨.head name :: es, ?_, nofun⟩
  rw [Outlines.closeProc returnType _ _ _ h₃, lines, Outlines.openProc name params _ _ _ h₁]
  simp

end Going

theorem stepwise_going : Stepwise fun {_} m => Steady Going m where
  pure := Steady.pure Going.refl
  throw := Steady.throw
  bind := Steady.bind (R := Going) Going.trans
  discard h s u s' hr := by
    obtain ⟨a, hr⟩ := ran_discard.1 hr
    exact h s a s' hr
  say _ _ _ := .step (.emit _) (.emit _)
  allocate := .step .allocate .allocate
  warn kind := .step (.warn kind) (.warn kind)
  ask _ h s a s' hr := h s s a s' ((ran_get.2 ⟨rfl, rfl⟩ : Ran get s s s).bind_iff.1 hr)
  place x := .step (.place x) (.place x)
  ownPlace x := .step (.ownPlace x) (.ownPlace x)
  procedure := Going.procedure
  emit _ := .step (.emit _) (.emit _)
  freshLabel stem := .step (.freshLabel stem) (.freshLabel stem)

theorem Going.advancing {α : Type} {m : Gen α} {es : List Entry} (h : Steady Going m) (lines : Outlines m es)
    (none : headsOf es = []) : Advancing m := by
  intro s a s' hr
  obtain ⟨es', lines', advances⟩ := h s a s' hr
  obtain rfl := List.append_cancel_left ((lines s a s' hr).symm.trans lines')
  exact advances none

/-- **Walking a node that holds no function only goes on.** -/
theorem visit_advances (n : Node) (h : plain n = true) : Advancing (visit n) :=
  Going.advancing (stepwise_going.shaped.has (.visit n)) (visit_outlines n) (headsOf_plain h)

theorem visitArguments_advances (ns : List Node) (h : plainAll ns = true) : Advancing (visitArguments ns) :=
  Going.advancing (stepwise_going.shaped.has (.visitArguments ns)) (visitArguments_outlines ns) (headsOf_plainAll h)

theorem visitAll_advances (ns : List Node) (h : plainAll ns = true) : Advancing (visitAll ns) :=
  Going.advancing (stepwise_going.shaped.has (.visitAll ns)) (visitAll_outlines ns) (headsOf_plainAll h)

end Gen
end TesLang.Code
