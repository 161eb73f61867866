import TesLang.Proofs.Generation.Registers
import TesLang.Proofs.Written.Events
/-!
# Variables and their registers

While code is generated, the variables that have been set are those whose registers have been written (`Tracks`).  Every
step of the generator keeps it so, and the lines that it adds are in order just as the events are that they come from
(`Goes`).

The value of an expression is read only after other code has been added.  All that an expression writes are registers that
were free before it (`Later`), so what is true of the register of a value stays true until it is read (`Held`).
-/
namespace TesLang.Code

open Generator

/-! ### Lines and events -/

/-- Lines that start the procedures of some events, are in order just as the events are, and have written `W'` at their end
if `W` was written before. -/
structure Follows (W : List Reg) (k : Variables) (es : List Event) (new : List Line) (W' : List Reg) : Prop where
  heads : headsOf (outlineIn new) = (procedures es).map (·.1)
  written : ∀ coming, Written.after ⟨arities es ++ coming, W⟩ new = ⟨coming, W'⟩
  check : ∀ coming, Written.ordered ⟨arities es ++ coming, W⟩ new = k.orderly es

namespace Follows

variable {W W' W'' : List Reg} {k : Variables} {es es' : List Event} {a b : List Line} {l : Line}

theorem nil : Follows W k [] [] W := ⟨rfl, fun _ => rfl, fun _ => rfl⟩

theorem append (h : Follows W k es a W') (h' : Follows W' (k.after es) es' b W'') :
    Follows W k (es ++ es') (a ++ b) W'' where
  heads := by rw [outlineIn_append, headsOf_append, h.heads, h'.heads, procedures_append, List.map_append]
  written coming := by rw [arities_append, List.append_assoc, Written.after_append, h.written, h'.written]
  check coming := by
    rw [arities_append, List.append_assoc, Written.ordered_append, h.check, h.written, h'.check,
      Variables.orderly_append]

theorem line (hl : l.isHead = false) (hp : procedures es = []) (check : l.reads.all W.contains = k.orderly es) :
    Follows W k es [l] (l.writes.toList ++ W) where
  heads := by
    rw [hp]
    cases l with
    | proc _ => cases hl
    | _ => rfl
  written coming := by
    show Written.step _ l = _
    rw [Written.step_of_not_head hl, arities, hp]
    rfl
  check coming := by
    rw [Written.ordered, Written.ordered, Bool.and_true]
    exact check

end Follows

/-! ### Generators -/

namespace Generator

theorem toList_add (s : Generator) (l : Line) : (s.add l).code.toList = s.code.toList ++ [l] := Array.toList_push

def Has (s : Generator) (x : String) (r : Reg) : Prop := s.params.find? x = some r ∨ s.vars.find? x = some r

section
variable {s : Generator} {x y : String} {r : Reg}

theorem Has.of_home (h : s.home x = some r) : s.Has x r := (home_eq_some.1 h).imp_right And.right

theorem not_has (h : s.home x = none) (r : Reg) : ¬ s.Has x r := by
  obtain ⟨hp, hv⟩ := Option.or_eq_none_iff.1 h
  rintro (h | h)
  · exact Option.some_ne_none r (h.symm.trans hp)
  · exact Option.some_ne_none r (h.symm.trans hv)

theorem Sound.taken (hs : s.Sound) (h : s.Has x r) : r ∈ s.bank.taken :=
  h.elim (fun h => (hs.params_taken h).1) fun h => (hs.vars_taken h).1

theorem Sound.has_inj (hs : s.Sound) (h : s.Has x r) (h' : s.Has y r) : x = y := by
  rcases h with h | h <;> rcases h' with h' | h'
  · exact hs.params_inj h h'
  · exact (hs.apart h h').elim
  · exact (hs.apart h' h).elim
  · exact hs.vars_inj h h'

theorem has_settle {q : Reg} (h : (s.settle x).Has y q) : s.Has y q ∨ q = s.next := by
  rcases h with h | h
  · exact .inl (.inl h)
  · rw [settle_vars, Bindings.find?_insert] at h
    split at h
    · cases h
      exact .inr rfl
    · exact .inl (.inr h)

end

end Generator

namespace Gen

variable {s s' : Generator} {x : String} {r : Reg}

theorem has_of_ownPlace (h : Ran (ownPlace x) s r s') : s.vars.find? x = some r ∨ r ∉ s.bank.taken := by
  rcases ran_ownPlace.1 h with ⟨hv, -⟩ | ⟨-, rfl, -⟩
  · exact .inl hv
  · exact .inr s.next_notMem

theorem Owns.has (h : Owns s x r s') : s.Has x r ∨ r ∉ s.bank.taken := by
  rcases h with ⟨hp, -⟩ | ⟨-, h⟩
  · exact .inl (.inl hp)
  · exact (has_of_ownPlace h).imp_left .inr

end Gen

/-- The variables that have registers are those that are bound, and those whose registers have been written are those that
are set. -/
structure Tracks (s : Generator) (W : List Reg) (k : Variables) : Prop where
  sound : s.Sound
  taken : ∀ {r}, r ∈ W → r ∈ s.bank.taken
  bound : ∀ {x}, x ∈ k.bound ↔ ∃ r, s.home x = some r
  set : ∀ {x r}, s.home x = some r → (r ∈ W ↔ x ∈ k.set)
  within : ∀ {x}, x ∈ k.set → x ∈ k.bound
  params : ∀ {x r}, s.params.find? x = some r → x ∈ k.set

namespace Tracks

variable {s : Generator} {W : List Reg} {k : Variables} {x : String} {r : Reg}

theorem add (h : Tracks s W k) (l : Line) : Tracks (s.add l) W k :=
  ⟨h.sound.add l, h.taken, h.bound, h.set, h.within, h.params⟩

theorem number (h : Tracks s W k) : Tracks s.number W k :=
  ⟨h.sound.number, h.taken, h.bound, h.set, h.within, h.params⟩

theorem note (h : Tracks s W k) (kind : String) : Tracks (s.note kind) W k :=
  ⟨⟨h.sound.result, h.sound.params_taken, h.sound.vars_taken, h.sound.params_inj, h.sound.vars_inj, h.sound.apart⟩,
    h.taken, h.bound, h.set, h.within, h.params⟩

theorem draw (h : Tracks s W k) : Tracks s.draw W k :=
  ⟨h.sound.draw, fun hr => (s.mem_taken_draw _).2 (.inl (h.taken hr)), h.bound, h.set, h.within, h.params⟩

theorem next_notMem (h : Tracks s W k) : s.next ∉ W := fun hn => s.next_notMem (h.taken hn)

theorem not_has_next (h : Tracks s W k) (x : String) : ¬ s.Has x s.next := fun hx => s.next_notMem (h.sound.taken hx)

theorem home_eq_none (h : Tracks s W k) : s.home x = none ↔ x ∉ k.bound := by
  rw [h.bound, Option.eq_none_iff_forall_ne_some, not_exists]

theorem check_use (h : Tracks s W k) (hx : s.home x = some r) (plain : Bool) :
    [r].all W.contains = k.orderly [.use x plain] := by
  show (W.contains r && true) = (k.set.contains x && true)
  rw [Bool.eq_iff_iff]
  simp [h.set hx]

theorem write (h : Tracks s W k) (hr : r ∈ s.bank.taken) (spare : ∀ x, s.home x ≠ some r) : Tracks s (r :: W) k where
  sound := h.sound
  taken hq := by
    rcases List.mem_cons.1 hq with rfl | hq
    · exact hr
    · exact h.taken hq
  bound := h.bound
  set {x q} hx := by
    have hne : q ≠ r := fun e => spare x (e ▸ hx)
    rw [List.mem_cons, or_iff_right hne, h.set hx]
  within := h.within
  params := h.params

theorem fill (h : Tracks s W k) : Tracks s.draw (s.next :: W) k :=
  h.draw.write ((s.mem_taken_draw _).2 (.inr rfl)) fun x hx => h.not_has_next x (.of_home hx)

theorem put (h : Tracks s W k) (hx : s.home x = some r) : Tracks s (r :: W) (k.put x) where
  sound := h.sound
  taken hq := by
    rcases List.mem_cons.1 hq with rfl | hq
    · exact (h.sound.home_taken hx).1
    · exact h.taken hq
  bound {y} := by
    rw [Variables.put, List.mem_cons, h.bound]
    exact ⟨fun hy => hy.elim (fun e => ⟨r, e ▸ hx⟩) id, .inr⟩
  set {y q} hy := by
    rw [Variables.put, List.mem_cons, List.mem_cons, h.set hy]
    refine or_congr_left ⟨fun e => h.sound.home_inj hy (e ▸ hx), fun e => ?_⟩
    subst e
    exact Option.some.inj (hy.symm.trans hx)
  within hy := (List.mem_cons.1 hy).elim (fun e => e ▸ List.mem_cons_self) fun hy => List.mem_cons_of_mem _ (h.within hy)
  params hy := List.mem_cons_of_mem _ (h.params hy)

theorem settle (h : Tracks s W k) (hx : s.home x = none) : Tracks (s.settle x) W (k.step (.bind x)) := by
  have none := Option.or_eq_none_iff.1 hx
  have unset : x ∉ k.set := fun hs => h.home_eq_none.1 hx (h.within hs)
  refine ⟨(Gen.settle_advances none.2 h.sound).1, fun hr => (s.mem_taken_draw _).2 (.inl (h.taken hr)), fun {y} => ?_,
    fun {y r} hy => ?_, fun hy => List.mem_cons_of_mem _ (h.within hy), h.params⟩
  · rw [home_settle, none.1]
    show y ∈ x :: k.bound ↔ _
    rw [List.mem_cons, h.bound]
    split
    · next e => exact ⟨fun _ => ⟨_, rfl⟩, fun _ => .inl e.symm⟩
    · next e => rw [or_iff_right (Ne.symm e)]
  · rw [home_settle, none.1] at hy
    show r ∈ W ↔ y ∈ k.set
    split at hy
    · next e =>
      cases hy
      subst e
      exact iff_of_false h.next_notMem unset
    · exact h.set hy

theorem congr {W' : List Reg} {k' : Variables} (h : Tracks s W k) (written : ∀ r, r ∈ W' ↔ r ∈ W)
    (bound : ∀ x, x ∈ k'.bound ↔ x ∈ k.bound) (set : ∀ x, x ∈ k'.set ↔ x ∈ k.set) : Tracks s W' k' where
  sound := h.sound
  taken hr := h.taken ((written _).1 hr)
  bound {x} := (bound x).trans h.bound
  set {x r} hx := by rw [written, set, h.set hx]
  within hx := (bound _).2 (h.within ((set _).1 hx))
  params hx := (set _).2 (h.params hx)

theorem again (h : Tracks s W k) (hr : r ∈ W) : Tracks s (r :: W) k := by
  refine h.congr (fun q => ?_) (fun _ => .rfl) fun _ => .rfl
  rw [List.mem_cons]
  exact or_iff_right_of_imp fun e => e ▸ hr

theorem put_of_mem (h : Tracks s W k) (hx : x ∈ k.set) : Tracks s W (k.put x) := by
  refine h.congr (fun _ => .rfl) (fun y => ?_) fun y => ?_
  · exact List.mem_cons.trans (or_iff_right_of_imp fun e => e ▸ h.within hx)
  · exact List.mem_cons.trans (or_iff_right_of_imp fun e => e ▸ hx)

theorem ownPlace_parameter {s' : Generator} {p : Reg} (h : Tracks s W k) (hp : s.params.find? x = some p)
    (hr : Ran (Gen.ownPlace x) s r s') : Tracks s' (r :: W) (k.put x) := by
  have home : s.home x = some p := home_eq_some.2 (.inl hp)
  rcases Gen.ran_ownPlace.1 hr with ⟨hv, rfl⟩ | ⟨hv, rfl, rfl⟩
  · refine (h.draw.write ((s.mem_taken_draw _).2 (.inl (h.sound.vars_taken hv).1)) fun y hy => ?_).put_of_mem (h.params hp)
    obtain rfl := h.sound.has_inj (.inr hv) (.of_home hy)
    obtain rfl := Option.some.inj (home.symm.trans hy)
    exact h.sound.apart hp hv
  · have same : ∀ y, (s.settle x).home y = s.home y := by
      intro y
      rw [home_settle, hp]
      split
      · next e => rw [← e, home]; rfl
      · rfl
    have settled : Tracks (s.settle x) W k := by
      refine ⟨(Gen.settle_advances hv h.sound).1, fun hr => (s.mem_taken_draw _).2 (.inl (h.taken hr)), ?_, ?_, h.within,
        h.params⟩
      · intro y
        rw [same, h.bound]
      · intro y q hy
        rw [same] at hy
        exact h.set hy
    refine (settled.write ((s.mem_taken_draw _).2 (.inr rfl)) fun y hy => ?_).put_of_mem (h.params hp)
    rw [same] at hy
    exact h.not_has_next y (.of_home hy)

theorem ownPlace {s' : Generator} (h : Tracks s W k) (hr : Ran (Gen.ownPlace x) s r s') : Tracks s' (r :: W) (k.put x) := by
  cases hp : s.params.find? x with
  | some p => exact h.ownPlace_parameter hp hr
  | none =>
    rcases Gen.ran_ownPlace.1 hr with ⟨hv, rfl⟩ | ⟨hv, rfl, rfl⟩
    · exact h.draw.put (home_eq_some.2 (.inr ⟨hp, hv⟩))
    · have home : s.home x = none := Option.or_eq_none_iff.2 ⟨hp, hv⟩
      have settled : (s.settle x).home x = some s.next := by rw [home_settle, if_pos rfl, hp]; rfl
      refine ((h.settle home).put settled).congr (fun _ => .rfl) (fun y => ?_) fun _ => .rfl
      simp [Variables.put, Variables.step]

theorem owns {s' : Generator} (h : Tracks s W k) (ho : Gen.Owns s x r s') : Tracks s' (r :: W) (k.put x) := by
  rcases ho with ⟨hp, rfl⟩ | ⟨-, hr⟩
  · exact h.put (home_eq_some.2 (.inl hp))
  · exact h.ownPlace hr

end Tracks

/-! ### Runs -/

/-- Where expressions lead: what is taken stays taken, what has been written of that is the same, a variable keeps its
register, and one that gets a register gets a free one. -/
structure Later (s : Generator) (W : List Reg) (s' : Generator) (W' : List Reg) : Prop where
  taken : ∀ {q}, q ∈ s.bank.taken → q ∈ s'.bank.taken
  same : ∀ {q}, q ∈ s.bank.taken → (q ∈ W' ↔ q ∈ W)
  keep : ∀ {x r}, s.home x = some r → s'.home x = some r
  fresh : ∀ {x r}, s'.Has x r → s.Has x r ∨ r ∉ s.bank.taken

namespace Later

variable {s s' s'' : Generator} {W W' W'' : List Reg} {x : String} {r : Reg}

theorem refl (s : Generator) (W : List Reg) : Later s W s W := ⟨id, fun _ => .rfl, id, .inl⟩

theorem trans (h : Later s W s' W') (h' : Later s' W' s'' W'') : Later s W s'' W'' where
  taken hq := h'.taken (h.taken hq)
  same hq := (h'.same (h.taken hq)).trans (h.same hq)
  keep hx := h'.keep (h.keep hx)
  fresh hx := by
    rcases h'.fresh hx with hx | hx
    · exact h.fresh hx
    · exact .inr fun hr => hx (h.taken hr)

theorem add (h : Later s W s' W') (l : Line) : Later s W (s'.add l) W' := ⟨h.taken, h.same, h.keep, h.fresh⟩

theorem number (h : Later s W s' W') : Later s W s'.number W' := ⟨h.taken, h.same, h.keep, h.fresh⟩

theorem note (h : Later s W s' W') (kind : String) : Later s W (s'.note kind) W' := ⟨h.taken, h.same, h.keep, h.fresh⟩

theorem draw (h : Later s W s' W') : Later s W s'.draw W' :=
  ⟨fun hq => (s'.mem_taken_draw _).2 (.inl (h.taken hq)), h.same, h.keep, h.fresh⟩

theorem write (h : Later s W s' W') (hr : r ∉ s.bank.taken) : Later s W s' (r :: W') where
  taken := h.taken
  same {q} hq := by
    have hne : q ≠ r := fun e => hr (e ▸ hq)
    rw [List.mem_cons, or_iff_right hne, h.same hq]
  keep := h.keep
  fresh := h.fresh

theorem fill (h : Later s W s' W') : Later s W s'.draw (s'.next :: W') :=
  h.draw.write fun hn => s'.next_notMem (h.taken hn)

theorem settle (h : Later s W s' W') (hx : s'.home x = none) : Later s W (s'.settle x) W' := by
  refine h.trans ⟨fun hq => (s'.mem_taken_draw _).2 (.inl hq), fun _ => .rfl, fun {y r} hy => ?_, fun {y r} hy => ?_⟩
  · have hne : x ≠ y := fun e => Option.some_ne_none r (hy.symm.trans (e ▸ hx))
    rw [home_settle, if_neg hne, hy]
  · exact (has_settle hy).imp_right fun (e : r = s'.next) => e ▸ s'.next_notMem

theorem spare (h : Later s W s' W') (hr : r ∈ s.bank.taken) (hs : ∀ x, ¬ s.Has x r) (x : String) : ¬ s'.Has x r :=
  fun hx => (h.fresh hx).elim (hs x) fun hn => hn hr

end Later

/-- The register of the value of an expression, if there is one, has been written unless it is that of a variable that is
not set.  It is no other variable's. -/
structure Held (e : Node) (k : Variables) (r : Option Reg) (s : Generator) (W : List Reg) : Prop where
  reads : r.toList.all W.contains = k.orderly (worth e)
  taken : ∀ q ∈ r, q ∈ s.bank.taken
  apart : ∀ q ∈ r, ∀ x, s.Has x q → isVariable x e = true

namespace Held

variable {e : Node} {k k' : Variables} {r : Option Reg} {q : Reg} {s s' : Generator} {W W' : List Reg}

theorem none (hw : worth e = []) : Held e k none s W := ⟨by rw [hw]; rfl, nofun, nofun⟩

theorem some (hw : worth e = []) (hq : q ∈ W) (ht : q ∈ s.bank.taken) (spare : ∀ x, ¬ s.Has x q) :
    Held e k (some q) s W where
  reads := by
    rw [hw]
    simpa [Variables.orderly] using hq
  taken := by
    rintro p ⟨⟩
    exact ht
  apart := by
    rintro p ⟨⟩ x hx
    exact (spare x hx).elim

theorem filled {l : Line} (hw : worth e = []) (t : Tracks s W k') :
    Held e k (Option.some s.next) (s.draw.add l) (s.next :: W) :=
  .some hw List.mem_cons_self ((s.mem_taken_draw _).2 (.inr rfl)) t.not_has_next

theorem later (h : Held e k r s W) (l : Later s W s' W') (hk : k'.set = k.set) : Held e k' r s' W' where
  reads := by
    have worth : k'.orderly (worth e) = k.orderly (worth e) := by
      cases e with
      | identifier x _ =>
        show (k'.set.contains x && true) = (k.set.contains x && true)
        rw [hk]
      | _ => rfl
    rw [worth, ← h.reads]
    cases r with
    | none => rfl
    | some q => simp [l.same (h.taken q rfl)]
  taken q hq := l.taken (h.taken q hq)
  apart q hq x hx := (l.fresh hx).elim (h.apart q hq x) fun hn => (hn (h.taken q hq)).elim

theorem after_effects {e' : Node} (h : Held e k r s W) (l : Later s W s' W') : Held e (k.after (effects e')) r s' W' :=
  h.later l (set_after_of_quiet k (quiet_effects e'))

end Held

/-- The values of some expressions. -/
structure HeldAll (es : List Node) (k : Variables) (rs : List (Option Reg)) (s : Generator) (W : List Reg) : Prop where
  reads : (rs.flatMap Option.toList).all W.contains = k.orderly (es.flatMap worth)
  taken : ∀ q ∈ rs.flatMap Option.toList, q ∈ s.bank.taken

namespace Gen

/-- **Every run of `m` adds lines that follow the events `es`**, from where the registers `W` are written and the variables
are as `k` says; and its result is as `R` says. -/
def Goes {α : Type} (m : Gen α) (s : Generator) (W : List Reg) (k : Variables) (es : List Event)
    (R : α → Generator → List Reg → Prop) : Prop :=
  ∀ a s', Ran m s a s' → ∃ new W', s'.code.toList = s.code.toList ++ new ∧ Follows W k es new W' ∧
    Tracks s' W' (k.after es) ∧ R a s' W'

namespace Goes

variable {α β : Type} {m : Gen α} {f : α → Gen β} {s s₁ : Generator} {W W₁ : List Reg} {k : Variables}
  {es es' : List Event} {R R' : α → Generator → List Reg → Prop} {Q : β → Generator → List Reg → Prop}

theorem pure {a : α} (t : Tracks s W k) (h : R a s W) : Goes (pure a) s W k [] R := by
  intro b s' hr
  obtain ⟨rfl, rfl⟩ := ran_pure.1 hr
  exact ⟨[], W, (List.append_nil _).symm, .nil, t, h⟩

theorem ahead {new : List Line} {a : α} {s' : Generator} (code : s₁.code.toList = s.code.toList ++ new)
    (follows : Follows W k es new W₁) (rest : Goes m s₁ W₁ (k.after es) es' R) (hr : Ran m s₁ a s') :
    ∃ new' W', s'.code.toList = s.code.toList ++ new' ∧ Follows W k (es ++ es') new' W' ∧
      Tracks s' W' (k.after (es ++ es')) ∧ R a s' W' := by
  obtain ⟨new', W', hc', hf', ht', ha⟩ := rest a s' hr
  refine ⟨new ++ new', W', ?_, follows.append hf', ?_, ha⟩
  · rw [hc', code, List.append_assoc]
  · rw [Variables.after_append]
    exact ht'

theorem bind (first : Goes m s W k es R)
    (rest : ∀ a s₁ W₁, Tracks s₁ W₁ (k.after es) → R a s₁ W₁ → Goes (f a) s₁ W₁ (k.after es) es' Q) :
    Goes (m >>= f) s W k (es ++ es') Q := by
  intro b s' hr
  obtain ⟨a, s₁, h₁, h₂⟩ := ran_bind.1 hr
  obtain ⟨new, W₁, hc, hf, ht, ha⟩ := first a s₁ h₁
  exact ahead hc hf (rest a s₁ W₁ ht ha) h₂

theorem after (first : Goes m s W k [] R) (rest : ∀ a s₁ W₁, Tracks s₁ W₁ k → R a s₁ W₁ → Goes (f a) s₁ W₁ k es Q) :
    Goes (m >>= f) s W k es Q := .bind first rest

theorem before (first : Goes m s W k es R)
    (rest : ∀ a s₁ W₁, Tracks s₁ W₁ (k.after es) → R a s₁ W₁ → Goes (f a) s₁ W₁ (k.after es) [] Q) :
    Goes (m >>= f) s W k es Q := List.append_nil es ▸ .bind first rest

theorem mono (h : Goes m s W k es R) (hR : ∀ a s' W', Tracks s' W' (k.after es) → R a s' W' → R' a s' W') :
    Goes m s W k es R' := by
  intro a s' hr
  obtain ⟨new, W', hc, hf, ht, ha⟩ := h a s' hr
  exact ⟨new, W', hc, hf, ht, hR a s' W' ht ha⟩

theorem discard {P : Generator → List Reg → Prop} (h : Goes m s W k es R) (hP : ∀ a s' W', R a s' W' → P s' W') :
    Goes (discard m) s W k es fun _ => P := by
  intro u s' hr
  obtain ⟨a, hr⟩ := ran_discard.1 hr
  obtain ⟨new, W', hc, hf, ht, ha⟩ := h a s' hr
  exact ⟨new, W', hc, hf, ht, hP a s' W' ha⟩

theorem doubt (h : Goes m s W k (es ++ es') R) (x : String) : Goes m s W k (es.map (.doubt x) ++ es') R := by
  have procs : procedures (es.map (.doubt x) ++ es') = procedures (es ++ es') := by
    rw [procedures_append, procedures_doubt, procedures_append]
  have arities : arities (es.map (.doubt x) ++ es') = arities (es ++ es') := congrArg (List.map _) procs
  intro a s' hr
  obtain ⟨new, W', hc, hf, ht, h⟩ := h a s' hr
  refine ⟨new, W', hc, ⟨?_, fun coming => ?_, fun coming => ?_⟩, ?_, h⟩
  · rw [procs, hf.heads]
  · rw [arities, hf.written]
  · rw [arities, hf.check, Variables.orderly_append, Variables.orderly_append, Variables.orderly_doubt,
      Variables.after_doubt]
  · rw [Variables.after_append, Variables.after_doubt, ← Variables.after_append]
    exact ht

theorem skip {n : Gen β} {g : β → Gen α} (code : ∀ b s₁, Ran n s b s₁ → s₁.code = s.code)
    (rest : ∀ b s₁, Ran n s b s₁ → Goes (g b) s₁ W k es R) : Goes (n >>= g) s W k es R := by
  intro a s' hr
  obtain ⟨b, s₁, h₁, h₂⟩ := ran_bind.1 hr
  rw [← code b s₁ h₁]
  exact rest b s₁ h₁ a s' h₂

theorem step {n : Gen β} {g : β → Gen α} {b : β} (ran : Ran n s b s₁) (code : s₁.code = s.code)
    (rest : Goes (g b) s₁ W k es R) : Goes (n >>= g) s W k es R := by
  refine skip (fun b' s' h => ?_) fun b' s' h => ?_
  · obtain ⟨rfl, rfl⟩ := ran.unique h
    exact code
  · obtain ⟨rfl, rfl⟩ := ran.unique h
    exact rest

variable {g : Unit → Gen α} {l : Line}

theorem line {k' : Variables} (hl : l.isHead = false) (hp : procedures es = [])
    (check : l.reads.all W.contains = k.orderly es) (hk : k.after es = k')
    (rest : Goes (g ()) (s.add l) (l.writes.toList ++ W) k' es' R) : Goes (emit l >>= g) s W k (es ++ es') R := by
  subst hk
  exact fun _ _ hr => ahead (s.toList_add l) (.line hl hp check) rest (ran_emit_bind.1 hr)

theorem last {k' : Variables} (hl : l.isHead = false) (hp : procedures es = [])
    (check : l.reads.all W.contains = k.orderly es) (hk : k.after es = k')
    (rest : Goes (g ()) (s.add l) (l.writes.toList ++ W) k' [] R) : Goes (emit l >>= g) s W k es R :=
  List.append_nil es ▸ .line hl hp check hk rest

theorem sure (hl : l.isHead = false) (hr : l.reads.all W.contains = true)
    (rest : Goes (g ()) (s.add l) (l.writes.toList ++ W) k es R) : Goes (emit l >>= g) s W k es R := by
  rw [← List.nil_append es]
  exact .line hl rfl hr rfl rest

theorem allocate {g : Reg → Gen α} (rest : Goes (g s.next) s.draw W k es R) : Goes (allocate >>= g) s W k es R :=
  .step (ran_allocate.2 ⟨rfl, rfl⟩) rfl rest

theorem freshLabel {stem : String} {g : Label → Gen α} (rest : Goes (g ⟨stem, s.labels⟩) s.number W k es R) :
    Goes (freshLabel stem >>= g) s W k es R := .step (ran_freshLabel.2 ⟨rfl, rfl⟩) rfl rest

theorem warn {kind : String} (rest : Goes (g ()) (s.note kind) W k es R) : Goes (warn kind >>= g) s W k es R :=
  .step (ran_warn.2 rfl) rfl rest

end Goes

/-- What is known at the end of a run over an expression that started with `s` and `W`. -/
def Valued (e : Node) (s : Generator) (W : List Reg) (k : Variables) (r : Option Reg) (s' : Generator) (W' : List Reg) :
    Prop := Later s W s' W' ∧ Held e k r s' W'

end Gen
end TesLang.Code
