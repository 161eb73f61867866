import TesLang.Proofs.Generation.Labels
import TesLang.Proofs.Generation.Registers
/-!
# Generators that are reached

A run ends, or it breaks off at a fault, and either way a generator is left (`left`).  What a run comes by on its way is
where runs over other trees break off: put a program that is none in the place of any node, and the run breaks off where
that node would have been walked, with nothing else changed (`left_refused`).  So the generators that are reached while code
is generated are those that are left by the runs over all trees (`Reached`).

In all of them the registers of parameters and variables are taken, and the labels in the code have smaller numbers than
all labels still to come (`Reached.settled`).
-/
namespace TesLang.Code

namespace Gen

/-- The generator at the end of a run, or where it breaks off. -/
def left {α : Type} (m : Gen α) (s : Generator) : Generator :=
  match m.run s with
  | .ok _ s' => s'
  | .error _ s' => s'

theorem left_of_ran {α : Type} {m : Gen α} {s s' : Generator} {a : α} (h : Ran m s a s') : left m s = s' := by
  rw [left, show m.run s = .ok a s' from h]

theorem left_bind {α β : Type} (m : Gen α) (f : α → Gen β) (s : Generator) : left (m >>= f) s =
    match m.run s with
    | .ok a s' => left (f a) s'
    | .error _ s' => s' := by
  unfold left EStateM.run
  show (match EStateM.bind m f s with | .ok _ s' => s' | .error _ s' => s') = _
  unfold EStateM.bind
  cases m s <;> rfl

theorem left_discard {α : Type} (m : Gen α) (s : Generator) : left (discard m) s = left m s := by
  unfold left EStateM.run
  have map : discard m s = EStateM.map (Function.const α PUnit.unit) m s := rfl
  rw [map]
  unfold EStateM.map
  cases m s <;> rfl

theorem left_refused {n : Node} (h : hasBody n = false) (s : Generator) : left (visit (.program [n])) s = s := by
  have refused : requireBodies [n] = throw (.lacks n.kind "body") := by simp [requireBodies, h]
  rw [visit, refused]
  rfl

end Gen

open Gen

namespace Generator

/-- **The generators that are reached** while the code of some tree is generated. -/
def Reached (s : Generator) : Prop := ∃ tree, s = left (visit tree) {}

/-- The registers of parameters and variables are taken, the labels in the code are numbered, and at least `k` numbers are
used. -/
structure Settled (k : Nat) (s : Generator) : Prop where
  params : ∀ {x r}, s.params.find? x = some r → r ∈ s.bank.taken
  vars : ∀ {x r}, s.vars.find? x = some r → r ∈ s.bank.taken
  labels : ∀ l ∈ labelsIn s.code.toList, l.index < s.labels
  used : k ≤ s.labels

namespace Settled

variable {k : Nat} {s : Generator}

theorem home (h : s.Settled k) {x : String} {r : Reg} (hx : s.home x = some r) : r ∈ s.bank.taken := by
  rcases home_eq_some.1 hx with hx | ⟨-, hx⟩
  · exact h.params hx
  · exact h.vars hx

theorem add (h : s.Settled k) {l : Line} (hl : ∀ m ∈ l.label?, m.index < k) : (s.add l).Settled k := by
  refine ⟨h.params, h.vars, fun m hm => ?_, h.used⟩
  rw [add_code, Array.toList_push, labelsIn_append, labelsIn_cons, labelsIn_nil, List.append_nil, List.mem_append,
    Option.mem_toList] at hm
  rcases hm with hm | hm
  · exact h.labels m hm
  · exact Nat.lt_of_lt_of_le (hl m hm) h.used

theorem draw (h : s.Settled k) : s.draw.Settled k :=
  ⟨fun hx => (s.mem_taken_draw _).2 (.inl (h.params hx)), fun hx => (s.mem_taken_draw _).2 (.inl (h.vars hx)), h.labels, h.used⟩

theorem number (h : s.Settled k) : s.number.Settled (s.labels + 1) :=
  ⟨h.params, h.vars, fun l hl => Nat.lt_succ_of_lt (h.labels l hl), Nat.le_refl _⟩

theorem settle (h : s.Settled k) (x : String) : (s.settle x).Settled k := by
  refine ⟨fun hy => (s.mem_taken_draw _).2 (.inl (h.params hy)), fun hy => ?_, h.labels, h.used⟩
  rw [settle_vars, Bindings.find?_insert] at hy
  split at hy
  · cases hy
    exact (s.mem_taken_draw _).2 (.inr rfl)
  · exact (s.mem_taken_draw _).2 (.inl (h.vars hy))

theorem bindParam (h : s.Settled k) (x : String) (i : Nat) : (s.bindParam x i).Settled k := by
  refine ⟨fun hy => mem_taken_bindParam.2 ?_, fun hy => mem_taken_bindParam.2 (.inl (h.vars hy)), h.labels, h.used⟩
  rw [Generator.bindParam, Bindings.find?_insert] at hy
  split at hy
  · cases hy
    exact .inr rfl
  · exact .inl (h.params hy)

theorem mono {j : Nat} (h : s.Settled k) (hj : j ≤ k) : s.Settled j := ⟨h.params, h.vars, h.labels, Nat.le_trans hj h.used⟩

end Settled
end Generator

namespace Gen

open Generator

def Settles {α : Type} (k : Nat) (m : Gen α) : Prop := ∀ s : Generator, s.Settled k → (left m s).Settled k

namespace Settles

variable {α β : Type} {k : Nat}

theorem pure (a : α) : Settles k (pure a) := fun _ h => h

theorem throw (f : Fault) : Settles k (throw f : Gen α) := fun _ h => h

theorem bind {m : Gen α} {f : α → Gen β} (first : Settles k m) (rest : ∀ a, Settles k (f a)) : Settles k (m >>= f) := by
  intro s h
  have hm := first s h
  rw [left_bind]
  unfold left at hm
  cases run : m.run s with
  | ok a s' =>
    rw [run] at hm
    exact rest a s' hm
  | error e s' =>
    rw [run] at hm
    exact hm

theorem discard {m : Gen α} (h : Settles k m) : Settles k (discard m) := by
  intro s hs
  rw [left_discard]
  exact h s hs

theorem emit {l : Line} (hl : ∀ m ∈ l.label?, m.index < k) : Settles k (emit l) := fun _ h => h.add hl

theorem allocate : Settles k allocate := fun _ h => h.draw

theorem warn (kind : String) : Settles k (warn kind) := fun _ h => ⟨h.params, h.vars, h.labels, h.used⟩

theorem get {f : Generator → Gen α} (h : ∀ s, Settles k (f s)) : Settles k (get >>= f) := fun s hs => h s s hs

theorem place (x : String) : Settles k (place x) := by
  intro s h
  cases hx : s.home x with
  | some r =>
    rw [left_of_ran (ran_place.2 (.inl ⟨hx, rfl⟩))]
    exact h
  | none =>
    rw [left_of_ran (ran_place.2 (.inr ⟨hx, rfl, rfl⟩))]
    exact h.settle x

theorem ownPlace (x : String) : Settles k (ownPlace x) := by
  intro s h
  cases hx : s.vars.find? x with
  | some r =>
    rw [left_of_ran (ran_ownPlace.2 (.inl ⟨hx, rfl⟩))]
    exact h.draw
  | none =>
    rw [left_of_ran (ran_ownPlace.2 (.inr ⟨hx, rfl, rfl⟩))]
    exact h.settle x

theorem label {stem : String} {f : Label → Gen α} (h : ∀ i, k ≤ i → Settles (i + 1) (f ⟨stem, i⟩)) :
    Settles k (freshLabel stem >>= f) := by
  intro s hs
  exact (h s.labels hs.used s.number hs.number).mono (Nat.le_succ_of_le hs.used)

end Settles

theorem shaped_settles : Shaped fun {_} m => ∀ k, Settles k m where
  pure a _ := .pure a
  throw f _ := .throw f
  bind first rest k := .bind (first k) fun a => rest a k
  discard h k := .discard (h k)
  say _ defines _ _ := .emit (by simp [defines])
  allocate _ := .allocate
  warn kind _ := .warn kind
  ask _ h k := .get fun s => h s k
  place x _ := .place x
  ownPlace x _ := .ownPlace x
  procedure name params returnType _ h k :=
    procedure_of_steps (P := fun {_} m => Settles k m) .pure .throw .bind (fun x i _ hs => hs.bindParam x i) (fun {l} hl =>
      .emit (by cases l <;> first | (cases hl; done) | nofun)) .get (fun _ _ hs => ⟨nofun, nofun, hs.labels, hs.used⟩) name params
      returnType (h k)
  branching ht hy hn k :=
    .bind (ht k) fun _ => .label fun i _ => .label fun j hj => .bind (.emit nofun) fun _ => .bind (hy _) fun _ =>
      .bind (.emit nofun) fun _ => .bind (.emit (by rintro m ⟨⟩; exact Nat.lt_succ_of_lt hj)) fun _ => .bind (hn _) fun _ =>
      .bind (.emit (by rintro m ⟨⟩; exact Nat.lt_succ_self j)) fun _ => .pure _
  repeating ht hb k :=
    .label fun i _ => .label fun j hj => .bind (.emit (by rintro m ⟨⟩; exact Nat.lt_succ_of_lt hj)) fun _ =>
      .bind (ht _) fun _ => .bind (.emit nofun) fun _ => .bind (hb _) fun _ => .bind (.emit nofun) fun _ =>
      .bind (.emit (by rintro m ⟨⟩; exact Nat.lt_succ_self j)) fun _ => .pure _
  retrying hb ht k :=
    .label fun i _ => .bind (.emit (by rintro m ⟨⟩; exact Nat.lt_succ_self i)) fun _ => .bind (hb _) fun _ =>
      .bind (ht _) fun _ => .bind (.emit nofun) fun _ => .pure _
  counting _ _ _ hb k :=
    .label fun i _ => .label fun j hj => .bind (.emit (by rintro m ⟨⟩; exact Nat.lt_succ_of_lt hj)) fun _ =>
      .bind .allocate fun _ => .bind (.emit nofun) fun _ => .bind (.emit nofun) fun _ => .bind (hb _) fun _ =>
      .bind .allocate fun _ => .bind (.emit nofun) fun _ => .bind (.emit nofun) fun _ => .bind (.emit nofun) fun _ =>
      .bind (.emit (by rintro m ⟨⟩; exact Nat.lt_succ_self j)) fun _ => .pure _
  choosing ht hy hn k :=
    .bind (ht k) fun _ => .label fun i _ => .label fun j hj => .bind .allocate fun _ => .bind (.emit nofun) fun _ =>
      .bind (hy _) fun _ => .bind (.emit nofun) fun _ => .bind (.emit nofun) fun _ =>
      .bind (.emit (by rintro m ⟨⟩; exact Nat.lt_succ_of_lt hj)) fun _ => .bind (hn _) fun _ => .bind (.emit nofun) fun _ =>
      .bind (.emit (by rintro m ⟨⟩; exact Nat.lt_succ_self j)) fun _ => .pure _

end Gen

/-- **Every generator that is reached is settled.** -/
theorem Generator.Reached.settled {s : Generator} (h : s.Reached) : s.Settled 0 := by
  obtain ⟨tree, rfl⟩ := h
  exact shaped_settles.has (.visit tree) 0 {} ⟨nofun, nofun, nofun, Nat.le_refl 0⟩

end TesLang.Code
