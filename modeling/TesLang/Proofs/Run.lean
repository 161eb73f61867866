/-!
# Runs of a computation

Parsing, checking and generating are computations with a state and faults.  `Ran m s a s'` says that `m`, started in
`s`, ends in `s'` with the result `a`.  A run of a sequence is a run of its first part and one of the rest (`ran_bind`),
so that a run of a whole walk falls apart into the runs of its steps.

A relation between states that is reflexive and transitive need only be shown for the steps: `Steady R m` says that every
run of `m` goes from a state to one that is related to it.
-/
namespace TesLang

variable {ε σ α β : Type}

/-- `m` started in `s` ends in `s'` with the result `a`. -/
def Ran (m : EStateM ε σ α) (s : σ) (a : α) (s' : σ) : Prop := m.run s = .ok a s'

@[simp] theorem ran_pure {a b : α} {s s' : σ} : Ran (pure a : EStateM ε σ α) s b s' ↔ b = a ∧ s' = s := by
  unfold Ran
  constructor
  · intro h; cases h; exact ⟨rfl, rfl⟩
  · rintro ⟨rfl, rfl⟩; rfl

/-- **A run of a sequence is a run of its first part and a run of the rest.** -/
@[simp] theorem ran_bind {m : EStateM ε σ α} {f : α → EStateM ε σ β} {s s'' : σ} {b : β} :
    Ran (m >>= f) s b s'' ↔ ∃ a s', Ran m s a s' ∧ Ran (f a) s' b s'' := by
  unfold Ran EStateM.run
  show EStateM.bind m f s = _ ↔ _
  unfold EStateM.bind
  cases m s with
  | ok a s' => exact ⟨fun h => ⟨a, s', rfl, h⟩, fun ⟨_, _, e, h⟩ => by cases e; exact h⟩
  | error f _ => simp

@[simp] theorem ran_throw {f : ε} {s s' : σ} {a : α} : ¬ Ran (throw f : EStateM ε σ α) s a s' := by
  intro h
  cases h

@[simp] theorem ran_get {s s' a : σ} : Ran (get : EStateM ε σ σ) s a s' ↔ a = s ∧ s' = s := by
  unfold Ran
  constructor
  · intro h; cases h; exact ⟨rfl, rfl⟩
  · rintro ⟨rfl, rfl⟩; rfl

@[simp] theorem ran_modify {f : σ → σ} {s s' : σ} {u : PUnit} : Ran (modify f : EStateM ε σ PUnit) s u s' ↔ s' = f s := by
  unfold Ran
  constructor
  · intro h; cases h; rfl
  · rintro rfl; rfl

@[simp] theorem ran_modifyGet {f : σ → α × σ} {s s' : σ} {a : α} :
    Ran (modifyGet f : EStateM ε σ α) s a s' ↔ a = (f s).1 ∧ s' = (f s).2 := by
  unfold Ran
  constructor
  · intro h; cases h; exact ⟨rfl, rfl⟩
  · rintro ⟨rfl, rfl⟩; rfl

@[simp] theorem ran_discard {m : EStateM ε σ α} {s s' : σ} {u : PUnit} :
    Ran (discard m) s u s' ↔ ∃ a, Ran m s a s' := by
  unfold Ran EStateM.run discard
  show EStateM.map (Function.const α PUnit.unit) m s = _ ↔ _
  unfold EStateM.map
  cases m s <;> simp

@[simp] theorem ran_map {m : EStateM ε σ α} {f : α → β} {s s' : σ} {b : β} :
    Ran (f <$> m) s b s' ↔ ∃ a, Ran m s a s' ∧ b = f a := by
  unfold Ran EStateM.run
  show EStateM.map f m s = _ ↔ _
  unfold EStateM.map
  cases m s with
  | ok a s'' => exact ⟨fun h => by cases h; exact ⟨a, rfl, rfl⟩, fun ⟨_, e, h⟩ => by cases e; cases h; rfl⟩
  | error f _ => simp

theorem Ran.unique {m : EStateM ε σ α} {s s' s'' : σ} {a b : α} (h : Ran m s a s') (h' : Ran m s b s'') :
    a = b ∧ s' = s'' := by
  unfold Ran at h h'
  rw [h] at h'
  cases h'
  exact ⟨rfl, rfl⟩

theorem Ran.bind_iff {m : EStateM ε σ α} {f : α → EStateM ε σ β} {s s' s'' : σ} {a : α} {b : β} (h : Ran m s a s') :
    Ran (m >>= f) s b s'' ↔ Ran (f a) s' b s'' := by
  rw [ran_bind]
  constructor
  · rintro ⟨_, _, h₁, h₂⟩
    obtain ⟨rfl, rfl⟩ := h.unique h₁
    exact h₂
  · exact fun h₂ => ⟨a, s', h, h₂⟩

theorem exists_ran_of_isSome {m : EStateM ε σ α} {s : σ} (h : (m.run' s).isSome = true) : ∃ a s', Ran m s a s' := by
  unfold EStateM.run' at h
  cases run : m.run s with
  | ok a s' => exact ⟨a, s', run⟩
  | error f _ =>
    rw [run] at h
    cases h

def Steady (R : σ → σ → Prop) (m : EStateM ε σ α) : Prop := ∀ s a s', Ran m s a s' → R s s'

namespace Steady

variable {R : σ → σ → Prop}

theorem pure (refl : ∀ s, R s s) (a : α) : Steady R (pure a : EStateM ε σ α) := by
  intro s b s' h
  obtain ⟨-, rfl⟩ := ran_pure.1 h
  exact refl _

theorem bind (trans : ∀ {s s' s''}, R s s' → R s' s'' → R s s'') {m : EStateM ε σ α} {f : α → EStateM ε σ β}
    (first : Steady R m) (rest : ∀ a, Steady R (f a)) : Steady R (m >>= f) := by
  intro s b s'' h
  obtain ⟨a, s', h1, h2⟩ := ran_bind.1 h
  exact trans (first _ _ _ h1) (rest a _ _ _ h2)

theorem throw (f : ε) : Steady R (throw f : EStateM ε σ α) := fun _ _ _ h => (ran_throw h).elim

end Steady

end TesLang
