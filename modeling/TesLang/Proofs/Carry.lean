import TesLang.Proofs.Run
/-!
# Runs side by side

Two computations may do the same on data that differ in some respect, such as the lines of a tree.  `Carries S F m m'` says
so: from the image of a state under `S`, a run of `m'` ends as the run of `m` does from the state itself, with the image of
its result under `F` and the image of its last state, or with the same fault.  It is shown step by step, as a run is made
of steps.
-/
namespace TesLang

variable {ε σ τ α β γ δ : Type}

def outcomeMap (S : σ → τ) (F : α → β) : EStateM.Result ε σ α → EStateM.Result ε τ β
  | .ok a s => .ok (F a) (S s)
  | .error e s => .error e (S s)

/-- **A run of `m'` from the image of a state is the image of the run of `m`.** -/
def Carries (S : σ → τ) (F : α → β) (m : EStateM ε σ α) (m' : EStateM ε τ β) : Prop :=
  ∀ s, m'.run (S s) = outcomeMap S F (m.run s)

namespace Carries

variable {S : σ → τ} {F : α → β} {G : γ → δ}

theorem pure {a : α} {b : β} (h : b = F a) : Carries S F (pure a : EStateM ε σ α) (pure b) := by
  intro s
  rw [h]
  rfl

theorem throw (e : ε) : Carries S F (throw e : EStateM ε σ α) (throw e : EStateM ε τ β) := fun _ => rfl

theorem bind {m : EStateM ε σ α} {m' : EStateM ε τ β} {f : α → EStateM ε σ γ} {f' : β → EStateM ε τ δ}
    (first : Carries S F m m') (rest : ∀ a, Carries S G (f a) (f' (F a))) : Carries S G (m >>= f) (m' >>= f') := by
  intro s
  have h := first s
  unfold EStateM.run at h
  show EStateM.bind m' f' (S s) = outcomeMap S G (EStateM.bind m f s)
  unfold EStateM.bind
  rw [h]
  cases m s with
  | ok a s₁ => exact rest a s₁
  | error e s₁ => rfl

theorem get : Carries S S (get : EStateM ε σ σ) get := fun _ => rfl

theorem modify {f : σ → σ} {f' : τ → τ} (h : ∀ s, f' (S s) = S (f s)) :
    Carries S (fun u => u) (modify f : EStateM ε σ PUnit) (modify f') := by
  intro s
  show EStateM.Result.ok PUnit.unit (f' (S s)) = .ok PUnit.unit (S (f s))
  rw [h]

theorem discard {m : EStateM ε σ α} {m' : EStateM ε τ β} (h : Carries S F m m') :
    Carries S (fun u => u) (discard m) (discard m') := by
  intro s
  have h := h s
  unfold EStateM.run at h
  show EStateM.map _ m' (S s) = outcomeMap S _ (EStateM.map _ m s)
  unfold EStateM.map
  rw [h]
  cases m s <;> rfl

theorem ran {m : EStateM ε σ α} {m' : EStateM ε τ β} (h : Carries S F m m') {s : σ} {b : β} {t : τ} (hr : Ran m' (S s) b t) :
    ∃ a s', Ran m s a s' ∧ b = F a ∧ t = S s' := by
  have h := h s
  unfold Ran at hr ⊢
  rw [hr] at h
  cases hm : m.run s with
  | ok a s' =>
    rw [hm] at h
    cases h
    exact ⟨a, s', rfl, rfl, rfl⟩
  | error e s' =>
    rw [hm] at h
    cases h

end Carries
end TesLang
