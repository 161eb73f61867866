import TesLang.Scope.Table
/-!
# Names in scopes

A name is found in a chain if one of its scopes binds it.  That a variable gets a value changes neither names nor what
they stand for: `settled` scopes are the same before and after.
-/
namespace TesLang

/-- A symbol as if it had a value. -/
def Symbol.settled (s : Symbol) : Symbol := { s with initialized := true }

/-- The names that a scope binds. -/
def Scope.names (s : Scope) : List String := s.map (·.1)

namespace Scope

theorem isSome_find? : ∀ {s : Scope} {x : String}, (Bindings.find? s x).isSome = true ↔ x ∈ s.names
  | [], x => by simp [Scope.names]
  | entry :: s, x => by
    rw [Bindings.find?_cons]
    split
    · next h => simp [Scope.names, h]
    · next h =>
      rw [isSome_find?]
      simp [Scope.names, Ne.symm h]

theorem mem_names_insert {s : Scope} {x y : String} {symbol : Symbol} :
    y ∈ Scope.names (Bindings.insert x symbol s) ↔ y = x ∨ y ∈ s.names := by
  rw [← isSome_find?, ← isSome_find?, Bindings.find?_insert]
  split
  · next h => simp [h]
  · next h => simp [Ne.symm h]

/-- A scope as if all its variables had values. -/
def settled (s : Scope) : Scope := s.map fun entry => (entry.1, entry.2.settled)

theorem names_settled (s : Scope) : s.settled.names = s.names := by
  unfold settled Scope.names
  rw [List.map_map]
  rfl

theorem find?_settled : ∀ (s : Scope) (x : String), Bindings.find? s.settled x = (Bindings.find? s x).map Symbol.settled
  | [], _ => rfl
  | entry :: s, x => by
    show Bindings.find? ((entry.1, entry.2.settled) :: Scope.settled s) x = _
    rw [Bindings.find?_cons, Bindings.find?_cons, find?_settled s x]
    split <;> rfl

theorem settled_update (x : String) :
    ∀ s : Scope, Scope.settled (Bindings.update x (fun s => { s with initialized := true }) s) = s.settled
  | [] => rfl
  | entry :: s => by
    rw [Bindings.update]
    split
    · rfl
    · exact congrArg (_ :: ·) (settled_update x s)

end Scope

namespace Chain

theorem isSome_lookup {c : Chain} {x : String} : (c.lookup x).isSome = true ↔ ∃ s ∈ c.scopes, x ∈ Scope.names s := by
  unfold lookup
  rw [List.findSome?_isSome_iff]
  simp only [Scope.isSome_find?]

theorem settled_updateFirst (x : String) :
    ∀ ss : List Scope, (updateFirst x (fun s => { s with initialized := true }) ss).map Scope.settled = ss.map Scope.settled
  | [] => rfl
  | s :: ss => by
    rw [updateFirst]
    split
    · rw [List.map_cons, List.map_cons, Scope.settled_update]
    · rw [List.map_cons, List.map_cons, settled_updateFirst x ss]

theorem scopes_assigned (c : Chain) (x : String) :
    (c.assigned x).scopes = updateFirst x (fun s => { s with initialized := true }) c.scopes := by
  unfold assigned
  split
  · next h =>
    have := congrArg List.length h
    unfold scopes at this
    rw [updateFirst] at this
    split at this <;> simp at this
  · next h => exact h.symm

/-- The scopes of a chain, inside out, as if all variables had values. -/
def settled (c : Chain) : List Scope := c.scopes.map Scope.settled

@[simp] theorem settled_assigned (c : Chain) (x : String) : (c.assigned x).settled = c.settled := by
  unfold settled
  rw [scopes_assigned, settled_updateFirst]

theorem lookup_settled (c : Chain) (x : String) : c.settled.findSome? (·.find? x) = (c.lookup x).map Symbol.settled := by
  unfold settled lookup
  generalize c.scopes = ss
  induction ss with
  | nil => rfl
  | cons s ss ih =>
    rw [List.map_cons, List.findSome?_cons, List.findSome?_cons, Scope.find?_settled, ih]
    cases Bindings.find? s x <;> rfl

theorem names_assigned (c : Chain) (x : String) : (c.assigned x).scopes.map Scope.names = c.scopes.map Scope.names := by
  have names : ∀ ss : List Scope, ss.map Scope.names = (ss.map Scope.settled).map Scope.names := by
    intro ss
    rw [List.map_map]
    exact List.map_congr_left fun s _ => s.names_settled.symm
  rw [names, names c.scopes]
  exact congrArg (List.map Scope.names) (settled_assigned c x)

end Chain
end TesLang
