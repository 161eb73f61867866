import Mathlib.Data.List.Forall2
import TesLang.Proofs.Checking.Run
import TesLang.Proofs.Checking.Scope
/-!
# What a walk leaves as it was

A walk may be started anywhere, with any scopes open and inside any function.  Once it is through, the same scopes are
open, and the walk is inside the same function.  The innermost scope has kept all that it bound, and may bind more names;
the scopes around it bind the names that they bound before.  No symbol has changed but for a variable that has a value now
and had none, and what was found is still there, in front of what is new (`Checker.Keeps`).

A function binds its parameters and the functions in its body anew, whatever the names stood for.  It does so in the scope
of its own, which is gone when the function is left: for the scopes around the innermost one, all walks do the same
(`Checker.Around`).
-/
namespace TesLang

/-- A symbol later on: it is as it was, or it has a value now. -/
def Symbol.Gains (symbol later : Symbol) : Prop := later = symbol ∨ later = symbol.settled

namespace Symbol.Gains

theorem refl (symbol : Symbol) : symbol.Gains symbol := .inl rfl

theorem trans {symbol later last : Symbol} (h : symbol.Gains later) (h' : later.Gains last) : symbol.Gains last := by
  rcases h with rfl | rfl
  · exact h'
  · rcases h' with rfl | rfl
    · exact .inr rfl
    · exact .inr rfl

end Symbol.Gains

namespace Scope

/-- All that a scope binds, it still binds later on. -/
def Keeps (scope later : Scope) : Prop :=
  ∀ x symbol, scope.find? x = some symbol → ∃ symbol', later.find? x = some symbol' ∧ symbol.Gains symbol'

/-- A scope keeps what it binds, and binds no other names. -/
structure Same (scope later : Scope) : Prop where
  names : later.names = scope.names
  keeps : scope.Keeps later

variable {scope later last : Scope}

theorem Keeps.refl (scope : Scope) : scope.Keeps scope := fun _ symbol hx => ⟨symbol, hx, .refl symbol⟩

theorem Keeps.trans (h : scope.Keeps later) (h' : later.Keeps last) : scope.Keeps last := by
  intro x symbol hx
  obtain ⟨symbol', hx', gains⟩ := h x symbol hx
  obtain ⟨symbol'', hx'', gains'⟩ := h' x symbol' hx'
  exact ⟨symbol'', hx'', gains.trans gains'⟩

theorem keeps_insert {x : String} (symbol : Symbol) (new : scope.find? x = none) : scope.Keeps (scope.insert x symbol) := by
  intro y symbol' hy
  have other : x ≠ y := by
    rintro rfl
    rw [new] at hy
    cases hy
  rw [Bindings.find?_insert, if_neg other]
  exact ⟨symbol', hy, .refl symbol'⟩

theorem Same.refl (scope : Scope) : scope.Same scope := ⟨rfl, .refl scope⟩

theorem Same.trans (h : scope.Same later) (h' : later.Same last) : scope.Same last :=
  ⟨h'.names.trans h.names, h.keeps.trans h'.keeps⟩

theorem same_update (scope : Scope) (x : String) : scope.Same (scope.update x Symbol.settled) := by
  constructor
  · exact Bindings.map_fst_update scope x _
  · intro y symbol hy
    rw [Bindings.find?_update]
    by_cases h : x = y
    · rw [if_pos h, hy]
      exact ⟨symbol.settled, rfl, .inr rfl⟩
    · rw [if_neg h]
      exact ⟨symbol, hy, .refl symbol⟩

end Scope

namespace Chain

theorem forall_same_refl (ss : List Scope) : List.Forall₂ Scope.Same ss ss := List.forall₂_same.2 fun s _ => .refl s

theorem forall_same_trans : ∀ {ss ss' ss'' : List Scope}, List.Forall₂ Scope.Same ss ss' → List.Forall₂ Scope.Same ss' ss'' →
    List.Forall₂ Scope.Same ss ss''
  | _, _, _, .nil, .nil => .nil
  | _, _, _, .cons h hs, .cons h' hs' => .cons (h.trans h') (forall_same_trans hs hs')

theorem same_updateFirst (x : String) : ∀ ss : List Scope, List.Forall₂ Scope.Same ss (updateFirst x Symbol.settled ss)
  | [] => .nil
  | s :: ss => by
    rw [updateFirst]
    by_cases h : (s.find? x).isSome = true
    · rw [if_pos h]
      exact .cons (s.same_update x) (forall_same_refl ss)
    · rw [if_neg h]
      exact .cons (.refl s) (same_updateFirst x ss)

theorem same_assigned (c : Chain) (x : String) : List.Forall₂ Scope.Same c.scopes (c.assigned x).scopes := by
  rw [scopes_assigned]
  exact same_updateFirst x c.scopes

end Chain

namespace Checker

/-- The scopes around the innermost one are the same, and nothing that was found is lost. -/
structure Around (s s' : Checker) : Prop where
  found : s.found <+: s'.found
  outer : List.Forall₂ Scope.Same s.chain.outer s'.chain.outer

/-- **What a walk leaves as it was**: the function that it is inside of, what was found, the names of the innermost scope
and all of the scopes around it, but for variables that got a value. -/
structure Keeps (s s' : Checker) : Prop where
  enclosing : s'.enclosing = s.enclosing
  found : s.found <+: s'.found
  inner : s.chain.inner.Keeps s'.chain.inner
  outer : List.Forall₂ Scope.Same s.chain.outer s'.chain.outer

namespace Around

variable {s s' s'' : Checker} {e : Enclosing}

theorem trans (h : Around s s') (h' : Around s' s'') : Around s s'' :=
  ⟨h.found.trans h'.found, Chain.forall_same_trans h.outer h'.outer⟩

theorem leave (h : Around { s with enclosing := some e, chain := s.chain.enter } s') :
    List.Forall₂ Scope.Same s.chain.scopes s'.chain.leave.scopes := by
  obtain ⟨-, outer⟩ := h
  have entered : List.Forall₂ Scope.Same s.chain.scopes s'.chain.outer := outer
  unfold Chain.leave
  cases ho : s'.chain.outer with
  | nil =>
    rw [ho] at entered
    cases entered
  | cons t ts =>
    rw [ho] at entered
    exact entered

end Around

namespace Keeps

variable {s s' s'' : Checker} {e : Enclosing}

theorem trans (h : Keeps s s') (h' : Keeps s' s'') : Keeps s s'' :=
  ⟨h'.enclosing.trans h.enclosing, h.found.trans h'.found, h.inner.trans h'.inner, Chain.forall_same_trans h.outer h'.outer⟩

theorem of_notes (h : Notes s s') : Keeps s s' := by
  refine ⟨h.enclosing, h.reports, ?_, ?_⟩
  · rw [h.chain]
    exact .refl _
  · rw [h.chain]
    exact Chain.forall_same_refl _

theorem of_around (h : Around { s with enclosing := some e, chain := s.chain.enter } s') :
    Keeps s { s' with enclosing := s.enclosing, chain := s'.chain.leave } := by
  cases h.leave with
  | cons inner outer => exact ⟨rfl, h.found, inner.keeps, outer⟩

end Keeps
end Checker

namespace Check

open Checker

theorem allows_around : Allows Around where
  trans := .trans
  notes h := ⟨h.reports, h.chain ▸ Chain.forall_same_refl _⟩
  insert s _ _ := ⟨List.prefix_refl _, Chain.forall_same_refl s.chain.outer⟩
  assigned s x := by
    cases s.chain.same_assigned x with
    | cons _ outer => exact ⟨List.prefix_refl _, outer⟩
  around h := by
    cases h.leave with
    | cons _ outer => exact ⟨h.found, outer⟩

theorem admits_keeps : Admits Keeps where
  trans := .trans
  notes := .of_notes
  insert symbol new := ⟨rfl, List.prefix_refl _, Scope.keeps_insert symbol new, Chain.forall_same_refl _⟩
  assigned s x := by
    cases s.chain.same_assigned x with
    | cons inner outer => exact ⟨rfl, List.prefix_refl _, inner.keeps, outer⟩
  function := fun _ => allows_around.function .of_around (allows_around.visit _)

/-- **A walk over any tree, from any state, leaves open the scopes that it found open, and keeps all that they bind.** -/
theorem visit_keeps (tree : Node) {s s' : Checker} {t : Option String} (h : Ran (visit tree) s t s') : s.Keeps s' :=
  admits_keeps.visit tree s t s' h

/-- A walk inside the function `f`, whose variable `x` has no value yet. -/
def halfway : Checker :=
  { chain := ⟨[("x", { name := "x", kind := .variable, type := some "int" })], [[("f", { name := "f", kind := .function })]]⟩
    enclosing := some ⟨"Function", some "f", some "int"⟩ }

/-- A function inside `f` that assigns its parameter to `x`, has a variable of the name `f`, and names a `z` that nothing
binds. -/
def inward : Node :=
  .function "g" (.several [.parameter "n" "int" 2]) "int" (.several [.declaration "f" "int" 3,
    .assignment (.text "x") (.identifier "n" 4) 4, .ret (.identifier "z" 5) 5]) 2

theorem halfway_keeps : ∃ s', Ran (visit inward) halfway none s' ∧ s'.chain.outer = halfway.chain.outer ∧
    (s'.chain.lookup "x").map (·.initialized) = some true ∧ s'.found.length = 1 ∧ halfway.Keeps s' :=
  have h : Ran (visit inward) halfway none { halfway with
      chain := halfway.chain.assigned "x", found := [⟨.unbound "g" "z", 5⟩] } := rfl
  ⟨_, h, rfl, rfl, rfl, visit_keeps inward h⟩

end Check
end TesLang
