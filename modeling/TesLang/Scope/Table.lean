import TesLang.Bindings
import TesLang.Scope.Symbol
/-!
# Scopes

A scope binds names to symbols.  A name is looked up along a chain of scopes, from the innermost outwards.

`Chain` is the chain that a walk over a program has open.  `Forest` keeps every scope that was ever made, each with
its parent, and the chain of any of them can be read off it (`Forest.chain`).
-/
namespace TesLang

/-- A scope: names and symbols, in the order of first binding. -/
abbrev Scope := Bindings Symbol

/-- The scopes that are open at a point: the innermost one and those around it, inside out. -/
structure Chain where
  inner : Scope := []
  outer : List Scope := []
  deriving DecidableEq, Repr

namespace Chain

/-- All scopes of a chain, inside out. -/
def scopes (c : Chain) : List Scope := c.inner :: c.outer

/-- The symbol of `name` in the innermost scope that binds it. -/
def lookup (c : Chain) (name : String) : Option Symbol := c.scopes.findSome? (·.find? name)

def insert (c : Chain) (name : String) (symbol : Symbol) : Chain := { c with inner := c.inner.insert name symbol }

/-- Opens a scope inside the others. -/
def enter (c : Chain) : Chain := ⟨[], c.scopes⟩

/-- Closes the innermost scope; the outermost one stays. -/
def leave (c : Chain) : Chain :=
  match c.outer with
  | []      => c
  | s :: ss => ⟨s, ss⟩

/-- Changes the symbol of `name` in the innermost of the given scopes that binds it. -/
def updateFirst (name : String) (f : Symbol → Symbol) : List Scope → List Scope
  | []      => []
  | s :: ss => if (s.find? name).isSome then s.update name f :: ss else s :: updateFirst name f ss

/-- Marks the variable that `name` stands for as having a value. -/
def assigned (c : Chain) (name : String) : Chain :=
  match updateFirst name (fun s => { s with initialized := true }) c.scopes with
  | []      => c
  | s :: ss => ⟨s, ss⟩

@[simp] theorem scopes_enter (c : Chain) : c.enter.scopes = [] :: c.scopes := rfl

@[simp] theorem leave_enter (c : Chain) : c.enter.leave = c := rfl

/-- A scope just opened binds nothing yet. -/
@[simp] theorem lookup_enter (c : Chain) (name : String) : c.enter.lookup name = c.lookup name := rfl

/-- A name bound in the innermost scope is found there, and all others where they were. -/
theorem lookup_insert (c : Chain) (name : String) (symbol : Symbol) (other : String) :
    (c.insert name symbol).lookup other = if name = other then some symbol else c.lookup other := by
  unfold lookup scopes insert
  rw [List.findSome?_cons, List.findSome?_cons, Bindings.find?_insert]
  by_cases h : name = other
  · rw [if_pos h, if_pos h]
  · rw [if_neg h, if_neg h]

end Chain

/-- A scope among others, with the number of its parent. -/
structure Nested where
  parent : Option Nat
  scope : Scope := []
  deriving DecidableEq, Repr

/-- Scopes under their numbers; a scope is made after its parent. -/
abbrev Forest := Array Nested

namespace Forest

/-- Makes a scope, whose number is that of scopes so far. -/
def grow (f : Forest) (parent : Option Nat) : Forest := f.push { parent }

/-- Binds a name in scope `i`. -/
def insert (f : Forest) (i : Nat) (name : String) (symbol : Symbol) : Forest :=
  f.modify i fun n => { n with scope := n.scope.insert name symbol }

def scope (f : Forest) (i : Nat) : Scope := (f[i]?.map (·.scope)).getD []

/-- Scope `i` and the scopes around it, inside out; `n` bounds their number. -/
def chainUpTo (f : Forest) : Nat → Nat → List Scope
  | 0,     _ => []
  | n + 1, i =>
    match f[i]? with
    | none   => []
    | some s =>
      match s.parent with
      | none   => [s.scope]
      | some j => s.scope :: chainUpTo f n j

def chain (f : Forest) (i : Nat) : List Scope := f.chainUpTo (i + 1) i

def lookup (f : Forest) (i : Nat) (name : String) : Option Symbol := (f.chain i).findSome? (·.find? name)

/-- The numbers of the scopes whose parent is scope `i`, in the order in which they were made. -/
def children (f : Forest) (i : Nat) : List Nat :=
  (List.range f.size).filter fun j => (f[j]?.bind (·.parent)) == some i

end Forest
end TesLang
