/-!
# Registers

Registers are numbered.  A bank hands out the lowest free one at or after a point that moves on with each register
handed out, and a register that was handed out or reserved stays taken until the bank is cleared.  Register 0 is never
handed out: it holds what a function returns.

The point may be moved anywhere, below zero too.  A name that is no register can be reserved as well; it is listed with
the registers and is in the way of none of them.
-/
namespace TesLang.Code

/-- A register. -/
structure Reg where
  index : Int
  deriving DecidableEq, Repr

namespace Reg

def text (r : Reg) : String := "r" ++ toString r.index

/-- The register of the value that a function returns. -/
def result : Reg := ⟨0⟩

/-- The register of a name. -/
def ofText? (s : String) : Option Reg := do
  let r : Reg := ⟨← (s.drop 1).toString.toInt?⟩
  if r.text = s then some r else none

end Reg

/-- The registers that are taken, the other names that are, the point from which the next register is sought, and the
highest number ever handed out. -/
structure Bank where
  current : Int := 0
  highest : Int := 0
  taken : List Reg := [.result]
  names : List String := []
  deriving DecidableEq, Repr

namespace Bank

/-- The numbers at or after `current`, as many as registers are taken and one more. -/
def candidates (b : Bank) : List Int := (List.range (b.taken.length + 1)).map fun (i : Nat) => b.current + i

/-- The least number at or after `current` whose register is free.  One at least of the candidates is. -/
def free (b : Bank) : Int := (b.candidates.find? fun i => !b.taken.contains ⟨i⟩).getD b.current

/-- Takes a register out of the bank. -/
def reserve (r : Reg) (b : Bank) : Bank :=
  if b.taken.contains r then b else { b with taken := b.taken ++ [r] }

@[simp] theorem mem_taken_reserve (b : Bank) (r s : Reg) : s ∈ (b.reserve r).taken ↔ s ∈ b.taken ∨ s = r := by
  unfold reserve
  split
  · next h => exact ⟨.inl, fun hs => hs.elim id fun e => e ▸ List.contains_iff_mem.1 h⟩
  · simp

/-- Reserves a name, which may be that of a register. -/
def reserveName (s : String) (b : Bank) : Bank :=
  match Reg.ofText? s with
  | some r => b.reserve r
  | none   => if b.names.contains s then b else { b with names := b.names ++ [s] }

/-- Hands out the next free register. -/
def allocate (b : Bank) : Reg × Bank :=
  let r : Reg := ⟨b.free⟩
  (r, { (b.reserve r) with current := r.index + 1, highest := max b.highest r.index })

/-- Frees all registers but the first, and all other names. -/
def clear (b : Bank) : Bank := { b with current := 0, taken := [.result], names := [] }

/-- Moves the point from which the next register is sought. -/
def moveTo (i : Int) (b : Bank) : Bank := { b with current := i }

/-- All that is taken, in the order of the texts. -/
def listing (b : Bank) : List String := (b.taken.map Reg.text ++ b.names).mergeSort fun s t => decide (s ≤ t)

end Bank
end TesLang.Code
