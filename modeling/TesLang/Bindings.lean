/-!
# Bindings

Values under names, in the order in which the names were first bound.  Binding a name anew replaces its value and keeps
its place.  Scopes bind names to symbols, and code generation binds variables to registers.
-/
namespace TesLang

/-- Names and values, in the order of first binding. -/
abbrev Bindings (α : Type) := List (String × α)

namespace Bindings

variable {α : Type}

/-- The value of a name. -/
def find? (b : Bindings α) (name : String) : Option α := b.lookup name

/-- Binds `name` to `value`. -/
def insert (name : String) (value : α) : Bindings α → Bindings α
  | []            => [(name, value)]
  | entry :: rest => if entry.1 = name then (name, value) :: rest else entry :: insert name value rest

/-- Changes the value of `name`, if there is one. -/
def update (name : String) (f : α → α) : Bindings α → Bindings α
  | []            => []
  | entry :: rest => if entry.1 = name then (entry.1, f entry.2) :: rest else entry :: update name f rest

@[simp] theorem find?_nil (name : String) : find? ([] : Bindings α) name = none := rfl

theorem find?_cons (entry : String × α) (b : Bindings α) (name : String) :
    find? (entry :: b) name = if entry.1 = name then some entry.2 else find? b name := by
  unfold find?
  rw [List.lookup_cons]
  by_cases h : entry.1 = name
  · rw [if_pos h, h, beq_self_eq_true]
  · rw [if_neg h, beq_eq_false_iff_ne.2 fun h' => h h'.symm]

/-- A binding is found under its name, and hides nothing else. -/
theorem find?_insert (b : Bindings α) (name : String) (value : α) (other : String) :
    find? (insert name value b) other = if name = other then some value else find? b other := by
  induction b with
  | nil             => rw [insert, find?_cons]
  | cons entry b ih =>
    rw [insert]
    split
    · next h => rw [find?_cons, find?_cons, h]; split <;> rfl
    · next h =>
      rw [find?_cons, find?_cons, ih]
      split
      · next h' => rw [if_neg fun h'' => h (h'.trans h''.symm)]
      · rfl

/-- A change of a value is seen under its name only. -/
theorem find?_update (b : Bindings α) (name : String) (f : α → α) (other : String) :
    find? (update name f b) other = if name = other then (find? b other).map f else find? b other := by
  induction b with
  | nil             => rw [update]; split <;> rfl
  | cons entry b ih =>
    rw [update]
    split
    · next h => rw [find?_cons, find?_cons, h]; split <;> rfl
    · next h =>
      rw [find?_cons, find?_cons, ih]
      split
      · next h' => rw [if_neg fun h'' => h (h'.trans h''.symm)]
      · rfl

/-- A change of a value moves no name. -/
theorem map_fst_update (b : Bindings α) (name : String) (f : α → α) :
    (update name f b).map (·.1) = b.map (·.1) := by
  induction b with
  | nil             => rfl
  | cons entry b ih => rw [update]; split <;> simp [ih]

/-- Names keep their places, and a new name comes last. -/
theorem map_fst_insert (b : Bindings α) (name : String) (value : α) :
    (insert name value b).map (·.1) = if name ∈ b.map (·.1) then b.map (·.1) else b.map (·.1) ++ [name] := by
  induction b with
  | nil             => rfl
  | cons entry b ih =>
    rw [insert]
    split
    · next h => simp [h]
    · next h =>
      by_cases hb : name ∈ b.map (·.1)
      · simp only [List.map_cons, ih, if_pos hb, if_pos (List.mem_cons_of_mem _ hb)]
      · have hn : name ∉ entry.1 :: b.map (·.1) := fun hm => (List.mem_cons.1 hm).elim (fun h' => h h'.symm) hb
        simp only [List.map_cons, ih, if_neg hb, if_neg hn, List.cons_append]

end Bindings
end TesLang
