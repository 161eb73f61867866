import TesLang.Node.Outline
/-!
# The nodes in a tree

A node has attributes, and an attribute holds a node, a list, a text, a number or nothing (`attributes`).  The children of a
node are the nodes that its attributes hold, and those in the lists that they hold (`children`).  The nodes that can be
reached from a tree in this way, each before its children, are its `preorder`.

An outline of a tree has the same children (`outline_eq`).
-/
namespace TesLang.Node

/-- Whether this is a node, and no filler. -/
def isProper : Node → Bool
  | nothing | text _ | integer _ | several _ => false
  | _ => true

/-- The attributes of a node but its line, in their order. -/
def attributes : Node → List (String × Node)
  | program fs => [("functions", several fs)]
  | function name params type body _ =>
    [("name", text name), ("params", params), ("return_type", text type), ("body", body)]
  | parameter name type _ => [("name", text name), ("param_type", text type)]
  | declaration name type _ => [("name", text name), ("var_type", text type)]
  | assignment target value _ => [("target", target), ("value", value)]
  | call name args _ => [("name", text name), ("args", several args)]
  | ret value _ => [("value", value)]
  | branch condition yes no _ => [("condition", condition), ("then_stmt", yes), ("else_stmt", no)]
  | forLoop var start stop body _ => [("var", text var), ("start", start), ("end", stop), ("body", body)]
  | whileLoop condition body _ => [("condition", condition), ("body", body)]
  | doLoop body condition _ => [("body", body), ("condition", condition)]
  | block ss _ => [("statements", several ss)]
  | binary left op right _ => [("left", left), ("op", text op), ("right", right)]
  | unary op operand _ => [("op", text op), ("operand", operand)]
  | identifier name _ => [("name", text name)]
  | number value _ => [("value", integer value)]
  | string value _ => [("value", text value)]
  | boolean value _ => [("value", text value)]
  | ternary condition yes no _ => [("condition", condition), ("true_expr", yes), ("false_expr", no)]
  | element base index _ => [("array", text base), ("index", index)]
  | array es _ => [("elements", several es)]
  | listOf size _ => [("size", size)]
  | bare | nothing | text _ | integer _ | several _ => []

/-- The nodes in a list, from number `i` on. -/
def members (place : String) (i : Nat) : List Node → List (String × Node)
  | [] => []
  | n :: ns => (if n.isProper then [(slot place i, n)] else []) ++ members place (i + 1) ns

/-- The nodes that an attribute holds. -/
def held (place : String) : Node → List (String × Node)
  | several ns => members place 0 ns
  | n => if n.isProper then [(place, n)] else []

@[simp] theorem held_several (place : String) (ns : List Node) : held place (several ns) = members place 0 ns := rfl

@[simp] theorem held_text (place s : String) : held place (text s) = [] := rfl

@[simp] theorem held_integer (place : String) (i : Int) : held place (integer i) = [] := rfl

/-- **The children of a node**, each with the name of its place. -/
def children (n : Node) : List (String × Node) := n.attributes.flatMap fun (place, n) => held place n

/-! ### Children are smaller -/

/-- How much there is in some nodes. -/
noncomputable def weight : List (String × Node) → Nat
  | [] => 0
  | e :: ns => sizeOf e.2 + weight ns

@[simp] theorem weight_nil : weight [] = 0 := rfl

@[simp] theorem weight_cons (place : String) (n : Node) (ns : List (String × Node)) :
    weight ((place, n) :: ns) = sizeOf n + weight ns := rfl

@[simp] theorem weight_append (ms ns : List (String × Node)) : weight (ms ++ ns) = weight ms + weight ns := by
  induction ms with
  | nil => simp
  | cons e ms ih => rw [List.cons_append, weight_cons, weight_cons, ih, Nat.add_assoc]

theorem weight_members (place : String) (ns : List Node) (i : Nat) : weight (members place i ns) ≤ sizeOf ns := by
  induction ns generalizing i with
  | nil => simp [members]
  | cons n ns ih =>
    have := ih (i + 1)
    cases proper : n.isProper <;> simp [members, proper] <;> omega

theorem weight_held (place : String) (n : Node) : weight (held place n) ≤ sizeOf n := by
  cases n with
  | several ns =>
    have := weight_members place ns 0
    simp only [held, several.sizeOf_spec]
    omega
  | _ => simp [held, isProper]

theorem weight_children (n : Node) : weight n.children < sizeOf n := by
  cases n <;> simp [children, attributes] <;> grind [weight_held, weight_members]

theorem mem_members {place : String} {e : String × Node} {ns : List Node} {i : Nat} (h : e ∈ members place i ns) :
    e.2.isProper = true ∧ ∃ j, e.1 = slot place j := by
  induction ns generalizing i with
  | nil => cases h
  | cons n ns ih =>
    rw [members] at h
    rcases List.mem_append.1 h with h | h
    · split at h
      · next proper =>
        obtain rfl := List.mem_singleton.1 h
        exact ⟨proper, i, rfl⟩
      · cases h
    · exact ih h

theorem mem_children {n : Node} {e : String × Node} (h : e ∈ n.children) :
    e.2.isProper = true ∧ ∃ a ∈ n.attributes, e.1 = a.1 ∨ ∃ j, e.1 = slot a.1 j := by
  obtain ⟨⟨place, v⟩, ha, h⟩ := List.mem_flatMap.1 h
  dsimp only [held] at h
  split at h
  · obtain ⟨proper, slot⟩ := mem_members h
    exact ⟨proper, _, ha, .inr slot⟩
  · split at h
    · next proper =>
      obtain rfl := List.mem_singleton.1 h
      exact ⟨proper, _, ha, .inl rfl⟩
    · cases h

/-! ### The nodes in their order -/

/-- **Where a node stands in a tree**: how deep, and in which place of the node above it, with whether that is the last one. -/
structure Entry where
  depth : Nat := 0
  place : Option (String × Bool) := none
  node : Node

/-- The nodes below a node at some depth of which these children are left, each before its own children. -/
def descendants (depth : Nat) : List (String × Node) → List Entry
  | [] => []
  | (place, n) :: rest =>
    ⟨depth + 1, some (place, rest.isEmpty), n⟩ :: (descendants (depth + 1) n.children ++ descendants depth rest)
termination_by ns => weight ns
decreasing_by
  · have := weight_children n
    simp
    omega
  · cases n <;> simp +arith

/-- **All nodes of a tree**, each before its children. -/
def preorder (n : Node) : List Entry := { node := n } :: descendants 0 n.children

/-! ### Outlines -/

def outlined (e : String × Node) : String × Outline := (e.1, e.2.outline)

theorem entries_eq (place : String) (ns : List Node) (i : Nat) : entries place i ns = (members place i ns).map outlined := by
  induction ns generalizing i with
  | nil => rw [entries, members, List.map_nil]
  | cons n ns ih => cases n <;> simp [entries, members, isProper, outlined, ih]

theorem entries_place (place : String) (ns : List Node) (i : Nat) :
    (entries "" i ns).map (fun (slot, child) => (place ++ slot, child)) = entries place i ns := by
  induction ns generalizing i with
  | nil => simp [entries]
  | cons n ns ih => cases n <;> simp [entries, slot, ih, String.append_assoc]

theorem entriesAt_eq (place : String) (n : Node) : entriesAt place n n.outline = (held place n).map outlined := by
  cases n with
  | several ns => rw [outline, entriesAt, entries_place, entries_eq, held]
  | _ => rfl

/-- **The outline of a node has the outlines of its children.** -/
theorem outline_eq {n : Node} (proper : n.isProper = true) :
    n.outline = .mk n.title n.caption (n.children.map outlined) := by
  cases n with
  | several ns => cases proper
  | _ => simp [outline, children, attributes, entries_eq, entriesAt_eq]

end TesLang.Node
