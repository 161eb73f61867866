import Mathlib.Data.List.Perm.Basic
import Mathlib.Data.Nat.Fib.Basic
import TesLang.Proofs.Printing.Children
/-!
# A tree in writing repeats its nodes

The text of a tree consists of entries, each for a node in its place (`Row`).  Under a node stand the entries of a child and of all
below it, and then once more those of its grandchildren through this child.  So a node at some depth is written as often as the
nodes one and two levels above it together, which makes a Fibonacci number (`rows_perm`).

A text shows each node once, in the order of a diagram, if and only if no node has grandchildren (`toTree_repeats`).
-/
namespace TesLang.Node

open Text Outline

/-- **An entry of a tree in writing**: what stands before it on its line, and the node in its place. -/
structure Row where
  margin : String
  entry : Entry

namespace Row

/-- An entry without its line end. -/
def line (r : Row) : String :=
  match r.entry.place with
  | none => r.margin ++ r.entry.node.title
  | some (place, last) => r.margin ++ mark last ++ place ++ ": " ++ r.entry.node.title

/-- The text of some entries. -/
def texts : List Row → String
  | [] => ""
  | r :: rs => r.line ++ "\n" ++ texts rs

theorem texts_append (rs qs : List Row) : texts (rs ++ qs) = texts rs ++ texts qs := by
  induction rs with
  | nil => simp [texts]
  | cons r rs ih => simp [texts, ih, String.append_assoc]

end Row

/-- What stands before the entries for the grandchildren. -/
def bar (last : Bool) : String := if last then "    " else "│   "

/-- The entries for some children of a node.  Those for what is below a child start in column `inner`, and are followed by one more
round for the grandchildren if they are written `twice`. -/
def rows (twice : Bool) (margin : String) (inner : Int) (depth : Nat) : List (String × Node) → List Row
  | [] => []
  | (place, n) :: rest =>
    ⟨margin, depth + 1, some (place, rest.isEmpty), n⟩ ::
      (rows true (indentation inner) (inner + 4) (depth + 1) n.children ++
        (if twice then
          rows false (indentation inner ++ bar rest.isEmpty) (inner + 8) (depth + 1) n.children
        else []) ++
        rows twice margin inner depth rest)
termination_by ns => weight ns
decreasing_by
  · have := weight_children n
    simp
    omega
  · have := weight_children n
    simp
    omega
  · cases n <;> simp

/-- The entries of a tree. -/
def allRows (indent : Int) (n : Node) : List Row :=
  ⟨"", { node := n }⟩ :: rows true (indentation indent) (indent + 4) 0 n.children

/-! ### The text is that of the entries -/

/-- The text starts with something that is no blank. -/
def Starts (cs : List Char) : Prop := cs.head?.any (!isBlank ·) = true

/-- The text ends in something that is no blank. -/
def Stops (cs : List Char) : Prop := cs.getLast?.any (!isBlank ·) = true

theorem Starts.append {p : List Char} (hp : Starts p) (q : List Char) : Starts (p ++ q) := by
  cases p with
  | nil => cases hp
  | cons c p => exact hp

theorem Stops.append {q : List Char} (hq : Stops q) (p : List Char) : Stops (p ++ q) := by
  unfold Stops at hq ⊢
  rw [List.getLast?_append]
  cases last : q.getLast? with
  | none => simp [last] at hq
  | some d => simpa [last] using hq

/-- A title has no blank at its ends, whatever the detail is. -/
theorem title_ends (n : Node) : Starts n.title.toList ∧ Stops n.title.toList := by
  have kind : Starts n.kind.toList ∧ Stops n.kind.toList := by
    cases n <;> rw [Node.kind] <;> exact ⟨by unfold Starts; decide +kernel, by unfold Stops; decide +kernel⟩
  have closed (s : String) : Starts (n.kind ++ " (" ++ s ++ ")").toList ∧ Stops (n.kind ++ " (" ++ s ++ ")").toList := by
    have bracket : Stops ")".toList := by unfold Stops; decide +kernel
    simp only [String.toList_append]
    exact ⟨((kind.1.append _).append _).append _, bracket.append _⟩
  unfold title
  cases n.detail with
  | none => exact kind
  | noValue =>
    have none : Stops " (None)".toList := by unfold Stops; decide +kernel
    exact String.toList_append ▸ ⟨kind.1.append _, none.append _⟩
  | name s | value s | op s => exact closed s

theorem trim_ends {cs : List Char} (starts : Starts cs) (stops : Stops cs) (k : Nat) :
    trim (List.replicate k ' ' ++ (cs ++ ['\n'])) = cs := by
  obtain ⟨d, hd⟩ : ∃ d, cs.getLast? = some d := by
    cases h : cs.getLast? with
    | none => simp [Stops, h] at stops
    | some d => exact ⟨d, rfl⟩
  obtain ⟨ds, rfl⟩ := List.getLast?_eq_some_iff.1 hd
  have solid : isBlank d = false := by simpa [Stops] using stops
  have kept : (ds ++ [d] ++ ['\n']).dropWhile isBlank = ds ++ [d] ++ ['\n'] := by
    cases ds with
    | nil => simp [solid]
    | cons c ds =>
      have first : isBlank c = false := by simpa [Starts] using starts
      simp [first]
  have spaces : ∀ c ∈ List.replicate k ' ', isBlank c = true := by
    intro c hc
    rw [List.eq_of_mem_replicate hc]
    decide
  have newline : isBlank '\n' = true := by decide
  rw [trim, List.dropWhile_append_of_pos spaces, kept]
  simp [newline, solid]

/-- What is trimmed off an indented text of entries are the spaces before it and its last line end. -/
theorem trimmed_texts {head : String} (starts : Starts head.toList) (stops : Stops head.toList) (k : Nat) (rs : List Row) :
    trimmed (spaces k ++ head ++ "\n" ++ Row.texts rs) ++ "\n" = head ++ "\n" ++ Row.texts rs := by
  induction rs generalizing head with
  | nil =>
    rw [← String.toList_inj]
    simp [Row.texts, trimmed, spaces, trim_ends starts stops]
  | cons r rs ih =>
    have last : Stops r.line.toList := by
      unfold Row.line
      split <;> simp only [String.toList_append] <;> exact (title_ends r.entry.node).2.append _
    have longer := @ih (head ++ "\n" ++ r.line) (by simp only [String.toList_append]; exact (starts.append _).append _)
      (by simp only [String.toList_append]; exact last.append _)
    simpa [Row.texts, String.append_assoc] using longer

theorem trimmed_toTree {n : Node} (proper : n.isProper = true) {indent : Int} {rs : List Row}
    (inner : childTexts indent (n.children.map outlined) = Row.texts rs) :
    trimmed (toTree indent "" n.outline) ++ "\n" = n.title ++ "\n" ++ Row.texts rs := by
  rw [outline_eq proper, toTree, inner, indentation, String.append_empty]
  exact trimmed_texts (title_ends n).1 (title_ends n).2 _ rs

/-- **The text for some children is that of their entries.** -/
theorem texts_rows (twice : Bool) (margin : String) (inner : Int) (depth : Nat) (ns : List (String × Node))
    (proper : ∀ e ∈ ns, e.2.isProper = true) (column : twice = true → margin = indentation (inner - 4)) :
    (if twice then childTexts (inner - 4) (ns.map outlined) else grandchildTexts margin inner (ns.map outlined)) =
      Row.texts (rows twice margin inner depth ns) := by
  fun_induction rows twice margin inner depth ns with
  | case1 twice margin inner => cases twice <;> simp [childTexts, grandchildTexts, Row.texts]
  | case2 twice margin inner depth place n rest ih₁ ih₂ ih₃ =>
    have own : n.isProper = true := proper (place, n) List.mem_cons_self
    have below : ∀ e ∈ n.children, e.2.isProper = true := fun e he => (mem_children he).1
    have first := ih₁ below fun _ => by rw [Int.add_sub_cancel]
    have later := ih₃ (fun e he => proper e (List.mem_cons_of_mem _ he)) column
    rw [if_pos rfl, Int.add_sub_cancel] at first
    have child (behind : String) := congrArg (· ++ behind) (trimmed_toTree own first)
    simp only [String.append_assoc] at child
    cases twice with
    | false =>
      simp only [Bool.false_eq_true, if_false] at later ⊢
      rw [List.map_cons, outlined, grandchildTexts, Row.texts, Row.texts_append, Row.texts_append, ← later]
      simp only [Row.line, String.append_assoc, child, List.isEmpty_map, Row.texts, String.empty_append]
    | true =>
      have second := ih₂ below fun none => by cases none
      simp only [Bool.false_eq_true, if_false, if_true] at later second ⊢
      obtain rfl := column rfl
      have width : inner - 4 + 4 = inner ∧ inner - 4 + 12 = inner + 8 := by omega
      rw [List.map_cons, outlined, outline_eq own, childTexts, ← outline_eq own, width.1, width.2, Row.texts, Row.texts_append,
        Row.texts_append, ← later, ← second]
      simp only [Row.line, bar, String.append_assoc, child, List.isEmpty_map]

/-- **The text of a tree is that of its entries.** -/
theorem toTree_eq {n : Node} (proper : n.isProper = true) (indent : Int) (lead : String) :
    n.outline.toTree indent lead = indentation indent ++ lead ++ Row.texts (allRows indent n) := by
  have inner := texts_rows true (indentation indent) (indent + 4) 0 n.children (fun e he => (mem_children he).1)
    fun _ => by rw [Int.add_sub_cancel]
  rw [if_pos rfl, Int.add_sub_cancel] at inner
  rw [outline_eq proper, toTree, inner, allRows, Row.texts]
  simp [Row.line, String.append_assoc]

/-! ### How often a node is written -/

theorem depth_lt {depth : Nat} {ns : List (String × Node)} {e : Entry} (he : e ∈ descendants depth ns) : depth < e.depth := by
  fun_induction descendants depth ns with
  | case1 => cases he
  | case2 depth place n rest ih₁ ih₂ =>
    rcases List.mem_cons.1 he with rfl | he
    · exact Nat.lt_succ_self depth
    · rcases List.mem_append.1 he with he | he
      · exact Nat.lt_of_succ_lt (ih₁ he)
      · exact ih₂ he

/-- **A node is written as often as the nodes one and two levels above it together.** -/
theorem rows_perm (twice : Bool) (margin : String) (inner : Int) (depth : Nat) (ns : List (String × Node)) :
    ((rows twice margin inner depth ns).map Row.entry).Perm
      ((descendants depth ns).flatMap fun e => List.replicate (Nat.fib (e.depth - depth + twice.toNat)) e) := by
  fun_induction rows twice margin inner depth ns with
  | case1 => simp [descendants]
  | case2 twice margin inner depth place n rest ih₁ ih₂ ih₃ =>
    have below (e : Entry) (he : e ∈ descendants (depth + 1) n.children) :
        ∃ k, e.depth - (depth + 1) = k ∧ e.depth - depth = k + 1 := by
      have := depth_lt he
      exact ⟨_, rfl, by omega⟩
    have once : Nat.fib (depth + 1 - depth + twice.toNat) = 1 := by
      rw [Nat.add_sub_cancel_left]
      cases twice <;> rfl
    rw [descendants, List.flatMap_cons, List.flatMap_append, once]
    simp only [List.map_cons, List.map_append, List.replicate_one, List.singleton_append]
    refine .cons _ (.append ?_ ih₃)
    cases twice with
    | false =>
      simp only [Bool.false_eq_true, if_false, List.map_nil, List.append_nil]
      refine ih₁.trans (.of_eq (List.flatMap_congr fun e he => ?_))
      obtain ⟨k, hk, hk'⟩ := below e he
      rw [hk, hk']
      rfl
    | true =>
      simp only [if_true]
      refine (ih₁.append ih₂).trans ((List.flatMap_append_perm _ _ _).trans (.of_eq (List.flatMap_congr fun e he => ?_)))
      obtain ⟨k, hk, hk'⟩ := below e he
      rw [hk, hk', ← List.replicate_add, Nat.add_comm]
      exact congrArg (List.replicate · e) Nat.fib_add_two.symm

theorem descendants_sublist (twice : Bool) (margin : String) (inner : Int) (depth : Nat) (ns : List (String × Node)) :
    (descendants depth ns).Sublist ((rows twice margin inner depth ns).map Row.entry) := by
  fun_induction rows twice margin inner depth ns with
  | case1 => simp [descendants]
  | case2 twice margin inner depth place n rest ih₁ _ ih₃ =>
    rw [descendants]
    simp only [List.map_cons, List.map_append, List.append_assoc]
    exact .cons_cons _ (ih₁.append (ih₃.trans (List.sublist_append_right _ _)))

theorem newline_notMem_margin (twice : Bool) (margin : String) (inner : Int) (depth : Nat) (ns : List (String × Node))
    (plain : '\n' ∉ margin.toList) : ∀ r ∈ rows twice margin inner depth ns, '\n' ∉ r.margin.toList := by
  have spaces (i : Int) : '\n' ∉ (indentation i).toList := by simp [indentation, Text.spaces]
  fun_induction rows twice margin inner depth ns with
  | case1 => simp
  | case2 twice margin inner depth place n rest ih₁ ih₂ ih₃ =>
    have second : '\n' ∉ (indentation inner ++ bar rest.isEmpty).toList := by
      cases rest.isEmpty <;> simp [spaces, bar]
    intro r hr
    rcases List.mem_cons.1 hr with rfl | hr
    · exact plain
    · rcases List.mem_append.1 hr with hr | hr
      · rcases List.mem_append.1 hr with hr | hr
        · exact ih₁ (spaces inner) r hr
        · cases twice with
          | false => cases hr
          | true => exact ih₂ second r hr
      · exact ih₃ plain r hr

/-! ### Entries that are written once -/

/-- The text consists of these entries, behind what it starts with. -/
def Consists (text start : String) (rs : List Row) : Prop :=
  text = start ++ Row.texts rs ∧ ∀ r ∈ rs, '\n' ∉ r.margin.toList

/-- The line ends in an entry. -/
def breaks (e : Entry) : List Char := ((Row.mk "" e).line ++ "\n").toList.filter (· = '\n')

theorem breaks_ne_nil (e : Entry) : breaks e ≠ [] := by simp [breaks]

theorem filter_texts {rs : List Row} (plain : ∀ r ∈ rs, '\n' ∉ r.margin.toList) :
    (Row.texts rs).toList.filter (· = '\n') = (rs.map Row.entry).flatMap breaks := by
  induction rs with
  | nil => rfl
  | cons r rs ih =>
    obtain ⟨own, rest⟩ := List.forall_mem_cons.1 plain
    have none : r.margin.toList.filter (· = '\n') = [] := by
      simpa [List.filter_eq_nil_iff] using fun c hc (same : c = '\n') => own (same ▸ hc)
    rw [Row.texts, List.map_cons, List.flatMap_cons, ← ih rest, breaks]
    obtain ⟨margin, depth, place, n⟩ := r
    cases place <;> simp [Row.line, List.filter_append, none]

/-- If copies of some entries have no more line ends than the entries, there is one copy of each. -/
theorem copies_eq_one {copies : Entry → Nat} (some : ∀ e, 0 < copies e) (es : List Entry) :
    (es.flatMap breaks).length ≤ ((es.flatMap fun e => List.replicate (copies e) e).flatMap breaks).length ∧
    (((es.flatMap fun e => List.replicate (copies e) e).flatMap breaks).length = (es.flatMap breaks).length →
      ∀ e ∈ es, copies e = 1) := by
  induction es with
  | nil => simp
  | cons e es ih =>
    obtain ⟨le, one⟩ := ih
    have size : ((List.replicate (copies e) e).flatMap breaks).length = copies e * (breaks e).length := by
      rw [List.flatMap_replicate]
      simp
    have least : (breaks e).length ≤ copies e * (breaks e).length := Nat.le_mul_of_pos_left _ (some e)
    have full : 0 < (breaks e).length := List.length_pos_of_ne_nil (breaks_ne_nil e)
    simp only [List.flatMap_cons, List.flatMap_append, List.length_append, size, List.forall_mem_cons]
    refine ⟨by omega, fun same => ⟨?_, one (by omega)⟩⟩
    exact Nat.eq_of_mul_eq_mul_right full (by omega)

/-- How often an entry is written. -/
def frequency (e : Entry) : Nat := Nat.fib (e.depth + 1)

theorem frequency_pos (e : Entry) : 0 < frequency e := Nat.fib_pos.2 (Nat.succ_pos _)

theorem frequency_eq_one {e : Entry} : frequency e = 1 ↔ e.depth ≤ 1 := by
  unfold frequency
  rcases e.depth with _ | _ | d
  · simp
  · simp
  · have : 0 < Nat.fib (d + 1) := Nat.fib_pos.2 (Nat.succ_pos _)
    have : 0 < Nat.fib (d + 2) := Nat.fib_pos.2 (Nat.succ_pos _)
    have : Nat.fib (d + 1 + 1 + 1) = Nat.fib (d + 1) + Nat.fib (d + 2) := Nat.fib_add_two
    omega

variable {n : Node}

theorem consists_allRows (proper : n.isProper = true) (indent : Int) (lead : String) :
    Consists (n.outline.toTree indent lead) (indentation indent ++ lead) (allRows indent n) := by
  refine ⟨toTree_eq proper indent lead, List.forall_mem_cons.2 ⟨by simp, ?_⟩⟩
  exact newline_notMem_margin _ _ _ _ _ (by simp [indentation, spaces])

theorem allRows_perm (indent : Int) (n : Node) :
    ((allRows indent n).map Row.entry).Perm (n.preorder.flatMap fun e => List.replicate (frequency e) e) :=
  .cons _ (rows_perm true (indentation indent) (indent + 4) 0 n.children)

theorem preorder_sublist (indent : Int) (n : Node) : n.preorder.Sublist ((allRows indent n).map Row.entry) :=
  .cons_cons _ (descendants_sublist true (indentation indent) (indent + 4) 0 n.children)

/-- If no node has grandchildren, the nodes are written once. -/
theorem entries_eq_preorder (flat : ∀ e ∈ n.preorder, e.depth ≤ 1) (indent : Int) :
    (allRows indent n).map Row.entry = n.preorder := by
  have single : (n.preorder.flatMap fun e => List.replicate (frequency e) e) = n.preorder := by
    have one (e : Entry) (he : e ∈ n.preorder) : List.replicate (frequency e) e = [e] := by
      rw [frequency_eq_one.2 (flat e he), List.replicate_one]
    rw [List.flatMap_congr one, List.flatMap_singleton']
  have length := (allRows_perm indent n).length_eq
  rw [single] at length
  exact ((preorder_sublist indent n).eq_of_length length.symm).symm

/-- If the nodes are written once, no node has grandchildren: there would be more line ends. -/
theorem depth_le_one (proper : n.isProper = true) {indent : Int} {lead : String} {rs : List Row}
    (written : Consists (n.outline.toTree indent lead) (indentation indent ++ lead) rs) (once : rs.map Row.entry = n.preorder) :
    ∀ e ∈ n.preorder, e.depth ≤ 1 := by
  obtain ⟨same, plain⟩ := consists_allRows proper indent lead
  have text : Row.texts rs = Row.texts (allRows indent n) := (String.append_right_inj _).1 (written.1.symm.trans same)
  have ends := filter_texts written.2
  rw [text, filter_texts plain, once] at ends
  have length := ((allRows_perm indent n).flatMap_right breaks).length_eq
  rw [ends] at length
  exact fun e he => frequency_eq_one.1 ((copies_eq_one frequency_pos n.preorder).2 length.symm e he)

/-- **A tree in writing repeats its nodes.**  The text consists of entries for the nodes of the tree.  All nodes occur in their
order, each before its children, but a node at depth `d` has as many entries as the Fibonacci number of `d + 1` says.

So the nodes of a tree have one entry each, in their order, if and only if no node is deeper than one. -/
theorem toTree_repeats (proper : n.isProper = true) (indent : Int) (lead : String) :
    (∃ rs, Consists (n.outline.toTree indent lead) (indentation indent ++ lead) rs ∧
      n.preorder.Sublist (rs.map Row.entry) ∧
      (rs.map Row.entry).Perm (n.preorder.flatMap fun e => List.replicate (Nat.fib (e.depth + 1)) e)) ∧
    ((∃ rs, Consists (n.outline.toTree indent lead) (indentation indent ++ lead) rs ∧ rs.map Row.entry = n.preorder) ↔
      ∀ e ∈ n.preorder, e.depth ≤ 1) := by
  have written := consists_allRows proper indent lead
  refine ⟨⟨_, written, preorder_sublist indent n, allRows_perm indent n⟩, ?_, fun flat => ?_⟩
  · rintro ⟨rs, written, once⟩
    exact depth_le_one proper written once
  · exact ⟨_, written, entries_eq_preorder flat indent⟩

/-- A number with two signs. -/
def twofold : Node := .unary "-" (.unary "-" (.number 1 1) 1) 1

theorem twofold_preorder : twofold.preorder =
    [⟨0, none, twofold⟩, ⟨1, some ("operand", true), .unary "-" (.number 1 1) 1⟩, ⟨2, some ("operand", true), .number 1 1⟩] := by
  simp [preorder, twofold, descendants, children, attributes, held, isProper]

/-- The number has two entries. -/
theorem twofold_repeats : ∃ rs, Consists (twofold.outline.toTree 3 "x") (indentation 3 ++ "x") rs ∧
    (rs.map Row.entry).Perm [⟨0, none, twofold⟩, ⟨1, some ("operand", true), .unary "-" (.number 1 1) 1⟩,
      ⟨2, some ("operand", true), .number 1 1⟩, ⟨2, some ("operand", true), .number 1 1⟩] := by
  obtain ⟨rs, written, -, perm⟩ := (toTree_repeats (n := twofold) rfl 3 "x").1
  rw [twofold_preorder] at perm
  exact ⟨rs, written, perm⟩

theorem twofold_not_once : ¬ ∃ rs, Consists (twofold.outline.toTree 0 "") (indentation 0 ++ "") rs ∧
    rs.map Row.entry = twofold.preorder := by
  rintro ⟨rs, written, once⟩
  have flat := depth_le_one rfl written once
  rw [twofold_preorder] at flat
  exact absurd (flat ⟨2, some ("operand", true), .number 1 1⟩ (by simp)) (by decide)

end TesLang.Node
