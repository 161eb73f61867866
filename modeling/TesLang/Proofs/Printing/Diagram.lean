import TesLang.Proofs.Printing.Children
/-!
# Diagrams show trees as they are

A diagram has one line for each node of a tree, and one line before it for its place, in the order of the nodes (`diagram_eq`).
How far a line is indented tells what it is: nodes stand in columns that are multiples of eight, and places four columns
further left than their nodes.

So the tree of labels (`Sketch`) can be rebuilt from the lines.  They are taken from the last to the first (`Pending.line`): a
node finds its children finished and waiting in the column of their places, and then waits for the line of its own place.
-/
namespace TesLang

open Text

/-- **What a diagram shows of a tree**: the label of each node, and its children with their places. -/
inductive Sketch where
  | mk (label : String) (parts : List (String × Sketch))

namespace Node

/-- The sketches of some nodes. -/
def sketches : List (String × Node) → List (String × Sketch)
  | [] => []
  | (place, n) :: rest => (place, .mk n.caption (sketches n.children)) :: sketches rest
termination_by ns => weight ns
decreasing_by
  · have := weight_children n
    simp
    omega
  · cases n <;> simp +arith

/-- The sketch of a tree. -/
def sketch (n : Node) : Sketch := .mk n.caption (sketches n.children)

namespace Entry

/-- The line of a node. -/
def nodeLine (e : Entry) : String := spaces (8 * e.depth) ++ "└── " ++ e.node.caption

/-- The lines of a node, the first of them for its place. -/
def lines (e : Entry) : List String :=
  match e.place with
  | none => [e.nodeLine]
  | some (place, last) => [spaces (8 * e.depth - 4) ++ Outline.mark last ++ place ++ ":", e.nodeLine]

end Entry

/-! ### The lines of a diagram -/

theorem childLines_eq (depth : Nat) (ns : List (String × Node)) (proper : ∀ e ∈ ns, e.2.isProper = true) :
    Outline.childLines (8 * depth) (ns.map outlined) = (descendants depth ns).flatMap Entry.lines := by
  fun_induction descendants depth ns with
  | case1 => rw [List.map_nil, Outline.childLines, List.flatMap_nil]
  | case2 depth place n rest ih₁ ih₂ =>
    have inner := ih₁ fun e he => (mem_children he).1
    have later := ih₂ fun e he => proper e (List.mem_cons_of_mem _ he)
    have own : n.isProper = true := proper (place, n) List.mem_cons_self
    rw [List.map_cons, outlined, outline_eq own, Outline.childLines, Outline.lines, List.flatMap_cons, List.flatMap_append,
      ← inner, ← later]
    simp [Entry.lines, Entry.nodeLine, Nat.mul_add]

/-- What stands above a diagram. -/
def heading (title : String) : List String := ["", title ++ ":", rule title.length '=']

/-- **A diagram has the lines of the nodes of the tree**, in their order. -/
theorem diagram_eq {n : Node} (proper : n.isProper = true) (title : String) :
    diagramOf title n = heading title ++ n.preorder.flatMap Entry.lines ++ [""] := by
  have lines := childLines_eq 0 n.children fun e he => (mem_children he).1
  have given : diagramOf title n = n.outline.diagram title := by
    cases n with
    | nothing => cases proper
    | _ => rfl
  rw [given, outline_eq proper, Outline.diagram, Outline.lines, preorder, List.flatMap_cons, ← lines]
  simp [heading, Entry.lines, Entry.nodeLine]

end Node

/-! ### The tree behind the lines -/

/-- What is rebuilt when the lines of a diagram are taken from the last to some line: the node whose place is on the line
before, and the nodes that wait for the node above them, each with the column of its place. -/
structure Pending where
  node : Option Sketch := none
  parts : List (Nat × String × Sketch) := []

namespace Pending

/-- One more line is taken. -/
def line (l : List Char) (p : Pending) : Pending :=
  let column := (l.takeWhile (· = ' ')).length
  let label := l.drop (column + 4)
  if column % 8 = 0 then
    { node := some (.mk (String.ofList label) ((p.parts.takeWhile (·.1 = column + 4)).map (·.2)))
      parts := p.parts.dropWhile (·.1 = column + 4) }
  else
    match p.node with
    | some s => { parts := (column, String.ofList label.dropLast, s) :: p.parts }
    | none => p

/-- The lines of a diagram are taken. -/
def lines (ls : List String) (p : Pending) : Pending := (ls.map String.toList).foldr line p

theorem lines_append (ls ms : List String) (p : Pending) : lines (ls ++ ms) p = lines ls (lines ms p) := by
  rw [lines, List.map_append, List.foldr_append]
  rfl

theorem indented (k : Nat) {m : Char} (mark : m ≠ ' ') (label : List Char) :
    ((List.replicate k ' ' ++ m :: '─' :: '─' :: ' ' :: label).takeWhile (· = ' ')).length = k ∧
      (List.replicate k ' ' ++ m :: '─' :: '─' :: ' ' :: label).drop (k + 4) = label := by
  rw [List.takeWhile_append_of_pos (by simp), List.drop_append, List.drop_eq_nil_of_le (by simp)]
  simp [mark]

theorem line_node (d : Nat) (label : String) (p : Pending) :
    line (spaces (8 * d) ++ "└── " ++ label).toList p =
      { node := some (.mk label ((p.parts.takeWhile (·.1 = 8 * d + 4)).map (·.2)))
        parts := p.parts.dropWhile (·.1 = 8 * d + 4) } := by
  have text : (spaces (8 * d) ++ "└── " ++ label).toList =
      List.replicate (8 * d) ' ' ++ '└' :: '─' :: '─' :: ' ' :: label.toList := by
    simp [spaces]
  obtain ⟨column, rest⟩ := indented (8 * d) (m := '└') (by decide) label.toList
  rw [text, line, column, rest]
  simp

theorem line_place (d : Nat) (last : Bool) (place : String) (s : Sketch) (parts : List (Nat × String × Sketch)) :
    line (spaces (8 * d + 4) ++ Outline.mark last ++ place ++ ":").toList { node := some s, parts := parts } =
      { parts := (8 * d + 4, place, s) :: parts } := by
  obtain ⟨m, mark, spelling⟩ : ∃ m, m ≠ ' ' ∧ (Outline.mark last).toList = m :: '─' :: '─' :: [' '] := by
    cases last
    · exact ⟨'├', by decide, rfl⟩
    · exact ⟨'└', by decide, rfl⟩
  have text : (spaces (8 * d + 4) ++ Outline.mark last ++ place ++ ":").toList =
      List.replicate (8 * d + 4) ' ' ++ m :: '─' :: '─' :: ' ' :: (place.toList ++ [':']) := by
    simp [spaces, spelling]
  obtain ⟨column, rest⟩ := indented (8 * d + 4) mark (place.toList ++ [':'])
  have other : (8 * d + 4) % 8 ≠ 0 := by omega
  rw [text, line, column, rest, if_neg other]
  simp

end Pending

namespace Node

theorem takeWhile_waiting {k : Nat} (ss : List (String × Sketch)) {parts : List (Nat × String × Sketch)}
    (outer : ∀ e ∈ parts.head?, e.1 < k) :
    ((ss.map (fun e => (k, e)) ++ parts).takeWhile (·.1 = k)).map (·.2) = ss ∧
      (ss.map (fun e => (k, e)) ++ parts).dropWhile (·.1 = k) = parts := by
  have waiting : ∀ e ∈ ss.map (fun e => (k, e)), decide (e.1 = k) = true := by
    intro e he
    obtain ⟨s, -, rfl⟩ := List.mem_map.1 he
    simp
  have same : (fun x : Nat × String × Sketch => x.2) ∘ (fun e => (k, e)) = id := rfl
  rw [List.takeWhile_append_of_pos waiting, List.dropWhile_append_of_pos waiting]
  cases parts with
  | nil => simp [same]
  | cons e parts =>
    have := Nat.ne_of_lt (outer e rfl)
    simp [same, this]

/-- **The nodes below a node are rebuilt from their lines**, and wait in the column of their places. -/
theorem lines_descendants (depth : Nat) (ns : List (String × Node)) (parts : List (Nat × String × Sketch))
    (outer : ∀ e ∈ parts.head?, e.1 < 8 * depth + 12) :
    Pending.lines ((descendants depth ns).flatMap Entry.lines) { parts := parts } =
      { parts := (sketches ns).map (fun e => (8 * depth + 4, e)) ++ parts } := by
  fun_induction descendants depth ns generalizing parts with
  | case1 => rw [sketches]; rfl
  | case2 depth place n rest ih₁ ih₂ =>
    have outer' : ∀ e ∈ ((sketches rest).map (fun e => (8 * depth + 4, e)) ++ parts).head?, e.1 < 8 * (depth + 1) + 4 := by
      intro e he
      cases found : sketches rest with
      | nil =>
        rw [found] at he
        have := outer e he
        omega
      | cons s ss =>
        rw [found] at he
        obtain rfl := Option.some.inj he
        dsimp only
        omega
    have later := ih₂ parts outer
    have inner := ih₁ _ fun e he => Nat.lt_trans (outer' e he) (by omega)
    obtain ⟨taken, left⟩ := takeWhile_waiting (sketches n.children) outer'
    rw [List.flatMap_cons, List.flatMap_append, Pending.lines_append, Pending.lines_append, later, inner, sketches]
    have two : 8 * (depth + 1) - 4 = 8 * depth + 4 := by omega
    simp only [Entry.lines, Entry.nodeLine, Pending.lines, List.map_cons, List.map_nil, List.foldr_cons, List.foldr_nil, two]
    rw [Pending.line_node, taken, left, Pending.line_place]
    rfl

/-- **A tree is rebuilt from the lines of its nodes.** -/
theorem lines_preorder (n : Node) : Pending.lines (n.preorder.flatMap Entry.lines) {} = { node := some n.sketch } := by
  have inner := lines_descendants 0 n.children [] (by simp)
  have none : ∀ e ∈ ([] : List (Nat × String × Sketch)).head?, e.1 < 8 * 0 + 4 := by simp
  obtain ⟨taken, left⟩ := takeWhile_waiting (sketches n.children) none
  rw [preorder, List.flatMap_cons, Pending.lines_append, inner, sketch]
  simp only [Entry.lines, Entry.nodeLine, Pending.lines, List.map_cons, List.map_nil, List.foldr_cons, List.foldr_nil]
  rw [Pending.line_node, taken, left]

/-! ### The text of a diagram -/

theorem newline_notMem_place {n : Node} {e : String × Node} (h : e ∈ n.children) : '\n' ∉ e.1.toList := by
  have names : ∀ a ∈ n.attributes, '\n' ∉ a.1.toList := by
    cases n <;> simp [attributes]
  have digits (i : Nat) : '\n' ∉ (toString i).toList := by
    rw [Nat.toString_eq_ofList_toDigits, String.toList_ofList]
    intro h
    exact absurd (Nat.isDigit_of_mem_toDigits (by decide) (by decide) h) (by decide)
  obtain ⟨-, a, ha, same | ⟨i, same⟩⟩ := mem_children h
  · rw [same]
    exact names a ha
  · rw [same, slot, String.toList_append, String.toList_append, String.toList_append]
    simp only [List.mem_append, not_or]
    exact ⟨⟨⟨names a ha, by decide⟩, digits i⟩, by decide⟩

theorem newline_notMem_descendants (depth : Nat) (ns : List (String × Node)) (names : ∀ e ∈ ns, '\n' ∉ e.1.toList) :
    ∀ e ∈ descendants depth ns, ∀ p ∈ e.place, '\n' ∉ p.1.toList := by
  fun_induction descendants depth ns with
  | case1 => simp
  | case2 depth place n rest ih₁ ih₂ =>
    intro e he
    rcases List.mem_cons.1 he with rfl | he
    · rintro p ⟨⟩
      exact names (place, n) List.mem_cons_self
    · rcases List.mem_append.1 he with he | he
      · exact ih₁ (fun e he => newline_notMem_place he) e he
      · exact ih₂ (fun e he => names e (List.mem_cons_of_mem _ he)) e he

theorem Entry.newline_notMem {e : Entry} (label : '\n' ∉ e.node.caption.toList) (names : ∀ p ∈ e.place, '\n' ∉ p.1.toList) :
    ∀ l ∈ e.lines, '\n' ∉ l.toList ∧ l.toList ≠ [] := by
  have own : '\n' ∉ e.nodeLine.toList ∧ e.nodeLine.toList ≠ [] := by
    simp [nodeLine, spaces, label]
  have marks (last : Bool) : '\n' ∉ (Outline.mark last).toList := by cases last <;> decide
  cases place : e.place with
  | none => simpa [lines, place] using own
  | some p =>
    have name := names p place
    simp only [lines, place, List.forall_mem_cons]
    exact ⟨by simp [spaces, marks, name], own, by simp⟩

end Node

namespace Sketch

theorem toList_unlines (ls : List String) : (unlines ls).toList = ls.flatMap fun l => l.toList ++ ['\n'] := by
  have behind (acc : String) : (ls.foldl (fun acc l => acc ++ l ++ "\n") acc).toList =
      acc.toList ++ ls.flatMap fun l => l.toList ++ ['\n'] := by
    induction ls generalizing acc with
    | nil => simp
    | cons l ls ih => simp [ih]
  rw [unlines, behind]
  rfl

theorem splitOn_unlines {ls : List String} (none : ∀ l ∈ ls, '\n' ∉ l.toList) :
    (unlines ls).toList.splitOn '\n' = ls.map String.toList ++ [[]] := by
  rw [toList_unlines]
  induction ls with
  | nil => rfl
  | cons l ls ih =>
    have own := none l List.mem_cons_self
    have later := ih fun m hm => none m (List.mem_cons_of_mem _ hm)
    rw [List.flatMap_cons, List.append_assoc, List.singleton_append, List.splitOn_append_cons_self_of_not_mem own, later]
    rfl

/-- **The tree of labels that a printed diagram shows.** -/
def rebuild (title printed : String) : Option Sketch :=
  let body := printed.toList.drop (unlines (Node.heading title)).length
  (((body.splitOn '\n').filter (!·.isEmpty)).foldr Pending.line {}).node

theorem unlines_append (ls ms : List String) : unlines (ls ++ ms) = unlines ls ++ unlines ms := by
  rw [← String.toList_inj]
  simp [toList_unlines]

theorem rebuild_unlines (title : String) {ls : List String} (full : ∀ l ∈ ls, '\n' ∉ l.toList ∧ l.toList ≠ []) :
    rebuild title (unlines (Node.heading title ++ ls ++ [""])) = (Pending.lines ls {}).node := by
  have single : ∀ l ∈ ls ++ [""], '\n' ∉ l.toList := by
    intro l hl
    rcases List.mem_append.1 hl with hl | hl
    · exact (full l hl).1
    · simp [List.mem_singleton.1 hl]
  have kept : (ls.map String.toList).filter (!·.isEmpty) = ls.map String.toList := by
    rw [List.filter_eq_self]
    intro l hl
    obtain ⟨s, hs, rfl⟩ := List.mem_map.1 hl
    simpa using (full s hs).2
  rw [rebuild, List.append_assoc, unlines_append, String.toList_append, ← String.length_toList, List.drop_left,
    splitOn_unlines single]
  simp [kept, Pending.lines]

end Sketch

namespace Node

open Sketch

/-- No label in the tree has a line end. -/
def HasPlainLabels (n : Node) : Prop := ∀ e ∈ n.preorder, '\n' ∉ e.node.caption.toList

/-- **A diagram shows the tree as it is.**  Under its title stand the lines of the nodes that can be reached from the root, each
before its children: one for each node, eight columns deeper than the one for the node above it, and before it the line for its
place.

If no label has a line end, the labels and places of all nodes can be rebuilt from the text.  So two trees that do not have the
same labels in the same places are never printed the same. -/
theorem diagram_faithful {n : Node} (proper : n.isProper = true) (plain : n.HasPlainLabels) (title : String) :
    diagramOf title n = heading title ++ n.preorder.flatMap Entry.lines ++ [""] ∧
    rebuild title (unlines (diagramOf title n)) = some n.sketch ∧
    ∀ m : Node, m.isProper = true → m.HasPlainLabels → n.sketch ≠ m.sketch →
      unlines (diagramOf title n) ≠ unlines (diagramOf title m) := by
  have rebuilt {m : Node} (proper : m.isProper = true) (plain : m.HasPlainLabels) :
      rebuild title (unlines (diagramOf title m)) = some m.sketch := by
    have full : ∀ l ∈ m.preorder.flatMap Entry.lines, '\n' ∉ l.toList ∧ l.toList ≠ [] := by
      intro l hl
      obtain ⟨e, he, hl⟩ := List.mem_flatMap.1 hl
      refine e.newline_notMem (plain e he) ?_ l hl
      rcases List.mem_cons.1 he with rfl | he
      · simp
      · exact newline_notMem_descendants 0 m.children (fun e he => newline_notMem_place he) e he
    rw [diagram_eq proper, rebuild_unlines title full, lines_preorder]
  refine ⟨diagram_eq proper title, rebuilt proper plain, fun m proper' plain' differ same => differ ?_⟩
  have rebuilt' := rebuilt proper' plain'
  rw [← same, rebuilt proper plain] at rebuilt'
  exact Option.some.inj rebuilt'

/-- What is computed from a variable and the result of a call is assigned to a variable. -/
def assigned (op : String) : Node :=
  .assignment (.text "x") (.binary (.identifier "a" 1) op (.call "f" [.number 2 1, .nothing, .boolean "true" 1] 1) 1) 1

theorem assigned_faithful : rebuild "AST" (unlines (diagramOf "AST" (assigned "+"))) = some (assigned "+").sketch ∧
    unlines (diagramOf "AST" (assigned "+")) ≠ unlines (diagramOf "AST" (assigned "-")) := by
  have order (op : String) : (assigned op).preorder.map Entry.node = [assigned op,
      .binary (.identifier "a" 1) op (.call "f" [.number 2 1, .nothing, .boolean "true" 1] 1) 1, .identifier "a" 1,
      .call "f" [.number 2 1, .nothing, .boolean "true" 1] 1, .number 2 1, .boolean "true" 1] := by
    simp [preorder, assigned, descendants, children, attributes, held, members, isProper]
  have plain (op : String) (h : ∀ n ∈ (assigned op).preorder.map Entry.node, '\n' ∉ n.caption.toList) :
      (assigned op).HasPlainLabels := fun e he => h e.node (List.mem_map_of_mem he)
  have plus : (assigned "+").HasPlainLabels := plain "+" (by rw [order]; decide +kernel)
  have minus : (assigned "-").HasPlainLabels := plain "-" (by rw [order]; decide +kernel)
  have faithful := diagram_faithful (by decide) plus "AST"
  refine ⟨faithful.2.1, faithful.2.2 (assigned "-") (by decide) minus fun same => ?_⟩
  have label : (assigned "+").caption = (assigned "-").caption := (Sketch.mk.inj same).1
  exact absurd label (by decide +kernel)

end Node

end TesLang
