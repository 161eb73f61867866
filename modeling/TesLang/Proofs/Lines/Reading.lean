import TesLang.Parser.Recovery
/-!
# Other lines

What a text is turned into carries lines: its tokens and notices, its tree, its syntax errors.  A `Renumbering`
is a change of lines, and `mapLine` makes the change in each of these and leaves everything else.

A text may start on any line.  The line on which it starts shows in the lines of its tokens and notices and in nothing
else (`lex_add`).
-/
namespace TesLang

/-! ### Changes of lines -/

/-- A change of lines.  Lines of tokens are natural numbers and lines of trees are integers, so it has a function for each,
and the two agree on natural numbers. -/
structure Renumbering where
  token : Nat → Nat
  node : Int → Int
  agree : ∀ n : Nat, node n = token n

namespace Renumbering

/-- `d` lines further down. -/
def down (d : Nat) : Renumbering := { token := (· + d), node := (· + d), agree := fun _ => rfl }

def raised : Renumbering := { token := id, node := (max · 0), agree := fun n => by simp }

end Renumbering

variable (ρ : Renumbering)

namespace Token

def mapLine (t : Token) : Token := { t with line := ρ.token t.line }

@[simp] theorem kind_mapLine (t : Token) : (t.mapLine ρ).kind = t.kind := rfl

@[simp] theorem text_mapLine (t : Token) : (t.mapLine ρ).text = t.text := rfl

@[simp] theorem count_mapLine (t : Token) : (t.mapLine ρ).count = t.count := rfl

@[simp] theorem line_mapLine (t : Token) : (t.mapLine ρ).line = ρ.token t.line := rfl

def Notice.mapLine : Notice → Notice
  | stray run line => stray run (ρ.token line)
  | unclosed line => unclosed (ρ.token line)

/-- A reading with other lines: it stops for the same reason. -/
def Scan.mapLine (s : Scan) : Scan :=
  { tokens := s.tokens.map (Token.mapLine ρ), notices := s.notices.map (Notice.mapLine ρ),
    line := ρ.token s.line, stop := s.stop }

end Token

mutual

/-- A tree with other lines. -/
@[simp] def Node.mapLine (ρ : Renumbering) : Node → Node
  | .program fs => .program (mapLines ρ fs)
  | .function name params type body line => .function name (params.mapLine ρ) type (body.mapLine ρ) (ρ.node line)
  | .parameter name type line => .parameter name type (ρ.node line)
  | .declaration name type line => .declaration name type (ρ.node line)
  | .assignment target value line => .assignment (target.mapLine ρ) (value.mapLine ρ) (ρ.node line)
  | .call name args line => .call name (mapLines ρ args) (ρ.node line)
  | .ret value line => .ret (value.mapLine ρ) (ρ.node line)
  | .branch condition yes no line => .branch (condition.mapLine ρ) (yes.mapLine ρ) (no.mapLine ρ) (ρ.node line)
  | .forLoop var start stop body line => .forLoop var (start.mapLine ρ) (stop.mapLine ρ) (body.mapLine ρ) (ρ.node line)
  | .whileLoop condition body line => .whileLoop (condition.mapLine ρ) (body.mapLine ρ) (ρ.node line)
  | .doLoop body condition line => .doLoop (body.mapLine ρ) (condition.mapLine ρ) (ρ.node line)
  | .block ss line => .block (mapLines ρ ss) (ρ.node line)
  | .binary left op right line => .binary (left.mapLine ρ) op (right.mapLine ρ) (ρ.node line)
  | .unary op operand line => .unary op (operand.mapLine ρ) (ρ.node line)
  | .identifier name line => .identifier name (ρ.node line)
  | .number value line => .number value (ρ.node line)
  | .string value line => .string value (ρ.node line)
  | .boolean value line => .boolean value (ρ.node line)
  | .ternary condition yes no line => .ternary (condition.mapLine ρ) (yes.mapLine ρ) (no.mapLine ρ) (ρ.node line)
  | .element base index line => .element base (index.mapLine ρ) (ρ.node line)
  | .array es line => .array (mapLines ρ es) (ρ.node line)
  | .listOf size line => .listOf (size.mapLine ρ) (ρ.node line)
  | .bare => .bare
  | .nothing => .nothing
  | .text s => .text s
  | .integer n => .integer n
  | .several ns => .several (mapLines ρ ns)

@[simp] def Node.mapLines (ρ : Renumbering) : List Node → List Node
  | [] => []
  | n :: ns => n.mapLine ρ :: mapLines ρ ns

end

namespace Node

@[simp] theorem mapLines_eq_map (ns : List Node) : mapLines ρ ns = ns.map (mapLine ρ) := by
  induction ns with
  | nil => rw [mapLines, List.map_nil]
  | cons n ns ih => rw [mapLines, List.map_cons, ih]

@[simp] theorem isFunction_mapLine (n : Node) : (n.mapLine ρ).isFunction = n.isFunction := by
  cases n <;> rw [mapLine] <;> rfl

@[simp] theorem name?_mapLine (n : Node) : (n.mapLine ρ).name? = n.name? := by
  cases n <;> rw [mapLine] <;> rfl

@[simp] theorem kind_mapLine (n : Node) : (n.mapLine ρ).kind = n.kind := by
  cases n <;> rw [mapLine] <;> rfl

theorem parts_mapLine (n : Node) : (n.mapLine ρ).parts = n.parts.map (mapLine ρ) := by
  cases n <;> simp [mapLine, parts]

end Node

def SyntaxError.mapLine : SyntaxError → SyntaxError
  | unexpected t => unexpected (t.mapLine ρ)
  | endOfInput => endOfInput

/-- What parsing comes to, with other lines. -/
def Parse.mapLine (p : Parse) : Parse :=
  { p with functions := p.functions.map (List.map (Node.mapLine ρ)), errors := p.errors.map (SyntaxError.mapLine ρ) }

/-! ### Tokens -/

namespace Token

namespace Scan

theorem orAgain_mapLine (s : Scan) {again again' : Nat → Nat → Scan}
    (h : ∀ pos line, again' pos (ρ.token line) = (again pos line).mapLine ρ) :
    (s.mapLine ρ).orAgain again' = (s.orAgain again).mapLine ρ := by
  unfold orAgain
  have stop : (s.mapLine ρ).stop = s.stop := rfl
  rw [stop]
  cases s.stop with
  | unclosed pos =>
    dsimp only
    rw [show (s.mapLine ρ).line = ρ.token s.line from rfl, h]
    simp [mapLine]
  | _ => rfl

end Scan

variable (d : Nat)

theorem scan_add : ∀ (cs : List Char) (skip pos line : Nat),
    scan cs skip pos (line + d) = (scan cs skip pos line).mapLine (.down d)
  | [], _, _, _ => by simp [scan, Scan.mapLine, Renumbering.down]
  | _ :: cs, skip + 1, pos, line => by
    rw [scan, scan, scan_add cs]
  | c :: cs, 0, pos, line => by
    rw [scan, scan]
    cases step c cs (c :: cs) with
    | gap extra newlines =>
      dsimp only
      rw [Nat.add_right_comm, scan_add cs]
    | token kind value extra =>
      dsimp only
      rw [scan_add cs]
      rfl
    | stray run =>
      dsimp only
      rw [scan_add cs]
      rfl
    | unclosed => rfl
    | fault f => rfl

theorem replay_add {next next' : List Char → Nat → Nat → Scan} {again again' : Nat → Nat → Scan}
    (hn : ∀ there pos line, next' there pos (line + d) = (next there pos line).mapLine (.down d))
    (ha : ∀ pos line, again' pos (line + d) = (again pos line).mapLine (.down d)) :
    ∀ (cs there : List Char) (skip pos line : Nat),
      replay next' again' cs there skip pos (line + d) = (replay next again cs there skip pos line).mapLine (.down d)
  | [], _, _, _, _ => by simp [replay, Scan.mapLine, Renumbering.down]
  | _ :: cs, there, skip + 1, pos, line => by
    rw [replay, replay, replay_add hn ha cs]
  | c :: cs, there, 0, pos, line => by
    rw [replay, replay]
    cases step c cs there with
    | gap extra newlines =>
      dsimp only
      rw [Nat.add_right_comm, replay_add hn ha cs]
    | token kind value extra =>
      dsimp only
      rw [hn]
      rfl
    | stray run =>
      cases run with
      | nil => rfl
      | cons r rs =>
        dsimp only
        rw [replay_add hn ha cs]
        rfl
    | unclosed =>
      dsimp only
      rw [ha]
      rfl
    | fault f => rfl

theorem restart_add : ∀ (rounds : Nat) (whole text : List Char) (line : Nat),
    restart rounds whole text (line + d) = (restart rounds whole text line).mapLine (.down d)
  | 0, _, _, _ => rfl
  | rounds + 1, whole, text, line => by
    rw [restart, restart]
    refine replay_add d (fun there pos line => ?_) (fun pos line => restart_add rounds _ _ line) whole text 0 0 line
    rw [scan_add]
    exact Scan.orAgain_mapLine _ _ fun pos line => restart_add rounds _ _ line

/-- **A text that starts `d` lines further down has the same tokens and notices, `d` lines further down**, and its reading
stops for the same reason. -/
theorem lex_add (source : List Char) (line : Nat) : lex source (line + d) = (lex source line).mapLine (.down d) := by
  unfold lex
  rw [scan_add]
  exact Scan.orAgain_mapLine _ _ fun pos line => restart_add d _ _ _ line

end Token

end TesLang
