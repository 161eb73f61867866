import TesLang.Proofs.Lines.Checking
import TesLang.Proofs.Lines.Generation
import TesLang.Proofs.Lines.Parsing
import TesLang.Proofs.Session.EntryPoints
/-!
# Reading a text once more

A session never sets its line back, so a text that is read once more starts on another line.  Reading it `d` lines further
down moves all lines by `d` and changes nothing else: tokens, tree, syntax errors and diagnostics are the same on their new
lines, faults are the same faults, and the code is the same code (`passes_agree`).  So what one pass finds out about a text
the next pass may rely on: a text that checks without errors has a tree whenever it is read, and nothing but a fault of
code generation keeps it from having code.

A diagnostic on line zero would be shown without its line.  No diagnostic of a text is: lines of a text are natural numbers,
so raising its lines to zero leaves its tree as it is (`line_nonneg`), and a text that starts on line 1 is a text that
starts on line 0, moved.
-/
namespace TesLang

open Renumbering

theorem Token.Scan.mapLine_raised (s : Scan) : s.mapLine raised = s := by
  have token : Token.mapLine raised = id := rfl
  have notice : Notice.mapLine raised = id := by
    funext n
    cases n <;> rfl
  unfold mapLine
  rw [token, notice, List.map_id, List.map_id]
  rfl

theorem line_nonneg {s : Token.Scan} {fs : List Node} (hs : s.parse.functions = some fs) {found : List Diagnostic}
    (hc : check fs = .ok found) : ∀ x ∈ found, 0 ≤ x.line := by
  have same := parse_mapLine raised s
  rw [s.mapLine_raised] at same
  have raisedFs : fs.map (Node.mapLine raised) = fs := by
    have h := congrArg Parse.functions same
    simp only [Parse.mapLine, hs, Option.map_some, Option.some.injEq] at h
    exact h.symm
  have found_eq := check_mapLine raised fs
  rw [raisedFs, hc] at found_eq
  have fixed : found.map id = found.map (Diagnostic.mapLine raised) := by
    rw [List.map_id]
    exact Except.ok.inj found_eq
  intro x hx
  have hline := congrArg Diagnostic.line (List.map_eq_map_iff.1 fixed x hx)
  simp only [id, Diagnostic.mapLine, raised] at hline
  omega

/-- A diagnostic in writing, `d` lines further down. -/
def Diagnostic.lower (d : Nat) (x : Diagnostic) : String :=
  "Line " ++ toString (x.line + d) ++ ": Error: " ++ x.cause.message

theorem Diagnostic.message_mapLine {x : Diagnostic} (d : Nat) (h : 1 ≤ x.line) :
    (x.mapLine (down d)).message = x.lower d := by
  have line : (x.mapLine (down d)).line = x.line + d := rfl
  have shown : ¬ x.line + (d : Int) = 0 := by omega
  unfold message lower
  rw [line, if_neg shown, String.append_assoc, String.append_assoc, String.append_assoc, String.append_assoc,
    String.append_assoc]
  rfl

/-- Two walks that come to the same, the second `d` lines further down: the same fault, or the same diagnostics in the same
order, each shown with its line. -/
def SameFindings (d : Nat) : Except Fault (List Diagnostic) → Except Fault (List Diagnostic) → Prop
  | .error f, .error f' => f = f'
  | .ok found, .ok found' =>
    found.map (·.message) = found.map (·.lower 0) ∧ found'.map (·.message) = found.map (·.lower d)
  | _, _ => False

theorem one_le_line {source : List Char} {fs : List Node} (hs : (Token.lex source 1).parse.functions = some fs)
    {found : List Diagnostic} (hc : check fs = .ok found) : ∀ x ∈ found, 1 ≤ x.line := by
  rw [show (1 : Nat) = 0 + 1 from rfl, Token.lex_add, parse_mapLine] at hs
  obtain ⟨fs₀, h₀, rfl⟩ := Option.map_eq_some_iff.1 hs
  rw [check_mapLine] at hc
  cases hc₀ : check fs₀ with
  | error f =>
    rw [hc₀] at hc
    cases hc
  | ok found₀ =>
    rw [hc₀] at hc
    cases hc
    intro x hx
    obtain ⟨x₀, hx₀, rfl⟩ := List.mem_map.1 hx
    have h := line_nonneg h₀ hc₀ x₀ hx₀
    simp only [Diagnostic.mapLine, down]
    omega

theorem sameFindings {source : List Char} {fs : List Node} (hs : (Token.lex source 1).parse.functions = some fs) (d : Nat) :
    SameFindings d (check fs) (check (fs.map (Node.mapLine (down d)))) := by
  rw [check_mapLine]
  cases hc : check fs with
  | error f => exact rfl
  | ok found =>
    have below := one_le_line hs hc
    have moved (k : Nat) : (found.map (Diagnostic.mapLine (down k))).map (·.message) = found.map (·.lower k) := by
      rw [List.map_map]
      exact List.map_congr_left fun x hx => Diagnostic.message_mapLine k (below x hx)
    refine ⟨?_, moved d⟩
    have still : Diagnostic.mapLine (down 0) = id := by
      funext x
      simp [Diagnostic.mapLine, down]
    have h := moved 0
    rwa [still, List.map_id] at h

namespace Session

theorem reading_eq (s : Session) (source : String) :
    reading s source = (Token.lex source.toList 0).parse.mapLine (down s.line) := by
  unfold reading
  rw [← parse_mapLine, ← Token.lex_add, Nat.zero_add]

end Session

/-- **The passes of a session agree on a text, on whatever line each of them starts.**  Read `d` lines further down, a text
has the same tokens, tree and syntax errors `d` lines further down, and the same fault if it has one; its tree has the same
diagnostics, and the same run of code generation.  And if a pass finds nothing wrong with a text, any other pass has a tree
of it, and then code, or the one complaint about the fault that ends code generation. -/
theorem passes_agree (source : String) :
    (∀ d : Nat, Token.lex source.toList (1 + d) = (Token.lex source.toList 1).mapLine (down d) ∧
      (Token.lex source.toList (1 + d)).parse = (Token.lex source.toList 1).parse.mapLine (down d) ∧
      ∀ fs, (Token.lex source.toList 1).parse.functions = some fs →
        SameFindings d (check fs) (check (fs.map (Node.mapLine (down d)))) ∧
          Code.Gen.visitTree (.program (fs.map (Node.mapLine (down d)))) = Code.Gen.visitTree (.program fs)) ∧
    ∀ s t u : Session, (Session.compile source s).1 = [] → ∃ fs, (Session.parseTree source t).1 = .program fs ∧
      match (Code.Gen.visitTree (.program fs)).run {} with
      | .ok _ g => (Session.compileToCode source u).1 = (some (Code.render g.code.toList), [])
      | .error f _ => (Session.compileToCode source u).1 = (none, ["Compiler error: " ++ f.message]) := by
  have sameCode (ρ : Renumbering) (fs : List Node) :
      Code.Gen.visitTree (.program (fs.map (Node.mapLine ρ))) = Code.Gen.visitTree (.program fs) := by
    have h := Code.Gen.visit_mapLine ρ (.program fs)
    rwa [Node.mapLine, Node.mapLines_eq_map] at h
  constructor
  · intro d
    refine ⟨Token.lex_add d _ _, ?_, fun fs hs => ⟨sameFindings hs d, sameCode (down d) fs⟩⟩
    rw [Token.lex_add, parse_mapLine]
  · intro s t u hs
    obtain ⟨errors, fault, sound⟩ := Session.compile_eq_nil.1 hs
    rw [Session.reading_eq] at errors fault sound
    simp only [Parse.mapLine] at errors fault sound
    have tree : ∃ fs, (Token.lex source.toList 0).parse.functions = some fs := by
      cases hp : (Token.lex source.toList 0).parse.functions with
      | some fs => exact ⟨fs, rfl⟩
      | none => exact absurd (List.map_eq_nil_iff.1 errors) (Parse.errors_ne_nil fault hp)
    obtain ⟨fs, hfs⟩ := tree
    have clean : check fs = .ok [] := by
      have h := sound _ (by rw [hfs]; rfl)
      rw [check_mapLine] at h
      cases hc : check fs with
      | error f => rw [hc] at h; cases h
      | ok found =>
        rw [hc] at h
        rw [List.map_eq_nil_iff.1 (Except.ok.inj h)]
    -- every session reads the functions `fs`, on lines of its own
    have functions (v : Session) : (Session.reading v source).functions = some (fs.map (Node.mapLine (down v.line))) := by
      rw [Session.reading_eq, Parse.mapLine, hfs]
      rfl
    have noFault (v : Session) : (Session.reading v source).fault = none := by
      rw [Session.reading_eq]
      exact fault
    refine ⟨_, Session.parseTree_fst (noFault t) (functions t), ?_⟩
    rw [Session.compileToCode_fst, Session.answer, noFault u, functions u]
    dsimp only
    rw [check_mapLine, clean, sameCode, sameCode]
    dsimp only [Except.map, List.map_nil]
    cases (Code.Gen.visitTree (.program fs)).run {} <;> rfl

/-- A text with nothing wrong in it for which there is no code: the negated argument is in no register. -/
def negatedArgument : String :=
  "funk twice(n as int) <int> \x7b return n + n; \x7d\nfunk main() <int> \x7b return twice(-4); \x7d"

theorem negatedArgument_agrees : (Session.compile negatedArgument {}).1 = [] ∧
    ∃ fs, (Session.parseTree negatedArgument { line := 2 }).1 = .program fs ∧
      match (Code.Gen.visitTree (.program fs)).run {} with
      | .ok _ g => (Session.compileToCode negatedArgument { line := 3 }).1 = (some (Code.render g.code.toList), [])
      | .error f _ => (Session.compileToCode negatedArgument { line := 3 }).1 = (none, ["Compiler error: " ++ f.message]) :=
  have clean : (Session.compile negatedArgument {}).1 = [] := by
    rw [Session.compile_fst, negatedArgument, Session.reading_ofList]
    decide +kernel
  ⟨clean, (passes_agree negatedArgument).2 {} { line := 2 } { line := 3 } clean⟩

end TesLang
