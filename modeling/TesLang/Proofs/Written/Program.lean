import TesLang.Proofs.Session.EntryPoints
import TesLang.Proofs.Written.Accepted
/-!
# Programs that set their variables first

Code writes a register before it reads it if and only if the program sets its variables before it uses them, in the order
of the code (`registers_written_iff`).  The checker does not see to that:

* a function has registers of its own, and never sees what the function around it has set;
* the code of a range runs before the variable of its loop is set, although the range may use it;
* a vector has a register as soon as it is declared.

If functions have no variables in common, the last two are all that can go wrong.
-/
namespace TesLang

namespace Code

/-- The lines that are generated for the functions of a program. -/
def linesOf (fs : List Node) : Option (List Line) :=
  match (Gen.visitTree (.program fs)).run {} with
  | .ok _ g => some g.code.toList
  | .error _ _ => none

theorem linesOf_of_ran {fs : List Node} {r : Option Reg} {g : Generator} (h : Ran (Gen.visitTree (.program fs)) {} r g) :
    linesOf fs = some g.code.toList := by
  unfold Ran at h
  rw [linesOf, h]

theorem linesOf_eq_some {fs : List Node} {lines : List Line} :
    linesOf fs = some lines ↔ ∃ r g, Ran (Gen.visitTree (.program fs)) {} r g ∧ g.code.toList = lines := by
  unfold linesOf Ran
  cases (Gen.visitTree (.program fs)).run {} with
  | ok r g => simp
  | error e g => simp

/-- **In each procedure of the code of a program every register that is read was written before.** -/
def WrittenFirst (fs : List Node) (lines : List Line) : Prop := Written.ordered ⟨arities (eventsOf fs), []⟩ lines = true

instance (fs : List Node) (lines : List Line) : Decidable (WrittenFirst fs lines) := instDecidableEqBool _ _

end Code

namespace Session

open Check Code Grammar

/-- **When registers are written before they are read.**  Take a text that has code.  If no function stands in a `for` loop,
the procedures of the code are those of the events, one by one, and all that is read has been written before if and only if
the events are orderly.  If the functions have no variables in common, it takes no more than that vectors are set before
their members are wanted, and variables before they occur in the ranges over which they loop. -/
theorem registers_written_iff {s : Session} {source code : String}
    (compiled : (compileToCode source s).1.1 = some code) : ∃ fs lines, (reading s source).functions = some fs ∧
      linesOf fs = some lines ∧ code = render lines ∧
      (loopsPlainAll fs = true → headsOf (outlineIn lines) = (procedures (eventsOf fs)).map (·.1) ∧
        (WrittenFirst fs lines ↔ Variables.orderly {} (eventsOf fs) = true)) ∧
      (selfContained fs = true →
        (WrittenFirst fs lines ↔ Variables.orderly {} ((eventsOf fs).filter (!·.plain)) = true)) := by
  obtain ⟨-, fs, hf, accepted, r, g, run, rfl⟩ := code_eq_some.1 compiled
  have shape := parse_areFunctions hf
  refine ⟨fs, g.code.toList, hf, linesOf_of_ran run, rfl, fun plain => ?_, fun contained => ?_⟩
  · obtain ⟨heads, ordered⟩ := Gen.ordered_program shape plain run
    exact ⟨heads, by rw [WrittenFirst, ordered]⟩
  · have plain := loopsPlainAll_of_apartAll (Bool.and_eq_true_iff.1 contained).1
    rw [WrittenFirst, (Gen.ordered_program shape plain run).2, orderly_of_accepted shape accepted contained]

/-- A function that fills a vector with what another one inside it returns. -/
def halves : String :=
  "funk f() <null> \x7b funk half(x as int) <int> \x7b return x / 2; \x7d " ++
    "a :: vector; a = list(9); for (i = 0 to 9) begin a[i] = half(i); end return; \x7d"

theorem halves_written : (∃ fs ∈ (reading {} halves).functions, loopsPlainAll fs = true ∧ selfContained fs = true ∧
      Variables.orderly {} (eventsOf fs) = true) ∧
    ∃ code fs lines, (reading {} halves).functions = some fs ∧ linesOf fs = some lines ∧ code = render lines ∧
      (loopsPlainAll fs = true → headsOf (outlineIn lines) = (procedures (eventsOf fs)).map (·.1) ∧
        (WrittenFirst fs lines ↔ Variables.orderly {} (eventsOf fs) = true)) ∧
      (selfContained fs = true →
        (WrittenFirst fs lines ↔ Variables.orderly {} ((eventsOf fs).filter (!·.plain)) = true)) := by
  have evaluated : (∃ fs ∈ (reading {} halves).functions, loopsPlainAll fs = true ∧ selfContained fs = true ∧
      Variables.orderly {} (eventsOf fs) = true) ∧ (compileToCode halves {}).1.1.isSome := by
    unfold halves
    rw [compileToCode_fst, reading_ofList_append]
    decide +kernel
  exact ⟨evaluated.1, _, registers_written_iff (Option.some_get evaluated.2).symm⟩

/-- Texts without errors in the code of which a register is read that was not written: for a variable in the range over
which it loops; for a vector that was not set; for a variable that another function has set; and for that of a loop which
holds a function. -/
def unwritten : List String :=
  ["funk main() <null> \x7b for (i = i to 3) begin end return; \x7d",
   "funk main() <null> \x7b a :: vector; a[0] = 1; return; \x7d",
   "funk main() <null> \x7b x :: int; x = 1; funk g() <int> \x7b return x; \x7d return; \x7d",
   "funk main() <null> \x7b for (i = 0 to 3) begin funk g() <null> \x7b return; \x7d end return; \x7d"]

theorem unwritten_not_writtenFirst : unwritten.Forall fun source => (compile source {}).1 = [] ∧
    (compileToCode source {}).1.1 ≠ none ∧
      ∃ fs ∈ (reading {} source).functions, ∃ lines ∈ linesOf fs, ¬ WrittenFirst fs lines := by
  simp only [compile_fst, compileToCode_fst]
  rw [unwritten, List.forall_cons, List.forall_cons, List.forall_cons, reading_ofList, reading_ofList, reading_ofList,
    List.Forall, reading_ofList]
  decide +kernel

end Session
end TesLang
