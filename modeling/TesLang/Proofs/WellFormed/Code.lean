import Mathlib.Data.List.Basic
import TesLang.Proofs.Session.EntryPoints
import TesLang.Proofs.WellFormed.Support
/-!
# Well-formed code of a text

A text without errors need not have well-formed code: a value may be wanted that no register holds.  It has well-formed
code if and only if its functions are supported (`code_wellFormed_iff`).
-/
namespace TesLang

open Code Gen

theorem Code.Generator.proper_empty : ({} : Generator).Proper := ⟨nofun, Int.le_refl 0, nofun, nofun⟩

namespace Session

variable {s : Session} {source : String}

/-- The text has code, and all lines of the code are well formed. -/
def HasWellFormedCode (s : Session) (source : String) : Prop :=
  ∃ code, (compileToCode source s).1.1 = some code ∧ ∀ line ∈ code.toList.splitOn '\n', isLine line = true

instance (s : Session) (source : String) : Decidable (HasWellFormedCode s source) :=
  decidable_of_iff (∃ code ∈ (compileToCode source s).1.1, ∀ line ∈ code.toList.splitOn '\n', isLine line = true) Iff.rfl

theorem hasWellFormedCode_iff : HasWellFormedCode s source ↔
    ∃ code ∈ (answer (reading s source)).1, ∀ line ∈ code.toList.splitOn '\n', isLine line = true := by
  rw [HasWellFormedCode, compileToCode_fst]
  rfl

theorem functions_of_valid (valid : (compile source s).1 = []) :
    (reading s source).fault = none ∧ ∃ fs, (reading s source).functions = some fs ∧ check fs = .ok [] := by
  obtain ⟨errors, fault, checked⟩ := compile_eq_nil.1 valid
  refine ⟨fault, ?_⟩
  cases hf : (reading s source).functions with
  | none => exact absurd errors (Parse.errors_ne_nil fault hf)
  | some fs => exact ⟨fs, rfl, checked fs hf⟩

/-- **Which texts without errors have well-formed code**: those whose functions are supported. -/
theorem code_wellFormed_iff (valid : (compile source s).1 = []) :
    ∃ fs, (reading s source).functions = some fs ∧ (HasWellFormedCode s source ↔ supportedFunctions fs = true) := by
  obtain ⟨fault, fs, hf, accepted⟩ := functions_of_valid valid
  have writes := writes_program (parse_areFunctions hf)
  refine ⟨fs, hf, ?_, fun ok => ?_⟩
  · rintro ⟨code, hc, lines⟩
    obtain ⟨-, fs', hf', -, r, g, run, rfl⟩ := code_eq_some.1 hc
    obtain rfl := Option.some.inj (hf.symm.trans hf')
    obtain ⟨proper, -, complete⟩ := writes.ends Generator.proper_empty run
    rw [isLine_render proper.lines] at lines
    exact complete.symm.trans lines
  · obtain ⟨r, g, run⟩ := writes.runs ok Generator.proper_empty
    obtain ⟨proper, -, complete⟩ := writes.ends Generator.proper_empty run
    refine ⟨_, code_eq_some.2 ⟨fault, fs, hf, accepted, r, g, run, rfl⟩, ?_⟩
    rw [isLine_render proper.lines]
    exact complete.trans ok

/-- A function that reads numbers into a list. -/
def filling : String := "funk f(a as vector) <int> \x7b a[0] = scan(); return f(a); \x7d"

theorem filling_hasCode : (compile filling {}).1 = [] ∧ HasWellFormedCode {} filling ∧
    ∃ fs, (reading {} filling).functions = some fs ∧ (HasWellFormedCode {} filling ↔ supportedFunctions fs = true) := by
  have evaluated : (compile filling {}).1 = [] ∧ HasWellFormedCode {} filling := by
    rw [compile_fst, hasWellFormedCode_iff, filling, reading_ofList]
    decide +kernel
  exact ⟨evaluated.1, evaluated.2, code_wellFormed_iff evaluated.1⟩

/-- Texts without errors that have no well-formed code: a sign leaves no value, there is no instruction for a conjunction,
and the generator gives up on a string as an argument. -/
def unsupported : List String :=
  ["funk main() <null> \x7b x :: int; x = -1; return; \x7d",
   "funk main() <null> \x7b x :: bool; x = true && false; return; \x7d",
   "funk f(x as str) <null> \x7b f('a'); return; \x7d"]

theorem unsupported_hasNoCode :
    unsupported.Forall fun source => (compile source {}).1 = [] ∧ ¬ HasWellFormedCode {} source := by
  simp only [compile_fst, hasWellFormedCode_iff]
  rw [unsupported, List.forall_cons, List.forall_cons, List.Forall, reading_ofList, reading_ofList, reading_ofList]
  decide +kernel

end Session
end TesLang
