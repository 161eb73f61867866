import TesLang.Proofs.Machine
import TesLang.Proofs.Procedures.Apart
/-!
# Texts that are run

A text is read, checked, compiled and run, and what its function `main` returns is known when the machine has made its steps.
-/
namespace TesLang.Session

open Code Code.Machine

/-- **A text whose code was run to the end returns that, and nothing else.** -/
theorem returns_iff_of_outcome {source : String} {n : Nat} {result : Option Int} {w : World}
    (run : ∃ fs ∈ (reading {} source).functions, (reading {} source).errors = [] ∧ (reading {} source).fault = none ∧
      check fs = .ok [] ∧ ∃ lines ∈ linesOf fs, (entering lines "main" [] []).bind
        (fun m => outcome (fun _ _ => none) lines n (.running m)) = some (result, w)) :
    (compile source {}).1 = [] ∧ ∃ lines, (compileToCode source {}).1.1 = some (render lines) ∧
      ∀ result' w', Returns (fun _ _ => none) lines "main" [] [] result' w' ↔ result' = result ∧ w' = w := by
  obtain ⟨fs, hf, errors, fault, clean, lines, hl, run⟩ := run
  obtain ⟨accepted, compiled⟩ := compiled_of_reading hf errors fault clean hl
  obtain ⟨m, enters, run⟩ := Option.bind_eq_some_iff.1 run
  have steps := steps_of_outcome run
  refine ⟨accepted, lines, compiled, fun result' w' => ⟨?_, ?_⟩⟩
  · rintro ⟨m', enters', steps'⟩
    obtain rfl : m = m' := Option.some.inj (enters.symm.trans enters')
    exact steps'.unique steps
  · rintro ⟨rfl, rfl⟩
    exact ⟨m, enters, steps⟩

end TesLang.Session
