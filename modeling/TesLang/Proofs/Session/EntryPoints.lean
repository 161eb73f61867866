import TesLang.Proofs.Run
import TesLang.Session
/-!
# Two ways to compile

`compile` says what is wrong with a text, and `compileToCode` gives its code.  They agree on a text if there is code only
where nothing is wrong, and a complaint wherever there is no code.

Both go by the reading of the text (`reading`).  `compile` reports all syntax errors of the reading; `compileToCode` goes
by the functions that the reading leaves.  So they agree on every text without syntax errors, and on a text with syntax
errors exactly if a fault cuts the reading short, or functions are left and do not compile (`agree_iff`).
-/
namespace TesLang

namespace Parse

theorem errors_ne_nil {n : Nat} {ts : List Token} {stop : Token.Stop} (hf : (restarting (n + 1) true ts stop).fault = none)
    (ht : (restarting (n + 1) true ts stop).functions = none) : (restarting (n + 1) true ts stop).errors ≠ [] := by
  rw [restarting] at hf ht ⊢
  cases hr : (Parser.program (Parser.depth ts)).run { tokens := ts } with
  | ok fs s =>
    simp only [hr] at hf ht
    cases stop with
    | fault f => cases hf
    | _ => cases ht
  | error h s =>
    simp only [hr] at hf ht ⊢
    cases hs : s.tokens with
    | cons t rest =>
      simp [after, reported]
    | nil =>
      simp only [hs] at hf ⊢
      cases stop with
      | fault f => cases hf
      | _ => simp [reported]

end Parse

namespace Session

/-- What the session reads in a text. -/
def reading (s : Session) (source : String) : Parse := (Token.lex source.toList s.line).parse

theorem reading_ofList (s : Session) (cs : List Char) : reading s (String.ofList cs) = (Token.lex cs s.line).parse := by
  rw [reading, String.toList_ofList]

theorem reading_ofList_append (s : Session) (cs cs' : List Char) :
    reading s (String.ofList cs ++ String.ofList cs') = (Token.lex (cs ++ cs') s.line).parse := by
  rw [← String.ofList_append, reading_ofList]

/-- Functions that have no errors, and for which code can be generated. -/
def Compiles (fs : List Node) : Prop :=
  check fs = .ok [] ∧ ∃ r g, Ran (Code.Gen.visitTree (.program fs)) {} r g

/-- **Both ways to compile a text agree**: code only where nothing is wrong, and a complaint where there is no code. -/
def Agree (s : Session) (source : String) : Prop :=
  ((compileToCode source s).1.1 ≠ none → (compile source s).1 = []) ∧
    ((compileToCode source s).1.1 = none → (compileToCode source s).1.2 ≠ [])

instance (s : Session) (source : String) : Decidable (Agree s source) := instDecidableAnd

variable {s : Session} {source : String}

/-- What is wrong with a reading, its syntax errors apart. -/
def complaints (p : Parse) : List String :=
  match p.fault, p.functions with
  | some f, _ => ["Parser error: " ++ f.message]
  | none, none => []
  | none, some fs =>
    match check fs with
    | .ok found => found.map (·.message)
    | .error f => ["Parser error: " ++ f.message]

theorem compile_eq : compile source s = (do
    match (match (reading s source).fault, (reading s source).functions with
      | some f, _ => .error f
      | none, none => .ok []
      | none, some fs => check fs : Except Fault (List Diagnostic)) with
    | .ok found => pure ((← get).errors ++ found.map (·.message))
    | .error f => do
      addError ("Parser error: " ++ f.message) 0
      pure (← get).errors : SessionM (List String)) (parse source (startAnew s).2).2 := rfl

theorem compile_fst : (compile source s).1 =
    (reading s source).errors.map (·.message) ++ complaints (reading s source) := by
  have kept : (parse source (startAnew s).2).2.errors = (reading s source).errors.map (·.message) := rfl
  rw [compile_eq, ← kept, complaints]
  cases (reading s source).fault with
  | some f => rfl
  | none =>
    cases (reading s source).functions with
    | none => rfl
    | some fs =>
      dsimp only
      cases check fs <;> rfl

/-- Nothing is wrong with a text if the reading reports no error, meets no fault, and leaves no function with an
error. -/
theorem compile_eq_nil : (compile source s).1 = [] ↔ (reading s source).errors = [] ∧ (reading s source).fault = none ∧
    ∀ fs, (reading s source).functions = some fs → check fs = .ok [] := by
  rw [compile_fst, List.append_eq_nil_iff, List.map_eq_nil_iff, complaints]
  refine and_congr_right fun _ => ?_
  cases (reading s source).fault with
  | some f => simp
  | none =>
    cases (reading s source).functions with
    | none => simp
    | some fs =>
      simp only [true_and, Option.some.injEq, forall_eq']
      cases check fs <;> simp

theorem parseTree_eq (s : Session) (source : String) : parseTree source s = (do
    match (reading s source).fault, (reading s source).functions with
    | some f, _ => do
      print ["Parser error: " ++ f.message]
      pure .nothing
    | none, some fs => pure (.program fs)
    | none, none => pure .nothing : SessionM Node) (parse source (startAnew s).2).2 := rfl

theorem parseTree_fst {s : Session} {source : String} {fs : List Node} (hf : (reading s source).fault = none)
    (ht : (reading s source).functions = some fs) : (parseTree source s).1 = .program fs := by
  rw [parseTree_eq, hf, ht]
  rfl

theorem parseTree_cases (s : Session) (source : String) : (parseTree source s).1 = .nothing ∨
    ∃ fs, (reading s source).functions = some fs ∧ (parseTree source s).1 = .program fs := by
  cases hf : (reading s source).fault with
  | some f =>
    left
    rw [parseTree_eq, hf]
    rfl
  | none =>
    cases ht : (reading s source).functions with
    | some fs => exact .inr ⟨fs, rfl, parseTree_fst hf ht⟩
    | none =>
      left
      rw [parseTree_eq, hf, ht]
      rfl

/-- The code of a reading, or what is wrong with it. -/
def answer (p : Parse) : Option String × List String :=
  match p.fault, p.functions with
  | some f, _ => (none, ["Compiler error: " ++ f.message])
  | none, none => (none, [])
  | none, some fs =>
    match check fs with
    | .error f => (none, ["Compiler error: " ++ f.message])
    | .ok [] =>
      match (Code.Gen.visitTree (.program fs)).run {} with
      | .ok _ g => (some (Code.render g.code.toList), [])
      | .error f _ => (none, ["Compiler error: " ++ f.message])
    | .ok found => (none, found.map (·.message))

theorem compileToCode_eq : compileToCode source s = (do
    match (reading s source).fault, (reading s source).functions with
    | some f, _ => pure (none, ["Compiler error: " ++ f.message])
    | none, none => pure (none, [])
    | none, some fs =>
      match check fs with
      | .error f => pure (none, ["Compiler error: " ++ f.message])
      | .ok [] => do
        match ← generate (.program fs) with
        | .ok code => pure (some code, [])
        | .error f => pure (none, ["Compiler error: " ++ f.message])
      | .ok found => pure (none, found.map (·.message)) : SessionM _) (parse source s).2 := rfl

theorem compileToCode_fst : (compileToCode source s).1 = answer (reading s source) := by
  rw [compileToCode_eq, answer]
  cases (reading s source).fault with
  | some f => rfl
  | none =>
    cases (reading s source).functions with
    | none => rfl
    | some fs =>
      dsimp only
      cases check fs with
      | error f => rfl
      | ok found =>
        cases found with
        | cons d ds => rfl
        | nil =>
          dsimp only [bind, StateT.bind]
          unfold generate
          cases (Code.Gen.visitTree (.program fs)).run {} <;> rfl

/-- **When a text has code**: the reading meets no fault and leaves functions, they have no errors, and code can be
generated for them. -/
theorem code_eq_some {code : String} : (compileToCode source s).1.1 = some code ↔
    (reading s source).fault = none ∧ ∃ fs, (reading s source).functions = some fs ∧ check fs = .ok [] ∧
      ∃ r g, Ran (Code.Gen.visitTree (.program fs)) {} r g ∧ code = Code.render g.code.toList := by
  rw [compileToCode_fst, answer]
  unfold Ran
  cases (reading s source).fault with
  | some f => simp
  | none =>
    cases (reading s source).functions with
    | none => simp
    | some fs =>
      simp only [true_and, Option.some.injEq, exists_eq_left']
      cases check fs with
      | error f => simp
      | ok found =>
        cases found with
        | cons d ds => simp
        | nil =>
          cases (Code.Gen.visitTree (.program fs)).run {} with
          | error f g => simp
          | ok r g =>
            constructor
            · intro h
              exact ⟨rfl, r, g, rfl, (Option.some.inj h).symm⟩
            · rintro ⟨-, r, g, h, rfl⟩
              cases h
              rfl

theorem compileToCode_eq_nothing : (compileToCode source s).1 = (none, []) ↔
    (reading s source).fault = none ∧ (reading s source).functions = none := by
  rw [compileToCode_fst, answer]
  cases (reading s source).fault with
  | some f => simp
  | none =>
    cases (reading s source).functions with
    | none => simp
    | some fs =>
      dsimp only
      cases check fs with
      | error f => simp
      | ok found =>
        cases found with
        | cons d ds => simp
        | nil => cases (Code.Gen.visitTree (.program fs)).run {} <;> simp

theorem code_ne_none : (compileToCode source s).1.1 ≠ none ↔
    (reading s source).fault = none ∧ ∃ fs, (reading s source).functions = some fs ∧ Compiles fs := by
  rw [Option.ne_none_iff_exists']
  simp only [code_eq_some, Compiles]
  constructor
  · rintro ⟨_, hf, fs, ht, hc, r, g, hr, -⟩
    exact ⟨hf, fs, ht, hc, r, g, hr⟩
  · rintro ⟨hf, fs, ht, hc, r, g, hr⟩
    exact ⟨_, hf, fs, ht, hc, r, g, hr, rfl⟩

/-- **Both ways to compile a text agree exactly if the reading reports no syntax error, or a fault cuts it short, or it
leaves functions that do not compile.** -/
theorem agree_iff (s : Session) (source : String) : Agree s source ↔
    (reading s source).errors = [] ∨ (reading s source).fault ≠ none ∨
      ∃ fs, (reading s source).functions = some fs ∧ ¬ Compiles fs := by
  have silent : ((compileToCode source s).1.1 = none → (compileToCode source s).1.2 ≠ []) ↔
      ¬ ((reading s source).fault = none ∧ (reading s source).functions = none) := by
    rw [← compileToCode_eq_nothing, Prod.ext_iff, not_and]
  rw [Agree, silent, code_ne_none, compile_eq_nil]
  cases hf : (reading s source).fault with
  | some f => simp
  | none =>
    cases ht : (reading s source).functions with
    | none => simp [show (reading s source).errors ≠ [] from Parse.errors_ne_nil hf ht]
    | some fs =>
      by_cases hc : Compiles fs
      · simp [hc, hc.1]
      · simp [hc]

/-- A text with a word too many in front of its only function has code all the same, and for an empty text there is
neither code nor a complaint. -/
theorem code_despite_errors : ¬ Agree {} "x funk main() <null> \x7b return; \x7d" ∧ ¬ Agree {} "" := by
  decide +kernel

end Session
end TesLang
