import TesLang.Proofs.Carry
import TesLang.Proofs.Generation.Walk
/-!
# What came before a procedure

The code of a procedure does not depend on what was generated before it, the numbers of its labels apart: registers and
variables start anew with it, the lines so far are never looked at, but for the last one, and that only once the head of the
procedure stands behind it.  `visit_framed` says so of every node: with more lines, more warnings and higher registers
behind, the same lines are added.  So a procedure adds to a program the lines that it has by itself (`ran_function`).
-/
namespace TesLang.Code

namespace Bank

def raise (high : Int) (b : Bank) : Bank := { b with highest := max high b.highest }

theorem reserve_raise (high : Int) (b : Bank) (r : Reg) : (b.raise high).reserve r = (b.reserve r).raise high := by
  unfold reserve raise
  by_cases h : b.taken.contains r = true
  · rw [if_pos h, if_pos h]
  · rw [if_neg h, if_neg h]

theorem allocate_raise (high : Int) (b : Bank) :
    (b.raise high).allocate = (b.allocate.1, b.allocate.2.raise high) := by
  have free : (b.raise high).free = b.free := rfl
  dsimp only [allocate]
  rw [free, reserve_raise]
  simp only [raise, Int.max_assoc]

end Bank

/-- The generator with lines and warnings in front of its own, and with registers up to `high` handed out once. -/
def Generator.framed (lines : Array Line) (warnings : Array String) (high : Int) (s : Generator) : Generator :=
  { s with code := lines ++ s.code, warnings := warnings ++ s.warnings, bank := s.bank.raise high }

namespace Gen

open Generator

section
variable {lines : Array Line} {warnings : Array String} {high : Int}

abbrev Frames {α : Type} (lines : Array Line) (warnings : Array String) (high : Int) (m : Gen α) : Prop :=
  Carries (framed lines warnings high) (fun a => a) m m

theorem emit_framed (l : Line) : Frames lines warnings high (emit l) :=
  .modify fun s => by simp only [framed, Array.append_push]

theorem get_framed {α : Type} {f : Generator → Gen α} (same : ∀ s, f (framed lines warnings high s) = f s)
    (h : ∀ s, Frames lines warnings high (f s)) : Frames lines warnings high (get >>= f) := by
  intro s
  show (f (framed lines warnings high s)).run (framed lines warnings high s) = _
  rw [same]
  exact h s s

theorem placeParams_framed : ∀ (i : Nat) (ps : List Node), Frames lines warnings high (placeParams i ps)
  | _, [] => .pure rfl
  | i, p :: ps => by
    rw [placeParams]
    cases p.name? with
    | none => exact .throw _
    | some x =>
      refine .bind (.modify fun s => ?_) fun _ => .bind (placeParams_framed (i + 1) ps) fun _ => .pure rfl
      simp only [framed, Bank.reserve_raise]
      rfl

theorem placeParameters_framed (params : Node) : Frames lines warnings high (placeParameters params) := by
  have place (ps : List Node) : Frames lines warnings high (do
      let texts ← placeParams 1 ps
      emit (.comment ("Parameters: " ++ ", ".intercalate texts))) :=
    .bind (placeParams_framed 1 ps) fun _ => emit_framed _
  unfold placeParameters
  split
  · exact .pure rfl
  · cases params
    case several => exact place _
    case text => exact place _
    all_goals exact .bind (F := fun a => a) (.throw _) place

theorem closeProc_framed (h : lines.back?.any endsInRet = false) (returnType : String) :
    Frames lines warnings high (closeProc returnType) := by
  unfold closeProc
  refine get_framed (fun s => ?_) fun s => ?_
  · have last : (lines ++ s.code).back?.any endsInRet = s.code.back?.any endsInRet := by
      rw [Array.back?_append]
      cases s.code.back? with
      | none => exact h
      | some l => rfl
    simp only [framed, last]
  · dsimp only
    split
    · split
      · exact .bind (emit_framed _) fun _ => .bind (emit_framed _) fun _ => emit_framed _
      · exact .bind (emit_framed _) fun _ => emit_framed _
    · exact emit_framed _

theorem procedure_framed (h : lines.back?.any endsInRet = false) (name : String) (params : Node) (returnType : String)
    {code : Gen Unit} (hc : Frames lines warnings high code) :
    Frames lines warnings high (procedure name params returnType code) :=
  .bind (.bind (.modify fun _ => rfl) fun _ => .bind (emit_framed _) fun _ => placeParameters_framed params) fun _ =>
    .bind hc fun _ => .bind (closeProc_framed h returnType) fun _ => .pure rfl

theorem closed_frames (h : lines.back?.any endsInRet = false) :
    Closed fun {_} m => Frames lines warnings high m where
  pure _ := .pure rfl
  throw f := .throw f
  bind first rest := .bind first rest
  discard hm := .discard hm
  emit _ := emit_framed _
  allocate s := by
    show EStateM.Result.ok (s.bank.raise high).allocate.1
      { framed lines warnings high s with bank := (s.bank.raise high).allocate.2 } = _
    rw [Bank.allocate_raise]
    rfl
  freshLabel stem s := rfl
  warn kind := .modify fun s => by simp only [framed, Array.append_push]
  ask same hf := get_framed (fun s => same _ _ rfl rfl) hf
  settle x r := .modify fun _ => rfl
  procedure name params returnType _ hc := procedure_framed h name params returnType hc

end

/-- **Generating the code of a node does the same whatever came before**, if that does not end in a return. -/
theorem visit_framed {lines : Array Line} (h : lines.back?.any endsInRet = false) (warnings : Array String) (high : Int)
    (n : Node) : Frames lines warnings high (visit n) := (closed_frames h).has (.visit n)

theorem run_function {f : Node} (hf : f.isFunction = true) {s t : Generator} (code : s.code = t.code)
    (bank : s.bank.clear = t.bank.clear) (labels : s.labels = t.labels) (warnings : s.warnings = t.warnings) :
    (visit f).run s = (visit f).run t := by
  cases f with
  | function name params returnType body line =>
    rw [visit_procedure]
    have opened : ({ s with function := some name, vars := [], params := [], bank := s.bank.clear } : Generator) =
        { t with function := some name, vars := [], params := [], bank := t.bank.clear } := by
      rw [code, bank, labels, warnings]
    have first : openProc name params s = openProc name params t :=
      congrArg (do emit (.proc name); placeParameters params : Gen Unit) opened
    show EStateM.bind (openProc name params) _ s = EStateM.bind (openProc name params) _ t
    unfold EStateM.bind
    rw [first]
  | _ => cases hf

/-- **A procedure adds to a program the lines that it has by itself**, with its labels numbered from where the program
is. -/
theorem ran_function {f : Node} (hf : f.isFunction = true) {s s' : Generator} {r : Option Reg}
    (hs : s.code.back?.any endsInRet = false) (run : Ran (visit f) s r s') :
    ∃ g, Ran (visit f) { labels := s.labels } r g ∧ s'.code = s.code ++ g.code ∧ s'.labels = g.labels := by
  -- with registers raised to zero at least, `s` is a frame around a new generator
  have alike : (visit f).run (framed #[] #[] 0 s) =
      (visit f).run (framed s.code s.warnings (max 0 s.bank.highest) { labels := s.labels }) := by
    refine run_function hf (by simp [framed]) ?_ rfl (by simp [framed])
    simp [framed, Bank.raise, Bank.clear]
  rw [visit_framed (by rfl) #[] 0 f s, visit_framed hs _ _ f _] at alike
  unfold Ran at run ⊢
  rw [run] at alike
  cases hg : (visit f).run { labels := s.labels } with
  | error e g =>
    rw [hg] at alike
    cases alike
  | ok a g =>
    rw [hg] at alike
    simp only [outcomeMap, EStateM.Result.ok.injEq, framed, Generator.mk.injEq] at alike
    obtain ⟨rfl, code, -, -, -, -, labels, -⟩ := alike
    exact ⟨g, rfl, by simpa using code, labels⟩

end Gen
end TesLang.Code
