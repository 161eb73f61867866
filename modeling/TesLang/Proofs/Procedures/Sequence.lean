import TesLang.Proofs.Procedures.Blocks
import TesLang.Proofs.Session.EntryPoints
import TesLang.Proofs.Written.Program
/-!
# One program behind another

The functions of two programs make one program.  Its code is the code of the first program and then that of the second, with
the labels of the second numbered on from those of the first, and nothing else is changed (`linesOf_append`).  So no
function leaves anything behind that the code of a later one depends on, but for the number of labels.

That is so for two reasons.  The numbers of labels are never looked at: started at a higher number, a run does the same with
higher labels (`shaped_shifts`).  And a function starts with registers and variables of its own, so what was generated
before it is a frame around it (`closed_frames`); but a frame may not end in a return, which `closeProc` would take for one
of the function's own.  The code of functions never does, since a blank line follows it (`ended_of_ran`).
-/
namespace TesLang

namespace Code

/-- The label `k` numbers further on. -/
def Label.shift (k : Nat) (l : Label) : Label := { l with index := l.index + k }

/-- The line with its label `k` numbers further on. -/
def Line.shift (k : Nat) : Line → Line
  | .label l => .label (l.shift k)
  | .jumpIfZero r l => .jumpIfZero r (l.shift k)
  | .jumpUnlessZero r l => .jumpUnlessZero r (l.shift k)
  | .jump l => .jump (l.shift k)
  | l => l

/-- The generator with all labels `k` numbers further on. -/
def Generator.shifted (k : Nat) (s : Generator) : Generator :=
  { s with code := s.code.map (Line.shift k), labels := s.labels + k }

namespace Gen

open Generator

variable {k : Nat}

/-! ### Higher labels -/

theorem shift_of_unlabelled {l : Line} (defines : l.label? = none) (jumps : l.target? = none) : l.shift k = l := by
  cases l with
  | label | jumpIfZero | jumpUnlessZero | jump => simp [Line.label?, Line.target?] at defines jumps
  | _ => rfl

theorem endsInRet_shift (l : Line) : endsInRet (l.shift k) = endsInRet l := by
  have labelled {l : Line} (h : l.isInstruction = true) (h' : (l.shift k).isInstruction = true) :
      endsInRet (l.shift k) = endsInRet l := by
    rw [endsInRet_of_isInstruction h, endsInRet_of_isInstruction h']
  cases l with
  | label | jumpIfZero | jumpUnlessZero | jump => exact labelled rfl rfl
  | _ => rfl

abbrev Shifts {α : Type} (k : Nat) (m : Gen α) : Prop := Carries (shifted k) (fun a => a) m m

theorem emit_shift (l : Line) : Carries (shifted k) (fun u => u) (emit l) (emit (l.shift k)) :=
  .modify fun s => by simp only [shifted, Array.map_push]

theorem emit_shifts {l : Line} (defines : l.label? = none) (jumps : l.target? = none) : Shifts k (emit l) := by
  have h := emit_shift (k := k) l
  rwa [shift_of_unlabelled defines jumps] at h

theorem freshLabel_shift (stem : String) : Carries (shifted k) (Label.shift k) (freshLabel stem) (freshLabel stem) := by
  intro s
  show EStateM.Result.ok (⟨stem, s.labels + k⟩ : Label) { shifted k s with labels := s.labels + k + 1 } = _
  rw [Nat.add_right_comm]
  rfl

theorem get_shifts {α : Type} {f : Generator → Gen α} (same : ∀ s, f (shifted k s) = f s) (h : ∀ s, Shifts k (f s)) :
    Shifts k (get >>= f) := by
  intro s
  show (f (shifted k s)).run (shifted k s) = _
  rw [same]
  exact h s s

theorem placeParams_shifts : ∀ (i : Nat) (ps : List Node), Shifts k (placeParams i ps)
  | _, [] => .pure rfl
  | i, p :: ps => by
    rw [placeParams]
    cases p.name? with
    | none => exact .throw _
    | some x => exact .bind (.modify fun _ => rfl) fun _ => .bind (placeParams_shifts (i + 1) ps) fun _ => .pure rfl

theorem placeParameters_shifts (params : Node) : Shifts k (placeParameters params) := by
  have place (ps : List Node) : Shifts k (do
      let texts ← placeParams 1 ps
      emit (.comment ("Parameters: " ++ ", ".intercalate texts))) :=
    .bind (placeParams_shifts 1 ps) fun _ => emit_shifts rfl rfl
  unfold placeParameters
  split
  · exact .pure rfl
  · cases params
    case several => exact place _
    case text => exact place _
    all_goals exact .bind (F := fun a => a) (.throw _) place

theorem closeProc_shifts (returnType : String) : Shifts k (closeProc returnType) := by
  unfold closeProc
  refine get_shifts (fun s => ?_) fun s => ?_
  · have last : (s.code.map (Line.shift k)).back?.any endsInRet = s.code.back?.any endsInRet := by
      rw [Array.back?_map, Option.any_map]
      exact congrArg (Option.any · _) (funext endsInRet_shift)
    simp only [shifted, last]
  · dsimp only
    split
    · split
      · exact .bind (emit_shifts rfl rfl) fun _ => .bind (emit_shifts rfl rfl) fun _ => emit_shifts rfl rfl
      · exact .bind (emit_shifts rfl rfl) fun _ => emit_shifts rfl rfl
    · exact emit_shifts rfl rfl

theorem shaped_shifts : Settling fun {_} m => Shifts k m where
  pure _ := .pure rfl
  throw f := .throw f
  bind first rest := .bind first rest
  discard hm := .discard hm
  say _ defines jumps := emit_shifts defines jumps
  allocate _ := rfl
  warn _ := .modify fun _ => rfl
  ask same hf := get_shifts (fun _ => same _ _ rfl rfl) hf
  settle _ _ := .modify fun _ => rfl
  procedure _ params returnType _ hc :=
    .bind (.bind (.modify fun _ => rfl) fun _ => .bind (emit_shifts rfl rfl) fun _ => placeParameters_shifts params)
      fun _ => .bind hc fun _ => .bind (closeProc_shifts returnType) fun _ => .pure rfl
  branching ht hy hn :=
    .bind ht fun _ => .bind (freshLabel_shift _) fun _ => .bind (freshLabel_shift _) fun _ => .bind (emit_shift _) fun _ =>
      .bind hy fun _ => .bind (emit_shift _) fun _ => .bind (emit_shift _) fun _ => .bind hn fun _ =>
      .bind (emit_shift _) fun _ => .pure rfl
  repeating ht hb :=
    .bind (freshLabel_shift _) fun _ => .bind (freshLabel_shift _) fun _ => .bind (emit_shift _) fun _ => .bind ht fun _ =>
      .bind (emit_shift _) fun _ => .bind hb fun _ => .bind (emit_shift _) fun _ => .bind (emit_shift _) fun _ => .pure rfl
  retrying hb ht :=
    .bind (freshLabel_shift _) fun _ => .bind (emit_shift _) fun _ => .bind hb fun _ => .bind ht fun _ =>
      .bind (emit_shift _) fun _ => .pure rfl
  counting _ _ _ hb :=
    .bind (freshLabel_shift _) fun _ => .bind (freshLabel_shift _) fun _ => .bind (emit_shift _) fun _ =>
      .bind (F := fun r => r) (fun _ => rfl) fun _ => .bind (emit_shift _) fun _ => .bind (emit_shift _) fun _ =>
      .bind hb fun _ => .bind (F := fun r => r) (fun _ => rfl) fun _ => .bind (emit_shift _) fun _ =>
      .bind (emit_shift _) fun _ => .bind (emit_shift _) fun _ => .bind (emit_shift _) fun _ => .pure rfl
  choosing ht hy hn :=
    .bind ht fun _ => .bind (freshLabel_shift _) fun _ => .bind (freshLabel_shift _) fun _ =>
      .bind (F := fun r => r) (fun _ => rfl) fun _ => .bind (emit_shift _) fun _ => .bind hy fun _ =>
      .bind (emit_shift _) fun _ => .bind (emit_shift _) fun _ => .bind (emit_shift _) fun _ => .bind hn fun _ =>
      .bind (emit_shift _) fun _ => .bind (emit_shift _) fun _ => .pure rfl

/-! ### Behind other functions -/

mutual

theorem isFunction_of_mem_nestedIn : ∀ {n g : Node}, g ∈ nestedIn n → g.isFunction = true
  | .function _ _ _ body _, g, h | .forLoop _ _ _ body _, g, h | .whileLoop _ body _, g, h | .doLoop body _ _, g, h => by
    rw [nestedIn, List.mem_append] at h
    rcases h with h | h
    · split at h
      · next hb => exact List.mem_singleton.1 h ▸ hb
      · cases h
    · exact isFunction_of_mem_nestedUnder h
  | .program _, _, h | .parameter .., _, h | .declaration .., _, h | .assignment .., _, h | .call .., _, h | .ret .., _, h
  | .branch .., _, h | .block .., _, h | .binary .., _, h | .unary .., _, h | .identifier .., _, h | .number .., _, h
  | .string .., _, h | .boolean .., _, h | .ternary .., _, h | .element .., _, h | .array .., _, h | .listOf .., _, h
  | .bare, _, h | .nothing, _, h | .text _, _, h | .integer _, _, h | .several _, _, h => by simp [nestedIn] at h

theorem isFunction_of_mem_nestedUnder : ∀ {n g : Node}, g ∈ nestedUnder n → g.isFunction = true
  | .several ns, g, h | .block ns _, g, h => by
    rw [nestedUnder] at h
    exact isFunction_of_mem_nestedAmong h
  | .function _ _ _ body _, g, h => by
    rw [nestedUnder, List.mem_append] at h
    rcases h with h | h
    · split at h
      · next hb => exact List.mem_singleton.1 h ▸ hb
      · cases h
    · exact isFunction_of_mem_nestedUnder h
  | .program _, _, h | .parameter .., _, h | .declaration .., _, h | .assignment .., _, h | .call .., _, h | .ret .., _, h
  | .branch .., _, h | .forLoop .., _, h | .whileLoop .., _, h | .doLoop .., _, h | .binary .., _, h | .unary .., _, h
  | .identifier .., _, h | .number .., _, h | .string .., _, h | .boolean .., _, h | .ternary .., _, h | .element .., _, h
  | .array .., _, h | .listOf .., _, h | .bare, _, h | .nothing, _, h | .text _, _, h | .integer _, _, h => by
    simp [nestedUnder] at h

theorem isFunction_of_mem_nestedAmong : ∀ {ns : List Node} {g : Node}, g ∈ nestedAmong ns → g.isFunction = true
  | [], _, h => by simp [nestedAmong] at h
  | n :: ns, g, h => by
    rw [nestedAmong, List.mem_append] at h
    rcases h with h | h
    · split at h
      · next hn =>
        rcases List.mem_cons.1 h with rfl | h
        · exact hn
        · exact isFunction_of_mem_nestedIn h
      · cases h
    · exact isFunction_of_mem_nestedAmong h

end

variable {fs gs : List Node}

theorem isFunction_of_mem_withNested (hf : ∀ f ∈ fs, f.isFunction = true) :
    ∀ g ∈ fs.flatMap withNested, g.isFunction = true := by
  intro g hg
  obtain ⟨f, mem, hg⟩ := List.mem_flatMap.1 hg
  rcases List.mem_cons.1 hg with rfl | hg
  · exact hf _ mem
  · exact isFunction_of_mem_nestedIn hg

theorem ended_of_ran (hf : ∀ f ∈ fs, f.isFunction = true) {g : Generator} (run : Ran (visitProgram fs) {} () g) :
    g.code.back?.any endsInRet = false := by
  rw [visitProgram_eq] at run
  obtain ⟨cs, code, each⟩ := codes_of_ran (isFunction_of_mem_withNested hf) (by rfl) run
  rw [← Array.getLast?_toList, code]
  rcases List.eq_nil_or_concat cs with rfl | ⟨cs, c, rfl⟩
  · rfl
  · obtain ⟨f, mem, k, own⟩ := exists_of_forall₂ each c (by simp)
    rw [List.concat_eq_append, List.flatten_append, List.flatten_singleton, ← List.append_assoc, List.getLast?_append,
      getLast?_codeOf (isFunction_of_mem_withNested hf f mem) own]
    exact (by decide : endsInRet .blank = false)

/-- **Behind other functions, functions have the code that they have by themselves**, with their labels numbered on. -/
theorem run_behind (hg : ∀ g ∈ gs, g.isFunction = true) {s : Generator} (hs : s.code.back?.any endsInRet = false) :
    match (visitProgram gs).run {} with
    | .ok _ t => ∃ t', Ran (visitProgram gs) s () t' ∧ t'.code = s.code ++ t.code.map (Line.shift s.labels)
    | .error f _ => ∃ t', (visitProgram gs).run s = .error f t' := by
  cases gs with
  | nil =>
    rw [visitProgram]
    exact ⟨s, ran_pure.2 ⟨rfl, rfl⟩, by simp⟩
  | cons g gs =>
    -- with registers raised to zero at least, `s` is a frame around a new generator with higher labels
    have alike : (visitProgram (g :: gs)).run (framed #[] #[] 0 s) =
        (visitProgram (g :: gs)).run (framed s.code s.warnings (max 0 s.bank.highest) (shifted s.labels {})) := by
      have first : (visit g).run (framed #[] #[] 0 s) =
          (visit g).run (framed s.code s.warnings (max 0 s.bank.highest) (shifted s.labels {})) := by
        refine run_function (hg g List.mem_cons_self) (by simp [framed, shifted]) ?_ (by simp [framed, shifted])
          (by simp [framed, shifted])
        simp [framed, shifted, Bank.raise, Bank.clear]
      rw [visitProgram]
      show EStateM.bind (visit g) _ _ = EStateM.bind (visit g) _ _
      unfold EStateM.bind
      rw [show visit g _ = visit g _ from first]
    rw [(closed_frames (by rfl)).has (.visitProgram (g :: gs)) s, (closed_frames hs).has (.visitProgram (g :: gs)),
      shaped_shifts.has (.visitProgram (g :: gs))] at alike
    unfold Ran
    cases whole : (visitProgram (g :: gs)).run {} with
    | ok u t =>
      rw [whole] at alike
      cases run : (visitProgram (g :: gs)).run s with
      | error f t' =>
        rw [run] at alike
        cases alike
      | ok u t' =>
        rw [run] at alike
        simp only [outcomeMap, EStateM.Result.ok.injEq, framed, shifted, Generator.mk.injEq] at alike
        exact ⟨t', rfl, by simpa using alike.2.1⟩
    | error f t =>
      rw [whole] at alike
      cases run : (visitProgram (g :: gs)).run s with
      | ok u t' =>
        rw [run] at alike
        cases alike
      | error f' t' =>
        rw [run] at alike
        simp only [outcomeMap, EStateM.Result.error.injEq] at alike
        exact ⟨t', by rw [alike.1]⟩

theorem visitProgram_append (fs gs : List Node) :
    visitProgram (fs ++ gs) = visitProgram fs >>= fun _ => visitProgram gs := by
  induction fs with
  | nil => simp [visitProgram]
  | cons f fs ih => simp [visitProgram, ih]

theorem labels_of_ran {g : Generator} (run : Ran (visitProgram fs) {} () g) :
    g.labels = (labelsIn g.code.toList).length := by
  obtain ⟨new, code, numbered, -⟩ := shaped_labelling.has (.visitProgram fs) _ _ _ run
  have counted := numbered.length
  rw [code]
  simpa using counted.symm

end Gen

open Gen

variable {fs gs : List Node}

theorem linesOf_of_isFunction (hf : ∀ f ∈ fs, f.isFunction = true) {lines : List Line} :
    linesOf fs = some lines ↔ ∃ g, Ran (visitProgram fs) {} () g ∧ g.code.toList = lines := by
  rw [linesOf_eq_some]
  constructor
  · rintro ⟨r, g, run, rfl⟩
    exact ⟨g, ((ran_program hf).1 run).2, rfl⟩
  · rintro ⟨g, run, rfl⟩
    exact ⟨none, g, (ran_program hf).2 ⟨rfl, run⟩, rfl⟩

/-- **The code of two programs in one**: that of the first, and then that of the second with its labels numbered on.  There
is none if one of the programs has none. -/
theorem linesOf_append (hf : ∀ f ∈ fs, f.isFunction = true) (hg : ∀ g ∈ gs, g.isFunction = true) :
    linesOf (fs ++ gs) = (linesOf fs).bind fun ls => (linesOf gs).map fun ms =>
      ls ++ ms.map (Line.shift (labelsIn ls).length) := by
  have hfg : ∀ f ∈ fs ++ gs, f.isFunction = true := by
    intro f hm
    rcases List.mem_append.1 hm with hm | hm
    · exact hf f hm
    · exact hg f hm
  apply Option.ext
  intro lines
  rw [linesOf_of_isFunction hfg, visitProgram_append]
  simp only [ran_bind, Option.bind_eq_some_iff, Option.map_eq_some_iff, linesOf_of_isFunction hf, linesOf_of_isFunction hg]
  constructor
  · rintro ⟨t', ⟨_, s, first, second⟩, rfl⟩
    have behind := run_behind hg (ended_of_ran hf first)
    cases whole : (visitProgram gs).run {} with
    | ok u t =>
      obtain ⟨t'', again, code⟩ := whole ▸ behind
      obtain ⟨-, rfl⟩ := again.unique second
      refine ⟨_, ⟨s, first, rfl⟩, _, ⟨t, whole, rfl⟩, ?_⟩
      simp [code, labels_of_ran first]
    | error f t =>
      obtain ⟨t'', again⟩ := whole ▸ behind
      cases again.symm.trans second
  · rintro ⟨_, ⟨s, first, rfl⟩, _, ⟨t, second, rfl⟩, rfl⟩
    have behind := run_behind hg (ended_of_ran hf first)
    obtain ⟨t', run, code⟩ := (show (visitProgram gs).run {} = _ from second) ▸ behind
    refine ⟨t', ⟨_, s, first, run⟩, ?_⟩
    simp [code, labels_of_ran first]

end Code

namespace Session

open Code

theorem generate_eq_ok {fs : List Node} {s : Session} {code : String} :
    (generate (.program fs) s).1 = .ok code ↔ ∃ lines, linesOf fs = some lines ∧ code = render lines := by
  unfold generate linesOf
  cases (Gen.visitTree (.program fs)).run {} with
  | ok r g =>
    show Except.ok _ = Except.ok code ↔ _
    simp [eq_comm]
  | error f g =>
    show Except.error f = Except.ok code ↔ _
    simp

/-- **Nothing leaks from one function into the next.**  If two lists of functions both have code, so have the functions of
both together: the lines of the first, and then those of the second, which differ only in the numbers of their labels.
These are greater by the number of labels in the lines of the first. -/
theorem generate_append {fs gs : List Node} (hf : ∀ f ∈ fs, f.isFunction = true) (hg : ∀ g ∈ gs, g.isFunction = true)
    {s t : Session} {a b : String} (first : (generate (.program fs) s).1 = .ok a)
    (second : (generate (.program gs) t).1 = .ok b) : ∃ ls ms,
      linesOf fs = some ls ∧ a = render ls ∧ linesOf gs = some ms ∧ b = render ms ∧
      linesOf (fs ++ gs) = some (ls ++ ms.map (Line.shift (labelsIn ls).length)) ∧
      ∀ u, (generate (.program (fs ++ gs)) u).1 = .ok (render (ls ++ ms.map (Line.shift (labelsIn ls).length))) := by
  obtain ⟨ls, hls, rfl⟩ := generate_eq_ok.1 first
  obtain ⟨ms, hms, rfl⟩ := generate_eq_ok.1 second
  have both : linesOf (fs ++ gs) = some (ls ++ ms.map (Line.shift (labelsIn ls).length)) := by
    rw [linesOf_append hf hg, hls, hms]
    rfl
  exact ⟨ls, ms, hls, rfl, hms, rfl, both, fun u => generate_eq_ok.2 ⟨_, both, rfl⟩⟩

/-- A function with a loop, and with a choice in a function inside it. -/
def drain : Node :=
  .function "drain" (.several [.parameter "n" "int" 1]) "int" (.several
    [.function "pick" (.several [.parameter "x" "int" 2]) "int" (.several
       [.ret (.ternary (.identifier "x" 2) (.number 1 2) (.number 0 2) 2) 2]) 2,
     .whileLoop (.identifier "n" 3) (.assignment (.text "n") (.binary (.identifier "n" 3) "-" (.number 1 3) 3) 3) 3,
     .ret (.identifier "n" 4) 4]) 1

/-- A function with a loop around a variable that it does not declare. -/
def retry : Node :=
  .function "retry" (.several []) "null" (.several
    [.doLoop (.assignment (.text "n") (.number 1 6) 6) (.binary (.identifier "n" 7) "<" (.number 1 7) 7) 6]) 5

theorem retry_behind_drain : (linesOf [drain]).map (fun ls => (labelsIn ls).length) = some 4 ∧
    (linesOf [retry]).map (fun ms => (labelsIn ms).map Label.index) = some [0] ∧
    ∃ a b, (generate (.program [drain]) {}).1 = .ok a ∧ (generate (.program [retry]) {}).1 = .ok b ∧ ∃ ls ms,
      linesOf [drain] = some ls ∧ a = render ls ∧ linesOf [retry] = some ms ∧ b = render ms ∧
      linesOf [drain, retry] = some (ls ++ ms.map (Line.shift (labelsIn ls).length)) ∧
      ∀ u, (generate (.program [drain, retry]) u).1 = .ok (render (ls ++ ms.map (Line.shift (labelsIn ls).length))) := by
  have some_lines : (linesOf [drain]).isSome ∧ (linesOf [retry]).isSome := by decide +kernel
  obtain ⟨ls, hls⟩ := Option.isSome_iff_exists.1 some_lines.1
  obtain ⟨ms, hms⟩ := Option.isSome_iff_exists.1 some_lines.2
  have first : (generate (.program [drain]) {}).1 = .ok (render ls) := generate_eq_ok.2 ⟨ls, hls, rfl⟩
  have second : (generate (.program [retry]) {}).1 = .ok (render ms) := generate_eq_ok.2 ⟨ms, hms, rfl⟩
  refine ⟨by decide +kernel, by decide +kernel, _, _, first, second, ?_⟩
  exact generate_append (by simp [drain, Node.isFunction]) (by simp [retry, Node.isFunction]) first second

end Session
end TesLang
