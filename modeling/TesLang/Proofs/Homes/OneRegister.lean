import TesLang.Proofs.Homes.Uses
/-!
# One register for each variable

The code of a function reads and writes each of its variables in one register (`OneRegister`) if and only if the function
uses its names in the right manners (`oneHome`).  Two things can go wrong:

* A parameter has the register in which it came.  A loop over it does not look there, so its variable has another one, and
  what else is done with the name is done with the parameter.
* A name that is read before it has a register is read in one that nothing else knows of.  What comes later, be it another
  read, goes to a different one.

Both are seen in the manners in which a name is mentioned, in their order (`homed`).
-/
namespace TesLang.Code

open Generator Grammar

/-- **Every name is read and written in one register.** -/
def OneRegister (us : List NameUse) : Prop :=
  ∀ u ∈ us, ∀ v ∈ us, u.manner ≠ .declared → v.manner ≠ .declared → u.name = v.name → u.reg = v.reg

/-- Whether a name that is mentioned in these manners is used in one register.  A parameter must not be looped over if it is
used otherwise, and a name that is no parameter must not be used again if it is read first. -/
def homed (parameter : Bool) (ks : List Manner) : Bool :=
  if parameter then ks.all (· ≠ .looped) || ks.all fun k => k = .looped || k = .declared
  else
    match ks with
    | .read :: ks => ks.all (· = .declared)
    | _ => true

/-- The manners in which a name is mentioned. -/
def mannersOf (x : String) (ms : List Mention) : List Manner := (ms.filter (·.name = x)).map (·.manner)

/-- The names in a function, without those in the functions in it. -/
def mentionsIn : Node → List Mention
  | .function _ _ _ body _ => mentionsOwn body.statements
  | _ => []

def isParameterOf (f : Node) (x : String) : Bool :=
  match f with
  | .function _ params _ _ _ => (parameterNames params).contains x
  | _ => false

/-- **Whether a function uses each of its names in one register**, as can be seen in its tree. -/
def oneHome (f : Node) : Bool :=
  (mentionsIn f).all fun m => homed (isParameterOf f m.name) (mannersOf m.name (mentionsIn f))

/-! ### Registers in a chain -/

theorem Manner.sought_eq_vars {k : Manner} {s : Generator} {x : String} (h : k = .looped ∨ s.params.find? x = none) :
    k.sought s x = s.vars.find? x := by
  rcases h with rfl | h
  · rfl
  · cases k <;> simp [sought, Generator.home, h]

theorem Manner.sought_eq_params {k : Manner} {s : Generator} {x : String} {p : Reg} (hk : k ≠ .looped)
    (h : s.params.find? x = some p) : k.sought s x = some p := by
  cases k with
  | looped => exact (hk rfl).elim
  | _ => simp [sought, Generator.home, h]

theorem Takes.vars_eq_reg {x : String} {k : Manner} {r : Reg} {s s' : Generator} (h : Takes x k r s s')
    (hv : k = .looped ∨ s.params.find? x = none) (hk : k ≠ .read) : s'.vars.find? x = some r := by
  rcases h.found with ⟨found, same⟩ | ⟨-, -, -, set⟩
  · rw [Manner.sought_eq_vars hv] at found
    exact same.trans found
  · rw [set, if_neg hk]

namespace NameChain

variable {x : String} {s s' : Generator} {us : List NameUse}

theorem reg_eq_of_params (h : NameChain x s us s') {p : Reg} (hp : s.params.find? x = some p) :
    ∀ u ∈ us, u.manner ≠ .looped → u.reg = p := by
  induction h with
  | idle => nofun
  | @use s s₀ s₁ s' u us before next _ ih =>
    have hp₀ : s₀.params.find? x = some p := by rw [before.params, hp]
    intro w hw hk
    rcases List.mem_cons.1 hw with rfl | hw
    · rcases next.found with ⟨found, -⟩ | ⟨none, -⟩
      · rw [Manner.sought_eq_params hk hp₀] at found
        exact (Option.some.inj found).symm
      · rw [Manner.sought_eq_params hk hp₀] at none
        cases none
    · exact ih (by rw [next.params, hp₀]) w hw hk

theorem reg_eq_of_vars (h : NameChain x s us s') {v : Reg} (hv : s.vars.find? x = some v) :
    ∀ u ∈ us, u.manner = .looped ∨ s.params.find? x = none → u.reg = v := by
  induction h with
  | idle => nofun
  | @use s s₀ s₁ s' u us before next _ ih =>
    have hv₀ : s₀.vars.find? x = some v := before.vars.trans hv
    intro w hw hk
    rw [← before.params] at hk
    rcases List.mem_cons.1 hw with rfl | hw
    · rcases next.found with ⟨found, -⟩ | ⟨none, -⟩
      · rw [Manner.sought_eq_vars hk, hv₀] at found
        exact (Option.some.inj found).symm
      · rw [Manner.sought_eq_vars hk, hv₀] at none
        cases none
    · exact ih (next.vars_eq_some hv₀) w hw (by rw [next.params]; exact hk)

theorem reg_ne_of_taken (h : NameChain x s us s') {q : Reg} (hq : q ∈ s.bank.taken) (hv : s.vars.find? x ≠ some q) :
    ∀ u ∈ us, u.manner = .looped ∨ s.params.find? x = none → u.reg ≠ q := by
  induction h with
  | idle => nofun
  | @use s s₀ s₁ s' u us before next _ ih =>
    have hv₀ : s₀.vars.find? x ≠ some q := by rw [before.vars]; exact hv
    intro w hw hk
    rw [← before.params] at hk
    rcases List.mem_cons.1 hw with rfl | hw
    · rintro rfl
      rcases next.found with ⟨found, -⟩ | ⟨-, free, -⟩
      · rw [Manner.sought_eq_vars hk] at found
        exact hv₀ found
      · exact free (before.taken hq)
    · exact ih (next.taken (before.taken hq)) (next.vars_ne (before.taken hq) hv₀) w hw (by rw [next.params]; exact hk)

theorem exists_reg_of_looped (h : NameChain x s us s') : ∃ v, ∀ u ∈ us, u.manner = .looped → u.reg = v := by
  induction h with
  | idle => exact ⟨.result, nofun⟩
  | @use s s₀ s₁ s' u us before next rest ih =>
    by_cases hk : u.manner = .looped
    · refine ⟨u.reg, fun w hw hl => ?_⟩
      rcases List.mem_cons.1 hw with rfl | hw
      · rfl
      · exact rest.reg_eq_of_vars (next.vars_eq_reg (.inl hk) (by simp [hk])) w hw (.inl hl)
    · obtain ⟨v, all⟩ := ih
      refine ⟨v, fun w hw hl => ?_⟩
      rcases List.mem_cons.1 hw with rfl | hw
      · exact (hk hl).elim
      · exact all w hw hl

end NameChain

/-! ### The uses of one name -/

/-- All reads and writes go to one register. -/
def Agree (us : List NameUse) : Prop :=
  ∀ u ∈ us, ∀ v ∈ us, u.manner ≠ .declared → v.manner ≠ .declared → u.reg = v.reg

theorem homed_parameter {us : List NameUse} : homed true (us.map (·.manner)) = true ↔
    (∀ u ∈ us, u.manner ≠ .looped) ∨ ∀ u ∈ us, u.manner = .looped ∨ u.manner = .declared := by
  simp [homed, List.all_eq_true]

/-- **A parameter is used in one register if it is not both looped over and used otherwise.** -/
theorem agree_parameter_iff {x : String} {s s' : Generator} {us : List NameUse} (h : NameChain x s us s') {p : Reg}
    (hp : s.params.find? x = some p) (taken : p ∈ s.bank.taken) (hv : s.vars.find? x ≠ some p) :
    Agree us ↔ homed true (us.map (·.manner)) = true := by
  rw [homed_parameter]
  constructor
  · intro agree
    by_contra both
    simp only [not_or, not_forall, not_not, exists_prop] at both
    obtain ⟨⟨u, hu, looped⟩, w, hw, other, access⟩ := both
    have same : u.reg = w.reg := agree u hu w hw (by simp [looped]) access
    rw [h.reg_eq_of_params hp w hw other] at same
    exact h.reg_ne_of_taken taken hv u hu (.inl looped) same
  · rintro (others | loops) u hu w hw du dw
    · rw [h.reg_eq_of_params hp u hu (others u hu), h.reg_eq_of_params hp w hw (others w hw)]
    · obtain ⟨v, all⟩ := h.exists_reg_of_looped
      rw [all u hu ((loops u hu).resolve_right du), all w hw ((loops w hw).resolve_right dw)]

/-- **A name that is no parameter is used in one register if it is not read first and used again.** -/
theorem agree_variable_iff {x : String} {s s' : Generator} {us : List NameUse} (h : NameChain x s us s')
    (hp : s.params.find? x = none) (hv : s.vars.find? x = none) : Agree us ↔ homed false (us.map (·.manner)) = true := by
  cases h with
  | idle => simp [Agree, homed]
  | @use s s₀ s₁ s' u us before next rest =>
    have hp₀ : s₀.params.find? x = none := by rw [before.params, hp]
    have hp₁ : s₁.params.find? x = none := by rw [next.params, hp₀]
    by_cases hk : u.manner = .read
    · -- the register of the read is taken, but it is not that of the variable
      have unknown : u.reg ∈ s₁.bank.taken ∧ s₁.vars.find? x ≠ some u.reg := by
        rcases next.found with ⟨found, -⟩ | ⟨-, -, taken, set⟩
        · rw [Manner.sought_eq_vars (.inr hp₀), before.vars, hv] at found
          cases found
        · rw [set, if_pos hk, before.vars, hv]
          exact ⟨taken, nofun⟩
      have others : ∀ w ∈ us, w.reg ≠ u.reg := fun w hw => rest.reg_ne_of_taken unknown.1 unknown.2 w hw (.inr hp₁)
      have first : homed false ((u :: us).map (·.manner)) = true ↔ ∀ w ∈ us, w.manner = .declared := by
        simp [homed, hk, List.all_eq_true]
      rw [first]
      constructor
      · intro agree w hw
        by_contra access
        exact others w hw (agree w (List.mem_cons_of_mem _ hw) u List.mem_cons_self access (by simp [hk]))
      · intro declared v hv w hw dv dw
        rcases List.mem_cons.1 hv with rfl | hv
        · rcases List.mem_cons.1 hw with rfl | hw
          · rfl
          · exact (dw (declared w hw)).elim
        · exact (dv (declared v hv)).elim
    · have known : s₁.vars.find? x = some u.reg := next.vars_eq_reg (.inr hp₀) hk
      have all : ∀ w ∈ u :: us, w.reg = u.reg := by
        intro w hw
        rcases List.mem_cons.1 hw with rfl | hw
        · rfl
        · exact rest.reg_eq_of_vars known w hw (.inr hp₁)
      have first : homed false ((u :: us).map (·.manner)) = true := by
        cases hm : u.manner with
        | read => exact (hk hm).elim
        | _ => simp [homed, hm]
      exact iff_of_true (fun v hv w hw _ _ => (all v hv).trans (all w hw).symm) first

theorem oneRegister_iff_agree {us : List NameUse} : OneRegister us ↔ ∀ x, Agree (us.filter (·.name = x)) := by
  constructor
  · intro one x u hu v hv du dv
    simp only [List.mem_filter, decide_eq_true_eq] at hu hv
    exact one u hu.1 v hv.1 du dv (hu.2.trans hv.2.symm)
  · intro each u hu v hv du dv name
    exact each v.name u (by simp [hu, name]) v (by simp [hv]) du dv

theorem oneHome_iff {f : Node} :
    oneHome f = true ↔ ∀ x, homed (isParameterOf f x) (mannersOf x (mentionsIn f)) = true := by
  unfold oneHome
  rw [List.all_eq_true]
  constructor
  · intro all x
    by_cases hx : ∃ m ∈ mentionsIn f, m.name = x
    · obtain ⟨m, hm, rfl⟩ := hx
      exact all m hm
    · have none : mannersOf x (mentionsIn f) = [] := by
        rw [mannersOf, List.map_eq_nil_iff, List.filter_eq_nil_iff]
        exact fun m hm hn => hx ⟨m, hm, by simpa using hn⟩
      rw [none]
      cases isParameterOf f x <;> rfl
  · exact fun all m _ => all m.name

/-- **The code of a function uses each name in one register exactly if its tree says so.** -/
theorem oneRegister_codeOf {k : Nat} {f : Node} {c : List Line} (hf : f.isFunction = true) (hs : isStatement f = true)
    (hd : direct f = true) (hc : Gen.codeOf k f = some c) :
    ∃ us, Gen.usesOf k f = some (c, us) ∧ us.map NameUse.toMention = mentionsIn f ∧
      (OneRegister us ↔ oneHome f = true) := by
  obtain ⟨name, ps, returnType, ss, line, rfl, -, hp, hss⟩ := shape_of_codeOf hf hs hc
  obtain ⟨us, s₀, d, uses, placed, ⟨us', told, mentioned, chain⟩, rfl⟩ := Gen.usesOf_codeOf hp hss hd hc
  obtain rfl : d.uses = us' := told
  refine ⟨d.uses, uses, mentioned, ?_⟩
  rw [oneRegister_iff_agree, oneHome_iff]
  refine forall_congr' fun x => ?_
  have manners : mannersOf x (mentionsIn (.function name (.several ps) returnType (.several ss) line)) =
      (d.uses.filter (·.name = x)).map (·.manner) := by
    show mannersOf x (mentionsOwn ss) = _
    rw [← mentioned, mannersOf, List.filter_map, List.map_map]
    rfl
  have unset : s₀.vars.find? x = none := by rw [placed.vars, Bindings.find?_nil]
  rw [manners]
  by_cases hx : x ∈ parameterNames (.several ps)
  · obtain ⟨p, hp⟩ := placed.bound.1 hx
    have parameter : isParameterOf (.function name (.several ps) returnType (.several ss) line) x = true := by
      simpa [isParameterOf] using hx
    rw [parameter]
    exact agree_parameter_iff (chain x) hp (placed.sound.params_taken hp).1 (by simp [unset])
  · have other : isParameterOf (.function name (.several ps) returnType (.several ss) line) x = false := by
      simpa [isParameterOf] using hx
    have hp : s₀.params.find? x = none := by
      rw [Option.eq_none_iff_forall_ne_some]
      exact fun r hr => hx (placed.bound.2 ⟨r, hr⟩)
    rw [other]
    exact agree_variable_iff (chain x) hp unset

end TesLang.Code

namespace TesLang.Session

open Code

/-- **When every variable has one register.**  Take a text that has code, with functions only directly in the program or in
the body of another.  The code of each function comes with the uses that it makes of names: all that its statements mention,
in their order.  Every name is read and written in one register if and only if it is not both a parameter that is used as
such and the variable of a loop, and it is not read before it has a register and used again. -/
theorem variables_one_register_iff {s : Session} {source code : String}
    (compiled : (compileToCode source s).1.1 = some code) : ∃ fs lines, (reading s source).functions = some fs ∧
      linesOf fs = some lines ∧ code = render lines ∧ (directOnly fs = true → List.Forall₂
        (fun f b => ∃ k us, Gen.usesOf k f = some (b, us) ∧ us.map NameUse.toMention = mentionsIn f ∧
          (OneRegister us ↔ oneHome f = true)) (fs.flatMap withNested) (blocksOf lines)) := by
  obtain ⟨-, fs, hf, -, r, g, run, rfl⟩ := code_eq_some.1 compiled
  refine ⟨fs, g.code.toList, hf, linesOf_of_ran run, rfl, fun direct => ?_⟩
  refine (blocks_of_program (parse_areFunctions hf) (linesOf_of_ran run) direct).imp ?_
  rintro f b ⟨function, statement, hd, k, hc⟩
  exact ⟨k, oneRegister_codeOf function statement hd hc⟩

/-- A sum of the members of a vector: parameters, a variable and a loop. -/
def memberSum : String :=
  "funk sum(a as vector, n as int) <int> \x7b s :: int = 0; for (i = 0 to n) begin s = s + a[i]; end return s; \x7d"

theorem memberSum_one_register : ∃ code fs lines, (compileToCode memberSum {}).1.1 = some code ∧ directOnly fs = true ∧
    (reading {} memberSum).functions = some fs ∧ linesOf fs = some lines ∧ code = render lines ∧ (directOnly fs = true →
      List.Forall₂ (fun f b => ∃ k us, Gen.usesOf k f = some (b, us) ∧ us.map NameUse.toMention = mentionsIn f ∧
        (OneRegister us ↔ oneHome f = true)) (fs.flatMap withNested) (blocksOf lines)) := by
  have evaluated : ∃ fs ∈ (reading {} memberSum).functions, (reading {} memberSum).errors = [] ∧
      (reading {} memberSum).fault = none ∧ check fs = .ok [] ∧ directOnly fs = true ∧ (linesOf fs).isSome := by
    rw [memberSum, reading_ofList]
    decide +kernel
  obtain ⟨fs, hf, errors, fault, clean, direct, coded⟩ := evaluated
  obtain ⟨lines, hl⟩ := Option.isSome_iff_exists.1 coded
  have compiled := (compiled_of_reading hf errors fault clean hl).2
  obtain ⟨fs', lines', hf', rest⟩ := variables_one_register_iff compiled
  obtain rfl : fs = fs' := Option.some.inj (hf.symm.trans hf')
  exact ⟨_, fs, lines', compiled, direct, hf', rest⟩

/-- Texts without errors in which a name has two registers: a parameter that is looped over, and a variable in the range of
its own loop. -/
def splitVariables : List String :=
  ["funk f(i as int) <int> \x7b for (i = 0 to 3) begin print(i); end return i; \x7d",
   "funk f() <null> \x7b for (i = i to 3) begin end \x7d"]

theorem splitVariables_not_one_register : splitVariables.Forall fun source => (compile source {}).1 = [] ∧
    ∃ fs lines, (compileToCode source {}).1.1 = some (render lines) ∧ (reading {} source).functions = some fs ∧
      linesOf fs = some lines ∧ ∃ f ∈ fs.flatMap withNested, ∃ b ∈ blocksOf lines, ∃ k us,
        Gen.usesOf k f = some (b, us) ∧ ¬ OneRegister us := by
  have evaluated : ∀ source ∈ splitVariables, ∃ fs ∈ (reading {} source).functions, (reading {} source).errors = [] ∧
      (reading {} source).fault = none ∧ check fs = .ok [] ∧ directOnly fs = true ∧ (linesOf fs).isSome ∧
        ∃ f ∈ fs.flatMap withNested, oneHome f = false := by
    rw [splitVariables, List.forall_mem_cons, List.forall_mem_cons, reading_ofList, reading_ofList]
    decide +kernel
  refine List.forall_iff_forall_mem.2 fun source hs => ?_
  obtain ⟨fs, hf, errors, fault, clean, direct, coded, f, member, split⟩ := evaluated source hs
  obtain ⟨lines, hl⟩ := Option.isSome_iff_exists.1 coded
  obtain ⟨accepted, compiled⟩ := compiled_of_reading hf errors fault clean hl
  have blocks := blocks_of_program (parse_areFunctions hf) hl direct
  obtain ⟨b, hb, function, statement, hd, k, hc⟩ := exists_of_forall₂ (R := flip _) blocks.flip f member
  obtain ⟨us, uses, -, one⟩ := oneRegister_codeOf function statement hd hc
  refine ⟨accepted, fs, lines, compiled, hf, hl, f, member, b, hb, k, us, uses, ?_⟩
  rw [one, split]
  exact Bool.false_ne_true

end TesLang.Session
