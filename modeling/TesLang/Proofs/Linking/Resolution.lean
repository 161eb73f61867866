import Mathlib.Data.Option.Defs
import TesLang.Proofs.Checking.Names
import TesLang.Proofs.Linking.Links
/-!
# Links in programs that pass the check

At every place of a tree the scopes say what the names of the links say (`Matches`).  In a program without errors every
call finds a symbol in the scopes at its place, so it stands for something, and has as many arguments as that takes
(`resolved_of_check`).
-/
namespace TesLang.Code

open Grammar Check

/-! ### Scopes and names -/

/-- What the name `x` stands for takes `n` arguments; a variable takes none. -/
def Target.Takes (x : String) (n : Nat) : Target → Prop
  | .variable => 0 = n
  | .function d => d.name = x ∧ d.arity = n

/-- The symbol of the name `x` is that of a variable, or of the given function. -/
def Fits (x : String) : Target → Symbol → Prop
  | .variable, s => s.kind = .variable ∧ s.params = []
  | .function d, s => s.kind = .function ∧ s.params.length = d.arity ∧ d.name = x

theorem Fits.takes {x : String} : ∀ {t : Target} {s : Symbol}, Fits x t s → t.Takes x s.params.length
  | .variable, _, h => congrArg List.length h.2.symm
  | .function _, _, h => ⟨h.2.2, h.2.1.symm⟩

theorem fits_settled {x : String} {t : Target} {s : Symbol} : Fits x t s.settled ↔ Fits x t s := by
  cases t <;> exact Iff.rfl

def Matches (names : Names) (c : Chain) : Prop := ∀ x, Option.Rel (Fits x) (names x) (c.lookup x)

namespace Matches

variable {names : Names} {c : Chain}

theorem bind (h : Matches names c) {t : Target} {symbol : Symbol} {x : String} (hf : Fits x t symbol) :
    Matches (names.bind x t) (c.insert x symbol) := by
  intro y
  rw [Chain.lookup_insert, Names.bind]
  by_cases hx : x = y
  · subst hx
    rw [Function.update_self, if_pos rfl]
    exact .some hf
  · rw [Function.update_of_ne (Ne.symm hx), if_neg hx]
    exact h y

theorem of_settled {c' : Chain} (h : Matches names c) (same : c'.settled = c.settled) : Matches names c' := by
  intro x
  have found : (c'.lookup x).map Symbol.settled = (c.lookup x).map Symbol.settled := by
    rw [← Chain.lookup_settled, ← Chain.lookup_settled, same]
  have hx := h x
  generalize names x = target at hx
  generalize c.lookup x = symbol at hx found
  cases hx with
  | none =>
    rw [Option.map_eq_none_iff.1 found]
    exact .none
  | some hf =>
    obtain ⟨symbol', e, hs⟩ := Option.map_eq_some_iff.1 found
    rw [e]
    exact .some (fits_settled.1 (hs ▸ fits_settled.2 hf))

theorem assigned (h : Matches names c) (x : String) : Matches names (c.assigned x) := h.of_settled (c.settled_assigned x)

theorem enter (h : Matches names c) : Matches names c.enter := fun x => (c.lookup_enter x).symm ▸ h x

theorem target (h : Matches names c) {x : String} {symbol : Symbol} (hx : c.lookup x = some symbol) :
    ∃ t, names x = some t ∧ t.Takes x symbol.params.length := by
  have := h x
  rw [hx] at this
  cases hn : names x with
  | none => rw [hn] at this; cases this
  | some t =>
    rw [hn] at this
    rcases this with ⟨hf⟩
    exact ⟨t, rfl, hf.takes⟩

theorem isSome (h : Matches names c) (x : String) : (names x).isSome = (c.lookup x).isSome := by
  have := h x
  cases hn : names x <;> cases hc : c.lookup x <;> rw [hn, hc] at this <;> first | rfl | cases this

end Matches

/-! ### What functions bind -/

theorem pairs_length : ∀ {ps : List Node}, ps.all isParameter = true → (pairs ps).length = ps.length
  | [], _ => rfl
  | p :: ps, h => by
    rw [List.all_cons, Bool.and_eq_true] at h
    cases p with
    | parameter x type line => exact congrArg (· + 1) (pairs_length h.2)
    | _ => cases h.1

theorem isFunction_cases {n : Node} {c : Chain} (h : isStatement n = true) (ha : Answered c n) (place : List Nat) :
    (definitionAt place n = none ∧ functionSymbol? n = none) ∨ ∃ d symbol, definitionAt place n = some d ∧
      functionSymbol? n = some symbol ∧ symbol.name = d.name ∧ Fits d.name (.function d) symbol := by
  cases n with
  | function name params returnType body line =>
    obtain ⟨-, ⟨ps, ss, rfl, -, hps, -⟩ | ⟨rfl, -⟩⟩ := isStatement_function.1 h
    · exact .inr ⟨_, _, rfl, rfl, rfl, rfl, pairs_length hps, rfl⟩
    · cases ha.1
  | _ => exact .inl ⟨rfl, rfl⟩

namespace Matches

theorem withParameters {ps : List Node} {names : Names} {c : Chain} (h : Matches names c) :
    Matches (names.parameters ps) (withParameters c ps) := by
  induction ps generalizing names c with
  | nil => exact h
  | cons p ps ih =>
    cases p with
    | parameter x type line => exact ih (h.bind ⟨rfl, rfl⟩)
    | _ => exact ih h

theorem withNested {place : List Nat} : ∀ {ns : List Node} {i : Nat} {names : Names} {c d : Chain}, areStatements ns = true →
    AnsweredAll d ns → Matches names c → Matches (Names.nested place i names ns) (Check.withNested c ns)
  | [], _, _, _, _, _, _, h => h
  | n :: ns, i, names, c, d, hn, ha, h => by
    simp only [areStatements, Bool.and_eq_true] at hn
    rw [Names.nested, Check.withNested]
    obtain ⟨e, e'⟩ | ⟨d, symbol, e, e', same, fits⟩ := isFunction_cases hn.1.2 ha.1 (i :: place)
    · rw [e, e']
      exact withNested hn.2 ha.2 h
    · rw [e, e']
      dsimp only
      rw [same]
      exact withNested hn.2 ha.2 (h.bind fits)

theorem withLoop {names : Names} {c : Chain} (h : Matches names c) (x : String) (line : Int) :
    Matches (names.bindNew x .variable) (withLoop c x line) := by
  unfold Names.bindNew Check.withLoop
  rw [h.isSome]
  cases c.lookup x with
  | none => exact h.bind ⟨rfl, rfl⟩
  | some _ => exact h.assigned x

theorem withFunctions : ∀ {fs : List Node} {i : Nat} {names : Names} {c d : Chain}, areFunctions fs = true →
    AnsweredAll d fs → c.outer = [] → Matches names c → Matches (Names.functions i names fs) (withFunctions c fs)
  | [], _, _, _, _, _, _, _, h => h
  | f :: fs, i, names, c, d, hf, ha, ho, h => by
    simp only [areFunctions, List.all_cons, Bool.and_eq_true] at hf
    have same (x : String) : c.inner.find? x = c.lookup x := by
      unfold Chain.lookup Chain.scopes
      rw [ho, List.findSome?_cons]
      cases c.inner.find? x <;> rfl
    rw [Names.functions, Check.withFunctions]
    obtain ⟨e, e'⟩ | ⟨d, symbol, e, e', name, fits⟩ := isFunction_cases hf.1.2 ha.1 [i]
    · rw [e, e']
      exact withFunctions hf.2 ha.2 ho h
    · rw [e, e']
      dsimp only
      unfold Names.bindNew
      rw [h.isSome, name, same]
      cases c.lookup d.name with
      | some _ => exact withFunctions hf.2 ha.2 ho h
      | none => exact withFunctions hf.2 ha.2 ho (h.bind fits)

end Matches

/-! ### Calls in expressions -/

def Known (names : Names) (es : List Entry) : Prop := ∀ f n, Entry.call f n ∈ es → ∃ t, names f = some t ∧ t.Takes f n

namespace Known

variable {names : Names} {a b : List Entry}

theorem nil : Known names [] := fun _ _ h => nomatch h

theorem append (ha : Known names a) (hb : Known names b) : Known names (a ++ b) :=
  fun f n h => (List.mem_append.1 h).elim (ha f n) (hb f n)

theorem ofSingle (h : Known names a) (n : Node) : Known names (ofSingle n a) := by
  unfold Code.ofSingle
  split
  · exact nil
  · exact nil
  · exact h

end Known

theorem known_call {names : Names} {c : Chain} {f : String} {args : List Node} {line : Int}
    (ha : Known names (outlineAll args)) (callable : Callable c f args.length) (h : Matches names c) :
    Known names (outline (.call f args line)) := by
  rw [outline]
  split
  · exact .nil
  · cases args with
    | nil => exact .nil
    | cons n rest =>
      rw [outlineAll] at ha
      exact fun f k hm => ha f k (List.mem_append_left _ hm)
  · next hb =>
    refine ha.append fun g k hm => ?_
    obtain ⟨rfl, rfl⟩ := Entry.call.inj (List.mem_singleton.1 hm)
    obtain ⟨symbol, hs, hl⟩ := callable hb
    rw [← hl]
    exact h.target hs

section
variable {names : Names} {c : Chain} {right : String → Bool}

mutual

theorem known_expression (hm : Matches names c) : ∀ {e : Node}, isExpression right e = true → AnsweredIn c e →
    Known names (outline e)
  | .number .., _, _ | .string .., _, _ | .boolean .., _, _ | .identifier .., _, _ => by
    rw [outline]
    · exact .nil
    all_goals
      intros
      contradiction
  | .call f args line, h, ha => by
    simp only [isExpression, Bool.and_eq_true] at h
    exact known_call (known_expressions hm h.2 ha.1) ha.2 hm
  | .element x index _, h, ha => by
    simp only [isExpression, Bool.and_eq_true] at h
    rw [outline]
    exact (known_expression hm h.2 ha).ofSingle _
  | .unary _ e _, h, ha => by
    simp only [isExpression] at h
    rw [outline]
    split
    · exact known_expression hm h ha
    · exact .nil
  | .array es _, h, ha => by
    simp only [isExpression] at h
    rw [outline]
    exact known_expressions hm h ha
  | .binary a _ b _, h, ha => by
    simp only [isExpression, Bool.and_eq_true] at h
    rw [outline]
    exact ((known_expression hm h.1 ha.1).ofSingle _).append ((known_expression hm h.2 ha.2).ofSingle _)
  | .ternary condition yes no line, h, ha => by
    simp only [isExpression, Bool.and_eq_true] at h
    rw [outline]
    exact (((known_expression hm h.1.1 ha.1).ofSingle _).append ((known_expression hm h.1.2 ha.2.1).ofSingle _)).append
      ((known_expression hm h.2 ha.2.2).ofSingle _)

theorem known_expressions (hm : Matches names c) : ∀ {es : List Node}, areExpressions right es = true →
    AnsweredInAll c es → Known names (outlineAll es)
  | [], _, _ => by
    rw [outlineAll]
    exact .nil
  | e :: es, h, ha => by
    simp only [areExpressions, Bool.and_eq_true] at h
    rw [outlineAll]
    exact ((known_expression hm h.1 ha.1).ofSingle _).append (known_expressions hm h.2 ha.2)

end

end

/-! ### Links of statements -/

/-- A call stands for something that takes as many arguments. -/
def Link.Resolved : Link → Prop
  | .head _ => True
  | .call f n target => ∃ t, target = some t ∧ t.Takes f n

/-- All calls among some links stand for something that takes as many arguments. -/
def Resolved (ls : List Link) : Prop := ∀ l ∈ ls, l.Resolved

namespace Resolved

theorem nil : Resolved [] := fun _ h => nomatch h

theorem append {a b : List Link} (ha : Resolved a) (hb : Resolved b) : Resolved (a ++ b) :=
  fun l h => (List.mem_append.1 h).elim (ha l) (hb l)

theorem cons {d : Definition} {ls : List Link} (h : Resolved ls) : Resolved (.head d :: ls) := by
  intro l hl
  rcases List.mem_cons.1 hl with rfl | hl
  · exact trivial
  · exact h l hl

theorem of_known {names : Names} {es : List Entry} (h : Known names es) : Resolved (resolve names es) := by
  intro l hl
  obtain ⟨e, he, hl⟩ := List.mem_filterMap.1 hl
  cases e with
  | head _ => cases hl
  | call f n =>
    cases hl
    exact h f n he

end Resolved

theorem known_assignment {names : Names} {c : Chain} {target value : Node} {line : Int}
    (h : isStatement (.assignment target value line) = true) (ha : Answered c (.assignment target value line))
    (hm : Matches names c) :
    Known names (outline (.assignment target value line)) ∧ Matches names (after c (.assignment target value line)) := by
  obtain ⟨hv, ⟨x, rfl, -⟩ | ⟨x, index, k, rfl, -, hi⟩⟩ := isStatement_assignment.1 h
  · rw [after, outline]
    · exact ⟨(known_expression hm hv ha).ofSingle _, hm.assigned x⟩
    · intros
      contradiction
  · rw [after_assignElement, outline]
    exact ⟨((known_expression hm hv ha.1).ofSingle _).append ((known_expression hm hi ha.2).ofSingle _), hm⟩

mutual

/-- **Where calls are answered, every call stands for something that takes as many arguments**, and behind a statement the
scopes say what the names say. -/
theorem links_resolved : ∀ {n : Node} {c : Chain}, isStatement n = true → Answered c n → ∀ (place : List Nat)
    {names : Names}, Matches names c →
      Resolved (links place names n).1 ∧ Resolved (linksUnder place names n) ∧ Matches (links place names n).2 (after c n)
  | .declaration x type line, c, _, _, place, names, hm => by
    rw [links, linksUnder, after]
    · exact ⟨.nil, .nil, hm.bind ⟨rfl, rfl⟩⟩
    · intros
      contradiction
  | .assignment target value line, c, h, ha, place, names, hm => by
    obtain ⟨hk, hm'⟩ := known_assignment h ha hm
    rw [links, linksUnder] <;> first | exact ⟨.of_known hk, .nil, hm'⟩ | (intros; contradiction)
  | .call f args line, c, h, ha, place, names, hm => by
    simp only [isStatement, Bool.and_eq_true] at h
    have hk : Known names (outline (.call f args line)) := known_call (known_expressions hm h.2 ha.1) ha.2 hm
    rw [links, linksUnder, after] <;> first | exact ⟨.of_known hk, .nil, hm⟩ | (intros; contradiction)
  | .ret value line, c, h, ha, place, names, hm => by
    have hk : Known names (outline (.ret value line)) := by
      rw [outline]
      rcases isStatement_ret.1 h with rfl | hv
      · exact .nil
      · exact (known_expression hm hv ha).ofSingle _
    rw [links, linksUnder, after] <;> first | exact ⟨.of_known hk, .nil, hm⟩ | (intros; contradiction)
  | .branch condition yes no _, c, h, ha, place, names, hm => by
    obtain ⟨hc, hy, ho⟩ := isStatement_branch.1 h
    obtain ⟨ry, -, hm₁⟩ := links_resolved hy ha.2.1 (0 :: place) hm
    have rest : Resolved (links (1 :: place) (links (0 :: place) names yes).2 no).1 ∧
        Matches (links (1 :: place) (links (0 :: place) names yes).2 no).2 (after (after c yes) no) := by
      rcases ho with rfl | ho
      · rw [links, outline, after] <;> first | exact ⟨.nil, hm₁⟩ | (intros; contradiction)
      · obtain ⟨rn, -, hm₂⟩ := links_resolved ho ha.2.2 (1 :: place) hm₁
        exact ⟨rn, hm₂⟩
    rw [links, linksUnder, after]
    · exact ⟨((Resolved.of_known (known_expression hm hc ha.1)).append ry).append rest.1, .nil, rest.2⟩
    · intros
      contradiction
  | .whileLoop condition body _, c, h, ha, place, names, hm => by
    simp only [isStatement, Bool.and_eq_true] at h
    obtain ⟨rb, -, hm₁⟩ := links_resolved h.2 ha.2 (0 :: place) hm
    rw [links, linksUnder, after]
    · exact ⟨(Resolved.of_known (known_expression hm h.1 ha.1)).append rb, .nil, hm₁⟩
    · intros
      contradiction
  | .doLoop body condition _, c, h, ha, place, names, hm => by
    simp only [isStatement, Bool.and_eq_true] at h
    obtain ⟨rb, -, hm₁⟩ := links_resolved h.1 ha.1 (0 :: place) hm
    rw [links, linksUnder, after]
    · exact ⟨rb.append (.of_known (known_expression hm₁ h.2 ha.2)), .nil, hm₁⟩
    · intros
      contradiction
  | .forLoop x start stop body line, c, h, ha, place, names, hm => by
    obtain ⟨-, hs, ht, ss, rfl, hss⟩ := isStatement_forLoop.1 h
    have hm₀ := hm.withLoop x line
    have hk := (known_expression hm₀ hs ha.1).append (known_expression hm₀ ht ha.2.1)
    obtain ⟨rb, hm₁⟩ := linksAll_resolved hss ha.2.2 (0 :: place) 0 hm₀
    rw [links, links, linksUnder, after, after]
    · exact ⟨(Resolved.of_known hk).append rb, .nil, hm₁⟩
    · intros
      contradiction
  | .block ss _, c, h, ha, place, names, hm | .several ss, c, h, ha, place, names, hm => by
    simp only [isStatement] at h
    obtain ⟨rs, hm₁⟩ := linksAll_resolved h ha place 0 hm
    rw [links, linksUnder, after]
    · exact ⟨rs, .nil, hm₁⟩
    · intros
      contradiction
  | .function f params returnType body line, c, h, ha, place, names, hm => by
    obtain ⟨-, ⟨ps, ss, rfl, rfl, -, hss⟩ | ⟨rfl, -⟩⟩ := isStatement_function.1 h
    · obtain ⟨own, nested⟩ := linksOwn_resolved hss ha.2 place 0 (hm.enter.withParameters.withNested hss ha.2)
      have around := settled_after_function (f := .function f (.several ps) returnType (.several ss) line) rfl c
      rw [links, linksUnder]
      exact ⟨own.cons, nested, hm.of_settled around⟩
    · cases ha.1
termination_by n => sizeOf n
decreasing_by all_goals (subst_vars; simp +arith)

theorem linksAll_resolved : ∀ {ns : List Node} {c : Chain}, areStatements ns = true → AnsweredAll c ns →
    ∀ (place : List Nat) (i : Nat) {names : Names}, Matches names c →
      Resolved (linksAll place i names ns).1 ∧ Matches (linksAll place i names ns).2 (afterAll c ns)
  | [], _, _, _, _, _, _, hm => by
    rw [linksAll, afterAll]
    exact ⟨.nil, hm⟩
  | n :: ns, c, h, ha, place, i, names, hm => by
    simp only [areStatements, Bool.and_eq_true] at h
    obtain ⟨r₁, -, hm₁⟩ := links_resolved h.1.2 ha.1 (i :: place) hm
    obtain ⟨r₂, hm₂⟩ := linksAll_resolved h.2 ha.2 place (i + 1) hm₁
    rw [linksAll, afterAll]
    exact ⟨r₁.append r₂, hm₂⟩
termination_by ns => sizeOf ns
decreasing_by all_goals simp +arith

theorem linksOwn_resolved : ∀ {ns : List Node} {c : Chain}, areStatements ns = true → AnsweredAll c ns →
    ∀ (place : List Nat) (i : Nat) {names : Names}, Matches names c →
      Resolved (linksOwn place i names ns) ∧ Resolved (linksNested place i names ns)
  | [], _, _, _, _, _, _, _ => by
    rw [linksOwn, linksNested]
    exact ⟨.nil, .nil⟩
  | n :: ns, c, h, ha, place, i, names, hm => by
    simp only [areStatements, Bool.and_eq_true] at h
    obtain ⟨r₁, ru, hm₁⟩ := links_resolved h.1.2 ha.1 (i :: place) hm
    obtain ⟨r₂, rn⟩ := linksOwn_resolved h.2 ha.2 place (i + 1) hm₁
    rw [linksOwn, linksNested]
    cases n.isFunction with
    | true => exact ⟨r₂, (r₁.append ru).append rn⟩
    | false => exact ⟨r₁.append r₂, rn⟩
termination_by ns => sizeOf ns
decreasing_by all_goals simp +arith

end

theorem links_function {place : List Nat} {names : Names} {f : Node} (h : f.isFunction = true) :
    (links place names f).2 = names := by
  cases f with
  | function name params returnType body line => cases body <;> rw [links] <;> (intros; contradiction)
  | _ => cases h

theorem linksFrom_resolved {names : Names} : ∀ {fs : List Node} {c : Chain}, areFunctions fs = true → AnsweredAll c fs →
    ∀ i, Matches names c → Resolved (linksFrom i names fs)
  | [], _, _, _, _, _ => by
    rw [linksFrom]
    exact .nil
  | f :: fs, c, h, ha, i, hm => by
    simp only [areFunctions, List.all_cons, Bool.and_eq_true] at h
    obtain ⟨own, nested, hm₁⟩ := links_resolved h.1.2 ha.1 [i] hm
    rw [links_function h.1.1] at hm₁
    rw [linksFrom]
    exact (own.append nested).append (linksFrom_resolved h.2 ha.2 (i + 1) hm₁)

/-- **In a program without errors every call stands for something, and has as many arguments as that takes.** -/
theorem resolved_of_check {fs : List Node} (h : areFunctions fs = true) (accepted : check fs = .ok []) :
    Resolved (linksOf fs) := by
  have answered := (uses_of_check h accepted).2
  exact linksFrom_resolved h answered 0 (.withFunctions h answered rfl fun _ => .none)

end TesLang.Code
