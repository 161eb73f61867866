import Mathlib.Data.List.Forall2
import Mathlib.Data.List.SplitBy
import Mathlib.Data.List.TakeWhile
import TesLang.Proofs.Generation.Labels
import TesLang.Proofs.Procedures.Frame
import TesLang.Proofs.Written.Events
/-!
# Procedures in a row

The code of a program is the code of its functions in a row, each as it is by itself (`codes_of_ran`).  A function is here
one of the program, or one that stands directly in the body of another.

A procedure is its head, inner lines and a blank line, unless functions stand deeper inside its statements: their procedures
then stand in the middle of it.  Up to the first of these the lines are inner lines (`Opens`), so no blank line comes before
it.
-/
namespace TesLang.Code

/-- The procedures in some lines, each from its head up to the next one. -/
def blocksOf (ls : List Line) : List (List Line) := ls.splitBy fun _ l => !l.isHead

theorem blocksOf_append {a b : List Line} (h : ∀ l ∈ b.head?, l.isHead = true) :
    blocksOf (a ++ b) = blocksOf a ++ blocksOf b :=
  List.splitBy_append fun _ _ l hl => by rw [h l hl]; rfl

theorem blocksOf_single {l : Line} {ls : List Line} (h : ∀ m ∈ ls, m.isHead = false) : blocksOf (l :: ls) = [l :: ls] := by
  refine List.splitBy_of_isChain (List.cons_ne_nil l ls) (List.Pairwise.isChain ?_)
  have tail (m : Line) (hm : m ∈ ls) : (!m.isHead) = true := by rw [h m hm]; rfl
  exact List.pairwise_cons.2 ⟨tail, List.pairwise_of_forall_mem_list fun _ _ m hm => tail m hm⟩

theorem mem_blocksOf {a mid b : List Line} {h l : Line} (hh : h.isHead = true) (hm : ∀ m ∈ mid, m.isHead = false)
    (hl : l.isHead = true) : h :: mid ∈ blocksOf (a ++ ((h :: mid) ++ l :: b)) := by
  have behind : blocksOf ((h :: mid) ++ l :: b) = [h :: mid] ++ blocksOf (l :: b) := by
    rw [blocksOf_append (by rintro _ ⟨⟩; exact hl), blocksOf_single hm]
  rw [blocksOf_append (by rintro _ ⟨⟩; exact hh), behind]
  simp

def IsBlock (c : List Line) : Prop := ∃ name rest, c = .proc name :: rest ∧ ∀ l ∈ rest, l.isHead = false

theorem blocksOf_flatten : ∀ {cs : List (List Line)}, (∀ c ∈ cs, IsBlock c) → blocksOf cs.flatten = cs
  | [], _ => rfl
  | c :: cs, h => by
    obtain ⟨name, rest, rfl, hr⟩ := h c List.mem_cons_self
    have others : ∀ c ∈ cs, IsBlock c := fun c hc => h c (List.mem_cons_of_mem _ hc)
    have starts : ∀ l ∈ cs.flatten.head?, l.isHead = true := by
      cases cs with
      | nil => nofun
      | cons d ds =>
        obtain ⟨_, _, rfl, -⟩ := others d List.mem_cons_self
        rintro l ⟨⟩
        rfl
    rw [List.flatten_cons, blocksOf_append starts, blocksOf_single hr, blocksOf_flatten others]
    rfl

theorem Line.Inner.isHead {l : Line} (h : l.Inner) : l.isHead = false := by
  cases h with
  | @instruction l h =>
    cases l with
    | proc _ => cases h
    | _ => rfl
  | ret => rfl
  | comment => rfl

theorem Line.Inner.ne_blank {l : Line} (h : l.Inner) : l ≠ .blank := by
  rintro rfl
  cases h with
  | instruction h => cases h

theorem exists_of_forall₂ {α β : Type} {R : α → β → Prop} {as : List α} {bs : List β} (h : List.Forall₂ R as bs) :
    ∀ b ∈ bs, ∃ a ∈ as, R a b := by
  induction h with
  | nil => nofun
  | @cons a b as bs hab _ ih =>
    intro b' hb
    rcases List.mem_cons.1 hb with rfl | hb
    · exact ⟨a, List.mem_cons_self, hab⟩
    · obtain ⟨a', ha, hr⟩ := ih b' hb
      exact ⟨a', List.mem_cons_of_mem _ ha, hr⟩

namespace Gen

/-! ### Functions in a row -/

def visitEach : List Node → Gen Unit
  | [] => pure ()
  | f :: fs => do
    let _ ← visit f
    visitEach fs

theorem visitEach_append (a b : List Node) : visitEach (a ++ b) = (do visitEach a; visitEach b) := by
  induction a with
  | nil => rfl
  | cons f a ih => rw [List.cons_append, visitEach, visitEach, ih, bind_assoc]

theorem visitEach_single (f : Node) : visitEach [f] = discard (visit f) := by
  rw [visitEach, visitEach, discard, map_const, Function.comp_apply, map_eq_pure_bind]

mutual

theorem visitNestedIn_eq : ∀ n : Node, visitNestedIn n = visitEach (nestedIn n)
  | .function _ _ _ body _ | .forLoop _ _ _ body _ | .whileLoop _ body _ | .doLoop body _ _ => by
    rw [visitNestedIn, nestedIn, visitEach_append, visitNestedUnder_eq body]
    split
    · rw [visitEach_single]
    · rfl
  | .program _ | .parameter .. | .declaration .. | .assignment .. | .call .. | .ret .. | .branch .. | .block .. | .binary ..
  | .unary .. | .identifier .. | .number .. | .string .. | .boolean .. | .ternary .. | .element .. | .array .. | .listOf ..
  | .bare | .nothing | .text _ | .integer _ | .several _ => by
    simp [visitNestedIn, nestedIn, visitEach]

theorem visitNestedUnder_eq : ∀ n : Node, visitNestedUnder n = visitEach (nestedUnder n)
  | .several ns | .block ns _ => by rw [visitNestedUnder, nestedUnder, visitNested_eq ns]
  | .function _ _ _ body _ => by
    rw [visitNestedUnder, nestedUnder, visitEach_append, visitNestedUnder_eq body]
    split
    · rw [visitEach_single]
    · rfl
  | .program _ | .parameter .. | .declaration .. | .assignment .. | .call .. | .ret .. | .branch .. | .forLoop ..
  | .whileLoop .. | .doLoop .. | .binary .. | .unary .. | .identifier .. | .number .. | .string .. | .boolean ..
  | .ternary .. | .element .. | .array .. | .listOf .. | .bare | .nothing | .text _ | .integer _ => by
    simp [visitNestedUnder, nestedUnder, visitEach]

theorem visitNested_eq : ∀ ns : List Node, visitNested ns = visitEach (nestedAmong ns)
  | [] => by rw [visitNested, nestedAmong, visitEach]
  | n :: ns => by
    rw [visitNested, nestedAmong, visitEach_append, visitNested_eq ns]
    split
    · rw [visitEach, visitNestedIn_eq n, bind_assoc]
    · rfl

end

theorem visitProgram_eq (fs : List Node) : visitProgram fs = visitEach (fs.flatMap withNested) := by
  induction fs with
  | nil => rw [visitProgram, List.flatMap_nil, visitEach]
  | cons f fs ih =>
    rw [visitProgram, List.flatMap_cons, visitEach_append, withNested, visitEach, ih, visitNestedIn_eq, bind_assoc]

/-- The lines of a function by itself, with its labels numbered from `k` on. -/
def codeOf (k : Nat) (f : Node) : Option (List Line) :=
  match (visit f).run { labels := k } with
  | .ok _ g => some g.code.toList
  | .error _ _ => none

theorem codeOf_eq_some {k : Nat} {f : Node} {c : List Line} :
    codeOf k f = some c ↔ ∃ r g, Ran (visit f) { labels := k } r g ∧ g.code.toList = c := by
  unfold codeOf Ran
  cases (visit f).run { labels := k } with
  | ok r g => simp
  | error e g => simp

/-! ### One procedure -/

/-- The lines at the end of a procedure, which depend on whether its last line so far ends in a return. -/
def closing (returnType : String) (ended : Bool) : List Line :=
  if ended then [.blank]
  else (if returnType = "null" then [.mov .result (.literal 0)] else []) ++ [.ret, .blank]

theorem closeProc_lines {returnType : String} {s s' : Generator} {u : Unit} (h : Ran (closeProc returnType) s u s') :
    s'.code.toList = s.code.toList ++ closing returnType (s.code.back?.any endsInRet) := by
  unfold closeProc at h
  rw [(ran_get.2 ⟨rfl, rfl⟩ : Ran get s s s).bind_iff] at h
  dsimp only at h
  cases hl : s.code.back?.any endsInRet with
  | true =>
    simp only [hl, Bool.not_true, Bool.false_eq_true, if_false, ran_emit] at h
    simp [h, closing]
  | false =>
    by_cases hn : returnType = "null"
    · simp only [hl, hn, Bool.not_false, if_true, ran_bind, ran_emit] at h
      obtain ⟨_, _, rfl, _, _, rfl, rfl⟩ := h
      simp [closing, hn]
    · simp only [hl, hn, Bool.not_false, if_true, if_false, ran_bind, ran_emit] at h
      obtain ⟨_, _, rfl, rfl⟩ := h
      simp [closing, hn]

theorem placeParams_lines : ∀ {i : Nat} {ps : List Node} {s s' : Generator} {texts : List String},
    Ran (placeParams i ps) s texts s' →
      s'.code = s.code ∧ s'.vars = s.vars ∧ texts.length = ps.length ∧ ∀ t ∈ texts, Unclosing t
  | _, [], s, s', texts, h => by
    obtain ⟨rfl, rfl⟩ := ran_pure.1 h
    exact ⟨rfl, rfl, rfl, nofun⟩
  | i, p :: ps, s, s', texts, h => by
    rw [placeParams] at h
    cases hp : p.name? with
    | none =>
      simp only [hp] at h
      exact (ran_throw h).elim
    | some x =>
      simp only [hp, ran_bind, ran_modify, ran_pure] at h
      obtain ⟨_, _, rfl, rest, s₁, hr, rfl, rfl⟩ := h
      obtain ⟨code, vars, length, unclosing⟩ := placeParams_lines hr
      refine ⟨code, vars, by rw [List.length_cons, List.length_cons, length], fun t ht => ?_⟩
      rcases List.mem_cons.1 ht with rfl | ht
      · exact .append _ (.reg _)
      · exact unclosing t ht

theorem placeParameters_lines {params : Node} {s s' : Generator} {u : Unit} (h : Ran (placeParameters params) s u s') :
    ∃ comments, s'.code.toList = s.code.toList ++ comments ∧ s'.vars = s.vars ∧
      (params.isEmpty = true → s'.params = s.params) ∧ (∀ l ∈ comments, l.Inner) ∧
      (comments = [] ↔ params.isEmpty = true) := by
  unfold placeParameters at h
  by_cases hp : params.isEmpty = true
  · rw [if_pos hp] at h
    obtain ⟨-, rfl⟩ := ran_pure.1 h
    exact ⟨[], by simp, rfl, fun _ => rfl, nofun, by simp [hp]⟩
  · rw [if_neg hp] at h
    have named : ∃ ps texts s₁, ps ≠ [] ∧ Ran (placeParams 1 ps) s texts s₁ ∧
        s' = s₁.add (.comment ("Parameters: " ++ ", ".intercalate texts)) := by
      cases params with
      | several ps =>
        simp only [ran_bind, ran_pure, ran_emit] at h
        obtain ⟨_, _, ⟨rfl, rfl⟩, texts, s₁, hr, hs⟩ := h
        exact ⟨_, texts, s₁, fun e => hp (by rw [e]; rfl), hr, hs⟩
      | text t =>
        simp only [ran_bind, ran_pure, ran_emit] at h
        obtain ⟨_, _, ⟨rfl, rfl⟩, texts, s₁, hr, hs⟩ := h
        refine ⟨_, texts, s₁, fun e => hp ?_, hr, hs⟩
        rw [List.map_eq_nil_iff] at e
        simp [Node.isEmpty, String.toList_eq_nil_iff.1 e]
      | _ =>
        obtain ⟨_, _, ht, -⟩ := ran_bind.1 h
        exact (ran_throw ht).elim
    obtain ⟨ps, texts, s₁, hne, hr, rfl⟩ := named
    obtain ⟨code, vars, length, unclosing⟩ := placeParams_lines hr
    have some : texts ≠ [] := fun e => hne (List.length_eq_zero_iff.1 (by rw [← length, e]; rfl))
    refine ⟨[.comment ("Parameters: " ++ ", ".intercalate texts)], by simp [code], vars, fun h => (hp h).elim, ?_,
      by simp [hp]⟩
    rintro l hl
    obtain rfl := List.mem_singleton.1 hl
    exact .comment (.append _ (.intercalate some unclosing))

/-- **What a run adds up to the first head are inner lines.** -/
def Opens (s s' : Generator) : Prop :=
  ∃ new, s'.code.toList = s.code.toList ++ new ∧ ∀ l ∈ new.takeWhile (!·.isHead), l.Inner

theorem Opens.of_code {s s' : Generator} (h : s'.code = s.code) : Opens s s' := ⟨[], by simp [h], nofun⟩

theorem Opens.trans {s s' s'' : Generator} (h : Opens s s') (h' : Opens s' s'') : Opens s s'' := by
  obtain ⟨a, ha, la⟩ := h
  obtain ⟨b, hb, lb⟩ := h'
  refine ⟨a ++ b, by rw [hb, ha, List.append_assoc], fun l hl => ?_⟩
  rw [List.takeWhile_append] at hl
  split at hl
  · next whole =>
    rw [(List.takeWhile_prefix _).eq_of_length whole] at la
    rcases List.mem_append.1 hl with hl | hl
    · exact la l hl
    · exact lb l hl
  · exact la l hl

theorem procedure_lines {name returnType : String} {params : Node} {code : Gen Unit} (hc : Steady Opens code)
    {s s' : Generator} {r : Option Reg} (h : Ran (procedure name params returnType code) s r s') :
    ∃ s₀ s₁ comments new, Ran code s₀ () s₁ ∧ s₀.vars = [] ∧ (params.isEmpty = true → s₀.params = []) ∧
      s₀.code.toList = s.code.toList ++ Line.proc name :: comments ∧ s₁.code.toList = s₀.code.toList ++ new ∧
      s'.code.toList = s₁.code.toList ++ closing returnType (s₁.code.back?.any endsInRet) ∧
      (∀ l ∈ comments, l.Inner) ∧ (comments = [] ↔ params.isEmpty = true) ∧
      ∀ l ∈ new.takeWhile (!·.isHead), l.Inner := by
  unfold procedure openProc at h
  simp only [ran_bind, ran_modify, ran_emit, ran_pure] at h
  obtain ⟨_, s₀, ⟨_, _, rfl, _, _, rfl, h₀⟩, _, s₁, h₁, _, s₂, h₂, -, rfl⟩ := h
  obtain ⟨comments, code₀, vars, params₀, inner, empty⟩ := placeParameters_lines h₀
  obtain ⟨new, code₁, opens⟩ := hc _ _ _ h₁
  refine ⟨s₀, s₁, comments, new, h₁, vars, params₀, ?_, code₁, closeProc_lines h₂, inner, empty, opens⟩
  rw [code₀]
  simp

theorem closed_opens : Closed fun {_} m => Steady Opens m where
  pure a := .pure (fun _ => .of_code rfl) a
  throw f := .throw f
  bind first rest := Steady.bind (R := Opens) Opens.trans first rest
  discard hm := by
    intro s u s' h
    obtain ⟨a, h⟩ := ran_discard.1 h
    exact hm s a s' h
  emit {l} hl := by
    intro s u s' h
    obtain rfl := ran_emit.1 h
    refine ⟨[l], by simp, fun m hm => ?_⟩
    obtain rfl := List.mem_singleton.1 ((List.takeWhile_prefix _).subset hm)
    exact hl
  allocate := by
    intro s r s' h
    obtain ⟨-, rfl⟩ := ran_allocate.1 h
    exact .of_code rfl
  freshLabel stem := by
    intro s l s' h
    obtain ⟨-, rfl⟩ := ran_freshLabel.1 h
    exact .of_code rfl
  warn kind := by
    intro s u s' h
    obtain rfl := ran_warn.1 h
    exact .of_code rfl
  ask _ hf := by
    intro s a s' h
    obtain ⟨_, _, hg, h⟩ := ran_bind.1 h
    obtain ⟨rfl, rfl⟩ := ran_get.1 hg
    exact hf _ _ _ _ h
  settle x r := by
    intro s u s' h
    obtain rfl := ran_modify.1 h
    exact .of_code rfl
  procedure name params returnType _ hc := by
    intro s r s' h
    obtain ⟨s₀, s₁, comments, new, -, -, -, code₀, code₁, code', -⟩ := procedure_lines hc h
    refine ⟨.proc name :: comments ++ new ++ closing returnType (s₁.code.back?.any endsInRet), ?_, nofun⟩
    rw [code', code₁, code₀]
    simp

theorem bodyCode_opens (body : Node) : Steady Opens (bodyCode body) := by
  have any := closed_opens.has (.visit body)
  cases body with
  | several ns | block ns _ => exact closed_opens.has (.visitOwn ns)
  | function => exact closed_opens.pure ()
  | _ => exact closed_opens.discard any

/-- **The lines of a function by itself**: its head, comments on its parameters, the code of its body, and the lines at its
end. -/
theorem codeOf_lines {k : Nat} {name returnType : String} {params body : Node} {line : Int} {c : List Line}
    (h : codeOf k (.function name params returnType body line) = some c) :
    ∃ s₀ s₁ comments new, Ran (bodyCode body) s₀ () s₁ ∧ s₀.vars = [] ∧ (params.isEmpty = true → s₀.params = []) ∧
      s₀.code.toList = .proc name :: comments ∧ s₁.code.toList = s₀.code.toList ++ new ∧
      c = s₁.code.toList ++ closing returnType (s₁.code.back?.any endsInRet) ∧
      (∀ l ∈ comments, l.Inner) ∧ (comments = [] ↔ params.isEmpty = true) ∧
      ∀ l ∈ new.takeWhile (!·.isHead), l.Inner := by
  obtain ⟨r, g, run, rfl⟩ := codeOf_eq_some.1 h
  rw [visit_procedure] at run
  exact procedure_lines (bodyCode_opens body) run

theorem getLast?_codeOf {k : Nat} {f : Node} (hf : f.isFunction = true) {c : List Line} (h : codeOf k f = some c) :
    c.getLast? = some .blank := by
  cases f with
  | function name params returnType body line =>
    obtain ⟨s₀, s₁, comments, new, -, -, -, -, -, rfl, -⟩ := codeOf_lines h
    unfold closing
    split <;> simp
  | _ => cases hf

/-- **The code of functions in a row is the code that they have by themselves, in a row.** -/
theorem codes_of_ran : ∀ {fs : List Node} {s s' : Generator}, (∀ f ∈ fs, f.isFunction = true) →
    s.code.back?.any endsInRet = false → Ran (visitEach fs) s () s' →
      ∃ cs, s'.code.toList = s.code.toList ++ cs.flatten ∧ List.Forall₂ (fun f c => ∃ k, codeOf k f = some c) fs cs
  | [], s, s', _, _, h => by
    obtain ⟨-, rfl⟩ := ran_pure.1 h
    exact ⟨[], by simp, .nil⟩
  | f :: fs, s, s', functions, hs, h => by
    obtain ⟨r, s₁, h₁, h₂⟩ := ran_bind.1 h
    have hf := functions f List.mem_cons_self
    obtain ⟨g, hg, code, -⟩ := ran_function hf hs h₁
    have own : codeOf s.labels f = some g.code.toList := codeOf_eq_some.2 ⟨r, g, hg, rfl⟩
    have closed : s₁.code.back?.any endsInRet = false := by
      rw [← Array.getLast?_toList, code, Array.toList_append, List.getLast?_append, getLast?_codeOf hf own]
      exact (by decide : endsInRet .blank = false)
    obtain ⟨cs, hcs, each⟩ := codes_of_ran (fun f hf => functions f (List.mem_cons_of_mem _ hf)) closed h₂
    refine ⟨g.code.toList :: cs, ?_, .cons ⟨_, own⟩ each⟩
    rw [hcs, code, Array.toList_append, List.flatten_cons, List.append_assoc]

end Gen
end TesLang.Code
