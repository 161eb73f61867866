import TesLang.Proofs.Checking.Ending
import TesLang.Proofs.Order.Touches
/-!
# What a walk finds with other marks

The marks of the functions of a program are all that a walk over one function leaves for the walks over the others.  So two
walks over the same function start alike except for these marks, and they go the same way: they enter and leave the same
functions, bind the same names and mark the same symbols (`Echoes`).  What they find is the same too, except for the
functions of the program that are read as if they were variables: a report is missing exactly if the function was marked
before (`Conditional`).
-/
namespace TesLang

open Grammar Checker

namespace Check

/-! ### Checks that see no marks -/

/-- All names stand for the same in two states, marked or not. -/
structure Alike (s s' : Checker) : Prop where
  enclosing : s'.enclosing = s.enclosing
  lookup : ∀ x, (s'.chain.lookup x).map Symbol.settled = (s.chain.lookup x).map Symbol.settled

namespace Alike

variable {s s' : Checker}

theorem notes (h : Alike s s') (new new' : List Diagnostic) :
    Alike { s with found := new } { s' with found := new' } := ⟨h.enclosing, h.lookup⟩

theorem bind_lookup (h : Alike s s') (x : String) {α : Type} {g : Symbol → Option α} (hg : ∀ symbol, g symbol.settled = g symbol) :
    (s'.chain.lookup x).bind g = (s.chain.lookup x).bind g := by
  have settled : ∀ o : Option Symbol, o.bind g = (o.map Symbol.settled).bind g := by
    intro o
    cases o with
    | none => rfl
    | some y => exact (hg y).symm
  rw [settled, h.lookup, ← settled]

theorem typeOf (h : Alike s s') : ∀ n : Node, typeOf s'.chain n = typeOf s.chain n
  | .ternary _ yes no _ => by rw [Check.typeOf, Check.typeOf, typeOf h yes, typeOf h no]
  | .identifier x _ => by
    rw [Check.typeOf, Check.typeOf]
    exact h.bind_lookup x fun _ => rfl
  | .call x _ _ => by
    rw [Check.typeOf, Check.typeOf]
    cases Builtin.ofName? x with
    | some f => rfl
    | none => exact h.bind_lookup x fun _ => rfl
  | .program _ | .function .. | .parameter .. | .declaration .. | .assignment .. | .ret .. | .branch .. | .forLoop ..
  | .whileLoop .. | .doLoop .. | .block .. | .binary .. | .unary .. | .number .. | .string .. | .boolean ..
  | .element .. | .array .. | .listOf .. | .bare | .nothing | .text _ | .integer _ | .several _ => by
    simp [Check.typeOf]

end Alike

/-- Runs of `m` report the same whatever is marked, and do nothing else. -/
def Blind {α : Type} (m : Check α) : Prop := ∀ ⦃s a t⦄, Ran m s a t →
  ∃ new, t = { s with found := s.found ++ new } ∧ ∀ {s'}, Alike s s' → Ran m s' a { s' with found := s'.found ++ new }

namespace Blind

variable {α β : Type}

theorem of_same {m : Check α} {s : Checker} {a : α} (h : ∀ {s'}, Alike s s' → Ran m s' a s') :
    ∃ new, s = { s with found := s.found ++ new } ∧ ∀ {s'}, Alike s s' → Ran m s' a { s' with found := s'.found ++ new } := by
  refine ⟨[], by rw [List.append_nil], fun {s'} alike => ?_⟩
  rw [List.append_nil]
  exact h alike

theorem pure (a : α) : Blind (pure a : Check α) := by
  intro s b t hr
  obtain ⟨rfl, rfl⟩ := ran_pure.1 hr
  exact of_same fun _ => ran_pure.2 ⟨rfl, rfl⟩

theorem throw (f : Fault) : Blind (throw f : Check α) := fun _ _ _ hr => (ran_throw hr).elim

theorem report (cause : Cause) (line : Int) : Blind (report cause line) := by
  intro s u t hr
  obtain rfl := ran_report.1 hr
  exact ⟨_, rfl, fun _ => ran_report.2 rfl⟩

theorem bind {m : Check α} {f : α → Check β} (first : Blind m) (rest : ∀ a, Blind (f a)) : Blind (m >>= f) := by
  intro s b t hr
  obtain ⟨a, s₁, h₁, h₂⟩ := ran_bind.1 hr
  obtain ⟨new, rfl, same⟩ := first h₁
  obtain ⟨new', rfl, same'⟩ := rest a h₂
  refine ⟨new ++ new', by simp only [List.append_assoc], fun {s'} alike => ?_⟩
  rw [← List.append_assoc]
  exact ran_bind.2 ⟨a, _, same alike, same' (alike.notes _ _)⟩

theorem expressionType (n : Node) : Blind (expressionType n) := by
  intro s a t hr
  obtain ⟨rfl, rfl⟩ := ran_expressionType.1 hr
  exact of_same fun alike => ran_expressionType.2 ⟨(alike.typeOf n).symm, rfl⟩

theorem enclosingName : Blind enclosingName := by
  intro s a t hr
  obtain ⟨hf, rfl⟩ := ran_enclosingName.1 hr
  exact of_same fun alike => ran_enclosingName.2 ⟨alike.enclosing ▸ hf, rfl⟩

theorem looking (x : String) {f : Option Symbol → Check α} (same : ∀ symbol, f (symbol.map Symbol.settled) = f symbol)
    (rest : ∀ symbol, Blind (f symbol)) : Blind (lookup x >>= f) := by
  intro s a t hr
  have look (s : Checker) : Ran (lookup x) s (s.chain.lookup x) s := ran_lookup.2 ⟨rfl, rfl⟩
  rw [(look s).bind_iff] at hr
  obtain ⟨new, rfl, run⟩ := rest _ hr
  refine ⟨new, rfl, fun {s'} alike => ?_⟩
  rw [(look s').bind_iff, ← same, alike.lookup, same]
  exact run alike

/-- **The checks of types, arguments and results see no marks.** -/
theorem plain : Plain Blind where
  pure := .pure
  bind := .bind
  expressionType := .expressionType
  looking x _ _ := .looking x
  enclosingName := .enclosingName
  report line _ := .report _ line

theorem checkReturn (e : Enclosing) (value : Node) (line : Int) : Blind (checkReturn e value line) := by
  cases he : e.returnType with
  | none =>
    unfold Check.checkReturn
    rw [he]
    exact .throw _
  | some _ => exact plain.checkReturn he value line

end Blind

/-! ### Reports that depend on marks -/

/-- A report, with the function of the program that would have to be marked to keep it away, if there is one. -/
abbrev Conditional := Diagnostic × Option String

/-- The reports that are left where some functions are marked. -/
def without (M : List String) (L : List Conditional) : List Conditional := L.filter fun d => d.2.all (!M.contains ·)

theorem without_append (M : List String) (L K : List Conditional) : without M (L ++ K) = without M L ++ without M K :=
  List.filter_append ..

theorem without_without (M N : List String) (L : List Conditional) : without M (without N L) = without (M ++ N) L := by
  unfold without
  rw [List.filter_filter]
  refine List.filter_congr fun d _ => ?_
  cases d.2 with
  | none => rfl
  | some x => simp

theorem without_unconditional (M : List String) (new : List Diagnostic) :
    without M (new.map (·, none)) = new.map (·, none) := by
  refine List.filter_eq_self.2 fun d hd => ?_
  obtain ⟨_, -, rfl⟩ := List.mem_map.1 hd
  rfl

theorem filterMap_without (M : List String) (L : List Conditional) :
    (without M L).filterMap Prod.snd = (L.filterMap Prod.snd).filter (!M.contains ·) := by
  unfold without
  rw [List.filterMap_filter, List.filter_filterMap]
  refine congrArg (List.filterMap · L) (funext fun d => ?_)
  cases d.2 with
  | none => rfl
  | some x => simp [Option.filter]

/-! ### States with the same scopes -/

def markedBy (M : List String) (x : String) (symbol : Symbol) : Symbol := if x ∈ M then symbol.settled else symbol

/-- The walk is in the scopes `ins`, with `e` around it, and the functions of the program are those in `R`, of which those in
`M` are marked. -/
structure At (R : Scope) (ins : List Scope) (e : Option Enclosing) (M : List String) (s : Checker) : Prop where
  scopes : ∃ root : Scope, s.chain.scopes = ins ++ [root] ∧ ∀ x, root.find? x = (R.find? x).map (markedBy M x)
  enclosing : s.enclosing = e

namespace At

variable {R : Scope} {ins : List Scope} {e : Option Enclosing} {M M' : List String} {s s' : Checker} {x : String}

theorem lookup (h : At R ins e M s) (x : String) :
    s.chain.lookup x = (ins.findSome? (·.find? x)).or ((R.find? x).map (markedBy M x)) := by
  obtain ⟨root, hs, hr⟩ := h.scopes
  rw [Chain.lookup, hs, List.findSome?_append, List.findSome?_singleton, hr]

theorem settled_markedBy (M : List String) (x : String) (symbol : Symbol) : (markedBy M x symbol).settled = symbol.settled := by
  unfold markedBy
  split <;> rfl

theorem alike (h : At R ins e M s) (h' : At R ins e M' s') : Alike s s' := by
  refine ⟨h'.enclosing.trans h.enclosing.symm, fun x => ?_⟩
  rw [h.lookup, h'.lookup]
  cases ins.findSome? (·.find? x) with
  | some _ => rfl
  | none =>
    cases R.find? x with
    | none => rfl
    | some symbol => exact congrArg some ((settled_markedBy M' x symbol).trans (settled_markedBy M x symbol).symm)

theorem notes (h : At R ins e M s) (new : List Diagnostic) : At R ins e M { s with found := new } := ⟨h.scopes, h.enclosing⟩

theorem insert {scope : Scope} (h : At R (scope :: ins) e M s) (x : String) (symbol : Symbol) :
    At R (scope.insert x symbol :: ins) e M { s with chain := s.chain.insert x symbol } := by
  obtain ⟨root, hs, hr⟩ := h.scopes
  obtain ⟨rfl, ho⟩ : s.chain.inner = scope ∧ s.chain.outer = ins ++ [root] := List.cons.inj hs
  exact ⟨⟨root, congrArg (_ :: ·) ho, hr⟩, h.enclosing⟩

theorem inner {scope : Scope} (h : At R (scope :: ins) e M s) : s.chain.inner = scope := by
  obtain ⟨root, hs, -⟩ := h.scopes
  exact (List.cons.inj hs).1

theorem enter (h : At R ins e M s) (d : Enclosing) :
    At R ([] :: ins) (some d) M { s with enclosing := some d, chain := s.chain.enter } := by
  obtain ⟨root, hs, hr⟩ := h.scopes
  exact ⟨⟨root, congrArg ([] :: ·) hs, hr⟩, rfl⟩

theorem leave {scope : Scope} {d : Option Enclosing} (h : At R (scope :: ins) d M s) (e : Option Enclosing) :
    At R ins e M { s with enclosing := e, chain := s.chain.leave } := by
  obtain ⟨root, hs, hr⟩ := h.scopes
  have outer : s.chain.outer = ins ++ [root] := (List.cons.inj hs).2
  have scopes : s.chain.leave.scopes = s.chain.outer := by
    unfold Chain.leave
    cases ho : s.chain.outer with
    | cons => rfl
    | nil =>
      rw [ho] at outer
      cases ins <;> cases outer
  exact ⟨⟨root, scopes.trans outer, hr⟩, rfl⟩

theorem updateFirst_hidden {f : Symbol → Symbol} {ss rest : List Scope} (h : (ss.findSome? (·.find? x)).isSome = true) :
    Chain.updateFirst x f (ss ++ rest) = Chain.updateFirst x f ss ++ rest := by
  induction ss with
  | nil => cases h
  | cons s ss ih =>
    rw [List.findSome?_cons] at h
    rw [List.cons_append, Chain.updateFirst, Chain.updateFirst]
    cases hx : s.find? x with
    | some _ => rfl
    | none =>
      rw [hx] at h
      exact congrArg (s :: ·) (ih h)

theorem updateFirst_bare {f : Symbol → Symbol} {ss rest : List Scope} (h : ss.findSome? (·.find? x) = none) :
    Chain.updateFirst x f (ss ++ rest) = ss ++ Chain.updateFirst x f rest := by
  induction ss with
  | nil => rfl
  | cons s ss ih =>
    rw [List.findSome?_cons] at h
    rw [List.cons_append, Chain.updateFirst]
    cases hx : s.find? x with
    | some _ =>
      rw [hx] at h
      cases h
    | none =>
      rw [hx] at h
      exact congrArg (s :: ·) (ih h)

theorem assigned_hidden (h : At R ins e M s) (hx : (ins.findSome? (·.find? x)).isSome = true) :
    At R (Chain.updateFirst x Symbol.settled ins) e M { s with chain := s.chain.assigned x } := by
  obtain ⟨root, hs, hr⟩ := h.scopes
  refine ⟨⟨root, ?_, hr⟩, h.enclosing⟩
  rw [Chain.scopes_assigned, hs]
  exact updateFirst_hidden hx

theorem assigned_bare (h : At R ins e M s) (hx : ins.findSome? (·.find? x) = none) (hf : (R.find? x).isSome = true) :
    At R ins e (M ++ [x]) { s with chain := s.chain.assigned x } := by
  obtain ⟨root, hs, hr⟩ := h.scopes
  have bound : (root.find? x).isSome = true := by rw [hr, Option.isSome_map, hf]
  refine ⟨⟨root.update x Symbol.settled, ?_, fun y => ?_⟩, h.enclosing⟩
  · rw [Chain.scopes_assigned, hs]
    refine (updateFirst_bare hx).trans (congrArg (ins ++ ·) ?_)
    rw [Chain.updateFirst, if_pos bound]
    rfl
  · rw [Bindings.find?_update, hr]
    by_cases hxy : x = y
    · subst hxy
      rw [if_pos rfl, Option.map_map]
      refine congrArg (Option.map · _) (funext fun symbol => ?_)
      rw [Function.comp, settled_markedBy, markedBy, if_pos (List.mem_append_right M (List.mem_singleton_self x))]
    · rw [if_neg hxy]
      refine congrArg (Option.map · _) (funext fun symbol => ?_)
      unfold markedBy
      simp only [List.mem_append, List.mem_singleton, Ne.symm hxy, or_false]

end At

/-- What a name stands for, if nothing is marked. -/
def stands (R : Scope) (ins : List Scope) (x : String) : Option Symbol := (ins.findSome? (·.find? x)).or (R.find? x)

section
variable {R : Scope} {ins : List Scope} {x : String}

theorem hides_of_some {symbol : Symbol} (h : ins.findSome? (·.find? x) = some symbol) :
    hides (ins.map Scope.names) x = true := by
  rw [hides_iff, h]
  rfl

theorem bare_of_none (h : ins.findSome? (·.find? x) = none) :
    bare R.names (ins.map Scope.names) x = (R.find? x).isSome := by
  rw [bare, hides_iff, h, Bool.eq_iff_iff, Scope.isSome_find?]
  simp

theorem bare_of_some {symbol : Symbol} (h : ins.findSome? (·.find? x) = some symbol) :
    bare R.names (ins.map Scope.names) x = false := by
  rw [bare, hides_of_some h]
  rfl

theorem isSome_stands : (stands R ins x).isSome = (hides (ins.map Scope.names) x || R.names.contains x) := by
  rw [stands, hides_iff, Bool.eq_iff_iff, Option.isSome_or]
  simp [Scope.isSome_find?]

theorem At.looking {e : Option Enclosing} {M : List String} {s t : Checker} {α : Type} {a : α}
    {f : Option Symbol → Check α} (h : At R ins e M s) (same : ∀ symbol, f (symbol.map Symbol.settled) = f symbol) :
    Ran (Check.lookup x >>= f) s a t ↔ Ran (f (stands R ins x)) s a t := by
  rw [(ran_lookup.2 ⟨rfl, rfl⟩ : Ran (Check.lookup x) s _ s).bind_iff, ← same, h.lookup, ← same (stands R ins x), stands]
  cases ins.findSome? (·.find? x) with
  | some _ => exact Iff.rfl
  | none =>
    cases R.find? x with
    | none => exact Iff.rfl
    | some symbol =>
      simp only [Option.none_or, Option.map_some, At.settled_markedBy]

end

/-! ### Walks over the same tree -/

/-- With the result `a`, every run of `m` from the scopes `ins` comes to the scopes `ins'`, whatever is marked.  It goes
along with the events `es`: they say which names are bound then, and which functions of the program are marked.  It finds
what is in `L`, where the functions that the events read are not marked. -/
structure Echo (R : Scope) (ins : List Scope) (e : Option Enclosing) (es : List NameEvent) {α : Type} (m : Check α) (a : α)
    (ins' : List Scope) (L : List Conditional) : Prop where
  names : ins'.map Scope.names = reframeAll R.names (ins.map Scope.names) es
  length : ins'.length = ins.length
  conditions : L.filterMap Prod.snd = exposed (touches R.names (ins.map Scope.names) es)
  unset : ∀ d ∈ L, ∀ x, d.2 = some x → ∃ f, d.1.cause = .unset f x
  runs : ∀ {M s}, At R ins e M s → ∃ t, Ran m s a t ∧
    At R ins' e (M ++ marks (touches R.names (ins.map Scope.names) es)) t ∧ t.found = s.found ++ (without M L).map Prod.fst

def Fresh (R : Scope) : Prop := ∀ x symbol, R.find? x = some symbol → symbol.initialized = false

/-- Where the walk is as `I` says, a run of `m` is one of many, with other marks. -/
def Echoes (I : Nat → Option Enclosing → Prop) (es : List NameEvent) {α : Type} (m : Check α) : Prop :=
  ∀ ⦃R ins e M s a t⦄, Fresh R → I ins.length e → At R ins e M s → Ran m s a t → ∃ ins' L, Echo R ins e es m a ins' L

namespace Echo

variable {R : Scope} {ins ins' ins'' : List Scope} {e : Option Enclosing} {es es' : List NameEvent} {α β : Type} {a : α}
  {b : β} {L L' : List Conditional} {x : String}

theorem bind {m : Check α} {f : α → Check β} (first : Echo R ins e es m a ins' L) (rest : Echo R ins' e es' (f a) b ins'' L') :
    Echo R ins e (es ++ es') (m >>= f) b ins'' (L ++ without (marks (touches R.names (ins.map Scope.names) es)) L') where
  names := by rw [rest.names, first.names, reframeAll_append]
  length := rest.length.trans first.length
  conditions := by
    rw [List.filterMap_append, first.conditions, filterMap_without, rest.conditions, first.names, touches_append,
      exposed_append]
  unset d hd := (List.mem_append.1 hd).elim (first.unset d) fun hd => rest.unset d (List.mem_filter.1 hd).1
  runs {M s} h := by
    obtain ⟨s₁, run₁, at₁, found₁⟩ := first.runs h
    obtain ⟨s₂, run₂, at₂, found₂⟩ := rest.runs at₁
    refine ⟨s₂, ran_bind.2 ⟨a, s₁, run₁, run₂⟩, ?_, ?_⟩
    · rw [touches_append, marks_append, ← List.append_assoc, ← first.names]
      exact at₂
    · rw [found₂, found₁, without_append, without_without, List.map_append, List.append_assoc]

theorem congr {m m' : Check α} (h : Echo R ins e es m' a ins' L)
    (same : ∀ {M s t}, At R ins e M s → (Ran m s a t ↔ Ran m' s a t)) : Echo R ins e es m a ins' L where
  names := h.names
  length := h.length
  conditions := h.conditions
  unset := h.unset
  runs hs := by
    obtain ⟨t, run, rest⟩ := h.runs hs
    exact ⟨t, (same hs).2 run, rest⟩

theorem of_blind {m m' : Check α} {M : List String} {s t : Checker} (blind : Blind m')
    (same : ∀ {M s t}, At R ins e M s → (Ran m s a t ↔ Ran m' s a t))
    (untouched : touches R.names (ins.map Scope.names) es = [])
    (still : reframeAll R.names (ins.map Scope.names) es = ins.map Scope.names) (hs : At R ins e M s) (hr : Ran m s a t) :
    ∃ ins' L, Echo R ins e es m a ins' L := by
  obtain ⟨new, rfl, run⟩ := blind ((same hs).1 hr)
  have whole : Echo R ins e es m' a ins (new.map (·, none)) := by
    refine ⟨still.symm, rfl, ?_, fun d hd y hy => ?_, fun {M' s'} h => ?_⟩
    · rw [untouched, List.filterMap_map]
      exact List.filterMap_eq_nil_iff.2 fun _ _ => rfl
    · obtain ⟨_, -, rfl⟩ := List.mem_map.1 hd
      cases hy
    · refine ⟨_, run (hs.alike h), ?_, ?_⟩
      · rw [untouched, marks, List.append_nil]
        exact h.notes _
      · rw [without_unconditional, List.map_map]
        exact congrArg (s'.found ++ ·) (List.map_id new).symm
  exact ⟨ins, _, whole.congr same⟩

theorem bindName {scope : Scope} {ev : NameEvent} (symbol : Symbol)
    (untouched : touch R.names ((scope :: ins).map Scope.names) ev = [])
    (binds : reframe R.names ((scope :: ins).map Scope.names) ev = bindTop x ((scope :: ins).map Scope.names)) :
    Echo R (scope :: ins) e [ev] (bindName x symbol) () (scope.insert x symbol :: ins) [] where
  names := (names_insert x symbol scope ins).trans binds.symm
  length := rfl
  conditions := by rw [touches_singleton, untouched]; rfl
  unset _ hd := by cases hd
  runs {M s} h := by
    refine ⟨_, ran_bindName.2 rfl, ?_, (List.append_nil _).symm⟩
    rw [touches_singleton, untouched, marks, List.append_nil]
    exact h.insert x symbol

theorem assigned {ev : NameEvent} (bound : (stands R ins x).isSome = true)
    (touched : touch R.names (ins.map Scope.names) ev = if bare R.names (ins.map Scope.names) x then [.marks x] else [])
    (still : reframe R.names (ins.map Scope.names) ev = ins.map Scope.names) :
    ∃ ins', Echo R ins e [ev] (assigned x) () ins' [] := by
  cases hx : ins.findSome? (·.find? x) with
  | some symbol =>
    rw [bare_of_some hx, if_neg Bool.false_ne_true] at touched
    refine ⟨Chain.updateFirst x Symbol.settled ins, (names_updateFirst x _ ins).trans still.symm, ?_, ?_, ?_, ?_⟩
    · have names := congrArg List.length (names_updateFirst x Symbol.settled ins)
      rwa [List.length_map, List.length_map] at names
    · rw [touches_singleton, touched]
      rfl
    · intro _ hd
      cases hd
    · intro M s h
      refine ⟨_, ran_assigned.2 rfl, ?_, (List.append_nil _).symm⟩
      rw [touches_singleton, touched, marks, List.append_nil]
      exact h.assigned_hidden (by rw [hx]; rfl)
  | none =>
    rw [stands, hx, Option.none_or] at bound
    rw [bare_of_none hx, bound, if_pos rfl] at touched
    refine ⟨ins, still.symm, rfl, ?_, ?_, ?_⟩
    · rw [touches_singleton, touched]
      rfl
    · intro _ hd
      cases hd
    · intro M s h
      refine ⟨_, ran_assigned.2 rfl, ?_, (List.append_nil _).symm⟩
      rw [touches_singleton, touched]
      exact h.assigned_bare hx bound

end Echo

namespace Echoes

variable {I : Nat → Option Enclosing → Prop} {es es' : List NameEvent} {α β : Type} {m : Check α} {f : α → Check β}

theorem of_blind (blind : Blind m) : Echoes I [] m :=
  fun _ _ _ _ _ _ _ _ _ hs hr => Echo.of_blind blind (fun _ => Iff.rfl) rfl rfl hs hr

theorem pure (a : α) : Echoes I [] (pure a : Check α) := of_blind (Blind.pure a)

theorem bind (first : Echoes I es m) (rest : ∀ a, Echoes I es' (f a)) : Echoes I (es ++ es') (m >>= f) := by
  intro R ins e M s b t fresh hi hs hr
  obtain ⟨a, s₁, h₁, h₂⟩ := ran_bind.1 hr
  obtain ⟨ins₁, L₁, echo₁⟩ := first fresh hi hs h₁
  obtain ⟨t₁, run₁, at₁, -⟩ := echo₁.runs hs
  obtain ⟨-, rfl⟩ := h₁.unique run₁
  obtain ⟨ins₂, L₂, echo₂⟩ := rest a fresh (echo₁.length ▸ hi) at₁ h₂
  exact ⟨ins₂, _, echo₁.bind echo₂⟩

theorem after (first : Blind m) (rest : ∀ a, Echoes I es' (f a)) : Echoes I es' (m >>= f) := (of_blind first).bind rest

theorem before (first : Echoes I es m) (rest : ∀ a, Blind (f a)) : Echoes I es (m >>= f) := by
  rw [← List.append_nil es]
  exact first.bind fun a => of_blind (rest a)

theorem result (first : Echoes I es m) (b : β) : Echoes I es (m >>= fun _ => Pure.pure b) :=
  first.before fun _ => Blind.pure b

end Echoes

/-! ### Single names -/

def Inside (depth : Nat) (e : Option Enclosing) : Prop := 0 < depth ∧ ∃ f, e.bind (·.name) = some f

theorem checkIdentifier_echoes (x : String) (line : Int) : Echoes Inside [.use x line] (checkIdentifier x line) := by
  intro R ins e M s u t fresh hi hs hr
  obtain ⟨-, f, hf⟩ := hi
  have look (s : Checker) := (ran_lookup.2 ⟨rfl, rfl⟩ : Ran (lookup x) s _ s)
  cases hx : ins.findSome? (·.find? x) with
  | some symbol =>
    -- the symbol is that of a variable, and has the same mark in all runs
    have blind : Blind (do if !symbol.initialized then do let function ← enclosingName; report (.unset function x) line) := by
      split
      · exact .bind .enclosingName fun _ => .report _ line
      · exact .pure _
    refine Echo.of_blind blind (fun {M s t} h => ?_) ?_ rfl hs hr
    · rw [checkIdentifier, (look s).bind_iff, h.lookup, hx]
      rfl
    · rw [touches_singleton, touch, bare_of_some hx]
      rfl
  | none =>
    cases hR : R.find? x with
    | none =>
      have blind : Blind (do let function ← enclosingName; report (.unbound function x) line) :=
        .bind .enclosingName fun _ => .report _ line
      refine Echo.of_blind blind (fun {M s t} h => ?_) ?_ rfl hs hr
      · rw [checkIdentifier, (look s).bind_iff, h.lookup, hx, hR]
        rfl
      · rw [touches_singleton, touch, bare_of_none hx, hR]
        rfl
    | some symbol =>
      have touched : touches R.names (ins.map Scope.names) [.use x line] = [.reads x] := by
        rw [touches_singleton, touch, bare_of_none hx, hR]
        rfl
      refine ⟨ins, [(⟨.unset f x, line⟩, some x)], rfl, rfl, ?_, ?_, fun {M' s'} h => ?_⟩
      · rw [touched]
        rfl
      · intro d hd y hy
        obtain rfl := List.mem_singleton.1 hd
        cases hy
        exact ⟨f, rfl⟩
      · rw [touched, marks, marks, List.append_nil, checkIdentifier]
        simp only [(look s').bind_iff, h.lookup, hx, hR, Option.none_or, Option.map_some, markedBy]
        by_cases hM : x ∈ M'
        · refine ⟨s', ?_, h, ?_⟩
          · rw [if_pos hM]
            exact ran_pure.2 ⟨rfl, rfl⟩
          · simp [without, hM]
        · refine ⟨_, ?_, h.notes (s'.found ++ [⟨.unset f x, line⟩]), ?_⟩
          · rw [if_neg hM, fresh x symbol hR]
            exact ran_bind.2 ⟨f, s', ran_enclosingName.2 ⟨h.enclosing ▸ hf, rfl⟩, ran_report.2 rfl⟩
          · simp [without, hM]

theorem assignVariable_echoes (x : String) (value : Node) (line : Int) :
    Echoes Inside [.assign x line] (assignVariable x value line) := by
  intro R ins e M s u t fresh hi hs hr
  have same : ∀ {M s t}, At R ins e M s → (Ran (assignVariable x value line) s u t ↔ _) := fun h =>
    h.looking fun symbol => by cases symbol <;> rfl
  have bound : (stands R ins x).isSome = _ := isSome_stands
  cases hx : stands R ins x with
  | none =>
    rw [hx, Option.isSome_none, eq_comm, Bool.or_eq_false_iff] at bound
    have untouched : touches R.names (ins.map Scope.names) [.assign x line] = [] := by
      rw [touches_singleton, touch, bare, bound.2, Bool.and_false]
      rfl
    rw [hx] at same
    exact Echo.of_blind (.bind .enclosingName fun _ => .report _ line) same untouched rfl hs hr
  | some symbol =>
    rw [hx] at same
    obtain ⟨ins₁, marked⟩ : ∃ ins₁, Echo R ins e [.assign x line] (assigned x) () ins₁ [] :=
      Echo.assigned (by rw [hx]; rfl) rfl rfl
    obtain ⟨_, s₁, h₁, h₂⟩ := ran_bind.1 ((same hs).1 hr)
    obtain ⟨t₁, run₁, at₁, -⟩ := marked.runs hs
    obtain ⟨-, rfl⟩ := h₁.unique run₁
    have compares : Echoes (fun _ _ => True) [] _ := .of_blind (Blind.plain.mismatch x symbol value line)
    obtain ⟨ins₂, L, compared⟩ := compares fresh trivial at₁ h₂
    exact ⟨ins₂, _, (marked.bind compared).congr same⟩

theorem assignElement_echoes (x : String) (line : Int) : Echoes Inside [.member x line] (assignElement x line) :=
  fun _ _ _ _ _ _ _ _ _ hs hr =>
    Echo.of_blind (Blind.plain.assignElement .report x line) (fun _ => Iff.rfl) rfl rfl hs hr

theorem bindName_echoes {x : String} {ev : NameEvent} (symbol : Symbol)
    (untouched : ∀ program frames, touch program frames ev = [])
    (binds : ∀ program frames, reframe program frames ev = bindTop x frames) : Echoes Inside [ev] (bindName x symbol) := by
  intro R ins e M s u t _ hi _ _
  cases ins with
  | nil => exact (Nat.lt_irrefl 0 hi.1).elim
  | cons scope ins => exact ⟨_, _, Echo.bindName symbol (untouched _ _) (binds _ _)⟩

theorem bindLoopVariable_echoes (x : String) (line : Int) : Echoes Inside [.loop x] (bindLoopVariable x line) := by
  intro R ins e M s u t fresh hi hs hr
  have same : ∀ {M s t}, At R ins e M s → (Ran (bindLoopVariable x line) s u t ↔ _) := fun h =>
    h.looking fun symbol => by cases symbol <;> rfl
  have bound : (stands R ins x).isSome = _ := isSome_stands
  cases hx : stands R ins x with
  | none =>
    rw [hx] at same
    rw [hx, Option.isSome_none, eq_comm] at bound
    cases ins with
    | nil => exact (Nat.lt_irrefl 0 hi.1).elim
    | cons scope ins =>
      refine ⟨_, _, (Echo.bindName _ ?_ ?_).congr same⟩
      · rw [touch, bare, (Bool.or_eq_false_iff.1 bound).2, Bool.and_false]
        rfl
      · rw [reframe, bound]
        rfl
  | some symbol =>
    rw [hx] at same
    rw [hx, Option.isSome_some, eq_comm] at bound
    obtain ⟨ins₁, marked⟩ : ∃ ins₁, Echo R ins e [.loop x] (assigned x) () ins₁ [] :=
      Echo.assigned (by rw [hx]; rfl) rfl (by rw [reframe, if_pos bound])
    exact ⟨ins₁, _, marked.congr same⟩

theorem declare_echoes (x type : String) (line : Int) : Echoes Inside [.declare x] (declare x type line) := by
  intro R ins e M s u t fresh hi hs hr
  cases ins with
  | nil => exact (Nat.lt_irrefl 0 hi.1).elim
  | cons scope ins =>
    cases hx : scope.find? x with
    | some _ =>
      have same : ∀ {M s t}, At R (scope :: ins) e M s →
          (Ran (declare x type line) s u t ↔ Ran (report (.redeclared x) line) s u t) := by
        intro M s t h
        simp only [declare, (ran_get.2 ⟨rfl, rfl⟩ : Ran get s s s).bind_iff, h.inner, hx]
      refine Echo.of_blind (.report _ line) same rfl ?_ hs hr
      have member : x ∈ Scope.names scope := Scope.isSome_find?.1 (by rw [hx]; rfl)
      show bindTop x ((scope :: ins).map Scope.names) = _
      rw [List.map_cons, bindTop, if_pos member]
    | none =>
      have same : ∀ {M s t}, At R (scope :: ins) e M s → (Ran (declare x type line) s u t ↔
          Ran (bindName x { name := x, kind := .variable, type := some type, line := some line }) s u t) := by
        intro M s t h
        simp only [declare, (ran_get.2 ⟨rfl, rfl⟩ : Ran get s s s).bind_iff, h.inner, hx]
      exact ⟨_, _, (Echo.bindName _ rfl rfl).congr same⟩

/-! ### Functions -/

variable {I : Nat → Option Enclosing → Prop}

theorem bindParameters_echoes : ∀ {ps : List Node}, ps.all isParameter = true →
    Echoes Inside ((ps.filterMap Node.name?).map (.bind · true)) (bindParameters ps)
  | [], _ => .pure _
  | .parameter x type line :: ps, h => by
    simp only [List.all_cons, Bool.and_eq_true] at h
    have bound (symbol : Symbol) : Echoes Inside [.bind x true] (bindName x symbol) :=
      bindName_echoes symbol (fun _ _ => rfl) fun _ _ => rfl
    exact Echoes.bind (bound _) fun _ => bindParameters_echoes h.2

def Constant {α : Type} (m : Check α) : Prop := ∀ ⦃s a t⦄, Ran m s a t → t = s ∧ ∀ s', Ran m s' a s'

namespace Constant

variable {α β : Type} {m : Check α} {f : α → Check β}

theorem pure (a : α) : Constant (pure a : Check α) := by
  intro s b t hr
  obtain ⟨rfl, rfl⟩ := ran_pure.1 hr
  exact ⟨rfl, fun _ => ran_pure.2 ⟨rfl, rfl⟩⟩

theorem throw (f : Fault) : Constant (throw f : Check α) := fun _ _ _ hr => (ran_throw hr).elim

theorem bind (first : Constant m) (rest : ∀ a, Constant (f a)) : Constant (m >>= f) := by
  intro s b t hr
  obtain ⟨a, s₁, h₁, h₂⟩ := ran_bind.1 hr
  obtain ⟨rfl, run₁⟩ := first h₁
  obtain ⟨rfl, run₂⟩ := rest a h₂
  exact ⟨rfl, fun s' => ran_bind.2 ⟨a, s', run₁ s', run₂ s'⟩⟩

theorem signature (params : Node) : Constant (do signature (← parameters params)) := by
  have named (n : Node) : Constant (nameOf n) := by
    unfold nameOf
    split
    · exact .pure _
    · exact .throw _
  have typed (n : Node) : Constant (parameterType n) := by
    unfold parameterType
    split
    · exact .pure _
    · exact .throw _
  refine .bind ?_ fun ps => ?_
  · unfold parameters
    split
    · exact .pure _
    · exact .pure _
    · exact .throw _
  · induction ps with
    | nil => exact .pure _
    | cons p ps ih => exact .bind (named p) fun _ => .bind (typed p) fun _ => .bind ih fun _ => .pure _

end Constant

theorem bindFunction_always {f : Node} {s s' : Checker} {u : Unit} (hr : Ran (bindFunction f) s u s') :
    ∃ x symbol, f.name? = some x ∧ symbol.initialized = false ∧
      ∀ s, Ran (bindFunction f) s () { s with chain := s.chain.insert x symbol } := by
  cases f with
  | function name params returnType body line =>
    rw [bindFunction, ← bind_assoc] at hr
    obtain ⟨sig, s₁, h₁, -⟩ := ran_bind.1 hr
    obtain ⟨-, run⟩ := Constant.signature params h₁
    refine ⟨name, { name, kind := .function, params := sig, returnType := some returnType, line := some line }, rfl, rfl,
      fun s => ?_⟩
    rw [bindFunction, ← bind_assoc]
    exact ran_bind.2 ⟨sig, s, run s, ran_bindName.2 rfl⟩
  | _ => exact (ran_throw hr).elim

theorem bindFunction_echoes {f : Node} {x : String} (hf : f.name? = some x) :
    Echoes Inside [.bind x false] (bindFunction f) := by
  intro R ins e M s u t fresh hi hs hr
  obtain ⟨y, symbol, hy, -, always⟩ := bindFunction_always hr
  obtain rfl := Option.some.inj (hf.symm.trans hy)
  have bound : Echoes Inside [.bind x false] (bindName x symbol) := bindName_echoes symbol (fun _ _ => rfl) fun _ _ => rfl
  have same : ∀ {s t : Checker}, Ran (bindFunction f) s u t ↔ Ran (bindName x symbol) s u t := by
    intro s t
    rw [ran_bindName]
    exact ⟨fun h => (h.unique (always s)).2, fun h => h ▸ always s⟩
  obtain ⟨ins', L, echo⟩ := bound fresh hi hs (same.1 hr)
  exact ⟨ins', L, echo.congr fun _ => same⟩

theorem bindNested_echoes (ss : List Node) :
    Echoes Inside (((ss.filter Node.isFunction).filterMap Node.name?).map (.bind · false)) (bindNested ss) := by
  induction ss with
  | nil => exact .pure _
  | cons n ss ih =>
    rw [bindNested]
    by_cases hf : n.isFunction = true
    · rw [if_pos hf, List.filter_cons_of_pos hf]
      cases n with
      | function => exact Echoes.bind (bindFunction_echoes rfl) fun _ => ih
      | _ => cases hf
    · rw [if_neg hf, List.filter_cons_of_neg hf]
      exact ih

theorem touches_entered (program : List String) (frames : List (List String)) (f : String) (es : List NameEvent) :
    touches program frames (.enter f :: (es ++ [NameEvent.leave])) = touches program ([] :: frames) es := by
  show touches program ([] :: frames) (es ++ [NameEvent.leave]) = _
  rw [touches_append, touches_singleton]
  exact List.append_nil _

theorem functionWalk_echoes {α : Type} {es : List NameEvent} {m : Check α} (inside : Echoes Inside es m) (kind f : String)
    (returnType : Option String) :
    Echoes I (.enter f :: (es ++ [NameEvent.leave])) (functionWalk ⟨kind, some f, returnType⟩ m) := by
  intro R ins e M s a t fresh _ hs hr
  obtain ⟨b, s₁, run, rfl, -⟩ := ran_functionWalk.1 hr
  have entered : Inside ([] :: ins).length (some ⟨kind, some f, returnType⟩) := ⟨Nat.succ_pos ins.length, f, rfl⟩
  obtain ⟨ins₁, L, echo⟩ := inside fresh entered (hs.enter _) run
  cases ins₁ with
  | nil => cases echo.length
  | cons scope ins₁ =>
    have touched : touches R.names (ins.map Scope.names) (.enter f :: (es ++ [NameEvent.leave])) =
        touches R.names (([] :: ins).map Scope.names) es := touches_entered _ _ _ _
    refine ⟨ins₁, L, ?_, Nat.succ.inj echo.length, ?_, echo.unset, fun {M' s'} h => ?_⟩
    · show _ = reframeAll R.names ([] :: ins.map Scope.names) (es ++ [NameEvent.leave])
      rw [reframeAll_append]
      exact congrArg List.tail echo.names
    · rw [touched]
      exact echo.conditions
    · obtain ⟨t₁, run₁, at₁, found₁⟩ := echo.runs (h.enter _)
      rw [touched]
      exact ⟨_, ran_functionWalk.2 ⟨b, t₁, run₁, rfl, rfl⟩, h.enclosing ▸ at₁.leave s'.enclosing, found₁⟩

/-! ### Whole trees -/

mutual

theorem visit_echoes {right : String → Bool} : ∀ {n : Node}, isExpression right n = true →
    Echoes Inside (nameEvents n) (visit n)
  | .number .., _ | .string .., _ | .boolean .., _ => by
    rw [visit, nameEvents]
    exact .pure _
  | .identifier .., _ => by
    rw [visit, nameEvents]
    exact (checkIdentifier_echoes _ _).result none
  | .call .., h => by
    simp only [isExpression, Bool.and_eq_true] at h
    rw [visit, nameEvents]
    exact (visitAll_echoes h.2).before fun _ => Blind.plain.checkCall _ _ _
  | .element .., h => by
    simp only [isExpression, Bool.and_eq_true] at h
    rw [visit, nameEvents]
    exact (visit_echoes h.2).result none
  | .binary .., h => by
    simp only [isExpression, Bool.and_eq_true] at h
    rw [visit, nameEvents]
    exact (visit_echoes h.1).bind fun _ => (visit_echoes h.2).result none
  | .unary .., h => by
    simp only [isExpression] at h
    rw [visit, nameEvents]
    exact (visit_echoes h).result none
  | .ternary .., h => by
    simp only [isExpression, Bool.and_eq_true] at h
    rw [visit, nameEvents, single_expression h.1.1, single_expression h.1.2, single_expression h.2]
    exact (visit_echoes h.1.1).bind fun _ => (visit_echoes h.1.2).bind fun _ => (visit_echoes h.2).before fun _ =>
      .bind (Blind.plain.checkCondition _ _) fun _ => .pure _
  | .array .., h => by
    simp only [isExpression] at h
    rw [visit, nameEvents]
    exact (visitAll_echoes h).result none

theorem visitAll_echoes {right : String → Bool} :
    ∀ {ns : List Node}, areExpressions right ns = true → Echoes Inside (nameEventsIn ns) (visitAll ns)
  | [], _ => by
    rw [visitAll, nameEventsIn]
    exact .pure _
  | _ :: _, h => by
    simp only [areExpressions, Bool.and_eq_true] at h
    rw [visitAll, nameEventsIn, single_expression h.1]
    exact (visit_echoes h.1).bind fun _ => visitAll_echoes h.2

end

theorem function_echoes {name returnType : String} {params body : Node} {line : Int}
    (h : isStatement (.function name params returnType body line) = true)
    (inside : ∀ ss, areStatements ss = true → body = .several ss → Echoes Inside (nameEventsIn ss) (visitAll ss)) :
    Echoes I (nameEvents (.function name params returnType body line)) (visit (.function name params returnType body line)) := by
  obtain ⟨-, ⟨ps, ss, rfl, rfl, hps, hss⟩ | ⟨rfl, hb⟩⟩ := isStatement_function.1 h
  · have walk : Echoes Inside ((ps.filterMap Node.name?).map (.bind · true) ++
        (((ss.filter Node.isFunction).filterMap Node.name?).map (.bind · false) ++ nameEventsIn ss)) (do
        bindParameters (← parameters (.several ps))
        bindNested ss
        visit (.several ss)) := by
      rw [visit, parameters, pure_bind]
      exact (bindParameters_echoes hps).bind fun _ => (bindNested_echoes ss).bind fun _ => (inside ss hss rfl).result none
    have whole := functionWalk_echoes (I := I) walk "Function" name (some returnType)
    rw [visit_function, nameEvents, nameEvents, Node.parts, Node.statements]
    simpa only [List.append_assoc] using whole
  · exact fun _ _ _ _ _ _ _ _ _ _ hr => (visit_bareArrow_never hr).elim

theorem return_echoes {value : Node} {line : Int} {es : List NameEvent} (walk : Echoes Inside es (single value (visit value))) :
    Echoes Inside es (visit (.ret value line)) := by
  intro R ins e M s a t fresh hi hs hr
  obtain ⟨pos, f, hf⟩ := hi
  obtain ⟨d, rfl, -⟩ := Option.bind_eq_some_iff.1 hf
  have same : ∀ {M s t}, At R ins (some d) M s → (Ran (visit (.ret value line)) s a t ↔ Ran (do
      let _ ← single value (visit value)
      checkReturn d value line
      pure none) s a t) := by
    intro M s t h
    rw [visit, (ran_get.2 ⟨rfl, rfl⟩ : Ran get s s s).bind_iff, h.enclosing]
  have compared : Echoes Inside es (do
      let _ ← single value (visit value)
      checkReturn d value line
      pure (none : Option String)) :=
    walk.before fun _ => .bind (.checkReturn d value line) fun _ => .pure none
  obtain ⟨ins', L, echo⟩ := compared fresh ⟨pos, f, hf⟩ hs ((same hs).1 hr)
  exact ⟨ins', L, echo.congr same⟩

mutual

/-- **Walks over a statement go the same way whatever is marked.** -/
theorem statement_echoes : ∀ {n : Node}, isStatement n = true → Echoes Inside (nameEvents n) (visit n)
  | .declaration x type line, _ => by
    rw [visit, nameEvents]
    exact (declare_echoes x type line).result none
  | .assignment target value line, h => by
    obtain ⟨hv, ⟨x, rfl, -⟩ | ⟨x, index, k, rfl, -, hi⟩⟩ := isStatement_assignment.1 h
    · rw [visit, nameEvents, single_expression hv]
      exact (visit_echoes hv).bind fun _ => (assignVariable_echoes x value line).result none
    · rw [visit, nameEvents, single_expression hv, single_expression hi]
      exact (visit_echoes hv).bind fun _ => (visit_echoes hi).bind fun _ => (assignElement_echoes x line).result none
  | .call f args line, h => by
    simp only [isStatement, Bool.and_eq_true] at h
    rw [visit, nameEvents]
    exact (visitAll_echoes h.2).before fun _ => Blind.plain.checkCall f args line
  | .ret value line, h => by
    rw [nameEvents]
    refine return_echoes ?_
    rcases isStatement_ret.1 h with rfl | hv
    · rw [visit, nameEvents]
      exact .pure _
    · rw [single_expression hv]
      exact visit_echoes hv
  | .branch condition yes no line, h => by
    obtain ⟨hc, hy, hn⟩ := isStatement_branch.1 h
    have other : Echoes Inside (nameEvents no) (visit no) := by
      rcases hn with rfl | hn
      · rw [visit, nameEvents]
        exact .pure _
      · exact statement_echoes hn
    rw [visit, nameEvents]
    exact (visit_echoes hc).bind fun _ => (statement_echoes hy).bind fun _ => other.result none
  | .forLoop x start stop body line, h => by
    obtain ⟨-, hs, ht, ss, rfl, hss⟩ := isStatement_forLoop.1 h
    have inside : Echoes Inside (nameEvents (.several ss)) (visit (.several ss)) :=
      statement_echoes (by rw [isStatement]; exact hss)
    rw [visit, nameEvents, single_expression hs, single_expression ht]
    exact (bindLoopVariable_echoes x line).bind fun _ => (visit_echoes hs).bind fun _ => (visit_echoes ht).bind fun _ =>
      .after (Blind.plain.checkRange start stop line) fun _ => inside.result none
  | .whileLoop condition body line, h => by
    simp only [isStatement, Bool.and_eq_true] at h
    rw [visit, nameEvents]
    exact (visit_echoes h.1).bind fun _ => (statement_echoes h.2).result none
  | .doLoop body condition line, h => by
    simp only [isStatement, Bool.and_eq_true] at h
    rw [visit, nameEvents]
    exact (statement_echoes h.1).bind fun _ => (visit_echoes h.2).result none
  | .block ss line, h | .several ss, h => by
    simp only [isStatement] at h
    rw [visit, nameEvents]
    exact (statements_echo h).result none
  | .function name params returnType body line, h => by
    refine function_echoes h fun ss hss hb => ?_
    subst hb
    exact statements_echo hss
termination_by n => sizeOf n
decreasing_by all_goals (subst_vars; simp +arith)

theorem statements_echo : ∀ {ss : List Node}, areStatements ss = true → Echoes Inside (nameEventsIn ss) (visitAll ss)
  | [], _ => by
    rw [visitAll, nameEventsIn]
    exact .pure _
  | n :: ss, h => by
    simp only [areStatements, Bool.and_eq_true, Bool.not_eq_true'] at h
    rw [visitAll, nameEventsIn, single_statement h.1.1]
    exact (statement_echoes h.1.2).bind fun _ => statements_echo h.2
termination_by ss => sizeOf ss
decreasing_by all_goals simp +arith

end

end Check
end TesLang
