import Mathlib.Data.List.Basic
import TesLang.Proofs.Checking.Names
import TesLang.Proofs.Session.EntryPoints
/-!
# What the names of variables stand for

A name is resolved if a function around it binds it, and one that is used as a vector if it is bound to a vector
(`Use.Resolved`).  In a program without errors this is so for every vector of which a member is assigned.  A value or a
target stands for something, but this may be a function of the program; and the vector of which a member is read may
stand for nothing at all (`names_resolved_iff`).

A name that no function binds is found in the outermost scope, if at all.  What a function binds is gone behind it, so
at every use of a name the outermost scope is that of the program: it binds the functions of the program, and these have
no type.
-/
namespace TesLang

namespace Chain

theorem lookup_eq_own (c : Chain) (x : String) : c.lookup x = (c.own x).or (c.scopes.getLast?.bind (·.find? x)) := by
  unfold lookup own
  have ne : c.scopes ≠ [] := List.cons_ne_nil _ _
  rw [List.getLast?_eq_some_getLast ne]
  conv => lhs; rw [← List.dropLast_concat_getLast ne]
  rw [List.findSome?_append, List.findSome?_singleton]
  rfl

end Chain

namespace Check

open Grammar

/-! ### Scopes around a use -/

mutual

theorem chain_of_usesIn {c : Chain} : ∀ {e : Node} {u : Use}, u ∈ usesIn c e → u.chain = c
  | .identifier .., u, h => by
    rw [usesIn] at h
    rw [List.mem_singleton.1 h]
  | .element x index _, u, h => by
    rw [usesIn] at h
    rcases List.mem_cons.1 h with rfl | h
    · rfl
    · exact chain_of_usesIn h
  | .call _ es _, u, h | .array es _, u, h => by
    rw [usesIn] at h
    exact chain_of_usesInAll h
  | .binary a _ b _, u, h => by
    rw [usesIn] at h
    exact (List.mem_append.1 h).elim chain_of_usesIn chain_of_usesIn
  | .unary _ e _, u, h => by
    rw [usesIn] at h
    exact chain_of_usesIn h
  | .ternary a b d _, u, h => by
    rw [usesIn] at h
    rcases List.mem_append.1 h with h | h
    · exact (List.mem_append.1 h).elim chain_of_usesIn chain_of_usesIn
    · exact chain_of_usesIn h
  | .program _, u, h | .function .., u, h | .parameter .., u, h | .declaration .., u, h | .assignment .., u, h | .ret .., u, h
  | .branch .., u, h | .forLoop .., u, h | .whileLoop .., u, h | .doLoop .., u, h | .block .., u, h | .number .., u, h
  | .string .., u, h | .boolean .., u, h | .listOf .., u, h | .bare, u, h | .nothing, u, h | .text _, u, h
  | .integer _, u, h | .several _, u, h => by
    rw [usesIn] at h <;> cases h

theorem chain_of_usesInAll {c : Chain} : ∀ {es : List Node} {u : Use}, u ∈ usesInAll c es → u.chain = c
  | [], u, h => by
    rw [usesInAll] at h
    cases h
  | e :: es, u, h => by
    rw [usesInAll] at h
    exact (List.mem_append.1 h).elim chain_of_usesIn chain_of_usesInAll

end

/-- A use in scopes around which there are at least some given ones. -/
def Around (outer : List Scope) (us : List Use) : Prop := ∀ u ∈ us, outer <:+ u.chain.outside

namespace Around

variable {outer : List Scope} {us vs : List Use} {c : Chain}

theorem append (hu : Around outer us) (hv : Around outer vs) : Around outer (us ++ vs) :=
  fun u h => (List.mem_append.1 h).elim (hu u) (hv u)

theorem usesIn (e : Node) : Around c.outside (usesIn c e) := by
  intro u h
  obtain rfl := chain_of_usesIn h
  exact List.suffix_refl _

theorem one (role : Role) (x : String) : Around c.outside [⟨role, x, c⟩] := by
  intro u h
  obtain rfl := List.mem_singleton.1 h
  exact List.suffix_refl _

end Around

mutual

theorem uses_around : ∀ (n : Node) (c : Chain), Around c.outside (uses c n)
  | .assignment target value _, c => by
    cases target with
    | text x =>
      rw [uses]
      exact (Around.usesIn value).append (.one _ x)
    | element x index _ =>
      rw [uses]
      exact ((Around.usesIn value).append (.usesIn index)).append (.one _ x)
    | _ => rw [uses] <;> first | exact Around.usesIn _ | (intros; contradiction) | (intros; rename_i h; cases h)
  | .ret value _, c => by
    rw [uses]
    exact .usesIn value
  | .branch condition yes no _, c => by
    have rest := uses_around no (after c yes)
    rw [outside_after] at rest
    rw [uses]
    exact ((Around.usesIn condition).append (uses_around yes c)).append rest
  | .forLoop x start stop body line, c => by
    rw [uses, ← outside_withLoop c x line]
    exact ((Around.usesIn start).append (.usesIn stop)).append (uses_around body _)
  | .whileLoop condition body _, c => by
    rw [uses]
    exact (Around.usesIn condition).append (uses_around body c)
  | .doLoop body condition _, c => by
    have rest := Around.usesIn (c := after c body) condition
    rw [outside_after] at rest
    rw [uses]
    exact (uses_around body c).append rest
  | .block ss _, c | .several ss, c => by
    rw [uses]
    exact usesAll_around ss c
  | .function _ params _ body _, c => by
    rw [uses]
    intro u h
    have inner := uses_around body (inside c params body) u h
    rw [outside_inside] at inner
    exact (List.suffix_cons _ _).trans inner
  | .program _, c | .parameter .., c | .declaration .., c | .call .., c | .binary .., c | .unary .., c | .identifier .., c
  | .number .., c | .string .., c | .boolean .., c | .ternary .., c | .element .., c | .array .., c | .listOf .., c
  | .bare, c | .nothing, c | .text _, c | .integer _, c => by
    rw [uses] <;> first | exact Around.usesIn _ | (intros; contradiction)

theorem usesAll_around : ∀ (ns : List Node) (c : Chain), Around c.outside (usesAll c ns)
  | [], c => by
    rw [usesAll]
    exact fun u h => nomatch h
  | n :: ns, c => by
    have rest := usesAll_around ns (after c n)
    rw [outside_after] at rest
    rw [usesAll]
    exact (uses_around n c).append rest

end

theorem function_around {f : Node} (h : f.isFunction = true) (c : Chain) : Around c.settled (uses c f) := by
  cases f with
  | function name params returnType body line =>
    have inner := uses_around body (inside c params body)
    rw [outside_inside] at inner
    rw [uses]
    exact inner
  | _ => cases h

theorem functions_around : ∀ {fs : List Node}, areFunctions fs = true → ∀ c : Chain, Around c.settled (usesAll c fs)
  | [], _, c => by
    rw [usesAll]
    exact fun u h => nomatch h
  | f :: fs, h, c => by
    simp only [areFunctions, List.all_cons, Bool.and_eq_true] at h
    have rest := functions_around h.2 (after c f)
    rw [settled_after_function h.1.1] at rest
    rw [usesAll]
    exact (function_around h.1.1 c).append rest

/-! ### The outermost scope -/

theorem outer_withFunctions : ∀ (fs : List Node) (c : Chain), (withFunctions c fs).outer = c.outer
  | [], c => by rw [withFunctions]
  | f :: fs, c => by
    rw [withFunctions]
    split
    · rw [outer_withFunctions fs]
      split <;> rfl
    · exact outer_withFunctions fs c

theorem find?_withFunctions {x : String} {symbol : Symbol} : ∀ {fs : List Node} {c : Chain},
    (withFunctions c fs).inner.find? x = some symbol →
      c.inner.find? x = some symbol ∨ ∃ f ∈ fs, functionSymbol? f = some symbol ∧ symbol.name = x
  | [], c, h => by
    rw [withFunctions] at h
    exact .inl h
  | f :: fs, c, h => by
    rw [withFunctions] at h
    split at h
    · next s hs =>
      rcases find?_withFunctions h with h | ⟨f', hf, h⟩
      · split at h
        · rw [Chain.insert, Bindings.find?_insert] at h
          split at h
          · next hx =>
            cases h
            exact .inr ⟨f, List.mem_cons_self, hs, hx⟩
          · exact .inl h
        · exact .inl h
      · exact .inr ⟨f', List.mem_cons_of_mem _ hf, h⟩
    · rcases find?_withFunctions h with h | ⟨f', hf, h⟩
      · exact .inl h
      · exact .inr ⟨f', List.mem_cons_of_mem _ hf, h⟩

theorem function_of_own_eq_none {fs : List Node} (hf : areFunctions fs = true) {u : Use} (hu : u ∈ usesOf fs)
    {symbol : Symbol} (found : u.chain.lookup u.name = some symbol) (own : u.chain.own u.name = none) :
    symbol.type = none ∧ ∃ f ∈ fs, f.name? = some u.name := by
  have around := functions_around hf _ u hu
  rw [Chain.settled_eq, Chain.outside, outer_withFunctions, List.map_nil] at around
  rw [Chain.lookup_eq_own, own, Option.none_or] at found
  obtain ⟨scope, last, found⟩ := Option.bind_eq_some_iff.1 found
  -- the last scope, but for values of variables, is the one that binds the functions
  have same : scope.settled = (withFunctions {} fs).inner.settled := by
    obtain ⟨pre, hp⟩ := around
    have hl : u.chain.settled.getLast? = some (withFunctions {} fs).inner.settled := by
      rw [Chain.settled_eq, ← hp, ← List.cons_append, List.getLast?_concat]
    rw [Chain.settled, List.getLast?_map, last] at hl
    exact Option.some.inj hl
  have found' : (withFunctions {} fs).inner.settled.find? u.name = some symbol.settled := by
    rw [← same, Scope.find?_settled, found]
    rfl
  rw [Scope.find?_settled] at found'
  obtain ⟨symbol', h, hs⟩ := Option.map_eq_some_iff.1 found'
  rcases find?_withFunctions h with h | ⟨f, hf, h, hx⟩
  · cases h
  · have type : symbol'.settled.type = symbol.settled.type := by rw [hs]
    cases f with
    | function name params returnType body line =>
      cases h
      exact ⟨type.symm, _, hf, congrArg some hx⟩
    | _ => cases h

/-! ### Names that are resolved -/

/-- **A name is resolved**: a function around it binds it, and to a vector if it is used as one. -/
def Use.Resolved (u : Use) : Prop :=
  ∃ symbol, u.chain.own u.name = some symbol ∧ (u.role = .read ∨ u.role = .written → symbol.type = some "vector")

instance : DecidablePred Use.Resolved := fun u =>
  match h : u.chain.own u.name with
  | none => isFalse fun ⟨_, h', _⟩ => by
    rw [h] at h'
    cases h'
  | some symbol =>
    decidable_of_iff (u.role = .read ∨ u.role = .written → symbol.type = some "vector")
      ⟨fun ht => ⟨symbol, h, ht⟩, fun ⟨symbol', h', ht⟩ => by
        rw [h] at h'
        cases h'
        exact ht⟩

theorem Use.Passes.sure {fs : List Node} (hf : areFunctions fs = true) {u : Use} (hu : u ∈ usesOf fs) (h : u.Passes) :
    (u.role = .written → u.Resolved) ∧
      (u.role ≠ .read → u.Resolved ∨ (u.chain.own u.name = none ∧ ∃ f ∈ fs, f.name? = some u.name)) := by
  have plain (hr : u.role ≠ .read) (hw : u.role ≠ .written) {symbol : Symbol}
      (found : u.chain.lookup u.name = some symbol) :
      u.Resolved ∨ (u.chain.own u.name = none ∧ ∃ f ∈ fs, f.name? = some u.name) := by
    cases own : u.chain.own u.name with
    | none => exact .inr ⟨rfl, (function_of_own_eq_none hf hu found own).2⟩
    | some symbol => exact .inl ⟨symbol, own, fun h => absurd h (by simp [hr, hw])⟩
  unfold Use.Passes at h
  split at h
  · next role =>
    obtain ⟨symbol, found, -⟩ := h
    exact ⟨by simp [role], fun hr => plain hr (by simp [role]) found⟩
  · next role =>
    obtain ⟨symbol, found⟩ := h
    exact ⟨by simp [role], fun hr => plain hr (by simp [role]) found⟩
  · next role =>
    obtain ⟨symbol, found, type⟩ := h
    have resolved : u.Resolved := by
      cases own : u.chain.own u.name with
      | none =>
        rw [(function_of_own_eq_none hf hu found own).1] at type
        cases type
      | some symbol' =>
        rw [Chain.lookup_eq_own, own] at found
        cases found
        exact ⟨symbol, own, fun _ => type⟩
    exact ⟨fun _ => resolved, fun _ => .inl resolved⟩
  · next role => exact ⟨by simp [role], fun h => absurd role h⟩

end Check

namespace Session

open Check

/-- **Which names are resolved in a program without errors.**  A vector of which a member is assigned is.  A value or a
target is, unless it stands for a function of the program.  And all names are, if and only if this is so for every vector
of which a member is read, and no value or target stands for a function of the program. -/
theorem names_resolved_iff {s : Session} {source : String} {fs : List Node}
    (read : (reading s source).functions = some fs) (accepted : check fs = .ok []) :
    (∀ u ∈ usesOf fs, u.role = .written → u.Resolved) ∧
    (∀ u ∈ usesOf fs, u.role ≠ .read → u.Resolved ∨ (u.chain.own u.name = none ∧ ∃ f ∈ fs, f.name? = some u.name)) ∧
    ((∀ u ∈ usesOf fs, u.Resolved) ↔
      ∀ u ∈ usesOf fs, (u.role = .read → u.Resolved) ∧ (u.role ≠ .read → u.chain.own u.name ≠ none)) := by
  have shape := parse_areFunctions read
  have sure {u : Use} (hu : u ∈ usesOf fs) := ((uses_of_check shape accepted).1 u hu).sure shape hu
  refine ⟨fun u hu => (sure hu).1, fun u hu => (sure hu).2, fun all u hu => ⟨fun _ => all u hu, fun _ => ?_⟩, fun h u hu => ?_⟩
  · obtain ⟨symbol, own, -⟩ := all u hu
    rw [own]
    exact nofun
  · by_cases role : u.role = .read
    · exact (h u hu).1 role
    · rcases (sure hu).2 role with resolved | ⟨own, -⟩
      · exact resolved
      · exact absurd own ((h u hu).2 role)

/-- A vector that is filled in a loop, and of which a nested function reads a member. -/
def filledVector : String := "funk f(a as vector) <int> \x7b for (i = 0 to 3) begin a[i] = i; end " ++
  "funk g() <int> \x7b return a[0]; \x7d return g(); \x7d"

theorem filledVector_resolved : ∃ fs, (reading {} filledVector).functions = some fs ∧ check fs = .ok [] ∧
    ∀ u ∈ usesOf fs, u.Resolved := by
  have evaluated : ∃ fs ∈ (reading {} filledVector).functions, check fs = .ok [] ∧ ∀ u ∈ usesOf fs,
      (u.role = .read → u.Resolved) ∧ (u.role ≠ .read → u.chain.own u.name ≠ none) := by
    unfold filledVector
    rw [reading_ofList_append]
    decide +kernel
  obtain ⟨fs, read, accepted, reads⟩ := evaluated
  exact ⟨fs, read, accepted, (names_resolved_iff read accepted).2.2.2 reads⟩

/-- Names that are not resolved, in texts without errors: a vector that is read and not bound at all; one that is read and
is a number; and a function of the program that is assigned a value. -/
def unresolvedNames : List String :=
  ["funk main() <null> \x7b x :: int; x = a[0]; return; \x7d", "funk f(n as int) <int> \x7b return n[0]; \x7d",
    "funk main() <null> \x7b main = -1; return; \x7d"]

theorem unresolvedNames_not_resolved : unresolvedNames.Forall fun source => (compile source {}).1 = [] ∧
    ∃ fs ∈ (reading {} source).functions, ∃ u ∈ usesOf fs, ¬ u.Resolved := by
  simp only [compile_fst]
  rw [unresolvedNames, List.forall_cons, List.forall_cons, List.Forall, reading_ofList, reading_ofList, reading_ofList]
  decide +kernel

end Session
end TesLang
