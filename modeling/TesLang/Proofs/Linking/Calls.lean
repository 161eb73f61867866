import Mathlib.Data.List.Nodup
import TesLang.Proofs.Linking.Resolution
import TesLang.Proofs.Session.EntryPoints
/-!
# When calls are linked

A call in the code is linked if exactly one procedure has the name it calls, that procedure is the code of the function
which the call stands for, and the call has as many arguments as the function has parameters (`Link.Linked`).

In a program without errors the number of arguments is always right.  The rest need not be: the call may stand for a
variable, its function may have no code, or another function with code may have the same name.  If none of these is the
case then all calls are linked, and only then (`calls_linked_iff`).
-/
namespace TesLang.Code

open Grammar

/-- The functions that have code. -/
def definitionsOf (ls : List Link) : List Definition :=
  ls.filterMap fun
    | .head d => some d
    | .call .. => none

@[simp] theorem definitionsOf_nil : definitionsOf [] = [] := rfl

@[simp] theorem definitionsOf_append (a b : List Link) : definitionsOf (a ++ b) = definitionsOf a ++ definitionsOf b :=
  List.filterMap_append

@[simp] theorem definitionsOf_resolve {names : Names} {es : List Entry} : definitionsOf (resolve names es) = [] := by
  refine List.filterMap_eq_nil_iff.2 fun l hl => ?_
  obtain ⟨e, -, he⟩ := List.mem_filterMap.1 hl
  cases e with
  | head _ => cases he
  | call _ _ =>
    cases he
    rfl

/-! ### No function has code twice

Each function has a place of its own, and its code comes from the walk of that place only.
-/

/-- The functions are pairwise different, and each has a place that `P` allows. -/
structure Apart (P : List Nat → Prop) (ds : List Definition) : Prop where
  nodup : ds.Nodup
  place : ∀ d ∈ ds, P d.place

namespace Apart

variable {P Q : List Nat → Prop} {a b : List Definition}

theorem nil : Apart P [] := ⟨List.nodup_nil, fun _ h => nomatch h⟩

theorem mono (h : Apart P a) (sub : ∀ p, P p → Q p) : Apart Q a := ⟨h.nodup, fun d hd => sub _ (h.place d hd)⟩

theorem left (h : Apart P (a ++ b)) : Apart P a :=
  ⟨(List.nodup_append.1 h.nodup).1, fun d hd => h.place d (List.mem_append_left _ hd)⟩

theorem perm (h : Apart P a) (p : b.Perm a) : Apart P b :=
  ⟨p.nodup_iff.2 h.nodup, fun d hd => h.place d (p.mem_iff.1 hd)⟩

theorem append (ha : Apart P a) (hb : Apart Q b) (apart : ∀ p, P p → ¬ Q p) : Apart (fun p => P p ∨ Q p) (a ++ b) where
  nodup := ha.nodup.append hb.nodup fun d h h' => apart _ (ha.place d h) (hb.place d h')
  place d hd := (List.mem_append.1 hd).imp (ha.place d) (hb.place d)

end Apart

def At (place : List Nat) : List Nat → Prop := fun p => place <:+ p

def From (place : List Nat) (i : Nat) : List Nat → Prop := fun p => ∃ j, i ≤ j ∧ At (j :: place) p

theorem At.eq {place p : List Nat} {i j : Nat} (h : At (i :: place) p) (h' : At (j :: place) p) : i = j := by
  have := (List.suffix_of_suffix_length_le h h' (Nat.le_refl _)).eq_of_length rfl
  exact (List.cons.inj this).1

theorem At.outer {place p : List Nat} {i : Nat} (h : At (i :: place) p) : At place p :=
  (List.suffix_cons i place).trans h

theorem From.outer {place p : List Nat} {i : Nat} (h : From place i p) : At place p := by
  obtain ⟨j, -, h⟩ := h
  exact h.outer

theorem From.ne {place : List Nat} {i : Nat} : ¬ From place i place := by
  rintro ⟨j, -, h⟩
  have := List.IsSuffix.length_le h
  rw [List.length_cons] at this
  omega

theorem Apart.next {place : List Nat} {i : Nat} {a b : List Definition} (ha : Apart (At (i :: place)) a)
    (hb : Apart (From place (i + 1)) b) : Apart (From place i) (a ++ b) := by
  refine (ha.append hb ?_).mono ?_
  · rintro p h ⟨j, hj, h'⟩
    have := h.eq h'
    omega
  · rintro p (h | ⟨j, hj, h⟩)
    · exact ⟨i, Nat.le_refl i, h⟩
    · exact ⟨j, by omega, h⟩

theorem Apart.cons {place : List Nat} {d : Definition} {a : List Definition} (hd : d.place = place)
    (ha : Apart (From place 0) a) : Apart (At place) (d :: a) := by
  refine ⟨List.nodup_cons.2 ⟨fun hm => From.ne (hd ▸ ha.place d hm), ha.nodup⟩, fun e he => ?_⟩
  rcases List.mem_cons.1 he with rfl | he
  · rw [hd]
    exact List.suffix_refl place
  · exact (ha.place e he).outer

mutual

theorem links_apart : ∀ (n : Node) (place : List Nat) (names : Names),
    Apart (At place) (definitionsOf (links place names n).1 ++ definitionsOf (linksUnder place names n))
  | .branch _ yes no _, place, names => by
    rw [links, linksUnder]
    · simp only [definitionsOf_append, definitionsOf_resolve, definitionsOf_nil, List.append_nil]
      refine ((links_apart yes (0 :: place) _).left.append (links_apart no (1 :: place) _).left fun p h h' => ?_).mono ?_
      · cases h.eq h'
      · rintro p (h | h)
        · exact h.outer
        · exact h.outer
    · intros
      contradiction
  | .whileLoop _ body _, place, names => by
    rw [links, linksUnder]
    · simp only [definitionsOf_append, definitionsOf_resolve, definitionsOf_nil, List.append_nil]
      exact (links_apart body (0 :: place) _).left.mono fun _ => At.outer
    · intros
      contradiction
  | .doLoop body _ _, place, names => by
    rw [links, linksUnder]
    · simp only [definitionsOf_append, definitionsOf_resolve, definitionsOf_nil, List.append_nil]
      exact (links_apart body (0 :: place) _).left.mono fun _ => At.outer
    · intros
      contradiction
  | .forLoop _ _ _ body _, place, names => by
    rw [links, linksUnder]
    · simp only [definitionsOf_append, definitionsOf_resolve, definitionsOf_nil, List.append_nil]
      exact (links_apart body (0 :: place) _).left.mono fun _ => At.outer
    · intros
      contradiction
  | .block ss _, place, names | .several ss, place, names => by
    rw [links, linksUnder]
    · rw [definitionsOf_nil, List.append_nil]
      exact (linksAll_apart ss place 0 names).mono fun _ => From.outer
    · intros
      contradiction
  | .function f params _ body _, place, names => by
    cases body with
    | several ss =>
      rw [links, linksUnder]
      exact .cons rfl (linksOwn_apart ss place 0 _)
    | _ =>
      rw [links, linksUnder]
      · refine .cons rfl ?_
        show Apart (From place 0) (definitionsOf (resolve names _) ++ [])
        rw [definitionsOf_resolve]
        exact .nil
      all_goals
        intros
        rename_i h
        cases h
  | .declaration .., place, names => by
    rw [links, linksUnder]
    · exact .nil
    · intros
      contradiction
  | .program _, _, _ | .parameter .., _, _ | .assignment .., _, _ | .call .., _, _ | .ret .., _, _ | .binary .., _, _
  | .unary .., _, _ | .identifier .., _, _ | .number .., _, _ | .string .., _, _ | .boolean .., _, _ | .ternary .., _, _
  | .element .., _, _ | .array .., _, _ | .listOf .., _, _ | .bare, _, _ | .nothing, _, _ | .text _, _, _
  | .integer _, _, _ => by
    rw [links, linksUnder]
    · rw [definitionsOf_resolve]
      exact .nil
    all_goals
      intros
      contradiction

theorem linksAll_apart : ∀ (ns : List Node) (place : List Nat) (i : Nat) (names : Names),
    Apart (From place i) (definitionsOf (linksAll place i names ns).1)
  | [], place, i, names => by
    rw [linksAll]
    exact .nil
  | n :: ns, place, i, names => by
    rw [linksAll, definitionsOf_append]
    exact .next (links_apart n (i :: place) names).left (linksAll_apart ns place (i + 1) _)

theorem linksOwn_apart : ∀ (ns : List Node) (place : List Nat) (i : Nat) (names : Names),
    Apart (From place i) (definitionsOf (linksOwn place i names ns) ++ definitionsOf (linksNested place i names ns))
  | [], place, i, names => by
    rw [linksOwn, linksNested]
    exact .nil
  | n :: ns, place, i, names => by
    have here := links_apart n (i :: place) names
    have rest := linksOwn_apart ns place (i + 1) (links (i :: place) names n).2
    rw [linksOwn, linksNested, definitionsOf_append, definitionsOf_append]
    cases n.isFunction with
    | true =>
      refine (Apart.next here rest).perm ?_
      rw [if_pos rfl, if_pos rfl, definitionsOf_append]
      exact List.perm_append_comm_assoc ..
    | false =>
      rw [if_neg Bool.false_ne_true, if_neg Bool.false_ne_true, List.append_assoc]
      exact .next here.left rest

end

/-- **No function has code twice.** -/
theorem linksFrom_apart (names : Names) : ∀ (fs : List Node) (i : Nat), Apart (From [] i) (definitionsOf (linksFrom i names fs))
  | [], _ => by
    rw [linksFrom]
    exact .nil
  | f :: fs, i => by
    rw [linksFrom, definitionsOf_append, definitionsOf_append]
    exact .next (links_apart f [i] names) (linksFrom_apart names fs (i + 1))

/-! ### Linked calls -/

/-- The names that the machine serves itself. -/
def served : List String := ["iget", "iput", "mem"]

/-- **A call is linked**: exactly one function with code has its name, that is the function which the call stands for,
and it has as many parameters as the call has arguments. -/
def Link.Linked (ds : List Definition) : Link → Prop
  | .head _ => True
  | .call f n (some (.function d)) => f ∈ served ∨ (ds.filter (·.name = f) = [d] ∧ d.arity = n)
  | .call f _ _ => f ∈ served

instance (ds : List Definition) : DecidablePred (Link.Linked ds)
  | .head _ => inferInstanceAs (Decidable True)
  | .call f n (some (.function d)) => inferInstanceAs (Decidable (f ∈ served ∨ (ds.filter (·.name = f) = [d] ∧ d.arity = n)))
  | .call f _ (some .variable) => inferInstanceAs (Decidable (f ∈ served))
  | .call f _ none => inferInstanceAs (Decidable (f ∈ served))

/-- All calls in the code of a program are linked. -/
def Linked (fs : List Node) : Prop := ∀ l ∈ linksOf fs, l.Linked (definitionsOf (linksOf fs))

instance (fs : List Node) : Decidable (Linked fs) :=
  inferInstanceAs (Decidable (∀ l ∈ linksOf fs, l.Linked (definitionsOf (linksOf fs))))

/-- The call stands for a function that has code, and no other function with code has the name. -/
def Link.Unambiguous (ds : List Definition) : Link → Prop
  | .head _ => True
  | .call f _ (some (.function d)) => f ∈ served ∨ (d ∈ ds ∧ ∀ e ∈ ds, e.name = f → e = d)
  | .call f _ _ => f ∈ served

theorem filter_eq_singleton {ds : List Definition} {d : Definition} (hn : ds.Nodup) :
    ds.filter (·.name = d.name) = [d] ↔ d ∈ ds ∧ ∀ e ∈ ds, e.name = d.name → e = d := by
  rw [← List.perm_singleton, List.perm_ext_iff_of_nodup (hn.filter _) (List.nodup_singleton d)]
  simp only [List.mem_filter, decide_eq_true_iff, List.mem_singleton]
  constructor
  · exact fun h => ⟨((h d).2 rfl).1, fun e he hd => (h e).1 ⟨he, hd⟩⟩
  · rintro ⟨hd, unique⟩ e
    exact ⟨fun h => unique e h.1 h.2, by rintro rfl; exact ⟨hd, rfl⟩⟩

theorem linked_iff {ds : List Definition} (hn : ds.Nodup) {l : Link} (h : l.Resolved) : l.Linked ds ↔ l.Unambiguous ds := by
  cases l with
  | head _ => exact Iff.rfl
  | call f n target =>
    obtain ⟨t, rfl, takes⟩ := h
    cases t with
    | function d =>
      obtain ⟨rfl, rfl⟩ := takes
      refine or_congr_right ?_
      rw [filter_eq_singleton hn, and_iff_left rfl]
    | _ => exact Iff.rfl

end Code

namespace Session

open Code Grammar

/-- **When the calls in code are linked.**  Take a text that has code.  The heads and the calls in the code are those of
its links, one by one; and they are linked if and only if each call is unambiguous. -/
theorem calls_linked_iff {s : Session} {source code : String}
    (compiled : (compileToCode source s).1.1 = some code) : ∃ fs lines, (reading s source).functions = some fs ∧
      code = render lines ∧ outlineIn lines = (linksOf fs).map Link.entry ∧
      (Linked fs ↔ ∀ l ∈ linksOf fs, l.Unambiguous (definitionsOf (linksOf fs))) := by
  obtain ⟨-, fs, hf, accepted, r, g, run, rfl⟩ := code_eq_some.1 compiled
  have shape := parse_areFunctions hf
  refine ⟨fs, g.code.toList, hf, rfl, ?_, ?_⟩
  · rw [linksOf_entries shape]
    exact Gen.visit_outlines (.program fs) _ _ _ run
  · exact forall₂_congr fun l hl => linked_iff (linksFrom_apart _ _ _).nodup (resolved_of_check shape accepted l hl)

/-- A function inside another one, which both call. -/
def nestedCalls : String :=
  "funk f() <int> \x7b funk g(n as int) <int> \x7b return g(n - 1); \x7d return g(f()); \x7d"

theorem nestedCalls_linked : (∃ fs ∈ (reading {} nestedCalls).functions, Linked fs) ∧
    ∃ code fs lines, (reading {} nestedCalls).functions = some fs ∧
      code = render lines ∧ outlineIn lines = (linksOf fs).map Link.entry ∧
      (Linked fs ↔ ∀ l ∈ linksOf fs, l.Unambiguous (definitionsOf (linksOf fs))) := by
  have evaluated : (∃ fs ∈ (reading {} nestedCalls).functions, Linked fs) ∧
      (compileToCode nestedCalls {}).1.1.isSome = true := by
    rw [compileToCode_fst, nestedCalls, reading_ofList]
    decide +kernel
  exact ⟨evaluated.1, _, calls_linked_iff (s := {}) (Option.some_get evaluated.2).symm⟩

/-- A function that holds another one, and calls it. -/
def calling (f : String) : String := "funk " ++ f ++ "() <null> \x7b funk g() <null> \x7b return; \x7d g(); return; \x7d "

/-- Calls that are not linked, in texts without errors that have code: of a variable; and of a function that has the name
of one in another function. -/
def unlinkedCalls : List String :=
  ["funk main() <null> \x7b x :: int; x(); return; \x7d", calling "f" ++ calling "h"]

theorem unlinkedCalls_not_linked : unlinkedCalls.Forall fun source => (compile source {}).1 = [] ∧
    (compileToCode source {}).1.1 ≠ none ∧ ∃ fs ∈ (reading {} source).functions, ¬ Linked fs := by
  simp only [compile_fst, compileToCode_fst]
  rw [unlinkedCalls, List.forall_cons, List.Forall, reading_ofList, reading]
  simp only [calling, String.toList_append]
  rw [String.toList_ofList, String.toList_ofList, String.toList_ofList, String.toList_ofList]
  decide +kernel

end Session
end TesLang
