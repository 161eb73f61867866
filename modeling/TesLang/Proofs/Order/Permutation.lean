import Mathlib.Data.List.Nodup
import Mathlib.Tactic.Choose
import TesLang.Proofs.Order.Echo
import TesLang.Proofs.Session.EntryPoints
/-!
# The order of functions

The functions of a program are all bound before the first of them is walked, so each of them can call every other one.  Still
their order can be seen.  A function that assigns to the name of a function of the program marks it, and one that reads the
name is blamed if it comes first, and is not if it comes last.

What the walk over each function finds is put beside the function (`sections`).  A permutation of the program permutes these
sections exactly if it leaves alone, for every name that a function reads without a value of its own, whether it was marked
before.  No permutation can be told apart from the program exactly if no function marks what another one reads.
-/
namespace TesLang

open Grammar Checker

namespace Check

/-! ### Sections -/

/-- The state that a walk comes to, or that it stops in. -/
def left {α : Type} (m : Check α) (s : Checker) : Checker :=
  match m.run s with
  | .ok _ s' => s'
  | .error _ s' => s'

/-- Functions that are walked one after the other, each with what the walk over it finds. -/
def sectionsFrom (s : Checker) : List Node → List (Node × List Diagnostic)
  | [] => []
  | f :: fs => (f, (left (visit f) s).found.drop s.found.length) :: sectionsFrom (left (visit f) s) fs

/-- The functions of a program, each with what the walk over it finds. -/
def sections (fs : List Node) : List (Node × List Diagnostic) := sectionsFrom (left (bindProgram fs) {}) fs

/-- The functions of the program that a function marks; `program` are the names of all of them. -/
def marksIn (program : List String) (f : Node) : List String := marks (touches program [] (nameEvents f))

/-- The functions of the program that a function reads as if they were variables, and has not marked itself. -/
def exposedIn (program : List String) (f : Node) : List String := exposed (touches program [] (nameEvents f))

/-- The functions of the program that are marked when the walk comes to `f`. -/
def markedBefore (program : List String) (fs : List Node) (f : Node) : List String :=
  (fs.takeWhile (·.name? != f.name?)).flatMap (marksIn program)

theorem left_of_ran {α : Type} {m : Check α} {s t : Checker} {a : α} (h : Ran m s a t) : left m s = t := by
  unfold left
  unfold Ran at h
  rw [h]

theorem check_eq_ok {fs : List Node} {ds : List Diagnostic} :
    check fs = .ok ds ↔ ∃ t s, Ran (visit (.program fs)) {} t s ∧ s.found = ds := by
  unfold check Ran
  cases (visit (.program fs)).run {} with
  | ok t s => simp
  | error f s => simp

theorem map_name?_eq {fs : List Node} (named : ∀ f ∈ fs, f.name?.isSome = true) :
    fs.map Node.name? = (fs.filterMap Node.name?).map some := by
  induction fs with
  | nil => rfl
  | cons f fs ih =>
    obtain ⟨x, hx⟩ := Option.isSome_iff_exists.1 (named f List.mem_cons_self)
    rw [List.filterMap_cons_some hx, List.map_cons, List.map_cons, hx, ih fun g hg => named g (List.mem_cons_of_mem f hg)]

theorem nodup_map_name? {fs : List Node} (shape : areFunctions fs = true) (distinct : (fs.filterMap Node.name?).Nodup) :
    (fs.map Node.name?).Nodup := by
  have named : ∀ f ∈ fs, f.name?.isSome = true := by
    intro f hf
    cases f with
    | function => rfl
    | _ => cases List.all_eq_true.1 shape _ hf
  rw [map_name?_eq named]
  exact distinct.map fun _ _ => Option.some.inj

theorem exists_perm_cons_cons {α : Type} {l : List α} {a b : α} (ha : a ∈ l) (hb : b ∈ l) (differ : a ≠ b) :
    ∃ rest, l.Perm (a :: b :: rest) := by
  obtain ⟨before, behind, rfl⟩ := List.append_of_mem ha
  have member : b ∈ before ++ behind := by
    rcases List.mem_cons.1 (List.perm_middle.subset hb) with rfl | member
    · exact absurd rfl differ
    · exact member
  obtain ⟨before', behind', split⟩ := List.append_of_mem member
  refine ⟨before' ++ behind', List.perm_middle.trans (.cons a ?_)⟩
  rw [split]
  exact List.perm_middle

/-! ### The scope of the program -/

def Binds (f : Node) (symbol : Symbol) : Prop :=
  ∃ x, f.name? = some x ∧ symbol.initialized = false ∧
    ∀ s, Ran (bindFunction f) s () { s with chain := s.chain.insert x symbol }

def programScope (symbols : Node → Symbol) (fs : List Node) : Scope := fs.map fun f => (f.name?.getD "", symbols f)

section
variable {symbols : Node → Symbol} {fs gs : List Node}

theorem names_programScope (binds : ∀ f ∈ fs, Binds f (symbols f)) :
    (programScope symbols fs).names = fs.filterMap Node.name? := by
  calc (programScope symbols fs).names
    _ = (fs.map Node.name?).map (·.getD "") := by rw [Scope.names, programScope, List.map_map, List.map_map]; rfl
    _ = fs.filterMap Node.name? := by
      rw [map_name?_eq fun f hf => (binds f hf).elim fun x h => by rw [h.1]; rfl, List.map_map]
      exact List.map_id _

theorem insert_new {scope : Scope} {x : String} (symbol : Symbol) (new : x ∉ scope.names) :
    scope.insert x symbol = scope ++ [(x, symbol)] := by
  induction scope with
  | nil => rfl
  | cons entry rest ih =>
    obtain ⟨other, new⟩ := not_or.1 (mt List.mem_cons.2 new)
    rw [Bindings.insert, if_neg (Ne.symm other), ih new]
    rfl

theorem bindProgram_programScope (binds : ∀ f ∈ fs, Binds f (symbols f)) {s : Checker}
    (distinct : (s.chain.inner.names ++ fs.filterMap Node.name?).Nodup) :
    Ran (bindProgram fs) s ()
      { s with chain := { s.chain with inner := s.chain.inner ++ programScope symbols fs } } := by
  induction fs generalizing s with
  | nil =>
    rw [bindProgram, programScope, List.map_nil, List.append_nil]
    exact ran_pure.2 ⟨rfl, rfl⟩
  | cons f fs ih =>
    obtain ⟨x, hx, -, bound⟩ := binds f List.mem_cons_self
    rw [List.filterMap_cons_some hx] at distinct
    have new : x ∉ s.chain.inner.names := fun member =>
      (List.nodup_append.1 distinct).2.2 x member x List.mem_cons_self rfl
    have missing : s.chain.inner.find? x = none := by
      rw [← Option.not_isSome_iff_eq_none, Scope.isSome_find?]
      exact new
    have inserted : (s.chain.insert x (symbols f)).inner = s.chain.inner ++ [(x, symbols f)] := insert_new _ new
    have rest := ih (fun g hg => binds g (List.mem_cons_of_mem f hg))
      (s := { s with chain := s.chain.insert x (symbols f) }) (by
        rw [inserted]
        unfold Scope.names
        rw [List.map_append, List.append_assoc]
        exact distinct)
    rw [bindProgram, (ran_nameOf.2 ⟨hx, rfl⟩ : Ran (nameOf f) s x s).bind_iff,
      (ran_get.2 ⟨rfl, rfl⟩ : Ran get s s s).bind_iff, missing, if_pos Option.isNone_none, (bound s).bind_iff]
    rw [inserted, List.append_assoc] at rest
    rw [programScope, List.map_cons, hx]
    exact rest

theorem find?_perm {scope scope' : Scope} (perm : scope'.Perm scope) (distinct : scope.names.Nodup) (x : String) :
    scope'.find? x = scope.find? x := by
  induction perm with
  | nil => rfl
  | cons entry _ ih => rw [Bindings.find?_cons, Bindings.find?_cons, ih distinct.of_cons]
  | swap entry other scope =>
    simp only [Bindings.find?_cons]
    have differ : entry.1 ≠ other.1 := fun same => (List.nodup_cons.1 distinct).1 (List.mem_cons.2 (.inl same))
    by_cases he : entry.1 = x
    · rw [if_neg fun ho => differ (he.trans ho.symm), if_pos he, if_pos he]
    · rw [if_neg he, if_neg he]
  | trans _ second ih ih' => exact (ih ((second.map _).nodup_iff.2 distinct)).trans (ih' distinct)

theorem fresh_programScope (binds : ∀ f ∈ fs, Binds f (symbols f)) : Fresh (programScope symbols fs) := by
  intro x symbol hx
  obtain ⟨f, hf, e⟩ := List.mem_map.1 (mem_of_find? hx)
  obtain ⟨_, -, unset, -⟩ := binds f hf
  cases e
  exact unset

end

/-! ### Walks over functions -/

section
variable {R : Scope} {M : List String} {s t : Checker} {u : Unit} {fs : List Node}

theorem visitFunctions_cons {f : Node} (hf : f.isFunction = true) :
    visitFunctions (f :: fs) = (do let _ ← visit f; visitFunctions fs) := by
  rw [visitFunctions, if_pos hf]

theorem exists_echo (fresh : Fresh R) (shape : areFunctions fs = true) (hs : At R [] none M s)
    (hr : Ran (visitFunctions fs) s u t) : ∀ f ∈ fs, ∃ L a, Echo R [] none (nameEvents f) (visit f) a [] L := by
  induction fs generalizing M s with
  | nil => exact fun _ h => by cases h
  | cons f fs ih =>
    simp only [areFunctions, List.all_cons, Bool.and_eq_true] at shape
    rw [visitFunctions_cons shape.1.1] at hr
    obtain ⟨a, s₁, h₁, h₂⟩ := ran_bind.1 hr
    have echoes : Echoes (fun _ _ => True) (nameEvents f) (visit f) := by
      cases f with
      | function => exact function_echoes shape.1.2 fun _ hss _ => statements_echo hss
      | _ => cases shape.1.1
    obtain ⟨ins, L, echo⟩ := echoes fresh trivial hs h₁
    obtain rfl : ins = [] := List.eq_nil_of_length_eq_zero echo.length
    obtain ⟨t₁, run₁, at₁, -⟩ := echo.runs hs
    obtain ⟨-, rfl⟩ := h₁.unique run₁
    intro g hg
    rcases List.mem_cons.1 hg with rfl | hg
    · exact ⟨L, a, echo⟩
    · exact ih shape.2 at₁ h₂ g hg

/-- What is found by walks over functions, if `L` are the reports of each of them. -/
def told (program : List String) (L : Node → List Conditional) (M : List String) : List Node → List (Node × List Diagnostic)
  | [] => []
  | f :: fs => (f, (without M (L f)).map Prod.fst) :: told program L (M ++ marksIn program f) fs

theorem exists_ran_told {L : Node → List Conditional} (shape : areFunctions fs = true)
    (echo : ∀ f ∈ fs, ∃ a, Echo R [] none (nameEvents f) (visit f) a [] (L f)) (hs : At R [] none M s) :
    ∃ t, Ran (visitFunctions fs) s () t ∧ sectionsFrom s fs = told R.names L M fs ∧
      t.found = s.found ++ (sectionsFrom s fs).flatMap Prod.snd := by
  induction fs generalizing M s with
  | nil =>
    refine ⟨s, ?_, rfl, (List.append_nil _).symm⟩
    rw [visitFunctions]
    exact ran_pure.2 ⟨rfl, rfl⟩
  | cons f fs ih =>
    simp only [areFunctions, List.all_cons, Bool.and_eq_true] at shape
    obtain ⟨a, here⟩ := echo f List.mem_cons_self
    obtain ⟨s₁, run₁, at₁, found₁⟩ := here.runs hs
    obtain ⟨t, run, rest, found⟩ := ih shape.2 (fun g hg => echo g (List.mem_cons_of_mem f hg)) at₁
    have new : s₁.found.drop s.found.length = (without M (L f)).map Prod.fst := by rw [found₁, List.drop_left]
    refine ⟨t, ?_, ?_, ?_⟩
    · rw [visitFunctions_cons shape.1.1]
      exact ran_bind.2 ⟨a, s₁, run₁, run⟩
    · rw [sectionsFrom, left_of_ran run₁, new, rest]
      rfl
    · rw [sectionsFrom, left_of_ran run₁, new, List.flatMap_cons, found, found₁, List.append_assoc]

theorem told_eq (program : List String) (L : Node → List Conditional) (M : List String)
    (distinct : (fs.map Node.name?).Nodup) :
    told program L M fs = fs.map fun f => (f, (without (M ++ markedBefore program fs f) (L f)).map Prod.fst) := by
  induction fs generalizing M with
  | nil => rfl
  | cons f fs ih =>
    obtain ⟨new, distinct⟩ := List.nodup_cons.1 distinct
    rw [told, List.map_cons, ih _ distinct]
    congr 1
    · rw [markedBefore, List.takeWhile_cons_of_neg (by simp), List.flatMap_nil, List.append_nil]
    · refine List.map_congr_left fun g hg => ?_
      have other : f.name? ≠ g.name? := fun same => new (same ▸ List.mem_map_of_mem hg)
      rw [markedBefore, markedBefore, List.takeWhile_cons_of_pos (by simpa using other), List.flatMap_cons,
        List.append_assoc]

end

/-! ### Marks and reports -/

def isUnset (x : String) : Cause → Bool
  | .unset _ y => y == x
  | _ => false

section
variable {L : List Conditional} {M M' : List String}

theorem without_ne {x : String} (unset : ∀ d ∈ L, ∀ x, d.2 = some x → ∃ f, d.1.cause = .unset f x)
    (hx : x ∈ L.filterMap Prod.snd) (hM : x ∈ M) (hM' : x ∉ M') :
    (without M L).map Prod.fst ≠ (without M' L).map Prod.fst := by
  intro same
  obtain ⟨d, hd, htag⟩ := List.mem_filterMap.1 hx
  let about (M : List String) (c : Conditional) : Bool := isUnset x c.1.cause && c.2.all (!M.contains ·)
  -- of the reports about this name, those that are left where it is marked are left anyway, and `d` is not among them
  have fewer : ∀ c ∈ L, about M c = (about M c && about M' c) := by
    intro c hc
    cases hy : c.2 with
    | none => simp [about, hy]
    | some y =>
      obtain ⟨f, cause⟩ := unset c hc y hy
      by_cases hyx : y = x
      · subst hyx
        simp [about, hy, hM]
      · simp [about, cause, isUnset, hyx]
  have left : about M' d = true := by
    obtain ⟨f, cause⟩ := unset d hd x htag
    simp [about, cause, isUnset, htag, hM']
  have gone : about M d = false := by simp [about, htag, hM]
  have counts := congrArg (fun ds => (ds.filter (isUnset x ·.cause)).length) same
  simp only [without, List.filter_map, List.length_map, List.filter_filter] at counts
  have subset : L.filter (about M) = (L.filter (about M')).filter (about M) := by
    rw [List.filter_filter]
    exact List.filter_congr fewer
  have less : (L.filter (about M)).length < (L.filter (about M')).length := by
    rw [subset]
    refine List.length_filter_lt_length_iff_exists.2 ⟨d, List.mem_filter.2 ⟨hd, left⟩, ?_⟩
    rw [gone]
    exact Bool.false_ne_true
  exact Nat.ne_of_lt less counts

theorem without_eq_iff (unset : ∀ d ∈ L, ∀ x, d.2 = some x → ∃ f, d.1.cause = .unset f x) :
    (without M L).map Prod.fst = (without M' L).map Prod.fst ↔ ∀ x ∈ L.filterMap Prod.snd, (x ∈ M ↔ x ∈ M') := by
  constructor
  · intro same x hx
    constructor
    · exact fun hM => Classical.byContradiction fun hM' => without_ne unset hx hM hM' same
    · exact fun hM' => Classical.byContradiction fun hM => without_ne unset hx hM' hM same.symm
  · intro agree
    refine congrArg _ (List.filter_congr fun d hd => ?_)
    cases hy : d.2 with
    | none => rfl
    | some y =>
      have marked := agree y (List.mem_filterMap.2 ⟨d, hd, hy⟩)
      simp [marked]

end

/-! ### Programs -/

section
variable {fs : List Node} {ds : List Diagnostic}

theorem exists_binds (shape : areFunctions fs = true) (ends : check fs = .ok ds) : ∀ f ∈ fs, ∃ symbol, Binds f symbol := by
  obtain ⟨t, s, run, -⟩ := check_eq_ok.1 ends
  have unarrowed := (program_ends_iff shape {}).1 ⟨t, s, run⟩
  rw [Node.unarrowed_iff, Node.under, Node.unarrowed_all] at unarrowed
  intro f hf
  have both := List.all_eq_true.1 shape f hf
  rw [Bool.and_eq_true] at both
  have bare := (Node.unarrowed_iff.1 (unarrowed.2 f hf)).1
  obtain ⟨u, s', bound⟩ := ((bindFunction_ends (I := fun _ => True) both.1 both.2).ends_iff {} trivial).2 bare
  obtain ⟨x, symbol, always⟩ := bindFunction_always bound
  exact ⟨symbol, x, always⟩

/-- **What is found in each function of a program, in every order of the functions.**  It depends on the functions that are
marked before, and only as far as the function reads them. -/
theorem exists_reports (shape : areFunctions fs = true) (distinct : (fs.filterMap Node.name?).Nodup)
    (ends : check fs = .ok ds) : ∃ L : Node → List Conditional,
      (∀ f ∈ fs, (L f).filterMap Prod.snd = exposedIn (fs.filterMap Node.name?) f ∧
        ∀ d ∈ L f, ∀ x, d.2 = some x → ∃ g, d.1.cause = .unset g x) ∧
      ∀ fs', fs'.Perm fs → check fs' = .ok ((sections fs').flatMap Prod.snd) ∧ sections fs' =
        fs'.map fun f => (f, (without (markedBefore (fs.filterMap Node.name?) fs' f) (L f)).map Prod.fst) := by
  have : Nonempty Symbol := ⟨{ name := "", kind := .variable }⟩
  choose! symbols binds using exists_binds shape ends
  have names := names_programScope binds
  have fresh := fresh_programScope binds
  -- the state in which the walks over the functions start, in any order
  have start : ∀ {fs'}, fs'.Perm fs → Ran (bindProgram fs') {} () { chain := { inner := programScope symbols fs' } } ∧
      At (programScope symbols fs) [] none [] { chain := { inner := programScope symbols fs' } } := by
    intro fs' perm
    refine ⟨bindProgram_programScope (fun f hf => binds f (perm.subset hf)) ?_, ⟨_, rfl, fun x => ?_⟩, rfl⟩
    · exact (perm.filterMap _).nodup_iff.2 distinct
    · have unmarked : markedBy [] x = id := funext fun _ => if_neg List.not_mem_nil
      rw [unmarked, Option.map_id_fun]
      exact find?_perm (perm.map _) (names ▸ distinct : (programScope symbols fs).names.Nodup) x
  obtain ⟨t, s, run, -⟩ := check_eq_ok.1 ends
  rw [visit, (start (.refl fs)).1.bind_iff] at run
  obtain ⟨_, s₁, walk, -⟩ := ran_bind.1 run
  choose! L echo using exists_echo fresh shape (start (.refl fs)).2 walk
  refine ⟨L, fun f hf => ?_, fun fs' perm => ?_⟩
  · obtain ⟨a, here⟩ := echo f hf
    refine ⟨?_, here.unset⟩
    rw [here.conditions, names]
    rfl
  · have shape' : areFunctions fs' = true := by
      unfold areFunctions at shape ⊢
      rw [List.all_eq_true] at shape ⊢
      exact fun f hf => shape f (perm.subset hf)
    obtain ⟨t, run', told', found⟩ := exists_ran_told shape' (fun f hf => echo f (perm.subset hf)) (start perm).2
    have all : sections fs' = sectionsFrom { chain := { inner := programScope symbols fs' } } fs' := by
      rw [sections, left_of_ran (start perm).1]
    constructor
    · refine check_eq_ok.2 ⟨none, t, ?_, ?_⟩
      · rw [visit, (start perm).1.bind_iff, run'.bind_iff]
        exact ran_pure.2 ⟨rfl, rfl⟩
      · rw [found, all]
        rfl
    · have distinct' : (fs'.map Node.name?).Nodup := (perm.map _).nodup_iff.2 (nodup_map_name? shape distinct)
      rw [all, told', told_eq _ _ _ distinct', names]
      rfl

/-- **A permutation permutes the sections exactly if no function sees it.** -/
theorem sections_perm_iff (shape : areFunctions fs = true) (distinct : (fs.filterMap Node.name?).Nodup)
    (ends : check fs = .ok ds) {fs' : List Node} (perm : fs'.Perm fs) : (sections fs').Perm (sections fs) ↔
      ∀ f ∈ fs, ∀ x ∈ exposedIn (fs.filterMap Node.name?) f,
        (x ∈ markedBefore (fs.filterMap Node.name?) fs' f ↔ x ∈ markedBefore (fs.filterMap Node.name?) fs f) := by
  obtain ⟨L, reports, orders⟩ := exists_reports shape distinct ends
  rw [(orders fs' perm).2, (orders fs (.refl fs)).2]
  constructor
  · intro same f hf
    obtain ⟨g, -, e⟩ := List.mem_map.1 (same.subset (List.mem_map_of_mem (perm.symm.subset hf)))
    obtain ⟨rfl, e⟩ := Prod.mk.inj e
    rw [← (reports g hf).1]
    exact (without_eq_iff (reports g hf).2).1 e.symm
  · intro agree
    refine List.Perm.trans (.of_eq (List.map_congr_left fun f hf => ?_)) (perm.map _)
    have hf := perm.subset hf
    refine congrArg (f, ·) ((without_eq_iff (reports f hf).2).2 ?_)
    rw [(reports f hf).1]
    exact agree f hf

end

/-- **When the order of functions can be seen.**  Take a program whose functions have distinct names, and that is walked to its
end.  Every permutation of it is walked to its end, and finds what the sections of its functions say.  These are the
sections of the program, in another order, if and only if for every function the same names are marked before it, of
those that it reads and has not marked itself.  So all orders are alike if and only if no function marks a name that
another one reads. -/
theorem order_matters_iff {fs : List Node} {ds : List Diagnostic} (shape : areFunctions fs = true)
    (distinct : (fs.filterMap Node.name?).Nodup) (ends : check fs = .ok ds) :
    (∀ fs', fs'.Perm fs → check fs' = .ok ((sections fs').flatMap Prod.snd) ∧ ((sections fs').Perm (sections fs) ↔
      ∀ f ∈ fs, ∀ x ∈ exposedIn (fs.filterMap Node.name?) f,
        (x ∈ markedBefore (fs.filterMap Node.name?) fs' f ↔ x ∈ markedBefore (fs.filterMap Node.name?) fs f))) ∧
    ((∀ fs', fs'.Perm fs → (sections fs').Perm (sections fs)) ↔ ∀ f ∈ fs, ∀ g ∈ fs, f ≠ g →
      ∀ x ∈ exposedIn (fs.filterMap Node.name?) f, x ∉ marksIn (fs.filterMap Node.name?) g) := by
  have permuted {fs' : List Node} (perm : fs'.Perm fs) := sections_perm_iff shape distinct ends perm
  refine ⟨fun fs' perm => ?_, fun alike f hf g hg other x hx marked => ?_, fun apart fs' perm => ?_⟩
  · obtain ⟨_, -, orders⟩ := exists_reports shape distinct ends
    exact ⟨(orders fs' perm).1, permuted perm⟩
  · -- `f` comes first of all, or right behind `g`
    obtain ⟨rest, split⟩ := exists_perm_cons_cons hf hg other
    have swapped : (g :: f :: rest).Perm fs := (List.Perm.swap f g rest).trans split.symm
    have names : g.name? ≠ f.name? := fun same =>
      other (List.inj_on_of_nodup_map (nodup_map_name? shape distinct) hf hg same.symm)
    have first := (permuted split.symm).1 (alike _ split.symm) f hf x hx
    have behind := (permuted swapped).1 (alike _ swapped) f hf x hx
    rw [← first, markedBefore, markedBefore, List.takeWhile_cons_of_pos (by simpa using names),
      List.takeWhile_cons_of_neg (by simp), List.takeWhile_cons_of_neg (by simp)] at behind
    simpa using behind.1 (List.mem_flatMap.2 ⟨g, List.mem_singleton_self g, marked⟩)
  · refine (permuted perm).2 fun f hf x hx => ?_
    have unmarked : ∀ {gs : List Node}, gs.Perm fs → x ∉ markedBefore (fs.filterMap Node.name?) gs f := by
      intro gs perm member
      obtain ⟨g, hg, marked⟩ := List.mem_flatMap.1 member
      have differ : g.name? ≠ f.name? := by simpa using List.all_eq_true.1 List.all_takeWhile g hg
      exact apart f hf g (perm.subset (List.takeWhile_subset _ hg)) (fun same => differ (congrArg _ same.symm)) x hx marked
    exact iff_of_false (unmarked perm) (unmarked (.refl fs))

end Check

namespace Session

open Check

/-- A function that assigns to a function, and one that reads another function. -/
def readFunction : String :=
  "funk f() <null> \x7b h = -1; return; \x7d funk g() <int> \x7b x :: int; x = f; return x; \x7d " ++
  "funk h() <null> \x7b return; \x7d"

theorem readFunction_orders : ∃ fs ∈ (reading {} readFunction).functions, areFunctions fs = true ∧
    (fs.filterMap Node.name?).Nodup ∧ check fs = .ok [⟨.unset "g" "f", 1⟩] ∧
    ∀ fs', fs'.Perm fs → check fs' = .ok ((sections fs').flatMap Prod.snd) ∧ (sections fs').Perm (sections fs) := by
  have evaluated : ∃ fs ∈ (reading {} readFunction).functions, areFunctions fs = true ∧
      (fs.filterMap Node.name?).Nodup ∧ check fs = .ok [⟨.unset "g" "f", 1⟩] ∧ ∀ f ∈ fs, ∀ g ∈ fs,
        ∀ x ∈ exposedIn (fs.filterMap Node.name?) f, x ∉ marksIn (fs.filterMap Node.name?) g := by
    unfold readFunction
    rw [reading_ofList_append]
    decide +kernel
  obtain ⟨fs, hf, shape, distinct, ends, apart⟩ := evaluated
  obtain ⟨orders, alike⟩ := order_matters_iff shape distinct ends
  refine ⟨fs, hf, shape, distinct, ends, fun fs' perm => ⟨(orders fs' perm).1, ?_⟩⟩
  exact alike.2 (fun f hf g hg _ => apart f hf g hg) fs' perm

/-- A function that assigns to a function, and another one that reads it. -/
def assignedFunction : String :=
  "funk f() <null> \x7b h = -1; return; \x7d funk g() <int> \x7b x :: int; x = h; return x; \x7d " ++
  "funk h() <null> \x7b return; \x7d"

theorem assignedFunction_order : (compile assignedFunction {}).1 = [] ∧ ∃ f g h : Node,
    (reading {} assignedFunction).functions = some [f, g, h] ∧ [f, g, h].filterMap Node.name? = ["f", "g", "h"] ∧
      check [f, g, h] = .ok [] ∧ check [g, f, h] = .ok [⟨.unset "g" "h", 1⟩] := by
  have evaluated : ∃ fs ∈ (reading {} assignedFunction).functions, (reading {} assignedFunction).errors = [] ∧
      (reading {} assignedFunction).fault = none ∧ fs.length = 3 ∧ fs.filterMap Node.name? = ["f", "g", "h"] ∧
        check fs = .ok [] ∧ check ((fs.drop 1).take 1 ++ (fs.take 1 ++ fs.drop 2)) = .ok [⟨.unset "g" "h", 1⟩] := by
    unfold assignedFunction
    rw [reading_ofList_append]
    decide +kernel
  obtain ⟨fs, hf, errors, fault, three, names, clean, swapped⟩ := evaluated
  obtain ⟨f, g, h, rfl⟩ := List.length_eq_three.1 three
  refine ⟨compile_eq_nil.2 ⟨errors, fault, fun fs' hf' => ?_⟩, f, g, h, hf, names, clean, swapped⟩
  obtain rfl := Option.some.inj (hf.symm.trans hf')
  exact clean

end Session
end TesLang
