import Mathlib.Data.List.Forall2
import Mathlib.Data.List.Nodup
import TesLang.Proofs.Checking.History
import TesLang.Proofs.Checking.Run
import TesLang.Proofs.Checking.Scope
/-!
# Marks and histories

The checker keeps scopes of symbols, and marks the symbol of a variable that gets a value, in whatever scope it is.  A
history knows of no marks: it tells which bindings are open, and which of them have got a value.  A history leads to a state
of the checker if both come to the same (`Leads`): the open scopes bind the names that are bound by the open functions, and
a symbol is marked exactly if its binding has got a value.

Bindings have numbers of their own, so the event that gives one of them a value leaves all others as they are, in the same
scope and in the scopes around it (`marked_updateFirst`).  With this, each check of the checker is followed by the event
that it stands for, and finds what the history tells (`Plays`).
-/
namespace TesLang

open Checker

namespace Check

/-! ### Scopes and histories -/

/-- A scope binds the same names as a function does, and the symbols are marked as `V` says of the bindings. -/
def Marked (V : Nat → Bool) (s : Scope) (f : Frame) : Prop :=
  ∀ x, (s.find? x).map (·.initialized) = (f.bindings.find? x).map V

section
variable {V V' : Nat → Bool} {scopes : List Scope} {frames : List Frame}

namespace Marked

variable {s : Scope} {f : Frame}

theorem isSome_find? (h : Marked V s f) (x : String) : (s.find? x).isSome = (f.bindings.find? x).isSome := by
  rw [← Option.isSome_map, h x, Option.isSome_map]

theorem congr (h : Marked V s f) (same : ∀ b ∈ f.bindings.map (·.2), V' b = V b) : Marked V' s f := by
  intro x
  rw [h x]
  cases hx : f.bindings.find? x with
  | none => rfl
  | some b => exact congrArg some (same b (mem_map_of_find? hx)).symm

theorem insert (h : Marked V s f) (x : String) {n : Nat} {symbol : Symbol} (new : V n = symbol.initialized) :
    Marked V (s.insert x symbol) { f with bindings := (x, n) :: f.bindings } := by
  intro y
  rw [Bindings.find?_insert, Bindings.find?_cons]
  by_cases hxy : x = y
  · rw [if_pos hxy, if_pos hxy]
    exact congrArg some new.symm
  · rw [if_neg hxy, if_neg hxy]
    exact h y

theorem update {x : String} {b : Nat} (h : Marked V s f) (nodup : (f.bindings.map (·.2)).Nodup)
    (hb : f.bindings.find? x = some b) (set : V' b = true) (same : ∀ c ∈ f.bindings.map (·.2), c ≠ b → V' c = V c) :
    Marked V' (s.update x Symbol.settled) f := by
  intro y
  rw [Bindings.find?_update]
  by_cases hxy : x = y
  · subst hxy
    rw [if_pos rfl, hb, Option.map_some, set]
    have bound := h.isSome_find? x
    rw [hb] at bound
    obtain ⟨symbol, hs⟩ := Option.isSome_iff_exists.1 bound
    rw [hs]
    rfl
  · rw [if_neg hxy, h y]
    cases hy : f.bindings.find? y with
    | none => rfl
    | some c =>
      have other : c ≠ b := by
        rintro rfl
        exact hxy (congrArg Prod.fst (List.inj_on_of_nodup_map nodup (mem_of_find? hb) (mem_of_find? hy) rfl))
      exact congrArg some (same c (mem_map_of_find? hy) other).symm

end Marked

theorem marked_congr (h : List.Forall₂ (Marked V) scopes frames) (same : ∀ b ∈ numbers frames, V' b = V b) :
    List.Forall₂ (Marked V') scopes frames := by
  induction h with
  | nil => exact .nil
  | cons head _ tail =>
    have parts := List.forall_mem_append.1 same
    exact .cons (head.congr parts.1) (tail parts.2)

theorem lookup_marked (h : List.Forall₂ (Marked V) scopes frames) (x : String) :
    (scopes.findSome? (·.find? x)).map (·.initialized) = (innermost frames x).map V := by
  induction h with
  | nil => rfl
  | @cons s f ss fs head rest tail =>
    unfold innermost at tail ⊢
    rw [List.findSome?_cons, List.findSome?_cons]
    have hx := head x
    cases hb : f.bindings.find? x with
    | none =>
      rw [hb, Option.map_none, Option.map_eq_none_iff] at hx
      rw [hx]
      exact tail
    | some b =>
      rw [hb] at hx
      obtain ⟨symbol, hs, initialized⟩ := Option.map_eq_some_iff.1 hx
      rw [hs]
      exact congrArg some initialized

theorem marked_updateFirst {x : String} {b : Nat} (h : List.Forall₂ (Marked V) scopes frames)
    (nodup : (numbers frames).Nodup) (hx : innermost frames x = some b) (set : V' b = true)
    (same : ∀ c ∈ numbers frames, c ≠ b → V' c = V c) :
    List.Forall₂ (Marked V') (Chain.updateFirst x Symbol.settled scopes) frames := by
  induction h with
  | nil => cases hx
  | @cons s f ss fs head rest tail =>
    obtain ⟨nodupHere, nodupBeyond, apart⟩ := List.nodup_append.1 nodup
    obtain ⟨sameHere, sameBeyond⟩ := List.forall_mem_append.1 same
    rw [Chain.updateFirst, head.isSome_find?]
    rw [innermost, List.findSome?_cons] at hx
    cases hb : f.bindings.find? x with
    | some c =>
      rw [hb] at hx
      cases hx
      rw [Option.isSome_some, if_pos rfl]
      exact .cons (head.update nodupHere hb set sameHere)
        (marked_congr rest fun c hc => sameBeyond c hc (apart b (mem_map_of_find? hb) c hc).symm)
    | none =>
      rw [hb] at hx
      have mem : b ∈ numbers fs := mem_numbers_of_innermost hx
      rw [Option.isSome_none, if_neg Bool.false_ne_true]
      exact .cons (head.congr fun c hc => sameHere c hc (apart c hc b mem)) (tail nodupBeyond hx sameBeyond)

end

/-- A history leads to a state: the scopes that are open bind what the history says, each variable is marked if it has got
a value, and the walk is inside the function that was entered last. -/
structure Leads (h : History) (s : Checker) : Prop where
  scopes : List.Forall₂ (Marked (isSet · h)) s.chain.scopes (openFrames h)
  function : s.enclosing.bind (·.name) = openFunction h

namespace Leads

variable {h : History} {s s' : Checker} {e : NameEvent} {x : String}

theorem start : Leads [] {} := ⟨.cons (fun _ => rfl) .nil, rfl⟩

theorem lookup (hl : Leads h s) (x : String) :
    (s.chain.lookup x).map (·.initialized) = (bindingOf h x).map (isSet · h) := lookup_marked hl.scopes x

theorem lookup_none (hl : Leads h s) (hx : bindingOf h x = none) : s.chain.lookup x = none := by
  have found := hl.lookup x
  rw [hx] at found
  exact Option.map_eq_none_iff.1 found

theorem lookup_some {b : Nat} (hl : Leads h s) (hx : bindingOf h x = some b) :
    ∃ symbol, s.chain.lookup x = some symbol ∧ symbol.initialized = isSet b h := by
  have found := hl.lookup x
  rw [hx] at found
  exact Option.map_eq_some_iff.1 found

theorem exists_cons (hl : Leads h s) : ∃ f fs, openFrames h = f :: fs ∧ Marked (isSet · h) s.chain.inner f ∧
    List.Forall₂ (Marked (isSet · h)) s.chain.outer fs := by
  have scopes : List.Forall₂ _ (s.chain.inner :: s.chain.outer) (openFrames h) := hl.scopes
  obtain ⟨f, fs, head, tail, e⟩ := List.forall₂_cons_left_iff.1 scopes
  exact ⟨f, fs, e, head, tail⟩

theorem isSome_inner (hl : Leads h s) (x : String) :
    (s.chain.inner.find? x).isSome = (innermost ((openFrames h).take 1) x).isSome := by
  obtain ⟨f, fs, e, head, -⟩ := hl.exists_cons
  rw [head.isSome_find? x, e, innermost, List.take_succ_cons, List.take_zero, List.findSome?_cons]
  cases f.bindings.find? x <;> rfl

theorem notes (hl : Leads h s) (hn : Notes s s') : Leads h s' := by
  constructor
  · rw [hn.chain]
    exact hl.scopes
  · rw [hn.enclosing]
    exact hl.function

theorem idle (hl : Leads h s) (frames : openFrames (e :: h) = openFrames h) (set : ∀ b, sets h b e = false) :
    Leads (e :: h) s := by
  constructor
  · rw [frames]
    refine marked_congr hl.scopes fun b _ => ?_
    rw [isSet, set b, Bool.false_or]
  · unfold openFunction
    rw [frames]
    exact hl.function

theorem insert (hl : Leads h s) {symbol : Symbol} (frames : openFrames (e :: h) = bindInner x h.length (openFrames h))
    (set : ∀ b, sets h b e = (symbol.initialized && h.length == b)) :
    Leads (e :: h) { s with chain := s.chain.insert x symbol } := by
  have here : isSet h.length (e :: h) = symbol.initialized := by
    rw [isSet, set, isSet_length, Bool.or_false, beq_self_eq_true, Bool.and_true]
  have same : ∀ b ∈ numbers (openFrames h), isSet b (e :: h) = isSet b h := by
    intro b hb
    have other : (h.length == b) = false := beq_eq_false_iff_ne.2 (Nat.ne_of_gt (lt_of_mem_numbers hb))
    rw [isSet, set, other, Bool.and_false, Bool.false_or]
  constructor
  · obtain ⟨f, fs, hf, -, -⟩ := hl.exists_cons
    have marked := marked_congr hl.scopes same
    rw [frames, hf]
    rw [hf] at marked
    cases marked with
    | cons head tail => exact .cons (head.insert x here) tail
  · unfold openFunction
    rw [frames, function_bindInner]
    exact hl.function

theorem assigned {b : Nat} (hl : Leads h s) (hx : bindingOf h x = some b) (frames : openFrames (e :: h) = openFrames h)
    (set : ∀ c, sets h c e = (b == c)) : Leads (e :: h) { s with chain := s.chain.assigned x } := by
  constructor
  · rw [frames, Chain.scopes_assigned]
    refine marked_updateFirst hl.scopes (nodup_numbers h) hx ?_ fun c _ other => ?_
    · rw [isSet, set, beq_self_eq_true, Bool.true_or]
    · rw [isSet, set, beq_eq_false_iff_ne.2 other.symm, Bool.false_or]
  · unfold openFunction
    rw [frames]
    exact hl.function

theorem enter (hl : Leads h s) (kind f : String) (returnType : Option String) :
    Leads (.enter f :: h) { s with enclosing := some ⟨kind, some f, returnType⟩, chain := s.chain.enter } := by
  constructor
  · exact .cons (fun _ => rfl) (marked_congr hl.scopes fun _ _ => rfl)
  · rfl

theorem leave {h' : History} {f : Option String} (hl : Leads h s) (hl' : Leads h' s')
    (functions : (openFrames h').map (·.function) = f :: (openFrames h).map (·.function)) :
    Leads (.leave :: h') { s' with enclosing := s.enclosing, chain := s'.chain.leave } := by
  obtain ⟨g, gs, e, -, -⟩ := hl.exists_cons
  obtain ⟨g', gs', e', -, outer⟩ := hl'.exists_cons
  rw [e', List.map_cons] at functions
  have rest : gs'.map (·.function) = (openFrames h).map (·.function) := (List.cons.inj functions).2
  constructor
  · show List.Forall₂ _ _ (openFrames h').tail
    rw [e', List.tail_cons]
    have scopes : s'.chain.leave.scopes = s'.chain.outer := by
      unfold Chain.leave
      cases ho : s'.chain.outer with
      | cons => rfl
      | nil =>
        rw [ho] at outer
        cases outer
        rw [e] at rest
        cases rest
    rw [scopes]
    exact marked_congr outer fun _ _ => rfl
  · show _ = ((openFrames h').tail.map _).headD none
    rw [e', List.tail_cons, rest]
    exact hl.function

end Leads

/-! ### Walks and what happens on them -/

def nameErrors (s : Checker) : List Diagnostic := s.found.filter (·.cause.isName)

structure Quiet (s s' : Checker) : Prop where
  notes : Notes s s'
  names : nameErrors s' = nameErrors s

theorem Quiet.refl (s : Checker) : Quiet s s := ⟨.refl s, rfl⟩

theorem Quiet.trans {s s' s'' : Checker} (h : Quiet s s') (h' : Quiet s' s'') : Quiet s s'' :=
  ⟨h.notes.trans h'.notes, h'.names.trans h.names⟩

theorem plain_quiet : Plain fun {_} m => Steady Quiet m := by
  refine .of_get (.pure .refl) (fun first rest => Steady.bind .trans first rest) ?_ ?_ ?_
  · intro s a s' hr
    obtain ⟨-, rfl⟩ := ran_get.1 hr
    exact .refl _
  · intro s f s' hr
    obtain ⟨-, rfl⟩ := ran_enclosingName.1 hr
    exact .refl _
  · intro cause line hc s u s' hr
    obtain rfl := ran_report.1 hr
    refine ⟨⟨_, rfl⟩, ?_⟩
    unfold nameErrors
    rw [List.filter_append, List.filter_singleton, hc]
    exact List.append_nil _

/-- Inside a function as `I` says, runs of `m` go along with the events `es`: from a state that a history leads to, they
come to the state that the history leads to when the events have happened, and find the errors that the history tells.  All
functions that are entered are left. -/
structure Plays (I : Option String → Prop) (es : List NameEvent) {α : Type} (m : Check α) : Prop where
  functions : ∀ h, (openFrames (es.reverse ++ h)).map (·.function) = (openFrames h).map (·.function)
  leads : ∀ {h s a s'}, I (openFunction h) → Leads h s → Ran m s a s' → Leads (es.reverse ++ h) s'
  finds : ∀ {h s a s'}, I (openFunction h) → Leads h s → Ran m s a s' → nameErrors s' = nameErrors s ++ findings h es

def NameEvent.stays : NameEvent → Bool
  | .enter _ | .leave => false
  | _ => true

theorem functions_stay {e : NameEvent} (he : e.stays = true) (h : History) :
    (openFrames (e :: h)).map (·.function) = (openFrames h).map (·.function) := by
  cases e with
  | bind x _ => exact function_bindInner _ _ _
  | declare x =>
    rw [openFrames]
    split
    · rfl
    · exact function_bindInner _ _ _
  | loop x =>
    rw [openFrames]
    split
    · rfl
    · exact function_bindInner _ _ _
  | assign _ _ | member _ _ | use _ _ => rfl
  | enter _ | leave => cases he

namespace Plays

variable {α β : Type} {I : Option String → Prop} {es es' : List NameEvent} {e : NameEvent} {m : Check α} {f : α → Check β}

theorem openFunction_eq (h : Plays I es m) (h' : History) : openFunction (es.reverse ++ h') = openFunction h' := by
  unfold openFunction
  rw [h.functions]

theorem of_quiet (h : Steady Quiet m) : Plays I [] m where
  functions _ := rfl
  leads _ hl hr := hl.notes (h _ _ _ hr).notes
  finds _ _ hr := by rw [(h _ _ _ hr).names, findings, List.append_nil]

theorem pure (a : α) : Plays I [] (pure a : Check α) := .of_quiet (plain_quiet.pure a)

theorem bind [Nonempty α] (first : Plays I es m) (rest : ∀ a, Plays I es' (f a)) : Plays I (es ++ es') (m >>= f) where
  functions h := by
    rw [List.reverse_append, List.append_assoc, (rest Classical.ofNonempty).functions, first.functions]
  leads {h s b s'} hi hl hr := by
    obtain ⟨a, s₁, h₁, h₂⟩ := ran_bind.1 hr
    rw [List.reverse_append, List.append_assoc]
    exact (rest a).leads (first.openFunction_eq h ▸ hi) (first.leads hi hl h₁) h₂
  finds {h s b s'} hi hl hr := by
    obtain ⟨a, s₁, h₁, h₂⟩ := ran_bind.1 hr
    rw [(rest a).finds (first.openFunction_eq h ▸ hi) (first.leads hi hl h₁) h₂, first.finds hi hl h₁, List.append_assoc,
      ← findings_append]

theorem after [Nonempty α] (first : Steady Quiet m) (rest : ∀ a, Plays I es' (f a)) : Plays I es' (m >>= f) :=
  (of_quiet first).bind rest

theorem before [Nonempty α] (first : Plays I es m) (rest : ∀ a, Steady Quiet (f a)) : Plays I es (m >>= f) := by
  rw [← List.append_nil es]
  exact first.bind fun a => of_quiet (rest a)

theorem result [Nonempty α] (first : Plays I es m) (b : β) : Plays I es (m >>= fun _ => Pure.pure b) :=
  first.before fun _ => plain_quiet.pure b

theorem single (he : e.stays = true) (h : ∀ {h s a s'}, Leads h s → Ran m s a s' →
    Leads (e :: h) s' ∧ nameErrors s' = nameErrors s ++ verdict h e) : Plays I [e] m where
  functions h := functions_stay he h
  leads _ hl hr := (h hl hr).1
  finds _ hl hr := by rw [(h hl hr).2, findings, findings, List.append_nil]

end Plays

/-! ### Single names -/

section
variable {I : Option String → Prop}

theorem Leads.reportIn {h : History} {s s' : Checker} {u : Unit} {cause : String → Cause} {line : Int} (hl : Leads h s)
    (named : ∀ f, (cause f).isName = true)
    (hr : Ran (do let function ← enclosingName; report (cause function) line) s u s') :
    Leads h s' ∧ nameErrors s' = nameErrors s ++ [⟨cause ((openFunction h).getD ""), line⟩] := by
  obtain ⟨f, s₁, h₁, h₂⟩ := ran_bind.1 hr
  obtain ⟨hf, rfl⟩ := ran_enclosingName.1 h₁
  obtain rfl := ran_report.1 h₂
  rw [← hl.function, hf]
  refine ⟨hl.notes ⟨_, rfl⟩, ?_⟩
  unfold nameErrors
  rw [List.filter_append, List.filter_singleton, named]
  rfl

theorem checkIdentifier_plays (x : String) (line : Int) : Plays I [.use x line] (checkIdentifier x line) := by
  refine .single rfl fun {h s u s'} hl hr => ?_
  rw [checkIdentifier, (ran_lookup.2 ⟨rfl, rfl⟩ : Ran (lookup x) s _ s).bind_iff] at hr
  cases hx : bindingOf h x with
  | none =>
    rw [hl.lookup_none hx] at hr
    obtain ⟨hl', names⟩ := hl.reportIn (fun _ => rfl) hr
    rw [verdict, hx]
    exact ⟨hl'.idle rfl fun _ => rfl, names⟩
  | some b =>
    obtain ⟨symbol, hs, marked⟩ := hl.lookup_some hx
    rw [hs] at hr
    dsimp only at hr
    rw [verdict, hx]
    dsimp only
    rw [marked] at hr
    cases hb : isSet b h with
    | true =>
      rw [hb] at hr
      obtain ⟨-, rfl⟩ := ran_pure.1 hr
      exact ⟨hl.idle rfl fun _ => rfl, (List.append_nil _).symm⟩
    | false =>
      rw [hb] at hr
      obtain ⟨hl', names⟩ := hl.reportIn (fun _ => rfl) hr
      exact ⟨hl'.idle rfl fun _ => rfl, names⟩

theorem assignElement_plays (x : String) (line : Int) : Plays I [.member x line] (assignElement x line) := by
  refine .single rfl fun {h s u s'} hl hr => ?_
  rw [assignElement, (ran_lookup.2 ⟨rfl, rfl⟩ : Ran (lookup x) s _ s).bind_iff] at hr
  cases hx : bindingOf h x with
  | none =>
    rw [hl.lookup_none hx] at hr
    obtain ⟨hl', names⟩ := hl.reportIn (fun _ => rfl) hr
    rw [verdict, hx]
    exact ⟨hl'.idle rfl fun _ => rfl, names⟩
  | some b =>
    obtain ⟨symbol, hs, -⟩ := hl.lookup_some hx
    rw [hs] at hr
    have quiet := plain_quiet.notVector x symbol line _ _ _ hr
    rw [verdict, hx]
    exact ⟨(hl.notes quiet.notes).idle rfl fun _ => rfl, quiet.names.trans (List.append_nil _).symm⟩

theorem assignVariable_plays (x : String) (value : Node) (line : Int) :
    Plays I [.assign x line] (assignVariable x value line) := by
  refine .single rfl fun {h s u s'} hl hr => ?_
  rw [assignVariable, (ran_lookup.2 ⟨rfl, rfl⟩ : Ran (lookup x) s _ s).bind_iff] at hr
  cases hx : bindingOf h x with
  | none =>
    rw [hl.lookup_none hx] at hr
    obtain ⟨hl', names⟩ := hl.reportIn (fun _ => rfl) hr
    rw [verdict, hx]
    exact ⟨hl'.idle rfl fun b => by rw [sets, hx]; rfl, names⟩
  | some b =>
    obtain ⟨symbol, hs, -⟩ := hl.lookup_some hx
    rw [hs, ran_bind] at hr
    obtain ⟨_, s₁, h₁, hr⟩ := hr
    obtain rfl := ran_assigned.1 h₁
    have quiet := plain_quiet.mismatch x symbol value line _ _ _ hr
    have set : Leads (.assign x line :: h) { s with chain := s.chain.assigned x } :=
      hl.assigned hx rfl fun c => by rw [sets, hx]; rfl
    rw [verdict, hx]
    exact ⟨set.notes quiet.notes, quiet.names.trans (List.append_nil _).symm⟩

theorem bindLoopVariable_plays (x : String) (line : Int) : Plays I [.loop x] (bindLoopVariable x line) := by
  refine .single rfl fun {h s u s'} hl hr => ?_
  rw [bindLoopVariable, (ran_lookup.2 ⟨rfl, rfl⟩ : Ran (lookup x) s _ s).bind_iff] at hr
  have names (c : Chain) : nameErrors { s with chain := c } = nameErrors s ++ [] := (List.append_nil _).symm
  cases hx : bindingOf h x with
  | none =>
    rw [hl.lookup_none hx] at hr
    obtain rfl := ran_bindName.1 hr
    refine ⟨hl.insert ?_ fun b => ?_, names _⟩
    · rw [openFrames, if_neg (by rw [← bindingOf, hx]; simp)]
    · rw [sets, hx]
      rfl
  | some b =>
    obtain ⟨symbol, hs, -⟩ := hl.lookup_some hx
    rw [hs] at hr
    obtain rfl := ran_assigned.1 hr
    refine ⟨hl.assigned hx ?_ fun c => ?_, names _⟩
    · rw [openFrames, if_pos (by rw [← bindingOf, hx]; rfl)]
    · rw [sets, hx]
      rfl

theorem Leads.declare {h : History} {s : Checker} {x : String} {symbol : Symbol} (hl : Leads h s)
    (new : s.chain.inner.find? x = none) (unset : symbol.initialized = false) :
    Leads (.declare x :: h) { s with chain := s.chain.insert x symbol } := by
  have inner := hl.isSome_inner x
  rw [new] at inner
  refine hl.insert ?_ fun b => ?_
  · rw [openFrames, ← inner]
    rfl
  · rw [unset]
    rfl

theorem Leads.redeclare {h : History} {s : Checker} {x : String} (hl : Leads h s)
    (bound : (s.chain.inner.find? x).isSome = true) : Leads (.declare x :: h) s := by
  refine hl.idle ?_ fun _ => rfl
  rw [openFrames, ← hl.isSome_inner, if_pos bound]

theorem declare_plays (x type : String) (line : Int) : Plays I [.declare x] (declare x type line) := by
  refine .single rfl fun {h s u s'} hl hr => ?_
  rw [declare, (ran_get.2 ⟨rfl, rfl⟩ : Ran get s s s).bind_iff] at hr
  cases hx : s.chain.inner.find? x with
  | none =>
    rw [hx] at hr
    obtain rfl := ran_bindName.1 hr
    exact ⟨hl.declare hx rfl, (List.append_nil _).symm⟩
  | some _ =>
    rw [hx] at hr
    have quiet := plain_quiet.report line rfl _ _ _ hr
    exact ⟨(hl.redeclare (by rw [hx]; rfl)).notes quiet.notes, quiet.names.trans (List.append_nil _).symm⟩

end

end Check
end TesLang
