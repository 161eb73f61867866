import TesLang.Proofs.Checking.Names
import TesLang.Proofs.Written.Code
/-!
# Variables that have values

The checker lets a variable be used as a value only if it may have one.  It marks a variable where it is assigned and where
a loop runs over it, and so does the code: in a function that neither uses nor sets variables of others, the variables that
are marked have been set (`Reflects`).  What the checker has passed is then no cause for concern (`Variables.Sure`), and
whether all variables are set before they are used is left to what it does not look at: the vector of which a member is
wanted, and a variable in the range over which it loops.
-/
namespace TesLang

namespace Chain

theorem lookup_of_inner {c : Chain} {x : String} {symbol : Symbol} (h : c.inner.find? x = some symbol) :
    c.lookup x = some symbol := by
  unfold lookup scopes
  rw [List.findSome?_cons, h]

theorem inner_insert (c : Chain) (x : String) (symbol : Symbol) (y : String) :
    (c.insert x symbol).inner.find? y = if x = y then some symbol else c.inner.find? y := Bindings.find?_insert ..

theorem inner_assigned (c : Chain) (x y : String) : (c.assigned x).inner.find? y =
    if x = y then (c.inner.find? y).map Symbol.settled else c.inner.find? y := by
  have scopes := c.scopes_assigned x
  unfold Chain.scopes at scopes
  rw [updateFirst] at scopes
  split at scopes
  · rw [(List.cons.inj scopes).1]
    exact Bindings.find?_update ..
  · next h =>
    rw [(List.cons.inj scopes).1]
    split
    · next e =>
      rw [Bool.not_eq_true, Option.isSome_eq_false_iff, Option.isNone_iff_eq_none] at h
      rw [← e, h]
      rfl
    · rfl

end Chain

namespace Check

/-! ### Functions that keep to themselves -/

/-- Whether a value is that of a variable of the function that it stands in. -/
def Use.isLocal (u : Use) : Bool := u.role ≠ .value || (u.chain.inner.find? u.name).isSome

mutual

/-- Whether functions stand only directly in the bodies of functions, and give no value to a name around them. -/
def apart : Chain → Node → Bool
  | c, .function _ params _ (.several ss) _ => apartAll (inside c params (.several ss)) ss
  | _, n => Code.plain n

def apartAll : Chain → List Node → Bool
  | _, [] => true
  | c, n :: ns => apart c n && (!n.isFunction || (after c n).inner = c.inner) && apartAll (after c n) ns

end

/-- **Functions have no variables in common**: every value is that of a variable of the function that it stands in, and no
function gives a value to a name around it. -/
def selfContained (fs : List Node) : Bool := apartAll (withFunctions {} fs) fs && (usesOf fs).all Use.isLocal

def Settled (us : List Use) : Prop := ∀ u ∈ us, u.Passes ∧ u.isLocal = true

theorem settled_append {us vs : List Use} : Settled (us ++ vs) ↔ Settled us ∧ Settled vs := List.forall_mem_append

end Check

namespace Code

open Check Grammar

/-! ### Uses that are in order -/

/-- A use that the checker looks at. -/
def Event.plain : Event → Bool
  | .use _ plain | .keep _ plain => plain
  | _ => false

namespace Variables

/-- All plain uses are in order. -/
def Sure : Variables → List Event → Prop
  | _, [] => True
  | k, e :: es => (e.plain = true → k.fine e = true) ∧ Sure (k.step e) es

theorem sure_append {b : List Event} : ∀ {k : Variables} {a : List Event}, k.Sure (a ++ b) ↔ k.Sure a ∧ (k.after a).Sure b
  | _, [] => ⟨fun h => ⟨trivial, h⟩, And.right⟩
  | k, e :: a => by
    rw [List.cons_append, Sure, Sure, sure_append, and_assoc]
    rfl

theorem orderly_of_sure : ∀ {es : List Event} {k : Variables}, k.Sure es → k.orderly es = k.orderly (es.filter (!·.plain))
  | [], _, _ => rfl
  | e :: es, k, ⟨he, hes⟩ => by
    cases hp : e.plain with
    | false =>
      rw [List.filter_cons_of_pos (by simp [hp]), orderly, orderly, orderly_of_sure hes]
    | true =>
      have step : k.step e = k := by
        cases e with
        | use _ _ => rfl
        | keep x _ => exact if_pos (List.contains_iff_mem.1 (he hp))
        | _ => cases hp
      rw [List.filter_cons_of_neg (by simp [hp]), orderly, he hp, Bool.true_and, step]
      rw [step] at hes
      exact orderly_of_sure hes

theorem set_subset_after : ∀ {es : List Event} {k : Variables}, procedures es = [] → k.set ⊆ (k.after es).set
  | [], _, _ => List.Subset.refl _
  | e :: es, k, h => by
    have step : procedures es = [] ∧ k.set ⊆ (k.step e).set := by
      cases e with
      | head _ _ => cases h
      | set _ => exact ⟨h, List.subset_cons_self _ _⟩
      | keep x _ =>
        refine ⟨h, ?_⟩
        show k.set ⊆ (if x ∈ k.bound then k else k.put x).set
        split
        · exact List.Subset.refl _
        · exact List.subset_cons_self _ _
      | bind _ | use _ _ => exact ⟨h, List.Subset.refl _⟩
    exact List.Subset.trans step.2 (set_subset_after step.1)

theorem sure_of_set : ∀ {es : List Event} {k : Variables}, procedures es = [] →
    (∀ x, .use x true ∈ es → x ∈ k.set) → (∀ x, .keep x true ∉ es) → k.Sure es
  | [], _, _, _, _ => trivial
  | e :: es, k, hp, hu, hk => by
    refine ⟨fun h => ?_, sure_of_set ?_ (fun x hx => ?_) fun x hx => hk x (List.mem_cons_of_mem _ hx)⟩
    · cases e with
      | use x p =>
        obtain rfl : p = true := h
        exact List.contains_iff_mem.2 (hu x List.mem_cons_self)
      | keep x p =>
        obtain rfl : p = true := h
        exact (hk x List.mem_cons_self).elim
      | _ => cases h
    · cases e with
      | head _ _ => cases hp
      | _ => exact hp
    · have single : procedures [e] = [] := by
        cases e with
        | head _ _ => cases hp
        | _ => rfl
      exact set_subset_after (k := k) single (hu x (List.mem_cons_of_mem _ hx))

/-- What is set has a register. -/
def Within (k : Variables) : Prop := ∀ x, x ∈ k.set → x ∈ k.bound

theorem Within.put {k : Variables} (h : k.Within) (x : String) : (k.put x).Within := by
  intro y hy
  rcases List.mem_cons.1 hy with rfl | hy
  · exact List.mem_cons_self
  · exact List.mem_cons_of_mem _ (h y hy)

theorem Within.after : ∀ {es : List Event} {k : Variables}, k.Within → (k.after es).Within
  | [], _, h => h
  | e :: es, k, h => by
    refine Within.after (k := k.step e) ?_
    cases e with
    | head _ _ => exact fun _ hx => hx
    | bind _ => exact fun y hy => List.mem_cons_of_mem _ (h y hy)
    | set x => exact h.put x
    | use _ _ => exact h
    | keep x _ =>
      show Within (if x ∈ k.bound then k else k.put x)
      split
      · exact h
      · exact h.put x

end Variables

/-! ### What the checker has passed -/

theorem value_mem_worth {x : String} {c : Chain} {e : Node} (h : .use x true ∈ worth e) : ⟨.value, x, c⟩ ∈ usesIn c e := by
  cases e with
  | identifier y line =>
    cases List.mem_singleton.1 h
    rw [usesIn]
    exact List.mem_singleton_self _
  | _ => cases h

theorem mem_usesInAll {u : Use} {c : Chain} {e : Node} : ∀ {es : List Node}, e ∈ es → u ∈ usesIn c e → u ∈ usesInAll c es
  | _ :: _, h, hu => by
    rw [usesInAll]
    rcases List.mem_cons.1 h with rfl | h
    · exact List.mem_append_left _ hu
    · exact List.mem_append_right _ (mem_usesInAll h hu)

theorem value_mem_flatMap_worth {x : String} {c : Chain} {es es' : List Node} (hes : es' ⊆ es)
    (h : .use x true ∈ es'.flatMap worth) : ⟨.value, x, c⟩ ∈ usesInAll c es := by
  obtain ⟨e, he, h⟩ := List.mem_flatMap.1 h
  exact mem_usesInAll (hes he) (value_mem_worth h)

mutual

/-- **Every plain use in the code of an expression is a value** that the checker has seen. -/
theorem value_mem {x : String} {c : Chain} : ∀ {e : Node}, .use x true ∈ effects e → ⟨.value, x, c⟩ ∈ usesIn c e
  | .call f args _, h => by
    rw [effects] at h
    rw [usesIn]
    split at h
    · cases h
    · exact value_mem_first h
    · rcases List.mem_append.1 h with h | h
      · exact value_mem_first h
      · exact value_mem_flatMap_worth (List.take_subset _ _) h
    · rcases List.mem_append.1 h with h | h
      · exact value_mem_all h
      · exact value_mem_flatMap_worth (List.Subset.refl _) h
  | .element y index _, h => by
    rw [effects] at h
    rw [usesIn]
    have h : .use x true ∈ effects index := by simpa using h
    exact List.mem_cons_of_mem _ (value_mem h)
  | .binary a _ b _, h => by
    simp only [effects, List.mem_append] at h
    rw [usesIn, List.mem_append]
    rcases h with h | h | h | h
    · exact .inl (value_mem h)
    · exact .inr (value_mem h)
    · exact .inl (value_mem_worth h)
    · exact .inr (value_mem_worth h)
  | .unary _ e _, h => by
    rw [effects] at h
    rw [usesIn]
    split at h
    · exact value_mem h
    · cases h
  | .ternary condition yes no _, h => by
    simp only [effects, List.mem_append] at h
    rw [usesIn, List.mem_append, List.mem_append]
    rcases h with h | h | h | h | h | h
    · exact .inl (.inl (value_mem h))
    · exact .inl (.inl (value_mem_worth h))
    · exact .inl (.inr (value_mem h))
    · exact .inl (.inr (value_mem_worth h))
    · exact .inr (value_mem h)
    · exact .inr (value_mem_worth h)
  | .array es _, h => by
    rw [effects] at h
    rw [usesIn]
    exact value_mem_all h
  | .program _, h | .function .., h | .parameter .., h | .block .., h | .declaration .., h | .assignment .., h | .ret .., h
  | .branch .., h | .forLoop .., h | .whileLoop .., h | .doLoop .., h | .identifier .., h | .number .., h | .string .., h
  | .boolean .., h | .listOf .., h | .bare, h | .nothing, h | .text _, h | .integer _, h | .several _, h => by
    rw [effects] at h
    all_goals cases h

theorem value_mem_first {x : String} {c : Chain} : ∀ {es : List Node}, .use x true ∈ effectsFirst es →
    ⟨.value, x, c⟩ ∈ usesInAll c es
  | [], h => by
    rw [effectsFirst] at h
    cases h
  | e :: es, h => by
    rw [effectsFirst] at h
    rw [usesInAll]
    exact List.mem_append_left _ (value_mem h)

theorem value_mem_all {x : String} {c : Chain} : ∀ {es : List Node}, .use x true ∈ effectsAll es →
    ⟨.value, x, c⟩ ∈ usesInAll c es
  | [], h => by
    rw [effectsAll] at h
    cases h
  | e :: es, h => by
    rw [effectsAll, List.mem_append] at h
    rw [usesInAll, List.mem_append]
    exact h.imp value_mem value_mem_all

end

/-- The variables of the innermost function that may have values have been set. -/
structure Reflects (c : Chain) (k : Variables) : Prop where
  set : ∀ {x symbol}, c.inner.find? x = some symbol → symbol.initialized = true → x ∈ k.set
  within : k.Within

namespace Reflects

variable {c : Chain} {k : Variables} {x : String} {e : Node} {es : List Event}

theorem value {us : List Use} (h : Reflects c k) (settled : Settled us) (hu : ⟨.value, x, c⟩ ∈ us) : x ∈ k.set := by
  obtain ⟨⟨symbol, found, initialized⟩, bound⟩ := settled _ hu
  have bound : (c.inner.find? x).isSome = true := by simpa [Use.isLocal] using bound
  obtain ⟨inner, hi⟩ := Option.isSome_iff_exists.1 bound
  obtain rfl := Option.some.inj ((Chain.lookup_of_inner hi).symm.trans found)
  exact h.set hi initialized

theorem after (h : Reflects c k) (hp : procedures es = []) : Reflects c (k.after es) :=
  ⟨fun hx hi => Variables.set_subset_after hp (h.set hx hi), h.within.after⟩

theorem insert {symbol : Symbol} (h : Reflects c k) (hx : symbol.initialized = true → x ∈ k.set) :
    Reflects (c.insert x symbol) k := by
  refine ⟨fun hy hi => ?_, h.within⟩
  rw [Chain.inner_insert] at hy
  split at hy
  · next e =>
    cases hy
    exact e ▸ hx hi
  · exact h.set hy hi

theorem assigned (h : Reflects c k) (hx : x ∈ k.set) : Reflects (c.assigned x) k := by
  refine ⟨fun hy hi => ?_, h.within⟩
  rw [Chain.inner_assigned] at hy
  split at hy
  · next e => exact e ▸ hx
  · exact h.set hy hi

theorem put (h : Reflects c k) (x : String) : Reflects c (k.put x) :=
  ⟨fun hy hi => List.mem_cons_of_mem _ (h.set hy hi), h.within.put x⟩

theorem withLoop (h : Reflects c k) (x : String) (line : Int) : Reflects (withLoop c x line) (k.put x) := by
  unfold Check.withLoop
  split
  · exact (h.put x).insert fun _ => List.mem_cons_self
  · exact (h.put x).assigned List.mem_cons_self

end Reflects

/-- The plain uses of some events are in order, and at their end the variables that may have values have been set. -/
structure Keeps (k : Variables) (es : List Event) (c : Chain) : Prop where
  sure : k.Sure es
  reflects : Reflects c (k.after es)

theorem Keeps.append {k : Variables} {a b : List Event} {c c' : Chain} (h : Keeps k a c) (h' : Keeps (k.after a) b c') :
    Keeps k (a ++ b) c' := by
  refine ⟨Variables.sure_append.2 ⟨h.sure, h'.sure⟩, ?_⟩
  rw [Variables.after_append]
  exact h'.reflects

/-! ### Statements -/

theorem procedures_effects (e : Node) : procedures (effects e) = [] := procedures_of_quiet (quiet_effects e)

theorem not_keep_of_quiet {x : String} {plain : Bool} {es : List Event} (h : es.all Event.quiet = true) : .keep x plain ∉ es :=
  fun hm => Bool.false_ne_true (List.all_eq_true.1 h _ hm)

section
variable {c : Chain} {k : Variables} {e : Node} {x : String}

theorem expression_keeps (h : Reflects c k) (settled : Settled (usesIn c e)) : Keeps k (effects e ++ worth e) c := by
  have quiet : (effects e ++ worth e).all Event.quiet = true := by
    rw [List.all_append, quiet_effects, quiet_worth]
    rfl
  have procs := procedures_of_quiet quiet
  refine ⟨Variables.sure_of_set procs (fun x hx => ?_) fun x => not_keep_of_quiet quiet, h.after procs⟩
  exact h.value settled ((List.mem_append.1 hx).elim value_mem value_mem_worth)

theorem assigning_keeps {value : Node} (h : Reflects c k) (settled : Settled (usesIn c value)) :
    Keeps k (assigning x value) (c.assigned x) := by
  unfold assigning
  cases hx : isVariable x value with
  | true =>
    obtain ⟨line, rfl⟩ := Gen.eq_identifier hx
    have set : x ∈ k.set := h.value settled (value_mem_worth List.mem_cons_self)
    have bound : x ∈ k.bound := h.within x set
    have after : k.after [.keep x true] = k := if_pos bound
    refine ⟨⟨fun _ => List.contains_iff_mem.2 bound, trivial⟩, ?_⟩
    rw [if_pos rfl, after]
    exact h.assigned set
  | false =>
    have read := expression_keeps h settled
    rw [if_neg Bool.false_ne_true, ← List.append_assoc]
    exact read.append ⟨⟨nofun, trivial⟩, (read.reflects.put x).assigned List.mem_cons_self⟩

theorem elementAssignment_keeps {index value : Node} (h : Reflects c k) (hv : Settled (usesIn c value))
    (hi : Settled (usesIn c index)) :
    Keeps k (effects value ++ ([Event.bind x] ++ (effects index ++ (worth value ++ [Event.use x false])))) c := by
  have quiet : (effects value ++ ([Event.bind x] ++ (effects index ++ (worth value ++ [Event.use x false])))).all
      Event.quiet = true := by
    simp only [List.all_append, quiet_effects, quiet_worth]
    rfl
  have procs := procedures_of_quiet quiet
  refine ⟨Variables.sure_of_set procs (fun y hy => ?_) fun y => not_keep_of_quiet quiet, h.after procs⟩
  have hy : .use y true ∈ effects value ∨ .use y true ∈ effects index ∨ .use y true ∈ worth value := by simpa using hy
  rcases hy with hy | hy | hy
  · exact h.value hv (value_mem hy)
  · exact h.value hi (value_mem hy)
  · exact h.value hv (value_mem_worth hy)

theorem use_of_doubt {y : String} {es : List Event} (h : Event.use y true ∈ es.map (Event.doubt x)) :
    y ≠ x ∧ .use y true ∈ es := by
  obtain ⟨e, he, h⟩ := List.mem_map.1 h
  cases e with
  | use z p =>
    obtain ⟨rfl, hp⟩ := Event.use.inj h
    obtain ⟨rfl, hz⟩ : p = true ∧ z ≠ x := by simpa using hp
    exact ⟨hz, he⟩
  | _ => cases h

theorem keep_of_doubt {y : String} {plain : Bool} {es : List Event} (h : Event.keep y plain ∈ es.map (Event.doubt x)) :
    .keep y plain ∈ es := by
  obtain ⟨e, he, h⟩ := List.mem_map.1 h
  cases e with
  | keep z p =>
    cases h
    exact he
  | _ => cases h

theorem looping_keeps {start stop : Node} (line : Int) (h : Reflects c k)
    (ha : Settled (usesIn (withLoop c x line) start)) (hb : Settled (usesIn (withLoop c x line) stop)) :
    Keeps k (looping x start stop) (withLoop c x line) := by
  have reflects := h.withLoop x line
  unfold looping
  generalize hr : effects start ++ (effects stop ++ (bounding x stop ++ worth start)) = range
  have procs : procedures (range.map (.doubt x)) = [] := by
    rw [procedures_doubt, ← hr]
    simp only [procedures_append, procedures_effects, procedures_worth, Gen.procedures_bounding]
    rfl
  have uses : ∀ y, .use y true ∈ range.map (Event.doubt x) → y ∈ k.set := by
    intro y hy
    obtain ⟨hne, hy⟩ := use_of_doubt hy
    have other : y ∈ (k.put x).set → y ∈ k.set := fun h => (List.mem_cons.1 h).resolve_left hne
    simp only [← hr, List.mem_append] at hy
    rcases hy with hy | hy | hy | hy
    · exact other (reflects.value ha (value_mem hy))
    · exact other (reflects.value hb (value_mem hy))
    · unfold bounding at hy
      split at hy
      · cases List.mem_singleton.1 hy
      · exact other (reflects.value hb (value_mem_worth hy))
    · exact other (reflects.value ha (value_mem_worth hy))
  have keeps : ∀ y, .keep y true ∉ range.map (Event.doubt x) := by
    intro y hy
    have hy := keep_of_doubt hy
    simp only [← hr, List.mem_append] at hy
    rcases hy with hy | hy | hy | hy
    · exact not_keep_of_quiet (quiet_effects start) hy
    · exact not_keep_of_quiet (quiet_effects stop) hy
    · unfold bounding at hy
      split at hy
      · cases List.mem_singleton.1 hy
      · exact not_keep_of_quiet (quiet_worth stop) hy
    · exact not_keep_of_quiet (quiet_worth start) hy
  have after : k.after (range.map (.doubt x) ++ [Event.set x]) = (k.after (range.map (.doubt x))).put x :=
    Variables.after_append ..
  refine ⟨Variables.sure_append.2 ⟨Variables.sure_of_set procs uses keeps, nofun, trivial⟩, ?_⟩
  rw [after]
  refine ⟨fun hy hi => ?_, h.within.after.put x⟩
  -- what may have a value behind the start of the loop is its variable, or had one before
  rcases List.mem_cons.1 (reflects.set hy hi) with rfl | hy
  · exact List.mem_cons_self
  · exact List.mem_cons_of_mem _ (Variables.set_subset_after procs hy)

end

mutual

/-- **In a statement without functions, all that the checker has passed is in order**, and what it marks is set. -/
theorem statement_keeps : ∀ {n : Node}, isStatement n = true → plain n = true → ∀ ⦃c : Chain⦄ ⦃k : Variables⦄,
    Reflects c k → Settled (uses c n) → Keeps k (events n) (after c n)
  | .declaration x type line, _, _ => by
    intro c k h _
    have bound : Reflects c (k.after [.bind x]) := h.after rfl
    rw [events, after]
    exact ⟨⟨nofun, trivial⟩, bound.insert nofun⟩
  | .assignment target value _, hn, _ => by
    intro c k h settled
    obtain ⟨-, ⟨x, rfl, -⟩ | ⟨x, index, l, rfl, -, -⟩⟩ := isStatement_assignment.1 hn
    · rw [uses, settled_append] at settled
      rw [events, after]
      exact assigning_keeps h settled.1
    · rw [uses, settled_append, settled_append] at settled
      rw [events, after_assignElement]
      exact elementAssignment_keeps h settled.1.1 settled.1.2
  | .call f args line, _, _ => by
    intro c k h settled
    have called : Settled (usesIn c (.call f args line)) → Keeps k (effects (.call f args line) ++ []) c := expression_keeps h
    rw [List.append_nil] at called
    rw [uses] at settled
    · rw [events, after]
      · exact called settled
      all_goals
        intros
        contradiction
    all_goals
      intros
      contradiction
  | .ret value _, hn, _ => by
    intro c k h settled
    rw [uses] at settled
    rw [events, after]
    · exact expression_keeps h settled
    all_goals
      intros
      contradiction
  | .branch condition yes no _, hn, hp => by
    intro c k h settled
    obtain ⟨-, hy, hno⟩ := isStatement_branch.1 hn
    simp only [plain, Bool.and_eq_true] at hp
    rw [uses, settled_append, settled_append] at settled
    have otherwise : ∀ ⦃c : Chain⦄ ⦃k : Variables⦄, Reflects c k → Settled (uses c no) → Keeps k (events no) (after c no) := by
      rcases hno with rfl | hno
      · intro c k h _
        rw [events, effects, after] <;> first | exact ⟨trivial, h⟩ | (intros; contradiction)
      · exact statement_keeps hno hp.2
    have tested := expression_keeps h settled.1.1
    have first := statement_keeps hy hp.1.2 tested.reflects settled.1.2
    rw [events, after, ← List.append_assoc]
    exact tested.append (first.append (otherwise first.reflects settled.2))
  | .whileLoop condition body _, hn, hp => by
    intro c k h settled
    simp only [isStatement, Bool.and_eq_true] at hn
    simp only [plain, Bool.and_eq_true] at hp
    rw [uses, settled_append] at settled
    have tested := expression_keeps h settled.1
    rw [events, after, ← List.append_assoc]
    exact tested.append (statement_keeps hn.2 hp.2 tested.reflects settled.2)
  | .doLoop body condition _, hn, hp => by
    intro c k h settled
    simp only [isStatement, Bool.and_eq_true] at hn
    simp only [plain, Bool.and_eq_true] at hp
    rw [uses, settled_append] at settled
    have first := statement_keeps hn.1 hp.1 h settled.1
    rw [events, after]
    exact first.append (expression_keeps first.reflects settled.2)
  | .forLoop x start stop body line, hn, hp => by
    intro c k h settled
    obtain ⟨-, -, -, ss, rfl, hs⟩ := isStatement_forLoop.1 hn
    simp only [plain, Bool.and_eq_true] at hp
    rw [uses, settled_append, settled_append, uses] at settled
    have range := looping_keeps line h settled.1.1 settled.1.2
    rw [events, events, after, after]
    exact range.append (statements_keeps hs hp.2 range.reflects settled.2)
  | .block ss _, hn, hp | .several ss, hn, hp => by
    intro c k h settled
    simp only [isStatement] at hn
    simp only [plain] at hp
    rw [uses] at settled
    rw [events, after]
    exact statements_keeps hn hp h settled
termination_by n => sizeOf n
decreasing_by all_goals (subst_vars; simp +arith)

theorem statements_keeps : ∀ {ns : List Node}, areStatements ns = true → plainAll ns = true → ∀ ⦃c : Chain⦄ ⦃k : Variables⦄,
    Reflects c k → Settled (usesAll c ns) → Keeps k (eventsAll ns) (afterAll c ns)
  | [], _, _ => by
    intro c k h _
    rw [eventsAll, afterAll]
    exact ⟨trivial, h⟩
  | n :: ns, hn, hp => by
    intro c k h settled
    simp only [areStatements, Bool.and_eq_true] at hn
    simp only [plainAll, Bool.and_eq_true] at hp
    rw [usesAll, settled_append] at settled
    have first := statement_keeps hn.1.2 hp.1 h settled.1
    rw [eventsAll, afterAll]
    exact first.append (statements_keeps hn.2 hp.2 first.reflects settled.2)
termination_by ns => sizeOf ns
decreasing_by all_goals simp +arith

end

/-! ### Functions -/

theorem withParameters_find? {y : String} {symbol : Symbol} : ∀ {ps : List Node} {c : Chain},
    (withParameters c ps).inner.find? y = some symbol → c.inner.find? y = some symbol ∨ y ∈ ps.filterMap Node.name?
  | [], c, h => by
    rw [withParameters] at h
    exact .inl h
  | p :: ps, c, h => by
    have more : y ∈ ps.filterMap Node.name? → y ∈ (p :: ps).filterMap Node.name? := by
      intro hy
      obtain ⟨q, hq, e⟩ := List.mem_filterMap.1 hy
      exact List.mem_filterMap.2 ⟨q, List.mem_cons_of_mem _ hq, e⟩
    cases p with
    | parameter x type line =>
      rw [withParameters] at h
      rcases withParameters_find? h with h | h
      · rw [Chain.inner_insert] at h
        split at h
        · next e => exact .inr (e ▸ List.mem_cons_self)
        · exact .inl h
      · exact .inr (more h)
    | _ =>
      rw [withParameters] at h
      · exact (withParameters_find? h).imp_right more
      all_goals
        intros
        contradiction

theorem initialized_functionSymbol? {n : Node} {symbol : Symbol} (h : functionSymbol? n = some symbol) :
    symbol.initialized = false := by
  cases n with
  | function _ _ _ _ _ => cases h; rfl
  | _ => cases h

theorem withNested_find? {y : String} {symbol : Symbol} (hi : symbol.initialized = true) : ∀ {ns : List Node} {c : Chain},
    (Check.withNested c ns).inner.find? y = some symbol → c.inner.find? y = some symbol
  | [], c, h => by
    rw [Check.withNested] at h
    exact h
  | n :: ns, c, h => by
    rw [Check.withNested] at h
    split at h
    · next symbol' hs =>
      have h := withNested_find? hi h
      rw [Chain.inner_insert] at h
      split at h
      · cases h
        rw [initialized_functionSymbol? hs] at hi
        cases hi
      · exact h
    · exact withNested_find? hi h

theorem reflects_inside (c : Chain) (params body : Node) :
    Reflects (inside c params body) ⟨parameterNames params, parameterNames params⟩ := by
  refine ⟨fun hx hi => ?_, fun _ hx => hx⟩
  exact (withParameters_find? (withNested_find? hi hx)).resolve_left nofun

theorem plain_of_apart {c : Chain} {n : Node} (hf : n.isFunction = false) (h : apart c n = true) : plain n = true := by
  cases n with
  | function _ _ _ _ _ => cases hf
  | _ => rw [apart] at h <;> first | exact h | (intros; contradiction)

theorem own_sure : ∀ {ns : List Node}, areStatements ns = true → ∀ {c : Chain} {k : Variables}, apartAll c ns = true →
    Reflects c k → Settled (usesAll c ns) → k.Sure (eventsOwn ns)
  | [], _, _, _, _, _, _ => by
    rw [eventsOwn]
    trivial
  | n :: ns, hn, c, k, ha, h, settled => by
    simp only [areStatements, Bool.and_eq_true] at hn
    simp only [apartAll, Bool.and_eq_true] at ha
    rw [usesAll, settled_append] at settled
    rw [eventsOwn]
    cases hf : n.isFunction with
    | true =>
      have same : (after c n).inner = c.inner := by simpa [hf] using ha.1.2
      exact own_sure hn.2 ha.2 ⟨fun hx hi => h.set (same ▸ hx) hi, h.within⟩ settled.2
    | false =>
      have first := statement_keeps hn.1.2 (plain_of_apart hf ha.1.1) h settled.1
      rw [if_neg Bool.false_ne_true, Variables.sure_append]
      exact ⟨first.sure, own_sure hn.2 ha.2 first.reflects settled.2⟩

mutual

/-- **In functions that keep to themselves all that the checker has passed is in order.** -/
theorem functions_sure : ∀ {ns : List Node}, areStatements ns = true → ∀ {c : Chain}, apartAll c ns = true →
    Settled (usesAll c ns) → ∀ k : Variables, k.Sure (eventsOf ns)
  | [], _, _, _, _, _ => by
    rw [eventsOf]
    trivial
  | n :: ns, hn, c, ha, settled, k => by
    simp only [areStatements, Bool.and_eq_true] at hn
    simp only [apartAll, Bool.and_eq_true] at ha
    rw [usesAll, settled_append] at settled
    rw [eventsOf]
    cases hf : n.isFunction with
    | false => exact functions_sure hn.2 ha.2 settled.2 k
    | true =>
      rw [if_pos rfl, Variables.sure_append]
      exact ⟨function_sure hn.1.2 hf ha.1.1 settled.1 k, functions_sure hn.2 ha.2 settled.2 _⟩
termination_by ns => sizeOf ns
decreasing_by all_goals simp +arith

theorem function_sure : ∀ {n : Node}, isStatement n = true → n.isFunction = true → ∀ {c : Chain}, apart c n = true →
    Settled (uses c n) → ∀ k : Variables, k.Sure (events n ++ eventsInside n)
  | .function f params returnType body line, hn, _, c, ha, settled, k => by
    obtain ⟨-, ⟨ps, ss, rfl, rfl, -, hs⟩ | ⟨rfl, he⟩⟩ := isStatement_function.1 hn
    · rw [apart] at ha
      rw [uses, uses] at settled
      rw [events, eventsInside, Variables.sure_append]
      exact ⟨⟨nofun, own_sure hs ha (reflects_inside c _ _) settled⟩, functions_sure hs ha settled _⟩
    · rw [apart] at ha
      · cases ha
      · rintro _ _ _ ss _ ⟨⟩
        simp [isExpression] at he
termination_by n => sizeOf n
decreasing_by all_goals (subst_vars; simp +arith)

end

mutual

theorem loopsPlain_of_apart : ∀ {n : Node} {c : Chain}, apart c n = true → loopsPlain n = true
  | .function _ _ _ body _, c, h => by
    cases body with
    | several ss =>
      rw [apart] at h
      rw [loopsPlain]
      exact loopsPlainAll_of_apartAll h
    | _ => rw [loopsPlain] <;> (intros; contradiction)
  | .program _, _, h | .parameter .., _, h | .block .., _, h | .declaration .., _, h | .assignment .., _, h | .call .., _, h
  | .ret .., _, h | .branch .., _, h | .forLoop .., _, h | .whileLoop .., _, h | .doLoop .., _, h | .binary .., _, h
  | .unary .., _, h | .identifier .., _, h | .number .., _, h | .string .., _, h | .boolean .., _, h | .ternary .., _, h
  | .element .., _, h | .array .., _, h | .listOf .., _, h | .bare, _, h | .nothing, _, h | .text _, _, h | .integer _, _, h
  | .several _, _, h => Gen.loopsPlain_of_plain (plain_of_apart rfl h)

theorem loopsPlainAll_of_apartAll : ∀ {ns : List Node} {c : Chain}, apartAll c ns = true → loopsPlainAll ns = true
  | [], _, _ => by rw [loopsPlainAll]
  | n :: ns, c, h => by
    simp only [apartAll, Bool.and_eq_true] at h
    rw [loopsPlainAll, loopsPlain_of_apart h.1.1, loopsPlainAll_of_apartAll h.2]
    rfl

end

theorem areStatements_of_areFunctions : ∀ {fs : List Node}, areFunctions fs = true → areStatements fs = true
  | [], _ => by rw [areStatements]
  | f :: fs, h => by
    simp only [areFunctions, List.all_cons, Bool.and_eq_true] at h
    have single : isSeveral f = false := by
      cases f with
      | several _ => cases h.1.1
      | _ => rfl
    rw [areStatements, single, h.1.2, areStatements_of_areFunctions h.2]
    rfl

/-- **In an accepted program whose functions have no variables in common, all variables are set before they are used if and
only if this is so for vectors of which members are wanted and for variables in the ranges over which they loop.** -/
theorem orderly_of_accepted {fs : List Node} (hf : areFunctions fs = true) (accepted : check fs = .ok [])
    (h : selfContained fs = true) (k : Variables) : k.orderly (eventsOf fs) = k.orderly ((eventsOf fs).filter (!·.plain)) := by
  obtain ⟨apart, locals⟩ := Bool.and_eq_true_iff.1 h
  have passed := (uses_of_check hf accepted).1
  have settled : Settled (usesOf fs) := fun u hu => ⟨passed u hu, List.all_eq_true.1 locals u hu⟩
  exact Variables.orderly_of_sure (functions_sure (areStatements_of_areFunctions hf) apart settled k)

end Code
end TesLang
