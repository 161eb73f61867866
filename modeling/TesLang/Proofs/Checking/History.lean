import TesLang.Bindings
import TesLang.Check.Diagnostic
import TesLang.Node
/-!
# What happens to names

A walk over a tree comes by names in a certain order: functions are entered and left, names are bound, variables get
values, and variables are used.  The tree alone says what happens and in which order (`nameEvents`).

What a name stands for at some point follows from all that happened before, its history.  A binding is made by one event,
and is known by the number of events before that one.  The bindings of a function are open until the function is left
(`openFrames`), and a name stands for the innermost one that is open (`bindingOf`).  Whether a binding has a value is a
question about the history alone: some event gave it one, wherever that was (`isSet`).

With this, every use of a variable is found right or wrong by its history, and so is every assignment (`verdict`).  No
scope of symbols is kept for that, and nothing is ever marked.
-/
namespace TesLang.Check

/-- What happens to names. -/
inductive NameEvent where
  | enter (function : String)
  | leave
  /-- a name is bound, whatever it stood for: a parameter, which has a value, or a function in the body of another one -/
  | bind (name : String) (valued : Bool)
  /-- a name is bound unless it is bound in the same function: a variable, or a function of the program -/
  | declare (name : String)
  /-- a variable gets a value -/
  | assign (name : String) (line : Int)
  /-- a member of a vector gets a value -/
  | member (name : String) (line : Int)
  /-- the variable of a loop gets a value; it is bound here if it stands for nothing -/
  | loop (name : String)
  | use (name : String) (line : Int)
  deriving DecidableEq, Repr

/-- What happened so far, the latest first. -/
abbrev History := List NameEvent

/-! ### Bindings -/

/-- A function that is open, or the program around all functions, and what is bound there, the latest first. -/
structure Frame where
  function : Option String := none
  bindings : Bindings Nat := []
  deriving DecidableEq, Repr

/-- The innermost of the bindings of a name. -/
def innermost (frames : List Frame) (x : String) : Option Nat := frames.findSome? (·.bindings.find? x)

/-- Binds a name in the innermost function, in front of what it stood for. -/
def bindInner (x : String) (b : Nat) : List Frame → List Frame
  | [] => []
  | f :: fs => { f with bindings := (x, b) :: f.bindings } :: fs

/-- The functions that are open, inside out, and around all of them the program. -/
def openFrames : History → List Frame
  | [] => [{}]
  | .enter f :: h => { function := some f } :: openFrames h
  | .leave :: h => (openFrames h).tail
  | .bind x _ :: h => bindInner x h.length (openFrames h)
  | .declare x :: h =>
    if (innermost ((openFrames h).take 1) x).isSome then openFrames h else bindInner x h.length (openFrames h)
  | .loop x :: h => if (innermost (openFrames h) x).isSome then openFrames h else bindInner x h.length (openFrames h)
  | _ :: h => openFrames h

/-- What a name stands for. -/
def bindingOf (h : History) (x : String) : Option Nat := innermost (openFrames h) x

/-- Whether an event gives a value to a binding: the binding of a parameter, of the variable that is assigned, or of the
variable of a loop. -/
def sets (h : History) (b : Nat) : NameEvent → Bool
  | .bind _ valued => valued && h.length == b
  | .assign x _ => bindingOf h x == some b
  | .loop x => (bindingOf h x).getD h.length == b
  | _ => false

/-- Whether a binding has got a value. -/
def isSet (b : Nat) : History → Bool
  | [] => false
  | e :: h => sets h b e || isSet b h

/-! ### Findings -/

/-- The function that was entered last, of those that are open. -/
def openFunction (h : History) : Option String := ((openFrames h).map (·.function)).headD none

/-- What is wrong with the name that an event is about. -/
def verdict (h : History) : NameEvent → List Diagnostic
  | .use x line =>
    match bindingOf h x with
    | none => [⟨.unbound ((openFunction h).getD "") x, line⟩]
    | some b => if isSet b h then [] else [⟨.unset ((openFunction h).getD "") x, line⟩]
  | .assign x line | .member x line =>
    if (bindingOf h x).isSome then [] else [⟨.unbound ((openFunction h).getD "") x, line⟩]
  | _ => []

/-- What is wrong with the names of all that happens after `h`. -/
def findings (h : History) : List NameEvent → List Diagnostic
  | [] => []
  | e :: es => verdict h e ++ findings (e :: h) es

theorem findings_append (h : History) (es es' : List NameEvent) :
    findings h (es ++ es') = findings h es ++ findings (es.reverse ++ h) es' := by
  induction es generalizing h with
  | nil => rfl
  | cons e es ih =>
    rw [List.cons_append, findings, findings, ih, List.append_assoc, List.reverse_cons, List.append_assoc]
    rfl

/-! ### What happens in a tree -/

mutual

/-- What happens to names on the walk over a tree.  Blocks, branches and loops enter nothing. -/
def nameEvents : Node → List NameEvent
  | .program fs => (fs.filterMap Node.name?).map .declare ++ nameEventsIn fs
  | .function f params _ body _ =>
    .enter f :: ((params.parts.filterMap Node.name?).map (.bind · true) ++
      (((body.statements.filter Node.isFunction).filterMap Node.name?).map (.bind · false) ++
        (nameEvents body ++ [.leave])))
  | .declaration x _ _ => [.declare x]
  | .assignment (.text x) value line => nameEvents value ++ [.assign x line]
  | .assignment (.element x index _) value line => nameEvents value ++ (nameEvents index ++ [.member x line])
  | .assignment _ value _ => nameEvents value
  | .forLoop x start stop body _ => .loop x :: (nameEvents start ++ (nameEvents stop ++ nameEvents body))
  | .identifier x line => [.use x line]
  | .branch a b c _ | .ternary a b c _ => nameEvents a ++ (nameEvents b ++ nameEvents c)
  | .whileLoop a b _ | .doLoop a b _ | .binary a _ b _ => nameEvents a ++ nameEvents b
  | .ret a _ | .unary _ a _ | .element _ a _ | .listOf a _ => nameEvents a
  | .call _ ns _ | .block ns _ | .array ns _ | .several ns => nameEventsIn ns
  | .parameter .. | .number .. | .string .. | .boolean .. | .bare | .nothing | .text _ | .integer _ => []

def nameEventsIn : List Node → List NameEvent
  | [] => []
  | n :: ns => nameEvents n ++ nameEventsIn ns

end

/-! ### Numbers of bindings -/

def numbers (frames : List Frame) : List Nat := frames.flatMap (·.bindings.map (·.2))

theorem mem_of_find? {α : Type} : ∀ {bs : Bindings α} {x : String} {b : α}, bs.find? x = some b → (x, b) ∈ bs
  | [], _, _, h => by cases h
  | entry :: bs, x, b, h => by
    rw [Bindings.find?_cons] at h
    by_cases hx : entry.1 = x
    · rw [if_pos hx] at h
      cases h
      subst hx
      exact List.mem_cons_self
    · rw [if_neg hx] at h
      exact List.mem_cons_of_mem _ (mem_of_find? h)

theorem mem_map_of_find? {bs : Bindings Nat} {x : String} {b : Nat} (h : bs.find? x = some b) : b ∈ bs.map (·.2) :=
  List.mem_map.2 ⟨(x, b), mem_of_find? h, rfl⟩

theorem mem_numbers_of_innermost {frames : List Frame} {x : String} {b : Nat} (h : innermost frames x = some b) :
    b ∈ numbers frames := by
  obtain ⟨f, hf, hx⟩ := List.exists_of_findSome?_eq_some h
  exact List.mem_flatMap.2 ⟨f, hf, mem_map_of_find? hx⟩

theorem numbers_bindInner (x : String) (b : Nat) (frames : List Frame) :
    (numbers (bindInner x b frames)).Sublist (b :: numbers frames) := by
  cases frames with
  | nil => exact List.nil_sublist _
  | cons f fs => exact List.Sublist.refl _

theorem function_bindInner (x : String) (b : Nat) (frames : List Frame) :
    (bindInner x b frames).map (·.function) = frames.map (·.function) := by
  cases frames <;> rfl

theorem numbers_step (e : NameEvent) (h : History) :
    (numbers (openFrames (e :: h))).Sublist (h.length :: numbers (openFrames h)) := by
  have same : (numbers (openFrames h)).Sublist (h.length :: numbers (openFrames h)) := List.sublist_cons_self _ _
  have new (x : String) := numbers_bindInner x h.length (openFrames h)
  cases e with
  | leave =>
    have inner : (numbers (openFrames h).tail).Sublist (numbers (openFrames h)) := by
      cases openFrames h with
      | nil => exact List.Sublist.refl _
      | cons f fs => exact List.sublist_append_right _ _
    exact inner.trans same
  | bind x => exact new x
  | declare x =>
    rw [openFrames]
    split
    · exact same
    · exact new x
  | loop x =>
    rw [openFrames]
    split
    · exact same
    · exact new x
  | _ => exact same

/-- **Of two bindings that are open, the inner one and the later one has the larger number.**  So each of them has a number
of its own, and all numbers are smaller than that of events. -/
theorem numbers_sorted (h : History) : (h.length :: numbers (openFrames h)).Pairwise (· > ·) := by
  induction h with
  | nil => exact List.pairwise_singleton _ _
  | cons e h ih =>
    have later : ((h.length + 1) :: h.length :: numbers (openFrames h)).Pairwise (· > ·) := by
      refine List.Pairwise.cons ?_ ih
      intro b hb
      rcases List.mem_cons.1 hb with rfl | hb
      · exact Nat.lt_succ_self _
      · exact Nat.lt_succ_of_lt (List.rel_of_pairwise_cons ih hb)
    exact later.sublist ((numbers_step e h).cons_cons _)

theorem lt_of_mem_numbers {h : History} {b : Nat} (hb : b ∈ numbers (openFrames h)) : b < h.length :=
  List.rel_of_pairwise_cons (numbers_sorted h) hb

theorem nodup_numbers (h : History) : (numbers (openFrames h)).Nodup :=
  (numbers_sorted h).of_cons.imp fun hab => Nat.ne_of_gt hab

theorem lt_of_isSet {h : History} {b : Nat} (hb : isSet b h = true) : b < h.length := by
  induction h with
  | nil => cases hb
  | cons e h ih =>
    rw [isSet, Bool.or_eq_true] at hb
    rcases hb with hb | hb
    · cases e with
      | bind x valued =>
        simp only [sets, Bool.and_eq_true, beq_iff_eq] at hb
        exact hb.2 ▸ Nat.lt_succ_self _
      | assign x =>
        simp only [sets, beq_iff_eq] at hb
        exact Nat.lt_succ_of_lt (lt_of_mem_numbers (mem_numbers_of_innermost hb))
      | loop x =>
        simp only [sets, beq_iff_eq] at hb
        cases hx : bindingOf h x with
        | none =>
          rw [hx] at hb
          exact hb ▸ Nat.lt_succ_self _
        | some _ =>
          rw [hx] at hb
          cases hb
          exact Nat.lt_succ_of_lt (lt_of_mem_numbers (mem_numbers_of_innermost hx))
      | _ => cases hb
    · exact Nat.lt_succ_of_lt (ih hb)

theorem isSet_length (h : History) : isSet h.length h = false := by
  rw [← Bool.not_eq_true]
  exact fun hb => Nat.lt_irrefl _ (lt_of_isSet hb)

end TesLang.Check
