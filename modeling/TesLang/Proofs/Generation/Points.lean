import TesLang.Proofs.Generation.Reached
/-!
# Generating code, point by point

The points of code generation are the generators that it comes by, each with the registers that were handed out since the last
procedure was started, and what they were handed out for (`Point`).  Each step of the course of a computation has its points: a
line is added, a label is numbered, a kind of node is noted, a procedure is started with all registers free, a register is
handed out for a variable or for an intermediate result.  A parameter takes three steps: it is given a register, the register
is reserved, and the next one is sought behind it.  One step after another they make the trace of a computation, which ends in
the generator that is left (`Trace`), and generating a tree has its trace from the course of the tree (`Course.trace`).

No register is shared at any point (`Point.Unshared`).  Only between the first two steps of a parameter is its register not yet
reserved.  This is part of every trace: each step keeps it so, and therefore a sequence does.

Behind this is the order of the registers.  A bank that is only moved so has taken the first registers without a gap
(`Bank.Filled`), and the next one, be it for a parameter, a variable or an intermediate result, is the one behind them.
-/
namespace TesLang.Code

/-! ### Banks without gaps -/

namespace Bank

@[simp] theorem current_reserve (b : Bank) (r : Reg) : (b.reserve r).current = b.current := by
  unfold reserve
  split <;> rfl

/-- The first registers are taken without a gap, and the next one is not sought behind the first that is free. -/
structure Filled (b : Bank) : Prop where
  taken : ∀ r : Reg, r ∈ b.taken ↔ 0 ≤ r.index ∧ r.index < b.taken.length
  nonneg : 0 ≤ b.current
  current : b.current ≤ b.taken.length

namespace Filled

variable {b : Bank}

theorem notMem (h : b.Filled) : (⟨b.taken.length⟩ : Reg) ∉ b.taken := fun hm => Int.lt_irrefl _ ((h.taken _).1 hm).2

theorem below (h : b.Filled) : ∀ r ∈ b.taken, r.index < b.taken.length := fun r hr => ((h.taken r).1 hr).2

theorem clear (b : Bank) : b.clear.Filled := by
  refine ⟨fun r => ?_, Int.le_refl 0, by simp [Bank.clear]⟩
  obtain ⟨i⟩ := r
  simp only [Bank.clear, List.mem_singleton, Reg.result, Reg.mk.injEq, List.length_singleton]
  omega

theorem taken_reserve (h : b.Filled) : (b.reserve ⟨b.taken.length⟩).taken = b.taken ++ [⟨b.taken.length⟩] := by
  unfold reserve
  rw [if_neg fun hc => h.notMem (List.contains_iff_mem.1 hc)]

theorem extend (h : b.Filled) {b' : Bank} (taken : b'.taken = (b.reserve ⟨b.taken.length⟩).taken) (nonneg : 0 ≤ b'.current)
    (current : b'.current ≤ b.taken.length + 1) : b'.Filled := by
  rw [h.taken_reserve] at taken
  have length : b'.taken.length = b.taken.length + 1 := by rw [taken, List.length_append, List.length_singleton]
  refine ⟨fun r => ?_, nonneg, by omega⟩
  obtain ⟨i⟩ := r
  rw [length, taken, List.mem_append, h.taken, List.mem_singleton, Reg.mk.injEq]
  push_cast
  omega

/-- **The register that is handed out next is the one behind those that are taken.** -/
theorem free (h : b.Filled) : b.free = b.taken.length := by
  have first : (List.range (b.taken.length + 1)).find? (fun (i : Nat) => !b.taken.contains ⟨b.current + i⟩) =
      some (b.taken.length - b.current).toNat := by
    have nonneg := h.nonneg
    have current := h.current
    rw [List.find?_range_eq_some]
    refine ⟨?_, by rw [List.mem_range]; omega, fun j hj => ?_⟩
    · rw [Bool.not_eq_true', ← Bool.not_eq_true, List.contains_iff_mem, h.taken]
      dsimp only
      omega
    · rw [Bool.not_not, List.contains_iff_mem, h.taken]
      dsimp only
      omega
  unfold Bank.free candidates
  rw [List.find?_map, show ((fun i => !b.taken.contains ⟨i⟩) ∘ fun (i : Nat) => b.current + (i : Int)) =
    fun (i : Nat) => !b.taken.contains ⟨b.current + i⟩ from rfl, first]
  have current := h.current
  simp only [Option.map_some, Option.getD_some]
  omega

theorem moveTo (h : b.Filled) : ((b.reserve ⟨b.taken.length⟩).moveTo (max b.current (b.taken.length + 1))).Filled :=
  h.extend rfl (Int.le_trans h.nonneg (Int.le_max_left _ _)) (Int.max_le.2 ⟨Int.le_add_one h.current, Int.le_refl _⟩)

theorem allocate (h : b.Filled) : b.allocate.2.Filled := by
  have free := h.free
  refine h.extend ?_ ?_ ?_
  · unfold Bank.allocate
    rw [free]
  · show 0 ≤ b.free + 1
    omega
  · show b.free + 1 ≤ _
    omega

end Filled
end Bank

/-! ### Points -/

namespace Generator

/-- A procedure is started, with all registers free. -/
@[simps] def start (s : Generator) (name : String) : Generator :=
  { s with function := some name, vars := [], params := [], bank := s.bank.clear }

end Generator

/-- A register that was handed out, for a variable or for an intermediate result. -/
structure Handout where
  reg : Reg
  name? : Option String
  deriving DecidableEq, Repr

/-- **A point of code generation**: the generator, the registers that were handed out since the last procedure was started, and
the register that a parameter was just given, while it is still to be reserved. -/
structure Point where
  gen : Generator := {}
  handed : List Handout := []
  pending : Option Reg := none

namespace Point

/-- Nothing is handed out. -/
def go (p : Point) (s : Generator) : Point := { p with gen := s }

def start (p : Point) (name : String) : Point := { gen := p.gen.start name }

/-- A register is handed out for a variable. -/
def settle (p : Point) (x : String) : Point :=
  { p with gen := p.gen.settle x, handed := p.handed ++ [⟨p.gen.next, some x⟩] }

/-- A register is handed out for an intermediate result. -/
def draw (p : Point) : Point := { p with gen := p.gen.draw, handed := p.handed ++ [⟨p.gen.next, none⟩] }

/-- A parameter is given a register. -/
def give (p : Point) (x : String) (r : Reg) : Point :=
  { p with gen := { p.gen with params := p.gen.params.insert x r }, pending := some r }

def reserve (p : Point) (r : Reg) : Point := { p with gen := { p.gen with bank := p.gen.bank.reserve r }, pending := none }

/-- The next register is sought from number `i` on, if it was not behind that. -/
def advance (p : Point) (i : Int) : Point := p.go { p.gen with bank := p.gen.bank.moveTo (max p.gen.bank.current i) }

/-- **No register is shared.**  Parameters and variables have registers of their own, none of them the first one, and all of
them are taken.  Whatever was handed out since the procedure was started is taken, it is not the first register nor that of a
parameter, and nothing was handed out twice.  And what was handed out for an intermediate result is the register of no
variable. -/
structure Unshared (p : Point) : Prop where
  sound : p.gen.Sound
  handed_taken : ∀ h ∈ p.handed, h.reg ∈ p.gen.bank.taken ∧ h.reg ≠ Reg.result
  handed_nodup : (p.handed.map Handout.reg).Nodup
  handed_params : ∀ h ∈ p.handed, ∀ x, p.gen.params.find? x ≠ some h.reg
  temporary : ∀ h ∈ p.handed, h.name? = none → ∀ x, p.gen.vars.find? x ≠ some h.reg

/-- No register is shared, or none will be once the register of a parameter is reserved. -/
def Kept (p : Point) : Prop :=
  match p.pending with
  | none => p.Unshared
  | some r => (p.reserve r).Unshared

structure Tidy (p : Point) : Prop extends Unshared p where
  filled : p.gen.bank.Filled
  settled : p.pending = none

theorem tidy_first : Tidy {} where
  sound := ⟨List.mem_singleton.2 rfl, nofun, nofun, nofun, nofun, nofun⟩
  handed_taken := nofun
  handed_nodup := List.nodup_nil
  handed_params := nofun
  temporary := nofun
  filled := Bank.Filled.clear {}
  settled := rfl

namespace Tidy

variable {p : Point}

theorem kept (h : p.Tidy) : p.Kept := by
  unfold Kept
  rw [h.settled]
  exact h.toUnshared

theorem go (h : p.Tidy) {s : Generator} (bank : s.bank = p.gen.bank) (params : s.params = p.gen.params)
    (vars : s.vars = p.gen.vars) : (p.go s).Tidy where
  sound := h.sound.of_same bank params vars
  handed_taken o ho := bank ▸ h.handed_taken o ho
  handed_nodup := h.handed_nodup
  handed_params o ho x := params ▸ h.handed_params o ho x
  temporary o ho none x := vars ▸ h.temporary o ho none x
  filled := bank ▸ h.filled
  settled := h.settled

theorem start (p : Point) (name : String) : (p.start name).Tidy where
  sound := ⟨List.mem_singleton.2 rfl, nofun, nofun, nofun, nofun, nofun⟩
  handed_taken := nofun
  handed_nodup := List.nodup_nil
  handed_params := nofun
  temporary := nofun
  filled := Bank.Filled.clear _
  settled := rfl

/-- The register that a parameter is given is behind all that are taken, so once it is reserved it is shared with nothing. -/
theorem reserve (h : p.Tidy) {i : Nat} (hi : p.gen.bank.taken.length = i) (x : String) :
    ((p.give x ⟨i⟩).reserve ⟨i⟩).Unshared where
  sound := by
    subst hi
    have bound : (p.gen.bindParam x p.gen.bank.taken.length).Sound :=
      Generator.sound_bindParam h.sound (List.length_pos_of_mem h.sound.result) h.filled.below
    exact ⟨bound.result, bound.params_taken, bound.vars_taken, bound.params_inj, bound.vars_inj, bound.apart⟩
  handed_taken o ho := ⟨(Bank.mem_taken_reserve _ _ _).2 (.inl (h.handed_taken o ho).1), (h.handed_taken o ho).2⟩
  handed_nodup := h.handed_nodup
  handed_params o ho y hy := by
    subst hi
    have hy : (p.gen.params.insert x ⟨p.gen.bank.taken.length⟩).find? y = some o.reg := hy
    rw [Bindings.find?_insert] at hy
    split at hy
    · exact h.filled.notMem (Option.some.inj hy ▸ (h.handed_taken o ho).1)
    · exact h.handed_params o ho y hy
  temporary := h.temporary

theorem advance (h : p.Tidy) {i : Nat} (hi : p.gen.bank.taken.length = i) (x : String) :
    (((p.give x ⟨i⟩).reserve ⟨i⟩).advance (i + 1)).Tidy where
  sound := by
    have u := (h.reserve hi x).sound
    exact ⟨u.result, u.params_taken, u.vars_taken, u.params_inj, u.vars_inj, u.apart⟩
  handed_taken := (h.reserve hi x).handed_taken
  handed_nodup := h.handed_nodup
  handed_params := (h.reserve hi x).handed_params
  temporary := h.temporary
  filled := by
    subst hi
    have filled := h.filled.moveTo
    rw [← Bank.current_reserve p.gen.bank ⟨p.gen.bank.taken.length⟩] at filled
    exact filled
  settled := rfl

theorem nodup_handed (h : p.Tidy) (name? : Option String) :
    ((p.handed ++ [(⟨p.gen.next, name?⟩ : Handout)]).map Handout.reg).Nodup := by
  rw [List.map_append, List.nodup_append]
  refine ⟨h.handed_nodup, List.nodup_singleton _, fun r hr q hq => ?_⟩
  obtain ⟨o, ho, rfl⟩ := List.mem_map.1 hr
  obtain rfl := List.mem_singleton.1 hq
  exact fun e => p.gen.next_notMem ((show o.reg = p.gen.next from e) ▸ (h.handed_taken o ho).1)

theorem hand (h : p.Tidy) {s : Generator} (name? : Option String) (bank : s.bank = p.gen.bank.allocate.2)
    (params : s.params = p.gen.params) (sound : s.Sound)
    (vars : ∀ x r, s.vars.find? x = some r → p.gen.vars.find? x = some r ∨ (r = p.gen.next ∧ name? ≠ none)) :
    Tidy ⟨s, p.handed ++ [⟨p.gen.next, name?⟩], p.pending⟩ where
  sound := sound
  handed_taken o ho := by
    show o.reg ∈ s.bank.taken ∧ _
    rw [bank, Bank.mem_taken_allocate]
    rcases List.mem_append.1 ho with ho | ho
    · exact ⟨.inl (h.handed_taken o ho).1, (h.handed_taken o ho).2⟩
    · obtain rfl := List.mem_singleton.1 ho
      exact ⟨.inr rfl, fun e => p.gen.next_notMem ((show p.gen.next = _ from e) ▸ h.sound.result)⟩
  handed_nodup := h.nodup_handed name?
  handed_params o ho x hx := by
    rw [show s.params = _ from params] at hx
    rcases List.mem_append.1 ho with ho | ho
    · exact h.handed_params o ho x hx
    · obtain rfl := List.mem_singleton.1 ho
      exact p.gen.next_notMem (h.sound.params_taken hx).1
  temporary o ho none x hx := by
    rcases List.mem_append.1 ho with ho | ho
    · rcases vars x _ hx with hx | ⟨e, -⟩
      · exact h.temporary o ho none x hx
      · exact p.gen.next_notMem (e ▸ (h.handed_taken o ho).1)
    · obtain rfl := List.mem_singleton.1 ho
      rcases vars x _ hx with hx | ⟨-, ne⟩
      · exact p.gen.next_notMem (h.sound.vars_taken hx).1
      · exact ne none
  filled := show s.bank.Filled from bank ▸ h.filled.allocate
  settled := h.settled

theorem draw (h : p.Tidy) : p.draw.Tidy := h.hand none rfl rfl h.sound.draw fun _ _ hy => .inl hy

theorem settle (h : p.Tidy) (x : String) : (p.settle x).Tidy := by
  refine h.hand (some x) rfl rfl (h.sound.settle x) fun y r hy => ?_
  rcases Generator.vars_settle hy with ⟨-, rfl⟩ | ⟨-, hy⟩
  · exact .inr ⟨rfl, nofun⟩
  · exact .inl hy

end Tidy
end Point

/-! ### Traces -/

namespace Gen

variable {α β : Type}

theorem getLastD_append (ps qs : List α) (p : α) : (ps ++ qs).getLastD p = qs.getLastD (ps.getLastD p) := by
  rw [List.getLastD_eq_getLast?, List.getLastD_eq_getLast?, List.getLastD_eq_getLast?, List.getLast?_append, Option.getD_or]

/-- **The points that a computation comes by**, behind the one that it starts from.  They end in the generator that is left.
And from a point without gaps at which the computation may start, no register is shared at any of them. -/
structure Trace (ready : Generator → Prop) (m : Gen α) where
  points : Point → List Point
  last : ∀ p, ((points p).getLastD p).gen = left m p.gen
  kept : ∀ p : Point, p.Tidy → ready p.gen → (∀ q ∈ points p, q.Kept) ∧ ((points p).getLastD p).Tidy

namespace Trace

variable {ready : Generator → Prop}

def stay {m : Gen α} (h : ∀ s, left m s = s) : Trace ready m where
  points _ := []
  last p := (h p.gen).symm
  kept _ tidy _ := ⟨nofun, tidy⟩

def pure (a : α) : Trace ready (pure a) := stay fun _ => rfl

/-- Nothing behind a fault is done. -/
def fail (f : Fault) (rest : α → Gen β) : Trace ready (throw f >>= rest) := stay fun _ => rfl

/-- A single step. -/
def step {m : Gen α} (next : Point → Point) (last : ∀ p, (next p).gen = left m p.gen)
    (tidy : ∀ p, p.Tidy → (next p).Tidy) : Trace ready m where
  points p := [next p]
  last := last
  kept p h _ := ⟨fun q hq => by
    obtain rfl := List.mem_singleton.1 hq
    exact (tidy p h).kept, tidy p h⟩

def bind {m : Gen α} {f : α → Gen β} (first : Trace ready m) (rest : ∀ a, Trace (fun _ => True) (f a)) :
    Trace ready (m >>= f) where
  points p := first.points p ++
    match m.run p.gen with
    | .ok a _ => (rest a).points ((first.points p).getLastD p)
    | .error .. => []
  last p := by
    have last := first.last p
    rw [left_bind]
    rw [left] at last
    cases h : m.run p.gen with
    | ok a s =>
      rw [h] at last
      rw [getLastD_append, (rest a).last, last]
    | error f s =>
      rw [h] at last
      rw [List.append_nil, last]
  kept p tidy hr := by
    obtain ⟨kept, tidy⟩ := first.kept p tidy hr
    cases m.run p.gen with
    | ok a s =>
      obtain ⟨kept', tidy'⟩ := (rest a).kept _ tidy trivial
      rw [getLastD_append]
      exact ⟨fun q hq => (List.mem_append.1 hq).elim (kept q) (kept' q), tidy'⟩
    | error f s =>
      rw [List.append_nil]
      exact ⟨kept, tidy⟩

def discard {m : Gen α} (t : Trace ready m) : Trace ready (discard m) where
  points := t.points
  last p := (t.last p).trans (left_discard m p.gen).symm
  kept := t.kept

def look {f : Generator → Gen α} (t : ∀ s, Trace ready (f s)) : Trace ready (get >>= f) where
  points p := (t p.gen).points p
  last p := (t p.gen).last p
  kept p := (t p.gen).kept p

def ifElse (c : Prop) [Decidable c] {m m' : Gen α} (yes : Trace ready m) (no : Trace ready m') :
    Trace ready (if c then m else m') where
  points p := if c then yes.points p else no.points p
  last p := by
    split
    · exact yes.last p
    · exact no.last p
  kept p := by
    split
    · exact yes.kept p
    · exact no.kept p

def line (l : Line) : Trace ready (emit l) := step (fun p => p.go (p.gen.add l)) (fun _ => rfl) fun _ h => h.go rfl rfl rfl

def label (stem : String) : Trace ready (freshLabel stem) :=
  step (fun p => p.go p.gen.number) (fun _ => rfl) fun _ h => h.go rfl rfl rfl

def warn (kind : String) : Trace ready (warn kind) :=
  step (fun p => p.go (p.gen.note kind)) (fun _ => rfl) fun _ h => h.go rfl rfl rfl

def allocate : Trace ready allocate := step Point.draw (fun _ => rfl) fun _ h => h.draw

def place (x : String) : Trace ready (place x) where
  points p := if p.gen.home x = none then [p.settle x] else []
  last p := by
    split
    · next h => exact (left_of_ran (ran_place.2 (.inr ⟨h, rfl, rfl⟩))).symm
    · next h =>
      obtain ⟨r, hr⟩ := Option.ne_none_iff_exists'.1 h
      exact (left_of_ran (ran_place.2 (.inl ⟨hr, rfl⟩))).symm
  kept p h _ := by
    split
    · exact ⟨fun q hq => List.mem_singleton.1 hq ▸ (h.settle x).kept, h.settle x⟩
    · exact ⟨nofun, h⟩

def ownPlace (x : String) : Trace ready (ownPlace x) := step
  (fun p => if p.gen.vars.find? x = none then p.settle x else p.draw)
  (fun p => by
    split
    · next h => exact (left_of_ran (ran_ownPlace.2 (.inr ⟨h, rfl, rfl⟩))).symm
    · next h =>
      obtain ⟨r, hr⟩ := Option.ne_none_iff_exists'.1 h
      exact (left_of_ran (ran_ownPlace.2 (.inl ⟨hr, rfl⟩))).symm)
  fun p h => by
    split
    · exact h.settle x
    · exact h.draw

/-! ### Procedures -/

/-- The points at which parameters get the registers from number `i` on: each is given its register, the register is reserved,
and the next one is sought behind it. -/
def paramPoints : Nat → List Node → Point → List Point
  | _, [], _ => []
  | i, n :: ns, p =>
    match n.name? with
    | none => []
    | some x =>
      let given := p.give x ⟨i⟩
      let reserved := given.reserve ⟨i⟩
      let moved := reserved.advance (i + 1)
      given :: reserved :: moved :: paramPoints (i + 1) ns moved

theorem last_paramPoints : ∀ (ns : List Node) (i : Nat) (p : Point),
    ((paramPoints i ns p).getLastD p).gen = left (placeParams i ns) p.gen
  | [], _, _ => rfl
  | n :: ns, i, p => by
    rw [paramPoints, placeParams]
    cases n.name? with
    | none => rfl
    | some x =>
      have moved : (((p.give x ⟨i⟩).reserve ⟨i⟩).advance (i + 1)).gen = p.gen.bindParam x i := by
        unfold Generator.bindParam
        rw [← Bank.current_reserve p.gen.bank ⟨i⟩]
        rfl
      have rest := last_paramPoints ns (i + 1) (((p.give x ⟨i⟩).reserve ⟨i⟩).advance (i + 1))
      rw [moved] at rest
      dsimp only
      rw [List.getLastD_cons, List.getLastD_cons, List.getLastD_cons, rest]
      show _ = left (placeParams (i + 1) ns >>= _) (p.gen.bindParam x i)
      rw [left_bind, left]
      cases (placeParams (i + 1) ns).run (p.gen.bindParam x i) <;> rfl

theorem kept_paramPoints : ∀ (ns : List Node) {i : Nat} {p : Point}, p.Tidy → p.gen.bank.taken.length = i →
    (∀ q ∈ paramPoints i ns p, q.Kept) ∧ ((paramPoints i ns p).getLastD p).Tidy
  | [], _, _, h, _ => ⟨nofun, h⟩
  | n :: ns, i, p, h, hi => by
    rw [paramPoints]
    cases n.name? with
    | none => exact ⟨nofun, h⟩
    | some x =>
      have unshared := h.reserve hi x
      have tidy := h.advance hi x
      have length : (((p.give x ⟨i⟩).reserve ⟨i⟩).advance (i + 1)).gen.bank.taken.length = i + 1 := by
        subst hi
        show (p.gen.bank.reserve _).taken.length = _
        rw [h.filled.taken_reserve, List.length_append, List.length_singleton]
      obtain ⟨kept, last⟩ := kept_paramPoints ns tidy length
      dsimp only
      rw [List.getLastD_cons, List.getLastD_cons, List.getLastD_cons]
      refine ⟨fun q hq => ?_, last⟩
      rcases List.mem_cons.1 hq with rfl | hq
      · exact unshared
      rcases List.mem_cons.1 hq with rfl | hq
      · exact unshared
      rcases List.mem_cons.1 hq with rfl | hq
      · exact tidy.kept
      · exact kept q hq

def placeParams (ns : List Node) : Trace (·.bank.taken.length = 1) (placeParams 1 ns) where
  points := paramPoints 1 ns
  last := last_paramPoints ns 1
  kept _ := kept_paramPoints ns

def placeList (ns : List Node) : Trace (·.bank.taken.length = 1) (do
    let texts ← Gen.placeParams 1 ns
    emit (.comment ("Parameters: " ++ ", ".intercalate texts))) := .bind (placeParams ns) fun _ => line _

def placeParameters (params : Node) : Trace (·.bank.taken.length = 1) (placeParameters params) := ifElse _ (pure ()) <|
  match params with
  | .several ns => placeList ns
  | .text _ => placeList _
  | .program _ | .function .. | .parameter .. | .declaration .. | .assignment .. | .call .. | .ret .. | .branch .. | .forLoop ..
  | .whileLoop .. | .doLoop .. | .block .. | .binary .. | .unary .. | .identifier .. | .number .. | .string .. | .boolean ..
  | .ternary .. | .element .. | .array .. | .listOf .. | .bare | .nothing | .integer _ => fail _ _

def openProc (name : String) (params : Node) : Trace ready (openProc name params) where
  points p :=
    let started := p.start name
    let headed := started.go (started.gen.add (.proc name))
    started :: headed :: (placeParameters params).points headed
  last p := by
    rw [List.getLastD_cons, List.getLastD_cons, (placeParameters params).last]
    rfl
  kept p _ _ := by
    have started := Point.Tidy.start p name
    have headed : ((p.start name).go ((p.start name).gen.add (.proc name))).Tidy := started.go rfl rfl rfl
    obtain ⟨kept, last⟩ := (placeParameters params).kept _ headed rfl
    rw [List.getLastD_cons, List.getLastD_cons]
    refine ⟨fun q hq => ?_, last⟩
    rcases List.mem_cons.1 hq with rfl | hq
    · exact started.kept
    rcases List.mem_cons.1 hq with rfl | hq
    · exact headed.kept
    · exact kept q hq

def closeProc (returnType : String) : Trace ready (closeProc returnType) := look fun _ =>
  ifElse _ (ifElse _ (.bind (line _) fun _ => .bind (line _) fun _ => line _) (.bind (line _) fun _ => line _)) (line _)

end Trace

/-- **The trace of a computation with a course**, step by step. -/
def Course.trace : ∀ {α : Type} {m : Gen α}, Course m → Trace (fun _ => True) m
  | _, _, .pure a => .pure a
  | _, _, .throw _ => .stay fun _ => rfl
  | _, _, .bind first rest => .bind first.trace fun a => (rest a).trace
  | _, _, .discard code => code.trace.discard
  | _, _, .say .. => .line _
  | _, _, .allocate => .allocate
  | _, _, .warn kind => .warn kind
  | _, _, .ask _ rest => .look fun s => (rest s).trace
  | _, _, .place x => .place x
  | _, _, .ownPlace x => .ownPlace x
  | _, _, .procedure name params returnType code =>
    .bind (.openProc name params) fun _ => .bind code.trace fun _ => .bind (.closeProc returnType) fun _ => .pure _
  | _, _, .branching test yes no =>
    .bind test.trace fun _ => .bind (.label _) fun _ => .bind (.label _) fun _ => .bind (.line _) fun _ =>
      .bind yes.trace fun _ => .bind (.line _) fun _ => .bind (.line _) fun _ => .bind no.trace fun _ =>
      .bind (.line _) fun _ => .pure _
  | _, _, .repeating test body =>
    .bind (.label _) fun _ => .bind (.label _) fun _ => .bind (.line _) fun _ => .bind test.trace fun _ =>
      .bind (.line _) fun _ => .bind body.trace fun _ => .bind (.line _) fun _ => .bind (.line _) fun _ => .pure _
  | _, _, .retrying body test =>
    .bind (.label _) fun _ => .bind (.line _) fun _ => .bind body.trace fun _ => .bind test.trace fun _ =>
      .bind (.line _) fun _ => .pure _
  | _, _, .counting _ _ body =>
    .bind (.label _) fun _ => .bind (.label _) fun _ => .bind (.line _) fun _ => .bind .allocate fun _ =>
      .bind (.line _) fun _ => .bind (.line _) fun _ => .bind body.trace fun _ => .bind .allocate fun _ =>
      .bind (.line _) fun _ => .bind (.line _) fun _ => .bind (.line _) fun _ => .bind (.line _) fun _ => .pure _
  | _, _, .choosing test yes no =>
    .bind test.trace fun _ => .bind (.label _) fun _ => .bind (.label _) fun _ => .bind .allocate fun _ =>
      .bind (.line _) fun _ => .bind yes.trace fun _ => .bind (.line _) fun _ => .bind (.line _) fun _ =>
      .bind (.line _) fun _ => .bind no.trace fun _ => .bind (.line _) fun _ => .bind (.line _) fun _ => .pure _

/-- **Every generator that is reached keeps its registers apart**, and its bank has no gap. -/
theorem reached_tidy {s : Generator} (h : s.Reached) : s.Sound ∧ s.bank.Filled := by
  obtain ⟨tree, rfl⟩ := h
  obtain ⟨-, tidy⟩ := (Course.visit tree).trace.kept {} Point.tidy_first trivial
  rw [← (Course.visit tree).trace.last {}]
  exact ⟨tidy.sound, tidy.filled⟩

/-- **The points of generating the code of a tree**, from the first one to the last. -/
def points (tree : Node) : List Point := {} :: (Course.visitTree tree).trace.points {}

/-- **No register is shared**, at any point of generating the code of a tree.  Only where a parameter was given a register that
is still to be reserved is it so once that is done.  At the last point is the generator that is left. -/
theorem registers_unshared (tree : Node) : (∀ q ∈ points tree, q.pending = none → q.Unshared) ∧
    (∀ q ∈ points tree, ∀ r, q.pending = some r → (q.reserve r).Unshared) ∧
      (points tree).getLast?.map Point.gen = some (left (visitTree tree) {}) := by
  have kept : ∀ q ∈ points tree, q.Kept := by
    intro q hq
    rcases List.mem_cons.1 hq with rfl | hq
    · exact Point.tidy_first.kept
    · exact ((Course.visitTree tree).trace.kept {} Point.tidy_first trivial).1 q hq
  refine ⟨fun q hq h => ?_, fun q hq r h => ?_, ?_⟩
  · have unshared := kept q hq
    rw [Point.Kept, h] at unshared
    exact unshared
  · have unshared := kept q hq
    rw [Point.Kept, h] at unshared
    exact unshared
  · have last := (Course.visitTree tree).trace.last {}
    rw [List.getLastD_eq_getLast?] at last
    rw [points, List.getLast?_cons, Option.map_some, last]

/-- A function with two parameters of the same name, and a variable that is declared twice. -/
def crowded : Node :=
  .function "f" (.several [.parameter "a" "int" 1, .parameter "a" "int" 1, .parameter "b" "int" 1]) "int" (.several [
    .declaration "x" "int" 2, .declaration "x" "int" 3,
    .assignment (.text "x") (.binary (.identifier "a" 4) "+" (.identifier "b" 4) 4) 4, .ret (.identifier "x" 5) 5]) 1

theorem crowded_unshared : (∀ q ∈ points crowded, q.pending = none → q.Unshared) ∧
    (points crowded).filterMap Point.pending = [⟨1⟩, ⟨2⟩, ⟨3⟩] ∧
      (points crowded).getLast?.map (fun q => (q.gen.params, q.gen.vars)) =
        some ([("a", ⟨2⟩), ("b", ⟨3⟩)], [("x", ⟨4⟩)]) :=
  ⟨(registers_unshared crowded).1, by decide +kernel, by decide +kernel⟩

end Gen
end TesLang.Code
