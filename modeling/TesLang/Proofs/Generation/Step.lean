import Mathlib.Tactic.Simps.Basic
import TesLang.Code.Generator
import TesLang.Proofs.Run
/-!
# Single steps of code generation

What one step does to the generator: a line is added, a register is drawn from the bank, a label gets its number, a kind
of node is noted for a warning, or a variable gets a register as its home.  The runs of every step are said in these
terms, and larger runs fall apart into them.
-/
namespace TesLang.Code

namespace Generator

/-- The register of a parameter or a variable. -/
def home (s : Generator) (name : String) : Option Reg := (s.params.find? name).or (s.vars.find? name)

theorem home_eq_some {s : Generator} {x : String} {r : Reg} :
    s.home x = some r ↔ s.params.find? x = some r ∨ s.params.find? x = none ∧ s.vars.find? x = some r := by
  unfold home
  cases s.params.find? x <;> simp

/-- The next register that is free. -/
def next (s : Generator) : Reg := s.bank.allocate.1

@[simps] def add (s : Generator) (l : Line) : Generator := { s with code := s.code.push l }

@[simps] def draw (s : Generator) : Generator := { s with bank := s.bank.allocate.2 }

@[simps] def number (s : Generator) : Generator := { s with labels := s.labels + 1 }

@[simps] def note (s : Generator) (kind : String) : Generator := { s with warnings := s.warnings.push kind }

/-- A variable gets the next register. -/
@[simps] def settle (s : Generator) (x : String) : Generator :=
  { s with bank := s.bank.allocate.2, vars := s.vars.insert x s.next }

@[simp] theorem home_add (s : Generator) (l : Line) : (s.add l).home = s.home := rfl

@[simp] theorem home_draw (s : Generator) : s.draw.home = s.home := rfl

@[simp] theorem home_number (s : Generator) : s.number.home = s.home := rfl

@[simp] theorem home_note (s : Generator) (kind : String) : (s.note kind).home = s.home := rfl

theorem home_settle (s : Generator) (x y : String) :
    (s.settle x).home y = if x = y then (s.params.find? x).or (some s.next) else s.home y := by
  unfold home
  rw [settle_vars, Bindings.find?_insert]
  split
  · next h => rw [← h]; rfl
  · rfl

@[simp] theorem next_add (s : Generator) (l : Line) : (s.add l).next = s.next := rfl

@[simp] theorem next_number (s : Generator) : s.number.next = s.next := rfl

end Generator

namespace Gen

@[simp] theorem ran_emit {l : Line} {s s' : Generator} {u : Unit} : Ran (emit l) s u s' ↔ s' = s.add l := ran_modify

@[simp] theorem ran_allocate {s s' : Generator} {r : Reg} : Ran allocate s r s' ↔ r = s.next ∧ s' = s.draw :=
  ran_modifyGet

@[simp] theorem ran_freshLabel {stem : String} {s s' : Generator} {l : Label} :
    Ran (freshLabel stem) s l s' ↔ l = ⟨stem, s.labels⟩ ∧ s' = s.number := ran_modifyGet

@[simp] theorem ran_warn {kind : String} {s s' : Generator} {u : Unit} : Ran (warn kind) s u s' ↔ s' = s.note kind :=
  ran_modify

@[simp] theorem ran_place? {x : String} {s s' : Generator} {r : Option Reg} :
    Ran (place? x) s r s' ↔ r = s.home x ∧ s' = s := by
  unfold place?
  simp only [ran_bind, ran_get, ran_pure]
  constructor
  · rintro ⟨_, _, ⟨rfl, rfl⟩, rfl, rfl⟩; exact ⟨rfl, rfl⟩
  · rintro ⟨rfl, rfl⟩; exact ⟨_, _, ⟨rfl, rfl⟩, rfl, rfl⟩

/-! A step at the head of a sequence leaves a run of the rest. -/

section
variable {α : Type} {s s' : Generator} {a : α}

@[simp high] theorem ran_emit_bind {l : Line} {f : Unit → Gen α} :
    Ran (emit l >>= f) s a s' ↔ Ran (f ()) (s.add l) a s' := Ran.bind_iff (ran_emit.2 rfl)

@[simp high] theorem ran_allocate_bind {f : Reg → Gen α} :
    Ran (allocate >>= f) s a s' ↔ Ran (f s.next) s.draw a s' := Ran.bind_iff (ran_allocate.2 ⟨rfl, rfl⟩)

@[simp high] theorem ran_freshLabel_bind {stem : String} {f : Label → Gen α} :
    Ran (freshLabel stem >>= f) s a s' ↔ Ran (f ⟨stem, s.labels⟩) s.number a s' :=
  Ran.bind_iff (ran_freshLabel.2 ⟨rfl, rfl⟩)

@[simp high] theorem ran_warn_bind {kind : String} {f : Unit → Gen α} :
    Ran (warn kind >>= f) s a s' ↔ Ran (f ()) (s.note kind) a s' := Ran.bind_iff (ran_warn.2 rfl)

@[simp high] theorem ran_place?_bind {x : String} {f : Option Reg → Gen α} :
    Ran (place? x >>= f) s a s' ↔ Ran (f (s.home x)) s a s' := Ran.bind_iff (ran_place?.2 ⟨rfl, rfl⟩)

end

theorem ran_place {x : String} {s s' : Generator} {r : Reg} :
    Ran (place x) s r s' ↔ (s.home x = some r ∧ s' = s) ∨ (s.home x = none ∧ r = s.next ∧ s' = s.settle x) := by
  unfold place
  simp only [ran_bind, ran_place?]
  constructor
  · rintro ⟨_, s₀, ⟨rfl, rfl⟩, h⟩
    cases hh : s₀.home x with
    | some _ => simp_all
    | none =>
      simp only [hh, ran_bind, ran_allocate, ran_modify, ran_pure] at h
      obtain ⟨_, _, ⟨rfl, rfl⟩, _, _, rfl, rfl, rfl⟩ := h
      exact .inr ⟨rfl, rfl, rfl⟩
  · rintro (⟨h, rfl⟩ | ⟨h, rfl, rfl⟩)
    · exact ⟨_, _, ⟨rfl, rfl⟩, by simp [h]⟩
    · refine ⟨_, _, ⟨rfl, rfl⟩, ?_⟩
      simp only [h, ran_bind, ran_allocate, ran_modify, ran_pure]
      exact ⟨_, _, ⟨rfl, rfl⟩, ⟨⟩, _, rfl, rfl, rfl⟩

theorem ran_ownPlace {x : String} {s s' : Generator} {r : Reg} :
    Ran (ownPlace x) s r s' ↔ (s.vars.find? x = some r ∧ s' = s.draw) ∨
      (s.vars.find? x = none ∧ r = s.next ∧ s' = s.settle x) := by
  unfold ownPlace
  simp only [ran_bind, ran_allocate, ran_get]
  constructor
  · rintro ⟨_, _, ⟨rfl, rfl⟩, _, _, ⟨rfl, rfl⟩, h⟩
    rw [Generator.draw_vars] at h
    cases hh : s.vars.find? x with
    | some _ => simp_all
    | none =>
      simp only [hh, ran_bind, ran_modify, ran_pure] at h
      obtain ⟨_, _, rfl, rfl, rfl⟩ := h
      exact .inr ⟨rfl, rfl, rfl⟩
  · rintro (⟨h, rfl⟩ | ⟨h, rfl, rfl⟩)
    · exact ⟨_, _, ⟨rfl, rfl⟩, _, _, ⟨rfl, rfl⟩, by simp [h]⟩
    · refine ⟨_, _, ⟨rfl, rfl⟩, _, _, ⟨rfl, rfl⟩, ?_⟩
      simp only [Generator.draw_vars, h, ran_bind, ran_modify, ran_pure]
      exact ⟨⟨⟩, _, rfl, trivial, rfl⟩

/-- The register that an assignment to `x` goes to is `r`, and `s'` is the state in which that is settled. -/
def Owns (s : Generator) (x : String) (r : Reg) (s' : Generator) : Prop :=
  (s.params.find? x = some r ∧ s' = s) ∨ (s.params.find? x = none ∧ Ran (ownPlace x) s r s')

theorem ran_assign {s s' : Generator} {x : String} {a : Option Reg} {u : Unit} :
    Ran (assign x a) s u s' ↔ ∃ r s₁, Owns s x r s₁ ∧ s' = if a = some r then s₁ else s₁.add (.mov r (.ofReg a)) := by
  have move : ∀ {r : Reg} {s₁ : Generator}, Ran (if a ≠ some r then emit (.mov r (.ofReg a)) else pure ()) s₁ u s' ↔
      s' = if a = some r then s₁ else s₁.add (.mov r (.ofReg a)) := by
    intro r s₁
    by_cases h : a = some r <;> simp [h]
  unfold assign Owns
  rw [(ran_get.2 ⟨rfl, rfl⟩ : Ran get s s s).bind_iff]
  dsimp only
  cases s.params.find? x with
  | some r =>
    refine Iff.trans move ⟨fun h => ⟨r, s, .inl ⟨rfl, rfl⟩, h⟩, ?_⟩
    rintro ⟨_, _, ⟨h, rfl⟩ | ⟨h, -⟩, hs⟩ <;> cases h
    exact hs
  | none =>
    refine ran_bind.trans ⟨fun ⟨r, s₁, h, hm⟩ => ⟨r, s₁, .inr ⟨rfl, h⟩, move.1 hm⟩, ?_⟩
    rintro ⟨r, s₁, ⟨h, -⟩ | ⟨-, h⟩, hs⟩
    · cases h
    · exact ⟨r, s₁, h, move.2 hs⟩

/-- The code inside a procedure whose body is the given node: of the statements of a list or block, without the functions
among them. -/
def bodyCode : Node → Gen Unit
  | .several ns => visitOwn ns
  | .block ns _ => visitOwn ns
  | .function .. => pure ()
  | n => discard (visit n)

theorem visit_procedure (name : String) (params : Node) (returnType : String) (body : Node) (line : Int) :
    visit (.function name params returnType body line) = procedure name params returnType (bodyCode body) := by
  cases body with
  | several ns | block ns _ => rw [visit, bodyCode]
  | function _ _ _ _ _ => rw [visit, bodyCode]
  | _ => rw [visit] <;> first | rfl | (intros; contradiction)

theorem requireBodies_of_isFunction {fs : List Node} (h : ∀ f ∈ fs, f.isFunction = true) : requireBodies fs = pure () := by
  have bodies : fs.find? (!hasBody ·) = none := by
    rw [List.find?_eq_none]
    intro f hf
    have := h f hf
    cases f with
    | function _ _ _ _ _ => simp [hasBody]
    | _ => simp [Node.isFunction] at this
  rw [requireBodies, bodies]

theorem ran_program {fs : List Node} (h : ∀ f ∈ fs, f.isFunction = true) {s s' : Generator} {t : Option Reg} :
    Ran (visit (.program fs)) s t s' ↔ t = none ∧ Ran (visitProgram fs) s () s' := by
  rw [visit, requireBodies_of_isFunction h, pure_bind]
  simp only [ran_bind, ran_pure]
  constructor
  · rintro ⟨_, _, hr, rfl, rfl⟩
    exact ⟨rfl, hr⟩
  · rintro ⟨rfl, hr⟩
    exact ⟨_, _, hr, rfl, rfl⟩

end Gen
end TesLang.Code
