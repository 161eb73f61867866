import TesLang.Proofs.Parsing.Outcome
import TesLang.Proofs.Parsing.Walk
/-!
# One token ahead

No parser looks further than the token behind those it takes: what it does on some tokens it does on all tokens that
start with the ones it took and go on with the same next token, or end there too (`OneAhead`).  So whether a token fits
is settled by the tokens up to it (`program_oneAhead`).

There is one lemma for each of the parsers that the grammar is built from, and one for putting two after another.
-/
namespace TesLang.Parser

variable {α β : Type}

/-- The tokens that a run leaves. -/
def rest : EStateM.Result Halt Input α → List Token
  | .ok _ s | .error _ s => s.tokens

def leaving (us : List Token) : EStateM.Result Halt Input α → EStateM.Result Halt Input α
  | .ok a s => .ok a { s with tokens := us }
  | .error e s => .error e { s with tokens := us }

/-- A parser looks no further than one token behind those that it takes. -/
def OneAhead (p : Parser α) : Prop :=
  ∀ (ts : List Token) (entered : List String), ∃ ws, ts = ws ++ rest (p.run { tokens := ts, entered }) ∧
    ∀ us, us.head? = (rest (p.run { tokens := ts, entered })).head? →
      p.run { tokens := ws ++ us, entered } = leaving us (p.run { tokens := ts, entered })

theorem head?_append_of_head? {us vs : List Token} (ws : List Token) (h : us.head? = vs.head?) :
    (ws ++ us).head? = (ws ++ vs).head? := by
  cases ws with
  | nil => exact h
  | cons w _ => rfl

theorem run_bind (p : Parser α) (f : α → Parser β) (s : Input) :
    (p >>= f).run s = match p.run s with
      | .ok a s => (f a).run s
      | .error e s => .error e s := by
  show EStateM.bind p f s = _
  unfold EStateM.bind EStateM.run
  cases p s <;> rfl

namespace OneAhead

theorem pure (a : α) : OneAhead (pure a : Parser α) := fun _ _ => ⟨[], rfl, fun _ _ => rfl⟩

theorem stuck : OneAhead (stuck : Parser α) := fun _ _ => ⟨[], rfl, fun _ _ => rfl⟩

theorem spent : OneAhead (spent : Parser α) := fun _ _ => ⟨[], rfl, fun _ _ => rfl⟩

theorem enter (name : String) : OneAhead (enter name) := fun _ _ => ⟨[], rfl, fun _ _ => rfl⟩

theorem bind {p : Parser α} {f : α → Parser β} (hp : OneAhead p) (hf : ∀ a, OneAhead (f a)) : OneAhead (p >>= f) := by
  intro ts entered
  obtain ⟨ws, hts, hp⟩ := hp ts entered
  rw [run_bind]
  cases h : p.run { tokens := ts, entered } with
  | error e s =>
    rw [h] at hts hp
    refine ⟨ws, hts, fun us hu => ?_⟩
    rw [run_bind, hp us hu]
    rfl
  | ok a s =>
    rw [h] at hts hp
    obtain ⟨ws', hs, hf⟩ := hf a s.tokens s.entered
    refine ⟨ws ++ ws', ?_, fun us hu => ?_⟩
    · rw [List.append_assoc, ← hs]
      exact hts
    · -- the second parser takes its tokens from those that the first one leaves, so these start alike
      have next : (ws' ++ us).head? = s.tokens.head? := by rw [head?_append_of_head? ws' hu, ← hs]
      rw [run_bind, List.append_assoc, hp _ next]
      exact hf us hu

theorem of_next {p : Parser α} (made : Option Token → Except Halt α) (takes : Token → Bool)
    (h : ∀ ts entered, p.run { tokens := ts, entered } = match made ts.head? with
      | .ok a => .ok a { tokens := if ts.head?.any takes then ts.tail else ts, entered }
      | .error e => .error e { tokens := ts, entered }) : OneAhead p := by
  intro ts entered
  -- nothing is taken, and the next token settles what comes of it
  have keeping {r : List Token → EStateM.Result Halt Input α} (tokens : rest (r ts) = ts)
      (same : ∀ us, leaving us (r ts) = r us)
      (run : ∀ us, us.head? = ts.head? → p.run { tokens := us, entered } = r us) :
      ∃ ws, ts = ws ++ rest (p.run { tokens := ts, entered }) ∧
        ∀ us, us.head? = (rest (p.run { tokens := ts, entered })).head? →
          p.run { tokens := ws ++ us, entered } = leaving us (p.run { tokens := ts, entered }) := by
    rw [run ts rfl, tokens]
    exact ⟨[], rfl, fun us hu => (run us hu).trans (same us).symm⟩
  cases hm : made ts.head? with
  | error e =>
    refine keeping (r := fun us => .error e { tokens := us, entered }) rfl (fun _ => rfl) fun us hu => ?_
    rw [h, hu, hm]
  | ok a =>
    cases ht : ts.head?.any takes with
    | false =>
      refine keeping (r := fun us => .ok a { tokens := us, entered }) rfl (fun _ => rfl) fun us hu => ?_
      rw [h, hu, hm, ht]
      rfl
    | true =>
      cases ts with
      | nil => cases ht
      | cons t ts =>
        have run (us : List Token) : p.run { tokens := t :: us, entered } = .ok a { tokens := us, entered } := by
          rw [List.head?_cons] at hm ht
          rw [h, List.head?_cons, hm, ht]
          rfl
        rw [run ts]
        exact ⟨[t], rfl, fun us _ => run us⟩

theorem peek : OneAhead peek :=
  of_next (fun t? => .ok (t?.map (·.kind))) (fun _ => false) fun ts _ => by cases ts <;> rfl

theorem take : OneAhead take :=
  of_next (fun t? => t?.elim (.error .stuck) .ok) (fun _ => true) fun ts _ => by cases ts <;> rfl

theorem ending : OneAhead ending :=
  of_next (fun t? => if t?.isNone then .ok () else .error .stuck) (fun _ => false) fun ts _ => by cases ts <;> rfl

theorem expect (k : Kind) : OneAhead (expect k) := by
  refine of_next (fun t? => t?.elim (.error .stuck) fun t => if t.kind = k then .ok t else .error .stuck)
    (fun t => decide (t.kind = k)) fun ts entered => ?_
  cases ts with
  | nil => rfl
  | cons t ts => by_cases h : t.kind = k <;> simp [EStateM.run, Parser.expect, h]

theorem takeIf (k : Kind) : OneAhead (takeIf k) := by
  refine of_next (fun t? => .ok (t?.filter fun t => decide (t.kind = k))) (fun t => decide (t.kind = k)) fun ts entered => ?_
  cases ts with
  | nil => rfl
  | cons t ts => by_cases h : t.kind = k <;> simp [EStateM.run, Parser.takeIf, Option.filter, h]

theorem takeOperator (least : Nat) : OneAhead (takeOperator least) := by
  refine of_next (fun t? => .ok (t?.bind fun t => ((level? t.kind).filter (least ≤ ·)).map (t, ·)))
    (fun t => (level? t.kind).any (least ≤ ·)) fun ts entered => ?_
  cases ts with
  | nil => rfl
  | cons t ts =>
    cases hl : level? t.kind with
    | none => simp [EStateM.run, Parser.takeOperator, hl]
    | some l => by_cases h : least ≤ l <;> simp [EStateM.run, Parser.takeOperator, Option.filter, hl, h]

theorem walk : Walk ⟨id, id, fun _ => rfl⟩ id fun _ p _ => OneAhead p where
  pure _ := .pure _
  bind := .bind
  throw _ := fun _ _ => ⟨[], rfl, fun _ _ => rfl⟩
  peek := .peek
  take := .take
  expect := .expect
  takeIf := .takeIf
  takeOperator := .takeOperator
  enter := .enter
  ending := .ending

end OneAhead

theorem expression_oneAhead (n least : Nat) : OneAhead (expression n least) := expression_walks OneAhead.walk n least

theorem type_oneAhead : OneAhead type := type_walks OneAhead.walk

theorem parameters_oneAhead (n : Nat) : OneAhead (parameters n) := parameters_walks OneAhead.walk n

theorem statements_oneAhead (n : Nat) : OneAhead (statements n) := statements_walks OneAhead.walk n

/-- **One token ahead**: a program is read token by token, and a token that does not fit is found when it is the next. -/
theorem program_oneAhead (n : Nat) : OneAhead (program n) := program_walks OneAhead.walk n

end TesLang.Parser
