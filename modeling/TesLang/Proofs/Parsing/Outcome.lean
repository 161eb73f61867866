import TesLang.Parser.Recovery
/-!
# What comes of running a parser

`Leads S p ts Q E` says what comes of running the parser `p` on the tokens `ts`.  If it makes something, `Q` holds of that
and of the tokens that are left.  If it gets stuck, `E` holds of the tokens from there on.  And if the bound on the depth
of its calls is spent, `S` holds.

There is one lemma for each of the parsers that the grammar is built from, and one for putting two after another.
-/
namespace TesLang.Parser

variable {α β : Type}

/-- What comes of running a parser. -/
def Leads (S : Prop) (p : Parser α) (ts : List Token) (Q : α → List Token → Prop) (E : List Token → Prop) : Prop :=
  ∀ entered : List String,
    match p.run { tokens := ts, entered } with
    | .ok a s => Q a s.tokens
    | .error .stuck s => E s.tokens
    | .error .spent _ => S

namespace Leads

variable {S : Prop} {ts us : List Token} {Q : α → List Token → Prop} {R : β → List Token → Prop} {E : List Token → Prop}

theorem pure {a : α} (h : Q a ts) : Leads S (pure a) ts Q E := fun _ => h

theorem bind {p : Parser α} {f : α → Parser β} (h : Leads S p ts (fun a us => Leads S (f a) us R E) E) :
    Leads S (p >>= f) ts R E := by
  intro entered
  have h := h entered
  show match EStateM.bind p f _ with
    | .ok b s => R b s.tokens
    | .error .stuck s => E s.tokens
    | .error .spent _ => S
  unfold EStateM.run at h
  unfold EStateM.bind
  cases hp : p { tokens := ts, entered } with
  | ok a s =>
    rw [hp] at h
    exact h s.entered
  | error e s =>
    rw [hp] at h
    cases e <;> exact h

theorem mono {p : Parser α} {Q' : α → List Token → Prop} {E' : List Token → Prop} (h : Leads S p ts Q E)
    (hQ : ∀ a us, Q a us → Q' a us) (hE : ∀ us, E us → E' us) : Leads S p ts Q' E' := by
  intro entered
  have h := h entered
  cases hp : p.run { tokens := ts, entered } with
  | ok a s =>
    rw [hp] at h
    exact hQ a _ h
  | error e s =>
    rw [hp] at h
    cases e with
    | stuck => exact hE _ h
    | spent => exact h

theorem andThen {p : Parser α} {f : α → Parser β} {E' : List Token → Prop} (first : Leads S p ts Q E')
    (hE : ∀ us, E' us → E us) (rest : ∀ a us, Q a us → Leads S (f a) us R E) : Leads S (p >>= f) ts R E :=
  bind (first.mono rest hE)

theorem spent (h : S) : Leads S spent ts Q E := fun _ => h

theorem stuck (h : E ts) : Leads S stuck ts Q E := fun _ => h

theorem peek {f : Option Kind → Parser β} (h : ∀ k, ts.head?.map (·.kind) = k → Leads S (f k) ts R E) :
    Leads S (peek >>= f) ts R E := bind fun _ => h _ rfl

theorem take {t : Token} {f : Token → Parser β} (h : Leads S (f t) ts R E) : Leads S (take >>= f) (t :: ts) R E := bind fun _ => h

theorem expect {k : Kind} {f : Token → Parser β} (hE : E ts)
    (h : ∀ t us, ts = t :: us → t.kind = k → Leads S (f t) us R E) : Leads S (expect k >>= f) ts R E := by
  refine bind fun entered => ?_
  unfold EStateM.run Parser.expect
  cases ts with
  | nil => exact hE
  | cons t us =>
    dsimp only
    by_cases hk : t.kind = k
    · rw [if_pos hk]
      exact h t us rfl hk
    · rw [if_neg hk]
      exact hE

theorem takeIf {k : Kind} {f : Option Token → Parser β} (taken : ∀ t us, ts = t :: us → t.kind = k → Leads S (f (some t)) us R E)
    (other : ts.head?.map (·.kind) ≠ some k → Leads S (f none) ts R E) : Leads S (takeIf k >>= f) ts R E := by
  refine bind fun entered => ?_
  unfold EStateM.run Parser.takeIf
  cases ts with
  | nil => exact other nofun
  | cons t us =>
    dsimp only
    by_cases hk : t.kind = k
    · rw [if_pos hk]
      exact taken t us rfl hk
    · rw [if_neg hk]
      exact other fun h => hk (Option.some.inj h)

theorem takeOperator {least : Nat} {f : Option (Token × Nat) → Parser β}
    (taken : ∀ t us l, ts = t :: us → level? t.kind = some l → least ≤ l → Leads S (f (some (t, l))) us R E)
    (other : (∀ t us l, ts = t :: us → level? t.kind = some l → l < least) → Leads S (f none) ts R E) :
    Leads S (takeOperator least >>= f) ts R E := by
  refine bind fun entered => ?_
  unfold EStateM.run Parser.takeOperator
  cases ts with
  | nil => exact other nofun
  | cons t us =>
    dsimp only
    cases hl : level? t.kind with
    | none =>
      refine other fun t' us' l h hl' => ?_
      cases h
      rw [hl] at hl'
      cases hl'
    | some l =>
      dsimp only
      by_cases hle : least ≤ l
      · rw [if_pos hle]
        exact taken t us l rfl hl hle
      · rw [if_neg hle]
        refine other fun t' us' l' h hl' => ?_
        cases h
        rw [hl] at hl'
        cases hl'
        omega

theorem enter {name : String} {f : Unit → Parser β} (h : Leads S (f ()) ts R E) : Leads S (enter name >>= f) ts R E :=
  bind fun _ => h

theorem ending {f : Unit → Parser β} (hE : E ts) (h : ts = [] → Leads S (f ()) ts R E) : Leads S (ending >>= f) ts R E := by
  refine bind fun entered => ?_
  unfold EStateM.run Parser.ending
  cases ts with
  | nil => exact h rfl
  | cons t us => exact hE

end Leads

theorem exists_of_head {ts : List Token} {k : Kind} (h : ts.head?.map (·.kind) = some k) :
    ∃ t us, ts = t :: us ∧ t.kind = k := by
  cases ts with
  | nil => cases h
  | cons t us => exact ⟨t, us, rfl, Option.some.inj h⟩

end TesLang.Parser
