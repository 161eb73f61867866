import TesLang.Proofs.Parsing.Lookahead
/-!
# Two runs side by side

Two texts that are alike but for one function are read alike but for what is made of this function.  `Beside` compares two
runs that may have different bounds on the depth of their calls and different tokens.  Both are at tokens that are alike
(`Abreast`) until one of them and then the other has taken the function; from then on they are at the same tokens, and what they
make differs in one place (`Swapped`).

Where the tokens are the same from the start, nothing differs, whatever the bounds are (`steady`).  Behind the
function the two runs go on like that.
-/
namespace TesLang

/-- Two nodes are alike but for one place within them, where `Base` holds of what they have. -/
inductive Swapped (Base : Node → Node → Prop) : Node → Node → Prop
  | here {a b : Node} (h : Base a b) : Swapped Base a b
  | body {name type : String} {params a b : Node} {line : Int} (h : Swapped Base a b) :
      Swapped Base (.function name params type a line) (.function name params type b line)
  | yes {condition a b no : Node} {line : Int} (h : Swapped Base a b) :
      Swapped Base (.branch condition a no line) (.branch condition b no line)
  | no {condition yes a b : Node} {line : Int} (h : Swapped Base a b) :
      Swapped Base (.branch condition yes a line) (.branch condition yes b line)
  | forLoop {var : String} {start stop a b : Node} {line : Int} (h : Swapped Base a b) :
      Swapped Base (.forLoop var start stop a line) (.forLoop var start stop b line)
  | whileLoop {condition a b : Node} {line : Int} (h : Swapped Base a b) :
      Swapped Base (.whileLoop condition a line) (.whileLoop condition b line)
  | doLoop {condition a b : Node} {line : Int} (h : Swapped Base a b) :
      Swapped Base (.doLoop a condition line) (.doLoop b condition line)
  | block {xs ys : List Node} {a b : Node} {line : Int} (h : Swapped Base a b) :
      Swapped Base (.block (xs ++ a :: ys) line) (.block (xs ++ b :: ys) line)
  | several {xs ys : List Node} {a b : Node} (h : Swapped Base a b) :
      Swapped Base (.several (xs ++ a :: ys)) (.several (xs ++ b :: ys))

/-- Two lists of nodes are alike but for one place. -/
inductive SwappedIn (Base : Node → Node → Prop) : List Node → List Node → Prop
  | intro (xs ys : List Node) {a b : Node} (h : Swapped Base a b) : SwappedIn Base (xs ++ a :: ys) (xs ++ b :: ys)

section
variable {Base : Node → Node → Prop} {a b : Node} {as bs : List Node}

theorem SwappedIn.block (h : SwappedIn Base as bs) (line : Int) : Swapped Base (.block as line) (.block bs line) := by
  obtain ⟨xs, ys, h⟩ := h
  exact .block h

theorem SwappedIn.several (h : SwappedIn Base as bs) : Swapped Base (.several as) (.several bs) := by
  obtain ⟨xs, ys, h⟩ := h
  exact .several h

theorem SwappedIn.before (xs : List Node) (h : SwappedIn Base as bs) : SwappedIn Base (xs ++ as) (xs ++ bs) := by
  obtain ⟨zs, ys, h⟩ := h
  rw [← List.append_assoc, ← List.append_assoc]
  exact .intro (xs ++ zs) ys h

theorem SwappedIn.behind (ys : List Node) (h : SwappedIn Base as bs) : SwappedIn Base (as ++ ys) (bs ++ ys) := by
  obtain ⟨xs, zs, h⟩ := h
  rw [List.append_assoc, List.append_assoc]
  exact .intro xs (zs ++ ys) h

theorem Swapped.eq_iff {P : Prop} (base : ∀ a b, Base a b → (a = b ↔ P)) (h : Swapped Base a b) : a = b ↔ P := by
  induction h with
  | here h => exact base _ _ h
  | body _ ih => simpa using ih
  | yes _ ih => simpa using ih
  | no _ ih => simpa using ih
  | forLoop _ ih => simpa using ih
  | whileLoop _ ih => simpa using ih
  | doLoop _ ih => simpa using ih
  | block _ ih => simpa using ih
  | several _ ih => simpa using ih

theorem SwappedIn.eq_iff {P : Prop} (base : ∀ a b, Base a b → (a = b ↔ P)) (h : SwappedIn Base as bs) : as = bs ↔ P := by
  obtain ⟨xs, ys, h⟩ := h
  simpa using h.eq_iff base

def Namesakes (a b : Node) : Prop :=
  ∃ name params params' type type' body body' line, a = .function name params type body line ∧
    b = .function name params' type' body' line

theorem Swapped.parts (base : ∀ a b, Base a b → Namesakes a b) (h : Swapped Base a b) :
    SwappedIn Base a.parts b.parts := by
  cases h with
  | here h =>
    obtain ⟨name, params, params', type, type', body, body', line, rfl, rfl⟩ := base a b h
    exact .intro [] [] (.here h)
  | body h => exact .intro [] [] (.body h)
  | yes h => exact .intro [] [] (.yes h)
  | no h => exact .intro [] [] (.no h)
  | forLoop h => exact .intro [] [] (.forLoop h)
  | whileLoop h => exact .intro [] [] (.whileLoop h)
  | doLoop h => exact .intro [] [] (.doLoop h)
  | block h => exact .intro [] [] (.block h)
  | several h => exact .intro _ _ h

theorem Swapped.noteFirst_eq (base : ∀ a b, Base a b → Namesakes a b) (h : Swapped Base a b) :
    Parser.noteFirst a = Parser.noteFirst b := by
  cases h with
  | here h =>
    obtain ⟨name, params, params', type, type', body, body', line, rfl, rfl⟩ := base a b h
    rfl
  | _ => rfl

end

namespace Parser

variable {α β γ δ : Type}

/-! ### Two runs -/

/-- How two runs end: alike, or one of them for want of depth. -/
inductive SameEnd (Q : α → List Token → β → List Token → Prop) (E : List Token → List Token → Prop) :
    EStateM.Result Halt Input α → EStateM.Result Halt Input β → Prop
  | ok {a : α} {b : β} {ts us : List Token} (entered : List String) (h : Q a ts b us) :
      SameEnd Q E (.ok a { tokens := ts, entered }) (.ok b { tokens := us, entered })
  | stuck {ts us : List Token} (entered : List String) (h : E ts us) :
      SameEnd Q E (.error .stuck { tokens := ts, entered }) (.error .stuck { tokens := us, entered })
  | left (s : Input) (r : EStateM.Result Halt Input β) : SameEnd Q E (.error .spent s) r
  | right (r : EStateM.Result Halt Input α) (s : Input) : SameEnd Q E r (.error .spent s)

/-- Two parsers, each on its tokens. -/
def Beside (Q : α → List Token → β → List Token → Prop) (E : List Token → List Token → Prop) (p : Parser α) (q : Parser β)
    (ts us : List Token) : Prop :=
  ∀ entered : List String, SameEnd Q E (p.run { tokens := ts, entered }) (q.run { tokens := us, entered })

namespace Beside

variable {Q Q' : α → List Token → β → List Token → Prop} {R : γ → List Token → δ → List Token → Prop}
  {E E' : List Token → List Token → Prop} {p : Parser α} {q : Parser β} {ts us : List Token}

theorem bind {f : α → Parser γ} {g : β → Parser δ} (first : Beside Q E p q ts us)
    (rest : ∀ a vs b ws, Q a vs b ws → Beside R E (f a) (g b) vs ws) : Beside R E (p >>= f) (q >>= g) ts us := by
  intro entered
  have first := first entered
  rw [run_bind, run_bind]
  generalize p.run { tokens := ts, entered } = r at first
  generalize q.run { tokens := us, entered } = s at first
  cases first with
  | ok entered h => exact rest _ _ _ _ h entered
  | stuck entered h => exact .stuck entered h
  | left s r => exact .left _ _
  | right r s => exact .right _ _

theorem mono (h : Beside Q E p q ts us) (hQ : ∀ a vs b ws, Q a vs b ws → Q' a vs b ws) (hE : ∀ vs ws, E vs ws → E' vs ws) :
    Beside Q' E' p q ts us := by
  intro entered
  have h := h entered
  generalize p.run { tokens := ts, entered } = r at h ⊢
  generalize q.run { tokens := us, entered } = s at h ⊢
  cases h with
  | ok entered h => exact .ok entered (hQ _ _ _ _ h)
  | stuck entered h => exact .stuck entered (hE _ _ h)
  | left s r => exact .left _ _
  | right r s => exact .right _ _

end Beside

/-! ### Behind the place where they differ -/

/-- Two parsers on the same tokens, which leave the same tokens, with `V` between what they make. -/
def After (V : α → β → Prop) (p : Parser α) (q : Parser β) (ts : List Token) : Prop :=
  Beside (fun a vs b ws => V a b ∧ vs = ws) Eq p q ts ts

namespace After

variable {V : α → β → Prop} {W : γ → δ → Prop} {ts : List Token}

theorem pure {a : α} {b : β} (h : V a b) : After V (pure a) (pure b) ts := fun entered => .ok entered ⟨h, rfl⟩

theorem bind {p : Parser α} {q : Parser β} {f : α → Parser γ} {g : β → Parser δ} (first : After V p q ts)
    (rest : ∀ a b us, V a b → After W (f a) (g b) us) : After W (p >>= f) (q >>= g) ts := by
  apply Beside.bind first
  rintro a vs b ws ⟨h, rfl⟩
  exact rest a b vs h

theorem refl (p : Parser α) : After Eq p p ts := by
  intro entered
  cases p.run { tokens := ts, entered } with
  | ok a s => exact .ok s.entered ⟨rfl, rfl⟩
  | error e s =>
    cases e with
    | stuck => exact .stuck s.entered rfl
    | spent => exact .left s _

theorem next {p : Parser α} {f : α → Parser γ} {g : α → Parser δ} (rest : ∀ a us, After W (f a) (g a) us) :
    After W (p >>= f) (p >>= g) ts := by
  apply bind (refl p)
  rintro a _ us rfl
  exact rest a us

theorem andThen {p q : Parser α} {f : α → Parser γ} {g : α → Parser δ} (first : After Eq p q ts)
    (rest : ∀ a us, After W (f a) (g a) us) : After W (p >>= f) (q >>= g) ts := by
  apply bind first
  rintro a _ us rfl
  exact rest a us

end After

/-- Parsers do the same with different bounds on the depth of their calls. -/
structure Steady : Prop where
  condition : ∀ n m ts, After Eq (condition n) (condition m) ts
  statement : ∀ n m ts, After Eq (statement n) (statement m) ts
  moreStatements : ∀ n m ts, After Eq (moreStatements n) (moreStatements m) ts
  moreFunctions : ∀ n m ts, After Eq (moreFunctions n) (moreFunctions m) ts

/-! ### Up to the place where they differ -/

/-- Tokens that two runs go along together: they are the same one by one, up to a function that both runs take, with `Base`
between what they make of it, and which leaves them at the same tokens. -/
structure Abreast (Ahead : List Token → List Token → Prop) (Base : Node → Node → Prop) : Prop where
  head : ∀ {ts us : List Token}, Ahead ts us → ts.head? = us.head?
  tail : ∀ {t : Token} {ts us : List Token}, Ahead (t :: ts) (t :: us) → t.kind ≠ .funkKw → Ahead ts us
  funk : ∀ {t : Token} {ts us : List Token}, Ahead (t :: ts) (t :: us) → t.kind = .funkKw → Ahead ts us ∨
    ∀ n m, Beside (fun a vs b ws => Base a b ∧ vs = ws) (fun _ _ => False) (function n) (function m) (t :: ts) (t :: us)
  namesakes : ∀ a b, Base a b → Namesakes a b
  steady : ∀ a b, Base a b → Steady

section
variable (Ahead : List Token → List Token → Prop) (Base : Node → Node → Prop)

/-- Two parsers at tokens that they go along together: they make the same and are still at such tokens, or they have passed
the place where the tokens differ, with `V` between what they make. -/
def On (V : α → α → Prop) (p q : Parser α) (ts us : List Token) : Prop :=
  Beside (fun a vs b ws => (a = b ∧ Ahead vs ws) ∨ (V a b ∧ vs = ws)) (fun vs ws => Ahead vs ws ∨ vs = ws) p q ts us

def Along (V : α → α → Prop) (p q : Parser α) : Prop := ∀ ts us, Ahead ts us → On Ahead V p q ts us

def AlongAt (k : Option Kind) (V : α → α → Prop) (p q : Parser α) : Prop :=
  ∀ ts us, Ahead ts us → ts.head?.map (·.kind) = k → On Ahead V p q ts us

/-- What passes the place where the tokens differ is none of these. -/
def Never (_ _ : α) : Prop := False

end

section
variable {Ahead : List Token → List Token → Prop} {Base : Node → Node → Prop} {U : β → β → Prop} {V : α → α → Prop}
  {p q : Parser β} {f g : β → Parser α} {k : Kind}

theorem On.of_after {p q : Parser α} {ts : List Token} (h : After V p q ts) : On Ahead V p q ts ts :=
  h.mono (fun _ _ _ _ h => .inr h) fun _ _ h => .inr h

namespace Along

theorem here {p q : Parser α} {k : Option Kind} (h : Along Ahead V p q) : AlongAt Ahead k V p q :=
  fun ts us ahead _ => h ts us ahead

theorem pure (a : α) : Along Ahead V (pure a) (pure a) := fun _ _ ahead entered => .ok entered (.inl ⟨rfl, ahead⟩)

theorem stuck : Along Ahead V stuck stuck := fun _ _ ahead entered => .stuck entered (.inl ahead)

theorem spent {p : Parser α} : Along Ahead V spent p := fun _ _ _ _ => .left _ _

theorem spent' {p : Parser α} : Along Ahead V p Parser.spent := fun _ _ _ _ => .right _ _

theorem enter {V : Unit → Unit → Prop} (name : String) : Along Ahead V (Parser.enter name) (Parser.enter name) :=
  fun _ _ ahead _ => .ok _ (.inl ⟨rfl, ahead⟩)

theorem bind (first : Along Ahead U p q) (rest : ∀ a, Along Ahead V (f a) (g a))
    (behind : ∀ a b us, U a b → After V (f a) (g b) us) : Along Ahead V (p >>= f) (q >>= g) := by
  intro ts us ahead
  apply Beside.bind (first ts us ahead)
  rintro a vs b ws (⟨rfl, ahead⟩ | ⟨h, rfl⟩)
  · exact rest a vs ws ahead
  · exact On.of_after (behind a b vs h)

theorem next (first : Along Ahead Never p q) (rest : ∀ a, Along Ahead V (f a) (g a)) : Along Ahead V (p >>= f) (q >>= g) :=
  first.bind rest fun _ _ _ h => h.elim

end Along

namespace Abreast

variable {ts us : List Token} {t : Token} (h : Abreast Ahead Base)
include h

theorem eq_nil (ahead : Ahead [] us) : us = [] := List.head?_eq_none_iff.1 (h.head ahead).symm

theorem exists_cons (ahead : Ahead (t :: ts) us) : ∃ us', us = t :: us' := by
  cases us with
  | nil => cases h.head ahead
  | cons t' us =>
    cases h.head ahead
    exact ⟨us, rfl⟩

theorem next {p : Parser α} (nil : ∀ entered, p.run { tokens := [], entered } = .error .stuck { tokens := [], entered } ∨
      ∃ a, p.run { tokens := [], entered } = .ok a { tokens := [], entered })
    (cons : ∀ t, (∀ ts entered, p.run { tokens := t :: ts, entered } = .error .stuck { tokens := t :: ts, entered }) ∨
      (∃ a, ∀ ts entered, p.run { tokens := t :: ts, entered } = .ok a { tokens := t :: ts, entered }) ∨
      ∃ a, t.kind ≠ .funkKw ∧ ∀ ts entered, p.run { tokens := t :: ts, entered } = .ok a { tokens := ts, entered }) :
    Along Ahead V p p := by
  intro ts us ahead entered
  cases ts with
  | nil =>
    obtain rfl := h.eq_nil ahead
    rcases nil entered with run | ⟨a, run⟩
    · rw [run]
      exact .stuck entered (.inl ahead)
    · rw [run]
      exact .ok entered (.inl ⟨rfl, ahead⟩)
  | cons t ts =>
    obtain ⟨us, rfl⟩ := h.exists_cons ahead
    rcases cons t with run | ⟨a, run⟩ | ⟨a, ht, run⟩
    · rw [run, run]
      exact .stuck entered (.inl ahead)
    · rw [run, run]
      exact .ok entered (.inl ⟨rfl, ahead⟩)
    · rw [run, run]
      exact .ok entered (.inl ⟨rfl, h.tail ahead ht⟩)

theorem expect (hk : k ≠ .funkKw) {V : Token → Token → Prop} : Along Ahead V (expect k) (expect k) := by
  refine h.next (fun _ => .inl rfl) fun t => ?_
  by_cases ht : t.kind = k
  · exact .inr (.inr ⟨t, ht ▸ hk, fun _ _ => if_pos ht⟩)
  · exact .inl fun _ _ => if_neg ht

theorem takeIf (hk : k ≠ .funkKw) {V : Option Token → Option Token → Prop} : Along Ahead V (takeIf k) (takeIf k) := by
  refine h.next (fun _ => .inr ⟨none, rfl⟩) fun t => ?_
  by_cases ht : t.kind = k
  · exact .inr (.inr ⟨some t, ht ▸ hk, fun _ _ => if_pos ht⟩)
  · exact .inr (.inl ⟨none, fun _ _ => if_neg ht⟩)

theorem takeOperator (least : Nat) {V : Option (Token × Nat) → Option (Token × Nat) → Prop} :
    Along Ahead V (takeOperator least) (takeOperator least) := by
  refine h.next (fun _ => .inr ⟨none, rfl⟩) fun t => ?_
  cases hl : level? t.kind with
  | none => exact .inr (.inl ⟨none, fun _ _ => by simp [EStateM.run, Parser.takeOperator, hl]⟩)
  | some l =>
    by_cases hle : least ≤ l
    · refine .inr (.inr ⟨some (t, l), ?_, fun _ _ => by simp [EStateM.run, Parser.takeOperator, hl, hle]⟩)
      intro ht
      rw [ht] at hl
      cases hl
    · exact .inr (.inl ⟨none, fun _ _ => by simp [EStateM.run, Parser.takeOperator, hl, hle]⟩)

theorem ending {V : Unit → Unit → Prop} : Along Ahead V ending ending :=
  h.next (fun _ => .inr ⟨(), rfl⟩) fun _ => .inl fun _ _ => rfl

theorem peek {f g : Option Kind → Parser α} (rest : ∀ k, AlongAt Ahead k V (f k) (g k)) :
    Along Ahead V (peek >>= f) (peek >>= g) := by
  intro ts us ahead entered
  have rest := rest _ ts us ahead rfl entered
  show SameEnd _ _ ((f _).run _) ((g (us.head?.map _)).run _)
  rwa [← h.head ahead]

theorem same_or_swapped (ahead : Ahead ts us) :
    (∀ t ts' us', ts = t :: ts' → us = t :: us' → t.kind = .funkKw → Ahead ts' us') ∨
      ∀ n m, Beside (fun a vs b ws => Base a b ∧ vs = ws) (fun _ _ => False) (function n) (function m) ts us := by
  cases ts with
  | nil =>
    refine .inl fun _ _ _ h => ?_
    cases h
  | cons t ts =>
    obtain ⟨us, rfl⟩ := h.exists_cons ahead
    by_cases ht : t.kind = .funkKw
    · rcases h.funk ahead ht with same | swapped
      · refine .inl fun _ _ _ hts hus _ => ?_
        cases hts
        cases hus
        exact same
      · exact .inr swapped
    · refine .inl fun _ _ _ hts _ hk => ?_
      cases hts
      exact absurd hk ht

theorem expectFunk (ahead : Ahead ts us)
    (same : ∀ t ts' us', ts = t :: ts' → us = t :: us' → t.kind = .funkKw → Ahead ts' us') {f g : Token → Parser α}
    (rest : ∀ t, Along Ahead V (f t) (g t)) :
    On Ahead V (Parser.expect .funkKw >>= f) (Parser.expect .funkKw >>= g) ts us := by
  intro entered
  rw [run_bind, run_bind]
  cases ts with
  | nil =>
    obtain rfl := h.eq_nil ahead
    exact .stuck entered (.inl ahead)
  | cons t ts =>
    obtain ⟨us, rfl⟩ := h.exists_cons ahead
    have run (vs : List Token) : (Parser.expect .funkKw).run { tokens := t :: vs, entered } =
        if t.kind = .funkKw then .ok t { tokens := vs, entered } else .error .stuck { tokens := t :: vs, entered } := rfl
    by_cases ht : t.kind = .funkKw
    · rw [run, run, if_pos ht, if_pos ht]
      exact rest t ts us (same t ts us rfl rfl ht) entered
    · rw [run, run, if_neg ht, if_neg ht]
      exact .stuck entered (.inl ahead)

theorem steady_of {a b : Node} (swapped : Swapped Base a b) : Steady := by
  induction swapped with
  | here base => exact h.steady _ _ base
  | _ => assumption

theorem take (hk : k ≠ .funkKw) {f g : Token → Parser α} (rest : ∀ t, Along Ahead V (f t) (g t)) :
    AlongAt Ahead (some k) V (take >>= f) (take >>= g) := by
  intro ts us ahead head entered
  obtain ⟨t, ts, rfl, rfl⟩ := exists_of_head head
  obtain ⟨us, rfl⟩ := h.exists_cons ahead
  exact rest t ts us (h.tail ahead hk) entered

end Abreast

end

/-! ### Expressions -/

section
variable {Ahead : List Token → List Token → Prop} {Base : Node → Node → Prop}

mutual

theorem expression_along (h : Abreast Ahead Base) : ∀ n m least : Nat, Along Ahead Never (expression n least) (expression m least)
  | 0, _, _ => by
    rw [expression]
    exact .spent
  | _ + 1, 0, _ => by
    rw [expression.eq_1]
    exact .spent'
  | n + 1, m + 1, least => by
    rw [expression, expression]
    exact .next (operand_along h n m) fun left => chain_along h n m least left

theorem chain_along (h : Abreast Ahead Base) : ∀ (n m least : Nat) (left : Node), Along Ahead Never (chain n least left) (chain m least left)
  | 0, _, _, _ => by
    rw [chain]
    exact .spent
  | _ + 1, 0, _, _ => by
    rw [chain.eq_1]
    exact .spent'
  | n + 1, m + 1, least, left => by
    rw [chain, chain]
    refine .next (h.takeOperator least) fun op => ?_
    split
    · exact .pure _
    · exact .next (expression_along h n m _) fun _ => chain_along h n m _ _

theorem operand_along (h : Abreast Ahead Base) : ∀ n m : Nat, Along Ahead Never (operand n) (operand m)
  | 0, _ => by
    rw [operand]
    exact .spent
  | _ + 1, 0 => by
    rw [operand.eq_1]
    exact .spent'
  | n + 1, m + 1 => by
    rw [operand, operand]
    refine h.peek fun k => ?_
    split
    case h_4 =>
      refine (Along.next (atom_along h n m) fun condition => .next (h.takeIf (by decide)) fun q => ?_).here
      split
      · exact .pure _
      · refine .next (expression_along h n m 0) fun yes => .next (h.expect (by decide)) fun _ => ?_
        exact .next (operand_along h n m) fun no => .pure _
    all_goals exact h.take (by decide) fun t => .next (operand_along h n m) fun _ => .pure _

theorem atom_along (h : Abreast Ahead Base) : ∀ n m : Nat, Along Ahead Never (atom n) (atom m)
  | 0, _ => by
    rw [atom]
    exact .spent
  | _ + 1, 0 => by
    rw [atom.eq_1]
    exact .spent'
  | n + 1, m + 1 => by
    rw [atom, atom]
    refine h.peek fun k => ?_
    split
    case h_6 =>
      refine h.take (by decide) fun _ => .next (expression_along h n m 0) fun _ => ?_
      exact .next (h.expect (by decide)) fun _ => .pure _
    case h_7 => exact h.take (by decide) fun _ => .next (arguments_along h n m (by decide)) fun _ => .pure _
    case h_8 =>
      refine h.take (by decide) fun _ => .next (h.expect (by decide)) fun _ => ?_
      exact .next (arguments_along h n m (by decide)) fun _ => .pure _
    case h_9 =>
      refine h.take (by decide) fun _ => .next (h.expect (by decide)) fun _ => ?_
      exact .next (expression_along h n m 0) fun _ => .next (h.expect (by decide)) fun _ => .pure _
    case h_10 =>
      refine h.take (by decide) fun t => h.peek fun k => ?_
      split
      · exact h.take (by decide) fun _ => .next (arguments_along h n m (by decide)) fun _ => .pure _
      · refine h.take (by decide) fun _ => .next (expression_along h n m 0) fun _ => ?_
        exact .next (h.expect (by decide)) fun _ => .pure _
      · exact (Along.pure _).here
    case h_11 => exact Along.stuck.here
    all_goals exact h.take (by decide) fun _ => .pure _

theorem arguments_along (h : Abreast Ahead Base) : ∀ (n m : Nat) {close : Kind}, close ≠ .funkKw →
    Along Ahead Never (arguments n close) (arguments m close)
  | 0, _, _, _ => by
    rw [arguments]
    exact .spent
  | _ + 1, 0, _, _ => by
    rw [arguments.eq_1]
    exact .spent'
  | n + 1, m + 1, close, hc => by
    rw [arguments, arguments]
    refine .next (h.takeIf hc) fun c => ?_
    split
    · exact .pure _
    · exact .next (expression_along h n m 0) fun _ => .next (moreArguments_along h n m hc) fun _ => .pure _

theorem moreArguments_along (h : Abreast Ahead Base) : ∀ (n m : Nat) {close : Kind}, close ≠ .funkKw →
    Along Ahead Never (moreArguments n close) (moreArguments m close)
  | 0, _, _, _ => by
    rw [moreArguments]
    exact .spent
  | _ + 1, 0, _, _ => by
    rw [moreArguments.eq_1]
    exact .spent'
  | n + 1, m + 1, close, hc => by
    rw [moreArguments, moreArguments]
    refine .next (h.takeIf (by decide)) fun c => ?_
    split
    · exact .next (expression_along h n m 0) fun _ => .next (moreArguments_along h n m hc) fun _ => .pure _
    · exact .next (h.expect hc) fun _ => .pure _

end

/-! ### Statements and functions -/

theorem type_along (h : Abreast Ahead Base) {V : String → String → Prop} : Along Ahead V type type := by
  unfold type
  refine h.peek fun k => ?_
  split
  case h_7 => exact Along.stuck.here
  all_goals exact h.take (by decide) fun _ => .pure _

theorem parameter_along (h : Abreast Ahead Base) : Along Ahead Never parameter parameter := by
  unfold parameter
  refine .next (h.expect (by decide)) fun _ => .next (h.expect (by decide)) fun _ => ?_
  exact .next (type_along h) fun _ => .pure _

theorem moreParameters_along (h : Abreast Ahead Base) (n m : Nat) :
    Along Ahead Never (moreParameters n) (moreParameters m) := by
  induction n generalizing m with
  | zero => exact .spent
  | succ n ih =>
    cases m with
    | zero => exact .spent'
    | succ m =>
      rw [moreParameters, moreParameters]
      refine .next (h.takeIf (by decide)) fun comma => ?_
      split
      · exact .next (parameter_along h) fun _ => .next (ih m) fun _ => .pure _
      · exact .next (h.expect (by decide)) fun _ => .pure _

theorem parameters_along (h : Abreast Ahead Base) (n m : Nat) : Along Ahead Never (parameters n) (parameters m) := by
  unfold parameters
  refine .next (h.takeIf (by decide)) fun c => ?_
  split
  · exact .pure _
  · exact .next (parameter_along h) fun _ => .next (moreParameters_along h n m) fun _ => .pure _

theorem condition_along (h : Abreast Ahead Base) (n m : Nat) : Along Ahead Never (condition n) (condition m) := by
  unfold condition
  refine .next (h.expect (by decide)) fun _ => .next (h.expect (by decide)) fun _ => ?_
  refine .next (expression_along h n m 0) fun _ => .next (h.expect (by decide)) fun _ => ?_
  exact .next (h.expect (by decide)) fun _ => .pure _

theorem noteFirst_along (h : Abreast Ahead Base) (first : Node) : Along Ahead Never (noteFirst first) (noteFirst first) := by
  unfold noteFirst
  split
  · refine h.peek fun k => Along.here ?_
    split
    · split
      · exact .enter _
      · exact .pure _
    · exact .pure _
  · exact .pure _

theorem closed_along (h : Abreast Ahead Base) (n m : Nat) (make : Node → Node) {V : Node → Node → Prop} : Along Ahead V
    (do
      let e ← expression n 0
      let _ ← expect .semicolon
      pure (make e))
    (do
      let e ← expression m 0
      let _ ← expect .semicolon
      pure (make e)) :=
  .next (expression_along h n m 0) fun _ => .next (h.expect (by decide)) fun _ => .pure _

theorem named_along (h : Abreast Ahead Base) (n m : Nat) (t : Token) {V : Node → Node → Prop} :
    Along Ahead V (named n t) (named m t) := by
  unfold named
  refine h.peek fun k => ?_
  split
  · refine h.take (by decide) fun _ => .next (type_along h) fun kind => .next (h.takeIf (by decide)) fun eq => ?_
    split
    · exact closed_along h n m _
    · exact .next (h.expect (by decide)) fun _ => .pure _
  · exact h.take (by decide) fun _ => closed_along h n m _
  · refine h.take (by decide) fun _ => .next (expression_along h n m 0) fun _ => .next (h.expect (by decide)) fun _ => ?_
    exact .next (h.expect (by decide)) fun _ => closed_along h n m _
  · refine h.take (by decide) fun _ => .next (arguments_along h n m (by decide)) fun _ => ?_
    exact .next (h.expect (by decide)) fun _ => .pure _
  · exact Along.stuck.here

mutual

theorem statement_along (h : Abreast Ahead Base) : ∀ n m : Nat, Along Ahead (Swapped Base) (statement n) (statement m)
  | 0, _ => by
    rw [statement]
    exact .spent
  | _ + 1, 0 => by
    rw [statement.eq_1]
    exact .spent'
  | n + 1, m + 1 => by
    rw [statement, statement]
    refine h.peek fun k => ?_
    split
    case h_10 => exact (function_along h n m).here
    case h_11 => exact Along.stuck.here
    all_goals refine h.take (by decide) fun t => ?_
    case h_1 => exact named_along h n m t
    case h_2 =>
      refine .next (h.expect (by decide)) fun _ => .next (arguments_along h n m (by decide)) fun _ => ?_
      exact .next (h.expect (by decide)) fun _ => .pure _
    case h_3 =>
      refine .next (h.expect (by decide)) fun _ => .next (expression_along h n m 0) fun _ => ?_
      exact .next (h.expect (by decide)) fun _ => .next (h.expect (by decide)) fun _ => .pure _
    case h_4 =>
      refine .next (h.takeIf (by decide)) fun semi => ?_
      split
      · exact .pure _
      · exact closed_along h n m _
    case h_5 =>
      refine .next (condition_along h n m) fun e => .bind (statement_along h n m) (fun yes => ?_) fun a b us swapped => ?_
      · refine .next (h.takeIf (by decide)) fun kw => ?_
        split
        · exact .pure _
        · exact .bind (statement_along h n m) (fun no => .pure _) fun a b us swapped => .pure (.no swapped)
      · refine .next fun kw us => ?_
        split
        · exact .pure (.yes swapped)
        · exact .andThen ((h.steady_of swapped).statement n m us) fun no _ => .pure (.yes swapped)
    case h_6 =>
      refine .next (h.expect (by decide)) fun _ => .next (h.expect (by decide)) fun _ => .next (h.expect (by decide)) fun _ => ?_
      refine .next (expression_along h n m 0) fun _ => .next (h.expect (by decide)) fun _ => ?_
      refine .next (expression_along h n m 0) fun _ => .next (h.expect (by decide)) fun _ => ?_
      refine .next (h.expect (by decide)) fun _ => .bind (statements_along h n m) (fun ss => ?_) fun as bs us swapped => ?_
      · exact .next (h.expect (by decide)) fun _ => .pure _
      · exact .next fun _ _ => .pure (.forLoop swapped.several)
    case h_7 =>
      refine .next (condition_along h n m) fun _ => .bind (statement_along h n m) (fun _ => .pure _) fun a b us swapped => ?_
      exact .pure (.whileLoop swapped)
    case h_8 =>
      refine .bind (statement_along h n m) (fun _ => ?_) fun a b us swapped => ?_
      · refine .next (h.expect (by decide)) fun _ => .next (condition_along h n m) fun _ => ?_
        exact .next (h.expect (by decide)) fun _ => .pure _
      · refine .next fun _ us => .andThen ((h.steady_of swapped).condition n m us) fun e us => ?_
        exact .next fun _ us => .pure (.doLoop swapped)
    case h_9 =>
      refine .bind (statements_along h n m) (fun _ => .next (h.expect (by decide)) fun _ => .pure _) fun as bs us swapped => ?_
      exact .next fun _ _ => .pure (swapped.block _)

theorem statements_along (h : Abreast Ahead Base) : ∀ n m : Nat, Along Ahead (SwappedIn Base) (statements n) (statements m)
  | 0, _ => by
    rw [statements]
    exact .spent
  | _ + 1, 0 => by
    rw [statements.eq_1]
    exact .spent'
  | n + 1, m + 1 => by
    rw [statements, statements]
    refine h.peek fun k => Along.here ?_
    split
    · split
      · refine .bind (statement_along h n m) (fun s => .next (noteFirst_along h s) fun _ => ?_) fun a b us swapped => ?_
        · refine .bind (moreStatements_along h n m) (fun _ => .pure _) fun as bs us swapped => ?_
          exact .pure (swapped.before _)
        · rw [swapped.noteFirst_eq h.namesakes]
          refine .next fun _ us => .andThen ((h.steady_of swapped).moreStatements n m us) fun ss _ => ?_
          exact .pure ((swapped.parts h.namesakes).behind ss)
      · exact .pure _
    · exact .pure _

theorem moreStatements_along (h : Abreast Ahead Base) :
    ∀ n m : Nat, Along Ahead (SwappedIn Base) (moreStatements n) (moreStatements m)
  | 0, _ => by
    rw [moreStatements]
    exact .spent
  | _ + 1, 0 => by
    rw [moreStatements.eq_1]
    exact .spent'
  | n + 1, m + 1 => by
    rw [moreStatements, moreStatements]
    refine h.peek fun k => Along.here ?_
    split
    · split
      · refine .bind (statement_along h n m) (fun s => ?_) fun a b us swapped => ?_
        · refine .bind (moreStatements_along h n m) (fun _ => .pure _) fun as bs us swapped => ?_
          exact .pure (swapped.before _)
        · refine .andThen ((h.steady_of swapped).moreStatements n m us) fun ss _ => ?_
          exact .pure ((swapped.parts h.namesakes).behind ss)
      · exact .pure _
    · exact .pure _

theorem function_along (h : Abreast Ahead Base) : ∀ n m : Nat, Along Ahead (Swapped Base) (function n) (function m)
  | 0, _ => by
    rw [function]
    exact .spent
  | _ + 1, 0 => by
    rw [function.eq_1]
    exact .spent'
  | n + 1, m + 1 => by
    intro ts us ahead
    rcases h.same_or_swapped ahead with same | swapped
    · rw [function, function]
      refine h.expectFunk ahead same fun t => .next (h.expect (by decide)) fun name => .next (h.expect (by decide)) fun _ => ?_
      refine .next (parameters_along h n m) fun ps => .next (h.expect (by decide)) fun _ => .next (type_along h) fun kind => ?_
      refine .next (h.expect (by decide)) fun _ => .next (h.takeIf (by decide)) fun arrow => ?_
      split
      · refine .next (h.expect (by decide)) fun _ => .bind (statements_along h n m) (fun ss => ?_) fun as bs us swapped => ?_
        · exact .next (h.expect (by decide)) fun _ => .pure _
        · exact .next fun _ us => .pure (.body swapped.several)
      · refine .next (h.expect (by decide)) fun ret => .next (expression_along h n m 0) fun e => ?_
        refine .next (h.expect (by decide)) fun _ => ?_
        split
        · exact .pure _
        · exact .pure _
    · exact (swapped (n + 1) (m + 1)).mono (fun _ _ _ _ h => .inr ⟨.here h.1, h.2⟩) fun _ _ h => h.elim

end

theorem moreFunctions_along (h : Abreast Ahead Base) (n m : Nat) :
    Along Ahead (SwappedIn Base) (moreFunctions n) (moreFunctions m) := by
  induction n generalizing m with
  | zero => exact .spent
  | succ n ih =>
    cases m with
    | zero => exact .spent'
    | succ m =>
      rw [moreFunctions, moreFunctions]
      refine h.peek fun k => Along.here ?_
      split
      · refine .bind (function_along h n m) (fun f => ?_) fun a b us swapped => ?_
        · exact .bind (ih m) (fun _ => .pure _) fun as bs us swapped => .pure (swapped.before [f])
        · refine .andThen ((h.steady_of swapped).moreFunctions n m us) fun fs _ => ?_
          exact .pure (.intro [] fs swapped)
      · exact .next h.ending fun _ => .pure _

theorem program_along (h : Abreast Ahead Base) (n m : Nat) : Along Ahead (SwappedIn Base) (program n) (program m) := by
  unfold program
  refine .bind (function_along h n m) (fun f => ?_) fun a b us swapped => ?_
  · exact .bind (moreFunctions_along h n m) (fun _ => .pure _) fun as bs us swapped => .pure (swapped.before [f])
  · refine .andThen ((h.steady_of swapped).moreFunctions n m us) fun fs _ => ?_
    exact .pure (.intro [] fs swapped)

end

/-! ### The same tokens -/

theorem abreast_eq : Abreast Eq Never where
  head same := by rw [same]
  tail same _ := (List.cons.inj same).2
  funk same _ := .inl (List.cons.inj same).2
  namesakes _ _ h := h.elim
  steady _ _ h := h.elim

theorem not_swapped {a b : Node} (h : Swapped Never a b) : False := by
  induction h with
  | here h => exact h
  | _ => assumption

theorem not_swappedIn {as bs : List Node} (h : SwappedIn Never as bs) : False := by
  obtain ⟨_, _, h⟩ := h
  exact not_swapped h

theorem Along.after {V : α → α → Prop} {p q : Parser α} (h : Along Eq V p q) (never : ∀ a b, ¬ V a b) (ts : List Token) :
    After Eq p q ts := by
  refine Beside.mono (h ts ts rfl) ?_ fun vs ws same => ?_
  · rintro a vs b ws (same | ⟨h, -⟩)
    · exact same
    · exact absurd h (never a b)
  · exact same.elim id id

/-- **The bound on the depth of calls is no matter**, as long as it is not spent. -/
theorem steady : Steady where
  condition n m := (condition_along abreast_eq n m).after fun _ _ h => h
  statement n m := (statement_along abreast_eq n m).after fun _ _ h => not_swapped h
  moreStatements n m := (moreStatements_along abreast_eq n m).after fun _ _ h => not_swappedIn h
  moreFunctions n m := (moreFunctions_along abreast_eq n m).after fun _ _ h => not_swappedIn h

end Parser
end TesLang
