import TesLang.Proofs.Parsing.Completeness
import TesLang.Proofs.Parsing.Depth
import TesLang.Proofs.Writing.Style
/-!
# Reading an expression back

An expression that is written with parentheses wherever they are demanded is read back as it was, up to lines
(`expression_reads_back`).

`Legible ws s v` says of written tokens how they are read: as the expression `v`, whose outermost operator binds with
tightness `s`.  There is one lemma for each kind of expression.  A row of operators that groups to the left is read from
its first operand on, so the first operand is not read by itself, and what is said of an expression is how reading goes
on behind it (`Legible.row`).
-/
namespace TesLang

open Grammar

variable {α β γ δ : Type}

namespace Writing

/-! ### Written tokens -/

/-- From `ts` to its end `us` stand tokens that are written `ws`. -/
def Spells : List Lexeme → List Token → List Token → Prop
  | [], ts, us => ts = us
  | w :: ws, ts, us => ∃ t vs, ts = t :: vs ∧ t.lexeme = w ∧ Spells ws vs us

section
variable {ws ws' : List Lexeme} {w : Lexeme} {ts us : List Token} {t : Token} {k : Kind} {ks : List Kind}

theorem spells_append : Spells (ws ++ ws') ts us ↔ ∃ vs, Spells ws ts vs ∧ Spells ws' vs us := by
  induction ws generalizing ts with
  | nil => simp [Spells]
  | cons w ws ih =>
    simp only [List.cons_append, Spells, ih]
    constructor
    · rintro ⟨t, vs, rfl, ht, xs, h, h'⟩
      exact ⟨xs, ⟨t, vs, rfl, ht, h⟩, h'⟩
    · rintro ⟨xs, ⟨t, vs, rfl, ht, h⟩, h'⟩
      exact ⟨t, vs, rfl, ht, xs, h, h'⟩

theorem spells_append_cons : Spells (ws ++ w :: ws') ts us ↔ ∃ vs, Spells (ws ++ [w]) ts vs ∧ Spells ws' vs us := by
  rw [List.append_cons, spells_append]

theorem spells_of_map (ts us : List Token) : Spells (ts.map Token.lexeme) (ts ++ us) us := by
  induction ts with
  | nil => rfl
  | cons t ts ih => exact ⟨t, ts ++ us, rfl, rfl, ih⟩

theorem kind_of_lexeme (h : t.lexeme = w) : t.kind = w.kind := congrArg Lexeme.kind h

theorem text_of_lexeme {s : String} (h : t.lexeme = ⟨k, .text s⟩) : t.text = s := by
  have value : t.value = .text s := congrArg Lexeme.value h
  rw [Token.text, value]

theorem count_of_lexeme {n : Nat} (h : t.lexeme = ⟨k, .number n⟩) : t.count = n := by
  have value : t.value = .number n := congrArg Lexeme.value h
  rw [Token.count, value]

theorem clear_of_spells (h : Spells (w :: ws) ts us) (hk : w.kind ∉ ks) : Parser.Clear ks ts := by
  obtain ⟨t, vs, rfl, ht, -⟩ := h
  intro t' us' h'
  cases h'
  rwa [kind_of_lexeme ht]

end

end Writing

namespace Parser

open Writing

/-- Unless the bound on the depth of its calls is spent, a parser goes from `ts` to its end `us`, and `b` is what `F` takes
from the thing it makes. -/
def Yields (F : α → β) (p : Parser α) (ts us : List Token) (b : β) : Prop :=
  Leads True p ts (fun a vs => vs = us ∧ F a = b) fun _ => False

namespace Yields

variable {F : α → β} {G : γ → δ} {ts us vs : List Token} {b : β} {c : δ} {w : Lexeme} {ws : List Lexeme} {k : Kind}

theorem spent : Yields F spent ts us b := Leads.spent trivial

theorem pure {a : α} (h : F a = b) : Yields F (pure a) ts ts b := Leads.pure ⟨rfl, h⟩

theorem bind {p : Parser α} {f : α → Parser γ} (hp : Yields F p ts us b) (hf : ∀ a, F a = b → Yields G (f a) us vs c) :
    Yields G (p >>= f) ts vs c := by
  apply Leads.andThen hp
  · exact fun _ h => h
  · rintro a xs ⟨rfl, ha⟩
    exact hf a ha

theorem peek {f : Option Kind → Parser γ} (h : Spells (w :: ws) ts us) (hf : Yields G (f (some w.kind)) ts vs c) :
    Yields G (peek >>= f) ts vs c := by
  obtain ⟨t, xs, rfl, ht, -⟩ := h
  apply Leads.peek
  intro k hk
  rw [← hk, ← kind_of_lexeme ht] at *
  exact hf

theorem take {f : Token → Parser γ} (h : Spells (w :: ws) ts us)
    (hf : ∀ t xs, t.lexeme = w → Spells ws xs us → Yields G (f t) xs vs c) : Yields G (take >>= f) ts vs c := by
  obtain ⟨t, xs, rfl, ht, rest⟩ := h
  exact Leads.take (hf t xs ht rest)

theorem expect {f : Token → Parser γ} (h : Spells (w :: ws) ts us) (hk : w.kind = k)
    (hf : ∀ t xs, t.lexeme = w → Spells ws xs us → Yields G (f t) xs vs c) : Yields G (expect k >>= f) ts vs c := by
  obtain ⟨t, xs, rfl, ht, rest⟩ := h
  apply Leads.bind
  intro entered
  rw [run_expect ((kind_of_lexeme ht).trans hk)]
  exact hf t xs ht rest

theorem takeIf {f : Option Token → Parser γ} (h : Spells (w :: ws) ts us) (hk : w.kind = k)
    (hf : ∀ t xs, t.lexeme = w → Spells ws xs us → Yields G (f (some t)) xs vs c) : Yields G (takeIf k >>= f) ts vs c := by
  obtain ⟨t, xs, rfl, ht, rest⟩ := h
  apply Leads.takeIf
  · intro t' xs' h' _
    cases h'
    exact hf t xs ht rest
  · intro other
    exact absurd (congrArg some ((kind_of_lexeme ht).trans hk)) other

theorem takeIf_of_clear {f : Option Token → Parser γ} (h : Clear [k] ts) (hf : Yields G (f none) ts vs c) :
    Yields G (Parser.takeIf k >>= f) ts vs c := by
  apply Leads.takeIf
  · intro t xs hx hk
    exact absurd (List.mem_singleton.2 hk) (h t xs hx)
  · exact fun _ => hf

end Yields

theorem Below.mono {l m : Nat} {ts : List Token} (h : Below l ts) (hlm : l ≤ m) : Below m ts := by
  intro t us k ht hk
  have := h t us k ht hk
  omega

theorem level_le {k : Kind} {l : Nat} (h : level? k = some l) : l ≤ 6 := by
  cases k <;> cases h <;> decide

end Parser

namespace Writing

open TesLang.Parser

/-! ### How written tokens are read -/

/-- The tokens written `ws` are read as the expression `v`, whose outermost operator binds with tightness `s`. -/
structure Legible (ws : List Lexeme) (s : Nat) (v : Node) : Prop where
  starts : ∃ w rest, ws = w :: rest ∧ w.kind ∈ expressionStarts ∧ (unaryTightness < s → w.kind ∈ atomStarts)
  atom : atomTightness ≤ s → ∀ (n : Nat) {ts us : List Token}, Spells ws ts us → Clear atomGoesOn us →
    Yields Node.unlined (Parser.atom n) ts us v.unlined
  operand : unaryTightness ≤ s → ∀ (n : Nat) {ts us : List Token}, Spells ws ts us → Clear operandGoesOn us →
    Yields Node.unlined (Parser.operand n) ts us v.unlined
  /-- behind the expression, reading goes on with the operators from `least` on -/
  row : ∀ (n : Nat) {least : Nat} {ts us : List Token} {Q : Node → List Token → Prop} {E : List Token → Prop}, least ≤ s →
    Spells ws ts us → Clear operandGoesOn us → Below (s + 1) us →
    (∀ m x, x.unlined = v.unlined → Leads True (chain m least x) us Q E) → Leads True (Parser.expression n least) ts Q E

section
variable {ws ws' : List Lexeme} {s s' least : Nat} {v v' : Node} {ts us : List Token}

theorem chain_ends_here (n : Nat) {x : Node} (below : Below least us) (hx : x.unlined = v) :
    Yields Node.unlined (chain n least x) us us v := by
  cases n with
  | zero =>
    rw [chain]
    exact .spent
  | succ n =>
    rw [chain]
    apply Leads.takeOperator
    · intro t vs l hv hl hle
      have := below t vs l hv hl
      omega
    · exact fun _ => .pure ⟨rfl, hx⟩

theorem Legible.makes (h : Legible ws s v) (n : Nat) (hl : least ≤ s) (hs : Spells ws ts us) (hu : Clear operandGoesOn us)
    (below : Below least us) : Yields Node.unlined (Parser.expression n least) ts us v.unlined :=
  h.row n hl hs hu (below.mono (by omega)) fun m _ hx => chain_ends_here m below hx

theorem below_of_clear (h : Clear expressionGoesOn us) : Below 0 us := by
  intro t vs l ht hl
  exact absurd (List.mem_append_left _ (mem_binaryKinds hl)) (h t vs ht)

theorem Legible.whole (h : Legible ws s v) (n : Nat) (hs : Spells ws ts us) (hu : Clear expressionGoesOn us) :
    Yields Node.unlined (Parser.expression n 0) ts us v.unlined := by
  have clear : Clear operandGoesOn us := hu.mono fun k hk => List.mem_append_right _ hk
  exact h.makes n (Nat.zero_le s) hs clear (below_of_clear hu)

theorem Legible.andThen {w : Lexeme} {G : β → γ} {c : γ} {f : Node → Parser β} {n : Nat} (h : Legible ws s v)
    (hs : Spells (ws ++ w :: ws') ts us) (hw : w.kind ∉ expressionGoesOn)
    (rest : ∀ x vs, x.unlined = v.unlined → Spells (w :: ws') vs us → Yields G (f x) vs us c) :
    Yields G (Parser.expression n 0 >>= f) ts us c := by
  obtain ⟨vs, hv, hs⟩ := spells_append.1 hs
  exact .bind (h.whole n hv (clear_of_spells hs hw)) fun x hx => rest x vs hx hs

theorem row_of_operand (n : Nat) {Q : Node → List Token → Prop} {E : List Token → Prop}
    (operand : ∀ n, Yields Node.unlined (Parser.operand n) ts us v.unlined)
    (rest : ∀ m x, x.unlined = v.unlined → Leads True (chain m least x) us Q E) :
    Leads True (Parser.expression n least) ts Q E := by
  cases n with
  | zero =>
    rw [Parser.expression]
    exact .spent trivial
  | succ n =>
    rw [Parser.expression]
    apply Leads.andThen (operand n)
    · exact fun _ h => h.elim
    · rintro x us ⟨rfl, hx⟩
      exact rest n x hx

theorem operand_of_atom {n : Nat} {c b : Node} {w : Lexeme} {vs xs : List Token} (hs : Spells (w :: ws) ts xs)
    (hw : w.kind ∈ atomStarts) (atom : Yields Node.unlined (Parser.atom n) ts vs c)
    (rest : ∀ x, x.unlined = c → Yields Node.unlined (do
      match ← takeIf .question with
      | none => pure x
      | some q =>
        let yes ← Parser.expression n 0
        let _ ← expect .colon
        let no ← Parser.operand n
        pure (.ternary x yes no q.line)) vs us b) : Yields Node.unlined (Parser.operand (n + 1)) ts us b := by
  have unsigned : ∀ k ∈ atomStarts, k ∉ unaryKinds := by decide
  have clear : Clear unaryKinds ts := clear_of_spells hs (unsigned _ hw)
  rw [Parser.operand]
  apply Leads.peek
  intro k head
  split
  case h_4 => exact Yields.bind atom rest
  all_goals exact absurd (by decide) (clear.not_head head)

theorem Legible.of_atom {w : Lexeme} (hw : w.kind ∈ atomStarts)
    (atom : ∀ (n : Nat) {ts us : List Token}, Spells (w :: ws) ts us → Clear atomGoesOn us →
      Yields Node.unlined (Parser.atom (n + 1)) ts us v.unlined) : Legible (w :: ws) atomTightness v := by
  have atom' (n : Nat) {ts us : List Token} (hs : Spells (w :: ws) ts us) (hu : Clear atomGoesOn us) :
      Yields Node.unlined (Parser.atom n) ts us v.unlined := by
    cases n with
    | zero =>
      rw [Parser.atom]
      exact .spent
    | succ n => exact atom n hs hu
  have operand (n : Nat) {ts us : List Token} (hs : Spells (w :: ws) ts us) (hu : Clear operandGoesOn us) :
      Yields Node.unlined (Parser.operand n) ts us v.unlined := by
    cases n with
    | zero =>
      rw [Parser.operand]
      exact .spent
    | succ n =>
      apply operand_of_atom hs hw (atom' n hs (hu.mono (by decide)))
      intro x hx
      exact .takeIf_of_clear (hu.mono (by decide)) (.pure hx)
  exact {
    starts := ⟨w, ws, rfl, List.mem_append_right _ hw, fun _ => hw⟩
    atom := fun _ n _ _ hs hu => atom' n hs hu
    operand := fun _ n _ _ hs hu => operand n hs hu
    row := fun n _ _ _ _ _ _ hs hu _ rest => row_of_operand n (fun n => operand n hs hu) rest }

/-! ### Operators -/

theorem Legible.group (h : Legible ws s v) :
    Legible (.mark .leftParen :: ws ++ [Lexeme.mark .rightParen]) atomTightness v := by
  apply Legible.of_atom (by decide)
  intro n ts us hs _
  rw [Parser.atom]
  refine .peek hs (.take hs fun _ vs _ hs => h.andThen hs (by decide) fun e xs he hs => ?_)
  exact .expect hs rfl fun _ ys _ hs => hs ▸ .pure he

theorem Legible.unary {w : Lexeme} {op : String} (h : Legible ws s v) (hw : w.kind ∈ unaryKinds)
    (text : ∀ t : Token, t.lexeme = w → t.text = op) (hs : unaryTightness ≤ s) (line : Int) :
    Legible (w :: ws) unaryTightness (.unary op v line) := by
  have operand (n : Nat) {ts us : List Token} (hs : Spells (w :: ws) ts us) (hu : Clear operandGoesOn us) :
      Yields Node.unlined (Parser.operand n) ts us (Node.unary op v line).unlined := by
    cases n with
    | zero =>
      rw [Parser.operand]
      exact .spent
    | succ n =>
      rw [Parser.operand]
      refine .peek hs ?_
      have signed : Yields Node.unlined (do
          let t ← Parser.take
          let e ← Parser.operand n
          pure (.unary t.text e t.line)) ts us (Node.unary op v line).unlined := by
        refine .take hs fun t vs ht hs => .bind (h.operand ‹_› n hs hu) fun e he => .pure ?_
        simp only [Node.unlined, Node.mapLine] at he ⊢
        rw [he, text t ht]
        rfl
      simp only [unaryKinds, List.mem_cons, List.not_mem_nil, or_false] at hw
      rcases hw with hw | hw | hw <;> rw [hw] <;> exact signed
  exact {
    starts := ⟨w, ws, rfl, List.mem_append_left _ hw, fun h => absurd h (Nat.lt_irrefl _)⟩
    atom := fun h => absurd h (by decide)
    operand := fun _ n _ _ hs hu => operand n hs hu
    row := fun n _ _ _ _ _ _ hs hu _ rest => row_of_operand n (fun n => operand n hs hu) rest }

end

section
variable {ws₁ ws₂ ws₃ : List Lexeme} {s₁ s₂ s₃ l : Nat} {a b c : Node}

theorem Legible.binary {w : Lexeme} {op : String} (ha : Legible ws₁ s₁ a) (hb : Legible ws₂ s₂ b)
    (hl : level? w.kind = some l) (text : ∀ t : Token, t.lexeme = w → t.text = op) (h₁ : l ≤ s₁) (h₂ : l + 1 ≤ s₂)
    (line : Int) : Legible (ws₁ ++ w :: ws₂) l (.binary a op b line) := by
  have loose : l < unaryTightness := Nat.lt_succ_of_le (level_le hl)
  have operators : ∀ k ∈ binaryKinds, k ∉ operandGoesOn := by decide
  obtain ⟨w₁, rest₁, rfl, start, -⟩ := ha.starts
  exact {
    starts := ⟨w₁, rest₁ ++ w :: ws₂, rfl, start, fun h => by omega⟩
    atom := fun h => absurd h (by unfold atomTightness; unfold unaryTightness at loose; omega)
    operand := fun h => absurd h (by omega)
    row := by
      intro n least ts us Q E hle hs hu below rest
      obtain ⟨vs, ha', hs⟩ := spells_append.1 hs
      have behind : Below (s₁ + 1) vs := by
        obtain ⟨t, xs, rfl, ht, -⟩ := hs
        rintro _ _ k ⟨⟩ hk
        rw [kind_of_lexeme ht, hl] at hk
        cases hk
        omega
      refine ha.row n (Nat.le_trans hle h₁) ha' (clear_of_spells hs (operators _ (mem_binaryKinds hl))) behind fun m x hx => ?_
      obtain ⟨t, xs, rfl, ht, hs⟩ := hs
      have level : level? t.kind = some l := by rw [kind_of_lexeme ht, hl]
      cases m with
      | zero =>
        rw [chain]
        exact .spent trivial
      | succ m =>
        rw [chain]
        apply Leads.takeOperator
        · rintro _ _ l' ⟨⟩ hl' -
          rw [level] at hl'
          cases hl'
          refine Leads.andThen (hb.makes m h₂ hs hu below) (fun _ h => h.elim) ?_
          rintro y us ⟨rfl, hy⟩
          refine rest m _ ?_
          simp only [Node.unlined, Node.mapLine] at hx hy ⊢
          rw [hx, hy, text t ht]
          rfl
        · intro other
          have := other t xs l rfl level
          omega }

theorem Legible.ternary (hc : Legible ws₁ s₁ c) (ha : Legible ws₂ s₂ a) (hb : Legible ws₃ s₃ b) (h₁ : atomTightness ≤ s₁)
    (h₃ : unaryTightness ≤ s₃) (line : Int) :
    Legible (ws₁ ++ .mark .question :: ws₂ ++ .mark .colon :: ws₃) ternaryTightness (.ternary c a b line) := by
  obtain ⟨w, rest, rfl, start, first⟩ := hc.starts
  have first := first (Nat.lt_of_lt_of_le (by decide) h₁)
  have operand (n : Nat) {ts us : List Token}
      (hs : Spells (w :: rest ++ .mark .question :: ws₂ ++ .mark .colon :: ws₃) ts us) (hu : Clear operandGoesOn us) :
      Yields Node.unlined (Parser.operand n) ts us (Node.ternary c a b line).unlined := by
    cases n with
    | zero =>
      rw [Parser.operand]
      exact .spent
    | succ n =>
      obtain ⟨xs, hca, hb'⟩ := spells_append.1 hs
      obtain ⟨vs, hc', ha'⟩ := spells_append.1 hca
      refine operand_of_atom hc' first (hc.atom h₁ n hc' (clear_of_spells ha' (by decide))) fun x hx => ?_
      refine .takeIf ha' rfl fun q ys _ ha' => .bind (ha.whole n ha' (clear_of_spells hb' (by decide))) fun y hy => ?_
      refine .expect hb' rfl fun _ zs _ hb' => .bind (hb.operand h₃ n hb' hu) fun z hz => .pure ?_
      simp only [Node.unlined, Node.mapLine] at hx hy hz ⊢
      rw [hx, hy, hz]
      rfl
  exact {
    starts := ⟨w, _, rfl, start, fun _ => first⟩
    atom := fun h => absurd h (by decide)
    operand := fun _ n _ _ hs hu => operand n hs hu
    row := fun n _ _ _ _ _ _ hs hu _ rest => row_of_operand n (fun n => operand n hs hu) rest }

end

/-! ### Atoms -/

section
variable {ws : List Lexeme} {s : Nat} {v : Node} {es : List Node} {style : Style} {ts us : List Token}

def closers : List Kind := [.rightParen, .rightBracket]

theorem clear_of_arguments {close : Kind} (hc : close ∈ closers)
    (hs : Spells (moreArguments style es ++ [Lexeme.mark close]) ts us) : Clear expressionGoesOn ts := by
  have closed : ∀ k ∈ closers, k ∉ expressionGoesOn := by decide
  cases es with
  | nil =>
    rw [moreArguments] at hs
    exact clear_of_spells hs (closed _ hc)
  | cons e es =>
    rw [moreArguments] at hs
    exact clear_of_spells hs (by decide)

theorem moreArguments_yields {close : Kind} (n : Nat) (h : ∀ e ∈ es, ∃ s, Legible (expression style e) s e)
    (hc : close ∈ closers) (hs : Spells (moreArguments style es ++ [Lexeme.mark close]) ts us) :
    Yields (List.map Node.unlined) (Parser.moreArguments n close) ts us (es.map Node.unlined) := by
  have closed : ∀ k ∈ closers, k ∉ [Kind.comma] := by decide
  induction es generalizing n ts with
  | nil =>
    cases n with
    | zero =>
      rw [Parser.moreArguments]
      exact .spent
    | succ n =>
      rw [moreArguments] at hs
      rw [Parser.moreArguments]
      exact .takeIf_of_clear (clear_of_spells hs (closed _ hc)) (.expect hs rfl fun _ vs _ hs => hs ▸ .pure rfl)
  | cons e es ih =>
    cases n with
    | zero =>
      rw [Parser.moreArguments]
      exact .spent
    | succ n =>
      rw [moreArguments, List.append_assoc] at hs
      rw [Parser.moreArguments]
      obtain ⟨s, he⟩ := h e List.mem_cons_self
      refine .takeIf hs rfl fun _ vs _ hs => ?_
      obtain ⟨xs, he', hs⟩ := spells_append.1 hs
      refine .bind (he.whole n he' (clear_of_arguments hc hs)) fun x hx => ?_
      refine .bind (ih n (fun e he => h e (List.mem_cons_of_mem _ he)) hs) fun ys hys => .pure ?_
      rw [List.map_cons, List.map_cons, hx, hys]

theorem arguments_yields {close : Kind} (n : Nat) (h : ∀ e ∈ es, ∃ s, Legible (expression style e) s e)
    (hc : close ∈ closers) (hs : Spells (arguments style es ++ [Lexeme.mark close]) ts us) :
    Yields (List.map Node.unlined) (Parser.arguments n close) ts us (es.map Node.unlined) := by
  have apart : ∀ k ∈ closers, ∀ k' ∈ expressionStarts, k' ∉ [k] := by decide
  cases n with
  | zero =>
    rw [Parser.arguments]
    exact .spent
  | succ n =>
    rw [Parser.arguments]
    cases es with
    | nil =>
      rw [arguments] at hs
      exact .takeIf hs rfl fun _ vs _ hs => hs ▸ .pure rfl
    | cons e es =>
      rw [arguments, List.append_assoc] at hs
      obtain ⟨s, he⟩ := h e List.mem_cons_self
      obtain ⟨xs, he', hs⟩ := spells_append.1 hs
      have clear : Clear [close] ts := by
        obtain ⟨w, rest, hw, start, -⟩ := he.starts
        rw [hw] at he'
        exact clear_of_spells he' (apart _ hc _ start)
      refine .takeIf_of_clear clear (.bind (he.whole n he' (clear_of_arguments hc hs)) fun x hx => ?_)
      refine .bind (moreArguments_yields n (fun e he => h e (List.mem_cons_of_mem _ he)) hc hs) fun ys hys => .pure ?_
      rw [List.map_cons, List.map_cons, hx, hys]

theorem legible_number {value : Int} (h : 0 ≤ value) (line : Int) :
    Legible [⟨.number, .number value.toNat⟩] atomTightness (.number value line) := by
  apply Legible.of_atom (show Kind.number ∈ atomStarts by decide)
  intro n ts us hs _
  rw [Parser.atom]
  refine .peek hs (.take hs fun t vs ht hs => hs ▸ .pure ?_)
  rw [count_of_lexeme ht, Int.toNat_of_nonneg h]
  simp only [Node.unlined, Node.mapLine]
  rfl

theorem legible_string (value : String) (line : Int) :
    Legible [⟨.string, .text value⟩] atomTightness (.string value line) := by
  apply Legible.of_atom (show Kind.string ∈ atomStarts by decide)
  intro n ts us hs _
  rw [Parser.atom]
  refine .peek hs (.take hs fun t vs ht hs => hs ▸ .pure ?_)
  rw [text_of_lexeme ht]
  simp only [Node.unlined, Node.mapLine]
  rfl

theorem legible_boolean {value : String} (h : value = "true" ∨ value = "false") (line : Int) :
    Legible [.word value] atomTightness (.boolean value line) := by
  have kind : Kind.ofWord value ∈ booleanKinds := by rcases h with rfl | rfl <;> decide +kernel
  have starts : ∀ k ∈ booleanKinds, k ∈ atomStarts := by decide
  apply Legible.of_atom (starts _ kind)
  intro n ts us hs _
  have read : Yields Node.unlined (do
      let t ← Parser.take
      pure (.boolean t.text t.line)) ts us (Node.boolean value line).unlined := by
    refine .take hs fun t vs ht hs => hs ▸ .pure ?_
    rw [text_of_lexeme ht]
    simp only [Node.unlined, Node.mapLine]
    rfl
  rw [Parser.atom]
  refine .peek hs ?_
  rcases List.mem_cons.1 kind with kind | kind
  · rw [show (Lexeme.word value).kind = .trueKw from kind]
    exact read
  · rw [show (Lexeme.word value).kind = .falseKw from List.mem_singleton.1 kind]
    exact read

theorem legible_identifier {x : String} (h : isName x = true) (line : Int) :
    Legible [.word x] atomTightness (.identifier x line) := by
  have kind : (Lexeme.word x).kind = .id := eq_of_beq h
  apply Legible.of_atom (by rw [kind]; decide)
  intro n ts us hs hu
  rw [Parser.atom]
  refine .peek hs ?_
  rw [kind]
  refine .take hs fun t vs ht hs => ?_
  obtain rfl : vs = us := hs
  apply Leads.peek
  intro k head
  split
  case h_3 =>
    refine Yields.pure ?_
    rw [text_of_lexeme ht]
    simp only [Node.unlined, Node.mapLine]
    rfl
  all_goals exact absurd (by decide) (hu.not_head head)

theorem Legible.element {x : String} (hx : isName x = true) (h : Legible ws s v) (line : Int) :
    Legible (.word x :: .mark .leftBracket :: ws ++ [Lexeme.mark .rightBracket]) atomTightness (.element x v line) := by
  have kind : (Lexeme.word x).kind = .id := eq_of_beq hx
  apply Legible.of_atom (by rw [kind]; decide)
  intro n ts us hs _
  rw [Parser.atom]
  refine .peek hs ?_
  rw [kind]
  refine .take hs fun t vs ht hs => .peek hs (.take hs fun _ xs _ hs => ?_)
  refine h.andThen hs (by decide) fun e ys he hs => .expect hs rfl fun _ zs _ hs => hs ▸ .pure ?_
  rw [text_of_lexeme ht]
  simp only [Node.unlined, Node.mapLine] at he ⊢
  rw [he]
  rfl

theorem legible_array (h : ∀ e ∈ es, ∃ s, Legible (expression style e) s e) (line : Int) :
    Legible (.mark .leftBracket :: arguments style es ++ [Lexeme.mark .rightBracket]) atomTightness (.array es line) := by
  apply Legible.of_atom (by decide)
  intro n ts us hs _
  rw [Parser.atom]
  refine .peek hs (.take hs fun t vs _ hs => .bind (arguments_yields n h (by decide) hs) fun xs hxs => .pure ?_)
  simp only [Node.unlined, Node.mapLine, Node.mapLines_eq_map] at hxs ⊢
  rw [hxs]
  rfl

theorem isCallee_cases {f : String} {args : Nat} (h : isCallee f args = true) : (Lexeme.word f).kind = .id ∨
    (Lexeme.word f).kind = .printKw ∨ (Lexeme.word f).kind = .lengthKw ∧ args = 1 := by
  simpa [isCallee, calleeKinds, or_assoc, Lexeme.word] using h

theorem unlined_call {f : String} {t : Token} {xs : List Node} (ht : t.lexeme = .word f)
    (hxs : xs.map Node.unlined = es.map Node.unlined) (line : Int) :
    (Node.call t.text xs t.line).unlined = (Node.call f es line).unlined := by
  rw [text_of_lexeme ht]
  simp only [Node.unlined, Node.mapLine, Node.mapLines_eq_map] at hxs ⊢
  rw [hxs]
  rfl

theorem legible_call {f : String} (hf : isCallee f es.length = true)
    (h : ∀ e ∈ es, ∃ s, Legible (expression style e) s e) (line : Int) :
    Legible (.word f :: .mark .leftParen :: arguments style es ++ [Lexeme.mark .rightParen]) atomTightness
      (.call f es line) := by
  have hf := isCallee_cases hf
  apply Legible.of_atom (by rcases hf with kind | kind | ⟨kind, -⟩ <;> rw [kind] <;> decide)
  intro n ts us hs _
  rw [Parser.atom]
  refine .peek hs ?_
  rcases hf with kind | kind | ⟨kind, one⟩
  · rw [kind]
    refine .take hs fun t vs ht hs => .peek hs (.take hs fun _ xs _ hs => ?_)
    exact .bind (arguments_yields n h (by decide) hs) fun _ hxs => .pure (unlined_call ht hxs line)
  · rw [kind]
    refine .take hs fun t vs ht hs => .expect hs rfl fun _ xs _ hs => ?_
    exact .bind (arguments_yields n h (by decide) hs) fun _ hxs => .pure (unlined_call ht hxs line)
  · rw [kind]
    obtain ⟨e, rfl⟩ := List.length_eq_one_iff.1 one
    obtain ⟨s, he⟩ := h e List.mem_cons_self
    rw [arguments, moreArguments, List.append_nil] at hs
    refine .take hs fun t vs ht hs => .expect hs rfl fun _ xs _ hs => he.andThen hs (by decide) fun x ys hx hs => ?_
    refine .expect hs rfl fun _ zs _ hs => hs ▸ .pure (unlined_call ht ?_ line)
    rw [List.map_singleton, List.map_singleton, hx]

end

/-! ### The table -/

theorem mem_of_rank {op : String} (h : (rank? op).isSome = true) : op ∈ precedence.flatten := by
  simpa [rank?, List.findIdx?_isSome] using h

theorem level_of_rank {op : String} (h : (rank? op).isSome = true) : level? (Lexeme.operator op).kind = some (rank op) := by
  have table : ∀ op ∈ precedence.flatten, level? (Lexeme.operator op).kind = some (rank op) := by decide +kernel
  exact table op (mem_of_rank h)

theorem rank_le (op : String) : rank op ≤ 6 := by
  unfold rank
  cases h : rank? op with
  | none => exact Nat.zero_le _
  | some r =>
    simp only [rank?, Option.map_eq_some_iff] at h
    obtain ⟨i, hi, rfl⟩ := h
    have := (List.findIdx?_eq_some_iff_findIdx_eq.1 hi).1
    exact this

theorem Place.least_le (p : Place) : p.least ≤ atomTightness := by
  cases p with
  | left op | right op =>
    have := rank_le op
    simp only [Place.least, atomTightness]
    omega
  | _ => decide

theorem Legible.enclosed {ws : List Lexeme} {v : Node} {style : Style} (h : Legible ws (tightness v) v) (sound : style.Sound)
    (p : Place) : ∃ s, p.least ≤ s ∧ Legible (enclosed (style p v) ws) s v := by
  unfold Writing.enclosed
  by_cases parentheses : style p v = true
  · rw [if_pos parentheses]
    exact ⟨atomTightness, p.least_le, h.group⟩
  · rw [if_neg parentheses]
    refine ⟨tightness v, ?_, h⟩
    have spared : ¬ p.demands v = true := fun demanded => parentheses (sound p v demanded)
    simpa [Place.demands] using spared

mutual

/-- **Every expression can be read in writing**, with parentheses wherever they are demanded. -/
theorem legible {style : Style} (sound : style.Sound) : ∀ {e : Node}, isExpression e = true →
    Legible (expression style e) (tightness e) e
  | .number value line, h => by
    rw [expression]
    exact legible_number (of_decide_eq_true h) line
  | .string value line, _ => by
    rw [expression]
    exact legible_string value line
  | .boolean value line, h => by
    rw [expression]
    exact legible_boolean (by simpa [isExpression] using h) line
  | .identifier x line, h => by
    rw [expression]
    exact legible_identifier h line
  | .element x index line, h => by
    simp only [isExpression, Bool.and_eq_true] at h
    rw [expression]
    exact (legible sound h.2).element h.1 line
  | .array es line, h => by
    rw [expression]
    exact legible_array (legible_all sound h) line
  | .call f args line, h => by
    simp only [isExpression, Bool.and_eq_true] at h
    rw [expression]
    exact legible_call h.1 (legible_all sound h.2) line
  | .unary op e line, h => by
    simp only [isExpression, Bool.and_eq_true] at h
    have signs : ∀ op ∈ unaryOperators, (Lexeme.operator op).kind ∈ unaryKinds := by decide +kernel
    obtain ⟨s, tight, operand⟩ := (legible sound h.2).enclosed sound .signed
    rw [expression]
    exact operand.unary (signs op (List.contains_iff_mem.1 h.1)) (fun t ht => text_of_lexeme ht) tight line
  | .binary a op b line, h => by
    simp only [isExpression, Bool.and_eq_true] at h
    obtain ⟨s₁, tight₁, left⟩ := (legible sound h.1.2).enclosed sound (.left op)
    obtain ⟨s₂, tight₂, right⟩ := (legible sound h.2).enclosed sound (.right op)
    rw [expression]
    exact left.binary right (level_of_rank h.1.1) (fun t ht => text_of_lexeme ht) tight₁ tight₂ line
  | .ternary c yes no line, h => by
    simp only [isExpression, Bool.and_eq_true] at h
    obtain ⟨s₁, tight₁, condition⟩ := (legible sound h.1.1).enclosed sound .condition
    obtain ⟨s₂, -, middle⟩ := (legible sound h.1.2).enclosed sound .middle
    obtain ⟨s₃, tight₃, last⟩ := (legible sound h.2).enclosed sound .last
    rw [expression]
    exact condition.ternary middle last tight₁ tight₃ line

theorem legible_all {style : Style} (sound : style.Sound) : ∀ {es : List Node}, areExpressions es = true →
    ∀ e ∈ es, ∃ s, Legible (expression style e) s e
  | [], _ => by simp
  | e :: es, h => by
    simp only [areExpressions, Bool.and_eq_true] at h
    have first := legible sound h.1
    have others := legible_all sound h.2
    intro x hx
    rcases List.mem_cons.1 hx with rfl | hx
    · exact ⟨_, first⟩
    · exact others x hx

end

theorem Style.sparing_sound : Style.sparing.Sound := fun _ _ h => h

/-- **An expression is read back as it was written.**  Where an expression is written with parentheses only where they
are demanded, and what stands behind it does not go on with it, the parser takes its tokens and makes the expression
again, up to lines. -/
theorem expression_reads_back {e : Node} (h : isExpression e = true) {ts rest : List Token}
    (written : ts.map Token.lexeme = expression .sparing e) (behind : Clear expressionGoesOn rest) {n : Nat}
    (enough : depth (ts ++ rest) ≤ n) (entered : List String) :
    ∃ e' s, (Parser.expression n 0).run { tokens := ts ++ rest, entered } = .ok e' s ∧ s.tokens = rest ∧
      e'.unlined = e.unlined := by
  have spelled : Spells (expression .sparing e) (ts ++ rest) rest := written ▸ spells_of_map ts rest
  have yields := (legible Style.sparing_sound h).whole n spelled behind entered
  have ends := expression_ends n 0 (ts ++ rest) (by unfold depth at enough; omega) entered
  cases run : (Parser.expression n 0).run { tokens := ts ++ rest, entered } with
  | ok e' s =>
    rw [run] at yields
    exact ⟨e', s, rfl, yields⟩
  | error k s =>
    rw [run] at yields ends
    cases k with
    | stuck => exact yields.elim
    | spent => exact ends.elim

/-- `a - (b - c) * -d < x ? y : z` -/
def mixed : Node :=
  .binary
    (.binary (.identifier "a" 1) "-"
      (.binary (.binary (.identifier "b" 1) "-" (.identifier "c" 1) 1) "*" (.unary "-" (.identifier "d" 1) 1) 1) 1)
    "<" (.ternary (.identifier "x" 1) (.identifier "y" 1) (.identifier "z" 1) 1) 1

theorem mixed_reads_back : ∃ e s,
    (Parser.expression 200 0).run
        { tokens := (Token.lex "a - (b - c) * -d < x ? y : z".toList 1).tokens ++ [⟨.semicolon, .text ";", 1, 28⟩] } =
      .ok e s ∧ s.tokens = [⟨.semicolon, .text ";", 1, 28⟩] ∧ e.unlined = mixed.unlined := by
  refine expression_reads_back (by decide +kernel) (by decide +kernel) ?_ (by decide +kernel) []
  rintro _ _ ⟨⟩
  decide

end Writing
end TesLang
