import TesLang.Proofs.Parsing.FirstError
import TesLang.Proofs.Writing.Expression
/-!
# Reading a program back

A program that is written with parentheses around each operand that is no atom is read without an error, and as it was, up
to lines (`program_reads_back`).

`Statable ws o v` says of written tokens that they are read as the statement `v`, and `o` that this statement is open: an
`else` behind it would be read with it.  There is one lemma for each kind of statement.
-/
namespace TesLang

open Grammar TesLang.Parser

variable {β γ : Type}

namespace Writing

/-! ### Parts of statements -/

section
variable {ws : List Lexeme} {s : Nat} {v e : Node} {ts us : List Token} {style : Style} {G : β → γ} {c : γ} {ps : List Node}

theorem type_yields {type : String} {f : String → Parser β} (h : isType type = true) (hs : Spells (.word type :: ws) ts us)
    (rest : ∀ vs, Spells ws vs us → Yields G (f type) vs us c) : Yields G (Parser.type >>= f) ts us c := by
  have kind : (Lexeme.word type).kind ∈ typeKinds := List.contains_iff_mem.1 h
  have taken : Yields G ((do let t ← Parser.take; pure t.text) >>= f) ts us c := by
    rw [bind_assoc]
    refine .take hs fun t vs ht hs => ?_
    rw [pure_bind, text_of_lexeme ht]
    exact rest vs hs
  unfold Parser.type
  rw [bind_assoc]
  refine .peek hs ?_
  simp only [typeKinds, List.mem_cons, List.not_mem_nil, or_false] at kind
  rcases kind with kind | kind | kind | kind | kind | kind <;> rw [kind] <;> exact taken

theorem parameter_yields {p : Node} {f : Node → Parser β} (h : isParameter p = true) (hs : Spells (parameter p ++ ws) ts us)
    (rest : ∀ x vs, x.unlined = p.unlined → Spells ws vs us → Yields G (f x) vs us c) :
    Yields G (Parser.parameter >>= f) ts us c := by
  cases p with
  | parameter x type line =>
    simp only [isParameter, Bool.and_eq_true] at h
    simp only [Parser.parameter, bind_assoc, pure_bind]
    refine .expect hs (eq_of_beq h.1) fun t vs ht hs => .expect hs rfl fun _ xs _ hs => type_yields h.2 hs fun ys hs => ?_
    refine rest _ ys ?_ hs
    rw [text_of_lexeme ht]
    simp only [Node.unlined, Node.mapLine]
    rfl
  | _ => cases h

theorem moreParameters_yields (n : Nat) (h : ps.all isParameter = true)
    (hs : Spells (moreParameters ps ++ [Lexeme.mark .rightParen]) ts us) :
    Yields (List.map Node.unlined) (Parser.moreParameters n) ts us (ps.map Node.unlined) := by
  induction n generalizing ps ts with
  | zero =>
    rw [Parser.moreParameters]
    exact .spent
  | succ n ih =>
    rw [Parser.moreParameters]
    cases ps with
    | nil => exact .takeIf_of_clear (clear_of_spells hs (by decide)) (.expect hs rfl fun _ vs _ hs => hs ▸ .pure rfl)
    | cons p ps =>
      simp only [List.all_cons, Bool.and_eq_true] at h
      rw [moreParameters, List.append_assoc] at hs
      refine .takeIf hs rfl fun _ vs _ hs => parameter_yields h.1 hs fun x xs hx hs => ?_
      refine .bind (ih h.2 hs) fun ys hys => .pure ?_
      rw [List.map_cons, List.map_cons, hx, hys]

theorem parameters_yields (n : Nat) (h : ps.all isParameter = true)
    (hs : Spells (parameters ps ++ [Lexeme.mark .rightParen]) ts us) :
    Yields (List.map Node.unlined) (Parser.parameters n) ts us (ps.map Node.unlined) := by
  unfold Parser.parameters
  cases ps with
  | nil => exact .takeIf hs rfl fun _ vs _ hs => hs ▸ .pure rfl
  | cons p ps =>
    simp only [List.all_cons, Bool.and_eq_true] at h
    rw [parameters, List.append_assoc] at hs
    have clear : Clear [.rightParen] ts := by
      cases p with
      | parameter x type line =>
        have first := h.1
        simp only [isParameter, Bool.and_eq_true] at first
        exact clear_of_spells hs (by rw [show (Lexeme.word x).kind = .id from eq_of_beq first.1]; decide)
      | _ => cases h.1
    refine .takeIf_of_clear clear (parameter_yields h.1 hs fun x xs hx hs => ?_)
    refine .bind (moreParameters_yields n h.2 hs) fun ys hys => .pure ?_
    rw [List.map_cons, List.map_cons, hx, hys]

theorem condition_yields {n : Nat} {f : Node → Parser β} (h : Legible (expression style e) s e)
    (hs : Spells (condition style e ++ ws) ts us)
    (rest : ∀ x vs, x.unlined = e.unlined → Spells ws vs us → Yields G (f x) vs us c) :
    Yields G (Parser.condition n >>= f) ts us c := by
  simp only [condition, List.cons_append, List.append_assoc, List.nil_append] at hs
  simp only [Parser.condition, bind_assoc, pure_bind]
  refine .expect hs rfl fun _ _ _ hs => .expect hs rfl fun _ _ _ hs => h.andThen hs (by decide) fun x _ hx hs => ?_
  exact .expect hs rfl fun _ _ _ hs => .expect hs rfl fun _ vs _ hs => rest x vs hx hs

theorem Legible.closed {n : Nat} {b : Node} {make : Node → Node} (h : Legible ws s v)
    (hs : Spells (ws ++ [Lexeme.mark .semicolon]) ts us) (made : ∀ x, x.unlined = v.unlined → (make x).unlined = b) :
    Yields Node.unlined (do
      let e ← Parser.expression n 0
      let _ ← expect .semicolon
      pure (make e)) ts us b :=
  h.andThen hs (by decide) fun x _ hx hs => .expect hs rfl fun _ _ _ hs => hs ▸ .pure (made x hx)

end

/-! ### Statements -/

/-- The tokens written `ws` are read as the statement `v`, and if it is open, where no `else` stands behind them. -/
structure Statable (ws : List Lexeme) (o : Bool) (v : Node) : Prop where
  starts : ∃ w rest, ws = w :: rest ∧ startsStatement w.kind = true
  reads : ∀ (n : Nat) {ts us : List Token}, Spells ws ts us → (o = true → Clear [.elseKw] us) →
    Yields Node.unlined (Parser.statement n) ts us v.unlined

section
variable {ws ws₁ ws₂ : List Lexeme} {w : Lexeme} {o o' : Bool} {s s₁ s₂ : Nat} {v e e₁ e₂ yes no body : Node} {style : Style}
  {x f type : String} {es ss ps : List Node} (line : Int)

theorem Statable.intro (hw : startsStatement w.kind = true)
    (reads : ∀ (n : Nat) {ts us : List Token}, Spells (w :: ws) ts us → (o = true → Clear [.elseKw] us) →
      Yields Node.unlined (Parser.statement (n + 1)) ts us v.unlined) : Statable (w :: ws) o v where
  starts := ⟨w, ws, rfl, hw⟩
  reads n ts us hs hu := by
    cases n with
    | zero =>
      rw [Parser.statement]
      exact .spent
    | succ n => exact reads n hs hu

theorem Statable.named (hx : isName x = true)
    (reads : ∀ (n : Nat) (t : Token) {ts us : List Token}, t.text = x → Spells ws ts us →
      Yields Node.unlined (Parser.named n t) ts us v.unlined) : Statable (.word x :: ws) false v := by
  have kind : (Lexeme.word x).kind = .id := eq_of_beq hx
  apply Statable.intro (by rw [kind]; rfl)
  intro n ts us hs _
  rw [Parser.statement]
  refine .peek hs ?_
  rw [kind]
  exact .take hs fun t vs ht hs => reads n t (text_of_lexeme ht) hs

theorem statable_declaration (hx : isName x = true) (ht : isType type = true) :
    Statable [.word x, .mark .doubleColon, .word type, .mark .semicolon] false (.declaration x type line) := by
  apply Statable.named hx
  intro n t ts us text hs
  unfold Parser.named
  refine .peek hs (.take hs fun _ _ _ hs => type_yields ht hs fun _ hs => ?_)
  refine .takeIf_of_clear (clear_of_spells hs (by decide)) (.expect hs rfl fun _ _ _ hs => hs ▸ .pure ?_)
  rw [text]
  simp only [Node.unlined, Node.mapLine]
  rfl

theorem statable_initialised (hx : isName x = true) (ht : isType type = true) (h : Legible ws s e) (line' : Int) :
    Statable (.word x :: .mark .doubleColon :: .word type :: .mark .assign :: ws ++ [Lexeme.mark .semicolon]) false
      (.several [.declaration x type line, .assignment (.text x) e line']) := by
  apply Statable.named hx
  intro n t ts us text hs
  unfold Parser.named
  refine .peek hs (.take hs fun _ _ _ hs => type_yields ht hs fun _ hs => .takeIf hs rfl fun _ _ _ hs => ?_)
  refine h.closed hs fun y hy => ?_
  rw [text]
  simp only [Node.unlined, Node.mapLine, Node.mapLines] at hy ⊢
  rw [hy]
  rfl

theorem statable_assignment (hx : isName x = true) (h : Legible ws s e) :
    Statable (.word x :: .mark .assign :: ws ++ [Lexeme.mark .semicolon]) false (.assignment (.text x) e line) := by
  apply Statable.named hx
  intro n t ts us text hs
  unfold Parser.named
  refine .peek hs (.take hs fun _ _ _ hs => h.closed hs fun y hy => ?_)
  rw [text]
  simp only [Node.unlined, Node.mapLine] at hy ⊢
  rw [hy]
  rfl

theorem statable_elementAssignment (hx : isName x = true) (h₁ : Legible ws₁ s₁ e₁) (h₂ : Legible ws₂ s₂ e₂) (line' : Int) :
    Statable (.word x :: .mark .leftBracket :: ws₁ ++ .mark .rightBracket :: .mark .assign :: ws₂ ++
      [Lexeme.mark .semicolon]) false (.assignment (.element x e₁ line') e₂ line) := by
  rw [List.append_assoc]
  apply Statable.named hx
  intro n t ts us text hs
  unfold Parser.named
  refine .peek hs (.take hs fun _ _ _ hs => h₁.andThen hs (by decide) fun y _ hy hs => ?_)
  refine .expect hs rfl fun _ _ _ hs => .expect hs rfl fun _ _ _ hs => h₂.closed hs fun z hz => ?_
  rw [text]
  simp only [Node.unlined, Node.mapLine] at hy hz ⊢
  rw [hy, hz]
  rfl

theorem statable_call (hf : isCallee f es.length = true) (h : ∀ e ∈ es, ∃ s, Legible (expression style e) s e) :
    Statable (.word f :: .mark .leftParen :: arguments style es ++ [Lexeme.mark .rightParen] ++ [Lexeme.mark .semicolon])
      false (.call f es line) := by
  have starts : startsStatement (Lexeme.word f).kind = true := by
    rcases isCallee_cases hf with kind | kind | ⟨kind, -⟩ <;> rw [kind] <;> rfl
  apply Statable.intro starts
  intro n ts us hs _
  rw [Parser.statement]
  refine .peek hs ?_
  rcases isCallee_cases hf with kind | kind | ⟨kind, one⟩
  · rw [kind]
    unfold Parser.named
    refine .take hs fun t _ ht hs => .peek hs (.take hs fun _ _ _ hs => ?_)
    obtain ⟨vs, hs, closed⟩ := spells_append.1 hs
    refine .bind (arguments_yields n h (by decide) hs) fun xs hxs => .expect closed rfl fun _ _ _ hs => hs ▸ .pure ?_
    exact unlined_call ht hxs line
  · rw [kind]
    refine .take hs fun t _ ht hs => .expect hs rfl fun _ _ _ hs => ?_
    obtain ⟨vs, hs, closed⟩ := spells_append.1 hs
    refine .bind (arguments_yields n h (by decide) hs) fun xs hxs => .expect closed rfl fun _ _ _ hs => hs ▸ .pure ?_
    exact unlined_call ht hxs line
  · rw [kind]
    obtain ⟨e, rfl⟩ := List.length_eq_one_iff.1 one
    obtain ⟨s, he⟩ := h e List.mem_cons_self
    rw [arguments, moreArguments, List.append_nil] at hs
    refine .take hs fun t _ ht hs => .expect hs rfl fun _ _ _ hs => ?_
    obtain ⟨vs, hs, closed⟩ := spells_append.1 hs
    obtain ⟨xs, read, hs⟩ := spells_append.1 hs
    refine .bind (he.whole n read (clear_of_spells hs (by decide))) fun y hy => .expect hs rfl fun _ _ _ hs => hs ▸ ?_
    refine .expect closed rfl fun _ _ _ hs => hs ▸ .pure (unlined_call ht ?_ line)
    rw [List.map_singleton, List.map_singleton, hy]

theorem statable_retNothing : Statable [.mark .returnKw, .mark .semicolon] false (.ret .nothing line) := by
  apply Statable.intro rfl
  intro n ts us hs _
  rw [Parser.statement]
  refine .peek hs (.take hs fun _ _ _ hs => .takeIf hs rfl fun _ _ _ hs => hs ▸ .pure ?_)
  simp only [Node.unlined, Node.mapLine]
  rfl

theorem Legible.ret (h : Legible ws s e) :
    Statable (.mark .returnKw :: ws ++ [Lexeme.mark .semicolon]) false (.ret e line) := by
  have unclosed : ∀ k ∈ expressionStarts, k ∉ [Kind.semicolon] := by decide
  apply Statable.intro rfl
  intro n ts us hs _
  rw [Parser.statement]
  refine .peek hs (.take hs fun t vs _ hs => ?_)
  have clear : Clear [.semicolon] vs := by
    obtain ⟨w, rest, rfl, start, -⟩ := h.starts
    exact clear_of_spells hs (unclosed _ start)
  refine .takeIf_of_clear clear (h.closed hs fun y hy => ?_)
  simp only [Node.unlined, Node.mapLine] at hy ⊢
  rw [hy]
  rfl

theorem Statable.branch (hc : Legible (expression style e) s e) (h : Statable ws o yes) :
    Statable (.mark .ifKw :: condition style e ++ ws) true (.branch e yes .nothing line) := by
  apply Statable.intro rfl
  intro n ts us hs hu
  have clear := hu rfl
  rw [Parser.statement]
  refine .peek hs (.take hs fun _ _ _ hs => condition_yields hc hs fun x _ hx hs => ?_)
  refine .bind (h.reads n hs fun _ => clear) fun y hy => .takeIf_of_clear clear (.pure ?_)
  simp only [Node.unlined, Node.mapLine] at hx hy ⊢
  rw [hx, hy]
  rfl

theorem Statable.branchElse (hc : Legible (expression style e) s e) (h₁ : Statable ws₁ false yes) (h₂ : Statable ws₂ o no) :
    Statable (.mark .ifKw :: condition style e ++ ws₁ ++ .mark .elseKw :: ws₂) o (.branch e yes no line) := by
  rw [List.append_assoc]
  apply Statable.intro rfl
  intro n ts us hs hu
  rw [Parser.statement]
  refine .peek hs (.take hs fun _ _ _ hs => condition_yields hc hs fun x _ hx hs => ?_)
  obtain ⟨vs, first, hs⟩ := spells_append.1 hs
  refine .bind (h₁.reads n first (by simp)) fun y hy => .takeIf hs rfl fun _ _ _ hs => ?_
  refine .bind (h₂.reads n hs hu) fun z hz => .pure ?_
  simp only [Node.unlined, Node.mapLine] at hx hy hz ⊢
  rw [hx, hy, hz]
  rfl

theorem Statable.whileLoop (hc : Legible (expression style e) s e) (h : Statable ws o body) :
    Statable (.mark .whileKw :: condition style e ++ ws) o (.whileLoop e body line) := by
  apply Statable.intro rfl
  intro n ts us hs hu
  rw [Parser.statement]
  refine .peek hs (.take hs fun _ _ _ hs => condition_yields hc hs fun x _ hx hs => ?_)
  refine .bind (h.reads n hs hu) fun y hy => .pure ?_
  simp only [Node.unlined, Node.mapLine] at hx hy ⊢
  rw [hx, hy]
  rfl

theorem Statable.doLoop (hc : Legible (expression style e) s e) (h : Statable ws o body) :
    Statable (.mark .doKw :: ws ++ .mark .whileKw :: condition style e ++ [Lexeme.mark .semicolon]) false
      (.doLoop body e line) := by
  rw [List.append_assoc]
  apply Statable.intro rfl
  intro n ts us hs hu
  rw [Parser.statement]
  refine .peek hs (.take hs fun _ _ _ hs => ?_)
  obtain ⟨vs, first, hs⟩ := spells_append.1 hs
  refine .bind (h.reads n first fun _ => clear_of_spells hs (by decide)) fun y hy => .expect hs rfl fun _ _ _ hs => ?_
  refine condition_yields hc hs fun x _ hx hs => .expect hs rfl fun _ _ _ hs => hs ▸ .pure ?_
  simp only [Node.unlined, Node.mapLine] at hx hy ⊢
  rw [hx, hy]
  rfl

end

/-! ### Lists of statements -/

/-- Each of some statements can be read in writing, and is a single one. -/
def Listed (style : Style) (ss : List Node) : Prop :=
  ∀ s ∈ ss, isSeveral s = false ∧ Statable (statement style s) (isOpen s) s

section
variable {style : Style} {s : Node} {ss : List Node} {ts us : List Token} {w : Lexeme} {ws : List Lexeme}

theorem closing_of_spells (hs : Spells (w :: ws) ts us) (hw : startsStatement w.kind = false ∧ w.kind ≠ .elseKw) :
    Closing ts := by
  obtain ⟨t, vs, rfl, ht, -⟩ := hs
  rintro _ _ ⟨⟩
  rwa [kind_of_lexeme ht]

theorem clear_of_listed (h : Listed style ss) (hs : Spells (statements style ss) ts us) (hu : Closing us) :
    Clear [.elseKw] ts := by
  cases ss with
  | nil =>
    rw [statements] at hs
    obtain rfl : ts = us := hs
    exact hu.clear
  | cons s ss =>
    obtain ⟨w, rest, hw, start⟩ := (h s List.mem_cons_self).2.starts
    rw [statements, hw] at hs
    refine clear_of_spells hs fun other => ?_
    rw [List.mem_singleton.1 other] at start
    cases start

theorem unlined_parts {x : Node} {xs : List Node} (single : isSeveral s = false) (hx : x.unlined = s.unlined)
    (hxs : xs.map Node.unlined = ss.map Node.unlined) : (x.parts ++ xs).map Node.unlined = (s :: ss).map Node.unlined := by
  have whole : s.parts = [s] := by
    cases s <;> first | rfl | cases single
  have parts (n : Node) : n.parts.map Node.unlined = n.unlined.parts := (Node.parts_mapLine .level n).symm
  rw [List.map_append, hxs, parts, hx, ← parts, whole]
  rfl

theorem list_yields {first : Parser (List Node)} (h : Listed style ss) (hs : Spells (statements style ss) ts us)
    (hu : Closing us) (next : ∀ s rest vs, ss = s :: rest → Spells (statement style s) ts vs →
      Spells (statements style rest) vs us → Clear [.elseKw] vs →
      Yields (List.map Node.unlined) first ts us (ss.map Node.unlined)) :
    Yields (List.map Node.unlined) (do
      match ← peek with
      | some k => if startsStatement k then first else pure []
      | none => pure []) ts us (ss.map Node.unlined) := by
  cases ss with
  | nil =>
    rw [statements] at hs
    obtain rfl : ts = us := hs
    apply Leads.peek
    intro k head
    split
    · obtain ⟨t, us, rfl, rfl⟩ := exists_of_head head
      rw [(hu t us rfl).1]
      exact Yields.pure rfl
    · exact Yields.pure rfl
  | cons s ss =>
    obtain ⟨w, rest, hw, start⟩ := (h s List.mem_cons_self).2.starts
    rw [statements] at hs
    obtain ⟨vs, first, hs⟩ := spells_append.1 hs
    have clear := clear_of_listed (fun s hs => h s (List.mem_cons_of_mem _ hs)) hs hu
    have next := next s ss vs rfl first hs clear
    rw [hw] at first
    refine .peek first ?_
    dsimp only
    rwa [if_pos start]

theorem moreStatements_yields (n : Nat) (h : Listed style ss) (hs : Spells (statements style ss) ts us) (hu : Closing us) :
    Yields (List.map Node.unlined) (Parser.moreStatements n) ts us (ss.map Node.unlined) := by
  induction n generalizing ss ts with
  | zero =>
    rw [Parser.moreStatements]
    exact .spent
  | succ n ih =>
    rw [Parser.moreStatements]
    refine list_yields h hs hu fun s rest vs split first others clear => ?_
    subst split
    obtain ⟨single, statable⟩ := h s List.mem_cons_self
    refine .bind (statable.reads n first fun _ => clear) fun x hx => ?_
    exact .bind (ih (fun s hs => h s (List.mem_cons_of_mem _ hs)) others) fun xs hxs =>
      .pure (unlined_parts single hx hxs)

theorem statements_yields (n : Nat) (h : Listed style ss) (hs : Spells (statements style ss) ts us) (hu : Closing us) :
    Yields (List.map Node.unlined) (Parser.statements n) ts us (ss.map Node.unlined) := by
  cases n with
  | zero =>
    rw [Parser.statements]
    exact .spent
  | succ n =>
    rw [Parser.statements]
    refine list_yields h hs hu fun s rest vs split first others clear => ?_
    subst split
    obtain ⟨single, statable⟩ := h s List.mem_cons_self
    refine .bind (statable.reads n first fun _ => clear) fun x hx => ?_
    refine Leads.andThen (noteFirst_takes x vs) (fun _ h => h) ?_
    rintro - _ rfl
    exact Yields.bind (moreStatements_yields n (fun s hs => h s (List.mem_cons_of_mem _ hs)) others hu) fun xs hxs =>
      .pure (unlined_parts single hx hxs)

end

section
variable {style : Style} {ss ps : List Node} {ts us : List Token} {ws ws₁ ws₂ : List Lexeme} {s₁ s₂ : Nat} {start stop : Node}
  {x f type : String} (line : Int)

theorem Listed.andThen {β γ : Type} {G : β → γ} {c : γ} {w : Lexeme} {g : List Node → Parser β} {n : Nat}
    (h : Listed style ss) (hs : Spells (statements style ss ++ w :: ws) ts us)
    (hw : startsStatement w.kind = false ∧ w.kind ≠ .elseKw)
    (rest : ∀ xs vs, xs.map Node.unlined = ss.map Node.unlined → Spells (w :: ws) vs us → Yields G (g xs) vs us c) :
    Yields G (Parser.statements n >>= g) ts us c := by
  obtain ⟨vs, first, hs⟩ := spells_append.1 hs
  exact .bind (statements_yields n h first (closing_of_spells hs hw)) fun xs hxs => rest xs vs hxs hs

theorem Listed.block (h : Listed style ss) :
    Statable (.mark .beginKw :: statements style ss ++ [Lexeme.mark .endKw]) false (.block ss line) := by
  apply Statable.intro rfl
  intro n ts us hs _
  rw [Parser.statement]
  refine .peek hs (.take hs fun _ _ _ hs => h.andThen hs (by decide) fun xs _ hxs hs => ?_)
  refine .expect hs rfl fun _ _ _ hs => hs ▸ .pure ?_
  simp only [Node.unlined, Node.mapLine, Node.mapLines_eq_map] at hxs ⊢
  rw [hxs]
  rfl

theorem Listed.forLoop (hx : isName x = true) (h₁ : Legible ws₁ s₁ start) (h₂ : Legible ws₂ s₂ stop) (h : Listed style ss) :
    Statable (.mark .forKw :: .mark .leftParen :: .word x :: .mark .assign :: ws₁ ++ .mark .toKw :: ws₂ ++
      .mark .rightParen :: .mark .beginKw :: statements style ss ++ [Lexeme.mark .endKw]) false
      (.forLoop x start stop (.several ss) line) := by
  rw [List.append_assoc, List.append_assoc]
  apply Statable.intro rfl
  intro n ts us hs _
  rw [Parser.statement]
  refine .peek hs (.take hs fun _ _ _ hs => .expect hs rfl fun _ _ _ hs => ?_)
  refine .expect hs (eq_of_beq hx) fun var _ ht hs => .expect hs rfl fun _ _ _ hs => ?_
  refine h₁.andThen hs (by decide) fun y _ hy hs => .expect hs rfl fun _ _ _ hs => ?_
  refine h₂.andThen hs (by decide) fun z _ hz hs => .expect hs rfl fun _ _ _ hs => .expect hs rfl fun _ _ _ hs => ?_
  refine h.andThen hs (by decide) fun xs _ hxs hs => .expect hs rfl fun _ _ _ hs => hs ▸ .pure ?_
  rw [text_of_lexeme ht]
  simp only [Node.unlined, Node.mapLine, Node.mapLines_eq_map] at hy hz hxs ⊢
  rw [hy, hz, hxs]
  rfl

theorem Listed.function_yields (n : Nat) (hf : isName f = true) (hp : ps.all isParameter = true) (ht : isType type = true)
    (h : Listed style ss)
    (hs : Spells (statement style (.function f (.several ps) type (.several ss) line)) ts us) :
    Yields Node.unlined (Parser.function n) ts us (Node.function f (.several ps) type (.several ss) line).unlined := by
  cases n with
  | zero =>
    rw [Parser.function]
    exact .spent
  | succ n =>
    rw [statement, List.append_assoc] at hs
    rw [Parser.function]
    refine .expect hs rfl fun _ _ _ hs => .expect hs (eq_of_beq hf) fun name _ ht' hs => .expect hs rfl fun _ _ _ hs => ?_
    obtain ⟨vs, params, hs⟩ := spells_append_cons.1 hs
    refine .bind (parameters_yields n hp params) fun qs hqs => .expect hs rfl fun _ _ _ hs => ?_
    refine type_yields ht hs fun _ hs => .expect hs rfl fun _ _ _ hs => ?_
    refine .takeIf_of_clear (clear_of_spells hs (by decide)) (.expect hs rfl fun _ _ _ hs => ?_)
    refine h.andThen hs (by decide) fun xs _ hxs hs => .expect hs rfl fun _ _ _ hs => hs ▸ .pure ?_
    rw [text_of_lexeme ht']
    simp only [Node.unlined, Node.mapLine, Node.mapLines_eq_map] at hqs hxs ⊢
    rw [hqs, hxs]
    rfl

theorem Listed.function (hf : isName f = true) (hp : ps.all isParameter = true) (ht : isType type = true)
    (h : Listed style ss) : Statable (statement style (.function f (.several ps) type (.several ss) line)) false
      (.function f (.several ps) type (.several ss) line) where
  starts := by
    rw [statement]
    exact ⟨_, _, rfl, rfl⟩
  reads n ts us hs _ := by
    cases n with
    | zero =>
      rw [Parser.statement]
      exact .spent
    | succ n =>
      have function := h.function_yields line n hf hp ht hs
      rw [Parser.statement]
      rw [statement] at hs
      exact .peek hs function

end

mutual

/-- **Every statement can be read in writing.** -/
theorem statable {style : Style} (sound : style.Sound) : ∀ {s : Node}, isStatement s = true →
    Statable (statement style s) (isOpen s) s
  | .declaration x type line, h => by
    simp only [isStatement, Bool.and_eq_true] at h
    rw [statement]
    exact statable_declaration line h.1 h.2
  | .assignment (.text x) value line, h => by
    simp only [isStatement, Bool.and_eq_true] at h
    rw [statement]
    exact statable_assignment line h.1 (legible sound h.2)
  | .assignment (.element x index line') value line, h => by
    simp only [isStatement, Bool.and_eq_true] at h
    have written : statement style (.assignment (.element x index line') value line) =
        .word x :: .mark .leftBracket :: expression style index ++ .mark .rightBracket :: .mark .assign ::
          expression style value ++ [Lexeme.mark .semicolon] := by
      simp [statement, expression]
    rw [written]
    exact statable_elementAssignment line h.1.1 (legible sound h.1.2) (legible sound h.2) line'
  | .several [.declaration x type line, .assignment (.text y) value line'], h => by
    simp only [isStatement, Bool.and_eq_true] at h
    obtain rfl : x = y := eq_of_beq h.1.1.1
    rw [statement]
    exact statable_initialised line h.1.1.2 h.1.2 (legible sound h.2) line'
  | .call f args line, h => by
    simp only [isStatement, Bool.and_eq_true] at h
    rw [statement, expression]
    exact statable_call line h.1 (legible_all sound h.2)
  | .ret value line, h => by
    by_cases bare : value = .nothing
    · rw [bare, statement]
      exact statable_retNothing line
    · simp only [isStatement] at h
      simp only [statement]
      exact (legible sound h).ret line
  | .branch c yes no line, h => by
    by_cases short : no = .nothing
    · rw [short] at h ⊢
      simp only [isStatement, Bool.and_eq_true] at h
      rw [statement]
      exact (statable sound h.2).branch line (legible sound h.1)
    · simp only [isStatement, Bool.and_eq_true, Bool.not_eq_true'] at h
      simp only [statement, isOpen]
      have yes := statable sound h.1.1.2
      rw [h.1.2] at yes
      exact yes.branchElse line (legible sound h.1.1.1) (statable sound h.2)
  | .forLoop x start stop (.several ss) line, h => by
    simp only [isStatement, Bool.and_eq_true] at h
    rw [statement]
    exact (statable_all sound h.2).forLoop line h.1.1.1 (legible sound h.1.1.2) (legible sound h.1.2)
  | .whileLoop c body line, h => by
    simp only [isStatement, Bool.and_eq_true] at h
    rw [statement]
    exact (statable sound h.2).whileLoop line (legible sound h.1)
  | .doLoop body c line, h => by
    simp only [isStatement, Bool.and_eq_true] at h
    rw [statement]
    exact (statable sound h.1).doLoop line (legible sound h.2)
  | .block ss line, h => by
    simp only [isStatement] at h
    rw [statement]
    exact (statable_all sound h).block line
  | .function f (.several ps) type (.several ss) line, h => by
    simp only [isStatement, Bool.and_eq_true] at h
    exact (statable_all sound h.2).function line h.1.1.1 h.1.1.2 h.1.2

theorem statable_all {style : Style} (sound : style.Sound) : ∀ {ss : List Node}, areStatements ss = true → Listed style ss
  | [], _ => by simp [Listed]
  | s :: ss, h => by
    simp only [areStatements, Bool.and_eq_true, Bool.not_eq_true'] at h
    have first := statable sound h.1.2
    have others := statable_all sound h.2
    intro x hx
    rcases List.mem_cons.1 hx with rfl | hx
    · exact ⟨h.1.1, first⟩
    · exact others x hx

end

/-! ### Programs -/

section
variable {style : Style} {f : Node} {fs : List Node} {ts us : List Token}

theorem exists_of_isFunction (hf : f.isFunction = true) (h : isStatement f = true) :
    ∃ name ps type ss line, f = .function name (.several ps) type (.several ss) line := by
  cases f with
  | function name params type body line =>
    cases params with
    | several ps =>
      cases body with
      | several ss => exact ⟨name, ps, type, ss, line, rfl⟩
      | _ => cases h
    | _ => cases h
  | _ => cases hf

theorem function_yields (sound : style.Sound) (n : Nat) (hf : f.isFunction = true) (h : isStatement f = true)
    (hs : Spells (statement style f) ts us) : Yields Node.unlined (Parser.function n) ts us f.unlined := by
  obtain ⟨name, ps, type, ss, line, rfl⟩ := exists_of_isFunction hf h
  simp only [isStatement, Bool.and_eq_true] at h
  exact (statable_all sound h.2).function_yields line n h.1.1.1 h.1.1.2 h.1.2 hs

theorem moreFunctions_yields (sound : style.Sound) (n : Nat) (hf : fs.all Node.isFunction = true)
    (h : areStatements fs = true) (hs : Spells (statements style fs) ts []) :
    Yields (List.map Node.unlined) (Parser.moreFunctions n) ts [] (fs.map Node.unlined) := by
  induction n generalizing fs ts with
  | zero =>
    rw [Parser.moreFunctions]
    exact .spent
  | succ n ih =>
    rw [Parser.moreFunctions]
    cases fs with
    | nil =>
      rw [statements] at hs
      obtain rfl : ts = [] := hs
      exact fun _ => ⟨rfl, rfl⟩
    | cons f fs =>
      simp only [List.all_cons, Bool.and_eq_true] at hf
      simp only [areStatements, Bool.and_eq_true] at h
      rw [statements] at hs
      obtain ⟨vs, first, others⟩ := spells_append.1 hs
      have function := function_yields sound n hf.1 h.1.2 first
      obtain ⟨name, ps, type, ss, line, rfl⟩ := exists_of_isFunction hf.1 h.1.2
      rw [statement] at first
      refine .peek first (.bind function fun x hx => .bind (ih hf.2 h.2 others) fun xs hxs => .pure ?_)
      rw [List.map_cons, List.map_cons, hx, hxs]

theorem program_yields (sound : style.Sound) (n : Nat) (h : isProgram (.program fs) = true)
    (hs : Spells (program style (.program fs)) ts []) :
    Yields (List.map Node.unlined) (Parser.program n) ts [] (fs.map Node.unlined) := by
  simp only [isProgram, Bool.and_eq_true] at h
  obtain ⟨⟨some, hf⟩, h⟩ := h
  cases fs with
  | nil => cases some
  | cons f fs =>
    simp only [List.all_cons, Bool.and_eq_true] at hf
    simp only [areStatements, Bool.and_eq_true] at h
    rw [program, statements] at hs
    obtain ⟨vs, first, others⟩ := spells_append.1 hs
    refine .bind (function_yields sound n hf.1 h.1.2 first) fun x hx => ?_
    refine .bind (moreFunctions_yields sound n hf.2 h.2 others) fun xs hxs => .pure ?_
    rw [List.map_cons, List.map_cons, hx, hxs]

theorem parse_yields (sound : style.Sound) (h : isProgram (.program fs) = true) {s : Token.Scan}
    (whole : ∀ f, s.stop ≠ .fault f) (written : s.tokens.map Token.lexeme = program style (.program fs)) :
    ∃ fs' entered, s.parse = { functions := some fs', entered } ∧ fs'.map Node.unlined = fs.map Node.unlined := by
  have spelled : Spells (program style (.program fs)) s.tokens [] := by
    have spelled := spells_of_map s.tokens []
    rwa [written, List.append_nil] at spelled
  have yields := program_yields sound (depth s.tokens) h spelled []
  have ends := program_ends s.tokens (Nat.le_refl _) []
  cases run : (Parser.program (depth s.tokens)).run { tokens := s.tokens } with
  | ok fs' r =>
    rw [run] at yields
    exact ⟨fs', r.entered, Token.Scan.parse_of_whole run whole, yields.2⟩
  | error k r =>
    rw [run] at yields ends
    cases k with
    | stuck => exact yields.elim
    | spent => exact ends.elim

end

theorem Style.ample_sound : Style.ample.Sound := by
  intro p e demanded
  simp only [Place.demands, Style.ample, decide_eq_true_eq] at demanded ⊢
  exact Nat.lt_of_lt_of_le demanded p.least_le

/-- **A program is read back as it was written.**  Where the tokens of a text are those of a program that is written with
parentheses around each operand that is no atom, reading reports no error and makes the program again, up to lines. -/
theorem program_reads_back {tree : Node} (h : isProgram tree = true) {s : Token.Scan} (whole : ∀ f, s.stop ≠ .fault f)
    (written : s.tokens.map Token.lexeme = program .ample tree) :
    s.parse.errors = [] ∧ s.parse.fault = none ∧
      ∃ fs, s.parse.functions = some fs ∧ (Node.program fs).unlined = tree.unlined := by
  cases tree with
  | program fs =>
    obtain ⟨fs', entered, parse, same⟩ := parse_yields Style.ample_sound h whole written
    rw [parse]
    refine ⟨rfl, rfl, fs', rfl, ?_⟩
    simp only [Node.unlined, Node.mapLine, Node.mapLines_eq_map] at same ⊢
    rw [same]
  | _ => cases h

/-- A text with every kind of statement. -/
def manifold : String :=
  "funk main(n as int, v as vector) <int> \x7b
     funk half(k as int) <int> \x7b return k / 2; \x7d
     total :: int;
     for (i = 0 to length(v)) begin total = total + v[i]; end
     if [[(total < n) && (!done)]] while [[true]] last :: int = half(total); else v[0] = -1;
     do begin print('again', [1, 2]); if [[n == 0]] return; end while [[n > 0]];
     return (n > 0) ? total : 0;
   \x7d"

def manifoldTree : Node :=
  .program [.function "main" (.several [.parameter "n" "int" 1, .parameter "v" "vector" 1]) "int" (.several [
    .function "half" (.several [.parameter "k" "int" 2]) "int"
      (.several [.ret (.binary (.identifier "k" 2) "/" (.number 2 2) 2) 2]) 2,
    .declaration "total" "int" 3,
    .forLoop "i" (.number 0 4) (.call "length" [.identifier "v" 4] 4)
      (.several [.assignment (.text "total")
        (.binary (.identifier "total" 4) "+" (.element "v" (.identifier "i" 4) 4) 4) 4]) 4,
    .branch
      (.binary (.binary (.identifier "total" 5) "<" (.identifier "n" 5) 5) "&&" (.unary "!" (.identifier "done" 5) 5) 5)
      (.whileLoop (.boolean "true" 5) (.several [.declaration "last" "int" 5,
        .assignment (.text "last") (.call "half" [.identifier "total" 5] 5) 5]) 5)
      (.assignment (.element "v" (.number 0 5) 5) (.unary "-" (.number 1 5) 5) 5) 5,
    .doLoop
      (.block [.call "print" [.string "again" 6, .array [.number 1 6, .number 2 6] 6] 6,
        .branch (.binary (.identifier "n" 6) "==" (.number 0 6) 6) (.ret .nothing 6) .nothing 6] 6)
      (.binary (.identifier "n" 6) ">" (.number 0 6) 6) 6,
    .ret (.ternary (.binary (.identifier "n" 7) ">" (.number 0 7) 7) (.identifier "total" 7) (.number 0 7) 7) 7]) 1]

theorem manifold_reads_back : (Token.lex manifold.toList 1).parse.errors = [] ∧
    (Token.lex manifold.toList 1).parse.fault = none ∧
      ∃ fs, (Token.lex manifold.toList 1).parse.functions = some fs ∧ (Node.program fs).unlined = manifoldTree.unlined := by
  have scanned : (Token.lex manifold.toList 1).stop = .finished ∧
      (Token.lex manifold.toList 1).tokens.map Token.lexeme = program .ample manifoldTree := by
    rw [manifold, String.toList_ofList]
    decide +kernel
  refine program_reads_back (by decide +kernel) ?_ scanned.2
  simp [scanned.1]

end Writing
end TesLang
