import TesLang.Proofs.Generation.Reached
import TesLang.Proofs.WellFormed.Text
import TesLang.Session
/-!
# Labels in writing

A label is written as a stem and a number.  No stem ends in a digit, so two labels that are written alike are the same
(`Label.text_inj`), and since no number is used twice, no two lines define the same label.  What is a label and what is a
jump can be seen in the text of a line alone (`isDefinition`, `jumpTarget?`), whatever the names of functions and variables
are: the other lines are several words of which the first is no jump, or a single word without a colon.
-/
namespace TesLang

namespace Code

/-- Whether a line of text defines a label: it is a single word that ends in a colon. -/
def isDefinition (t : List Char) : Bool := !t.contains ' ' && t.getLast? == some ':'

/-- The label that a line of text jumps to. -/
def jumpTarget? (t : List Char) : Option (List Char) :=
  match t.splitOn ' ' with
  | [w, l] => if w = "jmp".toList then some l else none
  | [w, _, l] => if w = "jz".toList ∨ w = "jnz".toList then some l else none
  | _ => none

/-- **Labels are unique and resolved**: no two lines define the same label, and one line defines the label of each jump. -/
structure LabelsResolved (texts : List (List Char)) : Prop where
  unique : (texts.filter isDefinition).Nodup
  defined : ∀ t ∈ texts, ∀ l, jumpTarget? t = some l → texts.count (l ++ [':']) = 1

/-! ### Labels that are written alike -/

theorem stems_end : ∀ stem ∈ stems, ∀ c ∈ stem.toList.reverse.head?, c.isDigit = false := by simp [stems]

theorem Label.stem_of_text {l : Label} (h : l.stem ∈ stems) :
    (l.text.toList.reverse.dropWhile Char.isDigit).reverse = l.stem.toList := by
  have digits : ∀ c ∈ (toString l.index).toList.reverse, c.isDigit = true := by
    intro c hc
    rw [Nat.toString_eq_ofList_toDigits, String.toList_ofList, List.mem_reverse] at hc
    exact Nat.isDigit_of_mem_toDigits (by decide) (by decide) hc
  have stop : l.stem.toList.reverse.dropWhile Char.isDigit = l.stem.toList.reverse := by
    cases hs : l.stem.toList.reverse with
    | nil => rfl
    | cons c cs =>
      have := stems_end l.stem h c (by rw [hs]; rfl)
      rw [List.dropWhile_cons_of_neg (by simp [this])]
  rw [Label.text, String.toList_append, List.reverse_append, List.dropWhile_append_of_pos digits, stop, List.reverse_reverse]

/-- **Labels that are written alike are the same.** -/
theorem Label.text_inj {l m : Label} (hl : l.stem ∈ stems) (hm : m.stem ∈ stems) (h : l.text = m.text) : l = m := by
  have stem : l.stem = m.stem := by
    rw [← String.toList_inj, ← Label.stem_of_text hl, ← Label.stem_of_text hm, h]
  obtain ⟨stem', i⟩ := l
  obtain ⟨_, j⟩ := m
  obtain rfl : stem' = _ := stem
  have index : toString i = toString j := by
    simpa [Label.text, ← String.toList_inj] using h
  have digits := congrArg (fun t : String => Nat.ofDigitChars 10 t.toList 0) index
  rw [show i = j by simpa [Nat.toString_eq_ofList_toDigits] using digits]

/-! ### Lines in writing -/

namespace Line

/-- The line is a generated one, and its label starts with one of the stems. -/
def Stemmed : Line → Prop
  | label l | jump l | jumpIfZero _ l | jumpUnlessZero _ l => l.stem ∈ stems
  | raw _ => False
  | _ => True

variable {l : Line} {name : String} {as : List String}

theorem words_of_parts (h : l.parts = some (name, as)) :
    l.text.toList.splitOn ' ' = name.toList :: (", ".intercalate as).toList.splitOn ' ' := by
  rw [text_of_parts h, ← List.splitOn_append_cons_self_of_not_mem (name_of_parts h).1.1]
  simp

end Line

theorem isDefinition_text {l : Line} (h : l.Stemmed) : isDefinition l.text.toList = l.label?.isSome := by
  have several {a b : String} (rest : l.text = a ++ " " ++ b) : isDefinition l.text.toList = false := by
    rw [isDefinition, rest]
    simp
  cases l with
  | label l =>
    have solid : ' ' ∉ (l.text ++ ":").toList := ((Solid.label h).append (by decide)).1
    rw [Line.text, isDefinition, Bool.eq_iff_iff]
    simpa [Line.label?] using solid
  | proc f => exact several (a := "proc") (b := f) rfl
  | comment s => exact several (a := "#") (b := s) rfl
  | ret | blank => decide
  | raw _ => exact h.elim
  | _ => exact several (Line.text_of_parts rfl)

theorem jumpTarget?_eq_none {t w : List Char} {ws : List (List Char)} (h : t.splitOn ' ' = w :: ws)
    (other : w ∉ ["jmp".toList, "jz".toList, "jnz".toList]) : jumpTarget? t = none := by
  simp only [List.mem_cons, List.not_mem_nil, or_false, not_or] at other
  rw [jumpTarget?, h]
  split
  · next he => rw [if_neg (by cases he; exact other.1)]
  · next he => rw [if_neg (by cases he; exact not_or.2 other.2)]
  · rfl

theorem jumpTarget?_text {l : Line} (h : l.Stemmed) : jumpTarget? l.text.toList = l.target?.map (·.text.toList) := by
  have test (r : Option Reg) {m : Label} (hm : m.stem ∈ stems) :
      (", ".intercalate [Line.operand r, m.text]).toList.splitOn ' ' = [(Line.operand r ++ ",").toList, m.text.toList] := by
    have comma : ' ' ∉ (Line.operand r ++ ",").toList := ((Solid.operand r).append (by decide)).1
    rw [← List.splitOn_eq_singleton (Solid.label hm).1, ← List.splitOn_append_cons_self_of_not_mem comma]
    simp
  have first {w b : String} (solid : Solid w) (other : w.toList ∉ ["jmp".toList, "jz".toList, "jnz".toList])
      (rest : l.text = w ++ " " ++ b) : jumpTarget? l.text.toList = none := by
    have words : l.text.toList.splitOn ' ' = w.toList :: b.toList.splitOn ' ' := by
      rw [rest, ← List.splitOn_append_cons_self_of_not_mem solid.1]
      simp
    exact jumpTarget?_eq_none words other
  have other {name : String} {as : List String} (hp : l.parts = some (name, as))
      (hn : name.toList ∉ ["jmp".toList, "jz".toList, "jnz".toList]) : jumpTarget? l.text.toList = none :=
    jumpTarget?_eq_none (Line.words_of_parts hp) hn
  cases l with
  | jump m =>
    rw [jumpTarget?, Line.words_of_parts rfl, String.intercalate_singleton, List.splitOn_eq_singleton (Solid.label h).1]
    rfl
  | jumpIfZero r m | jumpUnlessZero r m =>
    rw [jumpTarget?, Line.words_of_parts rfl, test r h]
    rfl
  | label m =>
    have solid : ' ' ∉ (m.text ++ ":").toList := ((Solid.label h).append (by decide)).1
    rw [Line.text, jumpTarget?, List.splitOn_eq_singleton solid]
    rfl
  | proc f => exact first (w := "proc") (b := f) (by decide) (by decide) rfl
  | comment s => exact first (w := "#") (b := s) (by decide) (by decide) rfl
  | ret | blank => decide
  | raw _ => exact h.elim
  | binary o _ _ _ => exact other rfl (by cases o <;> decide)
  | _ => exact other rfl (by decide)

/-- **Lines whose labels have numbers of their own**, and define what they jump to, are resolved in writing. -/
theorem labelsResolved_text {ls : List Line} (stemmed : ∀ l ∈ ls, l.Stemmed) (nodup : ((labelsIn ls).map Label.index).Nodup)
    (targets : targetsIn ls ⊆ labelsIn ls) : LabelsResolved (ls.map (·.text.toList)) := by
  have stem : ∀ m ∈ labelsIn ls, m.stem ∈ stems := by
    intro m hm
    obtain ⟨l, hl, label⟩ := List.mem_filterMap.1 hm
    have := stemmed l hl
    cases l with
    | label l => cases label; exact this
    | _ => cases label
  have definitions : (ls.map (·.text.toList)).filter isDefinition = (labelsIn ls).map fun m => m.text.toList ++ [':'] := by
    clear nodup targets stem
    induction ls with
    | nil => rfl
    | cons l ls ih =>
      obtain ⟨hl, hls⟩ := List.forall_mem_cons.1 stemmed
      rw [List.map_cons, List.filter_cons, isDefinition_text hl, ih hls, labelsIn_cons]
      cases l with
      | label m => simp [Line.label?, Line.text]
      | _ => rfl
  have unique : ((ls.map (·.text.toList)).filter isDefinition).Nodup := by
    rw [definitions]
    refine List.Nodup.map_on (fun l hl m hm same => Label.text_inj (stem l hl) (stem m hm) ?_) nodup.of_map
    rw [← String.toList_inj]
    exact List.append_cancel_right same
  refine ⟨unique, fun t ht name jumps => ?_⟩
  obtain ⟨l, hl, rfl⟩ := List.mem_map.1 ht
  rw [jumpTarget?_text (stemmed l hl)] at jumps
  obtain ⟨m, hm, rfl⟩ := Option.map_eq_some_iff.1 jumps
  have defined : m ∈ labelsIn ls := targets (List.mem_filterMap.2 ⟨l, hl, hm⟩)
  have among : m.text.toList ++ [':'] ∈ (ls.map (·.text.toList)).filter isDefinition := by
    rw [definitions]
    exact List.mem_map.2 ⟨m, defined, rfl⟩
  rw [← List.count_filter (List.mem_filter.1 among).2]
  exact List.count_eq_one_of_mem unique among

/-! ### Generated lines -/

def Generator.Stemmed (s : Generator) : Prop := ∀ l ∈ s.code.toList, l.Stemmed

namespace Gen

def Stemming {α : Type} (m : Gen α) : Prop := Steady (fun s s' : Generator => s.Stemmed → s'.Stemmed) m

namespace Stemming

variable {α β : Type}

theorem pure (a : α) : Stemming (pure a) := Steady.pure (fun _ h => h) a

theorem throw (f : Fault) : Stemming (throw f : Gen α) := Steady.throw f

theorem bind {m : Gen α} {f : α → Gen β} (first : Stemming m) (rest : ∀ a, Stemming (f a)) : Stemming (m >>= f) :=
  Steady.bind (R := fun s s' : Generator => s.Stemmed → s'.Stemmed) (fun h h' hs => h' (h hs)) first rest

theorem discard {m : Gen α} (h : Stemming m) : Stemming (discard m) := by
  intro s u s' hr
  obtain ⟨a, hr⟩ := ran_discard.1 hr
  exact h s a s' hr

theorem emit {l : Line} (h : l.Stemmed) : Stemming (emit l) := by
  intro s u s' hr hs m hm
  obtain rfl := ran_emit.1 hr
  rw [Generator.add_code, Array.toList_push, List.mem_append, List.mem_singleton] at hm
  rcases hm with hm | rfl
  · exact hs m hm
  · exact h

theorem modify {f : Generator → Generator} (code : ∀ s, (f s).code = s.code) : Stemming (modify f : Gen Unit) := by
  intro s u s' hr hs
  obtain rfl := ran_modify.1 hr
  unfold Generator.Stemmed
  rw [code]
  exact hs

theorem get {f : Generator → Gen α} (h : ∀ s, Stemming (f s)) : Stemming (get >>= f) := by
  intro s a s' run
  obtain ⟨_, _, hg, run⟩ := ran_bind.1 run
  obtain ⟨rfl, rfl⟩ := ran_get.1 hg
  exact h _ _ _ _ run

theorem allocate : Stemming allocate := by
  intro s r s' hr hs
  obtain ⟨-, rfl⟩ := ran_allocate.1 hr
  exact hs

theorem label {stem : String} {f : Label → Gen α} (h : ∀ i, Stemming (f ⟨stem, i⟩)) : Stemming (freshLabel stem >>= f) := by
  intro s a s' run hs
  exact h _ _ _ _ (ran_freshLabel_bind.1 run) hs

end Stemming

theorem shaped_stemming : Settling fun {_} m => Stemming m where
  pure := .pure
  throw := .throw
  bind := .bind
  discard := .discard
  say {l} inner defines jumps := by
    refine .emit ?_
    cases l with
    | label | jump | jumpIfZero | jumpUnlessZero => simp [Line.label?, Line.target?] at defines jumps
    | raw =>
      cases inner with
      | instruction h => cases h
    | _ => trivial
  allocate := .allocate
  warn _ := .modify fun _ => rfl
  ask _ h := .get h
  settle _ _ := .modify fun _ => rfl
  procedure := procedure_of_steps .pure .throw .bind (fun _ _ => .modify fun _ => rfl) (fun {l} h =>
    .emit (by cases l <;> trivial)) .get fun _ => .modify fun _ => rfl
  branching ht hy hn :=
    .bind ht fun _ => .label fun _ => .label fun _ => .bind (.emit (by simp [Line.Stemmed, stems])) fun _ => .bind hy fun _ =>
      .bind (.emit (by simp [Line.Stemmed, stems])) fun _ => .bind (.emit (by simp [Line.Stemmed, stems])) fun _ =>
      .bind hn fun _ => .bind (.emit (by simp [Line.Stemmed, stems])) fun _ => .pure _
  repeating ht hb :=
    .label fun _ => .label fun _ => .bind (.emit (by simp [Line.Stemmed, stems])) fun _ => .bind ht fun _ =>
      .bind (.emit (by simp [Line.Stemmed, stems])) fun _ => .bind hb fun _ =>
      .bind (.emit (by simp [Line.Stemmed, stems])) fun _ => .bind (.emit (by simp [Line.Stemmed, stems])) fun _ => .pure _
  retrying hb ht :=
    .label fun _ => .bind (.emit (by simp [Line.Stemmed, stems])) fun _ => .bind hb fun _ => .bind ht fun _ =>
      .bind (.emit (by simp [Line.Stemmed, stems])) fun _ => .pure _
  counting _ _ _ hb :=
    .label fun _ => .label fun _ => .bind (.emit (by simp [Line.Stemmed, stems])) fun _ => .bind .allocate fun _ =>
      .bind (.emit trivial) fun _ => .bind (.emit (by simp [Line.Stemmed, stems])) fun _ => .bind hb fun _ =>
      .bind .allocate fun _ => .bind (.emit trivial) fun _ => .bind (.emit trivial) fun _ =>
      .bind (.emit (by simp [Line.Stemmed, stems])) fun _ => .bind (.emit (by simp [Line.Stemmed, stems])) fun _ => .pure _
  choosing ht hy hn :=
    .bind ht fun _ => .label fun _ => .label fun _ => .bind .allocate fun _ =>
      .bind (.emit (by simp [Line.Stemmed, stems])) fun _ => .bind hy fun _ => .bind (.emit trivial) fun _ =>
      .bind (.emit (by simp [Line.Stemmed, stems])) fun _ => .bind (.emit (by simp [Line.Stemmed, stems])) fun _ =>
      .bind hn fun _ => .bind (.emit trivial) fun _ => .bind (.emit (by simp [Line.Stemmed, stems])) fun _ => .pure _

theorem labelsResolved_of_ran {tree : Node} {r : Option Reg} {g : Generator} (run : Ran (visitTree tree) {} r g) :
    LabelsResolved (g.code.toList.map (·.text.toList)) := by
  have stemmed : g.Stemmed :=
    shaped_stemming.has (.visitTree tree) _ _ _ run (by intro l hl; cases hl)
  obtain ⟨new, code, numbered, targets⟩ := shaped_labelling.has (.visitTree tree) _ _ _ run
  rw [show ({} : Generator).code.toList = [] from rfl, List.nil_append] at code
  rw [← code] at numbered targets
  exact labelsResolved_text stemmed numbered.nodup targets

end Gen
end Code

namespace Session

open Code

/-- **Labels are unique and resolved.**  Take any tree that has code.  Among the lines of the code no two define the same
label, and the label of every jump is defined by exactly one line; this is so in writing.  Unless a name in the tree holds a
line end, these lines are what the text of the code is cut into at its line ends. -/
theorem labels_resolved {tree : Node} {s : Session} {code : String} (generated : (generate tree s).1 = .ok code) :
    ∃ r g, Ran (Gen.visitTree tree) {} r g ∧ code = render g.code.toList ∧ LabelsResolved (g.code.toList.map (·.text.toList)) ∧
      ((∀ l ∈ g.code.toList, '\n' ∉ l.text.toList) → LabelsResolved (code.toList.splitOn '\n')) := by
  unfold generate at generated
  cases run : (Gen.visitTree tree).run {} with
  | error f g =>
    rw [run] at generated
    cases generated
  | ok r g =>
    rw [run] at generated
    obtain rfl : render g.code.toList = code := Except.ok.inj generated
    have resolved := Gen.labelsResolved_of_ran run
    refine ⟨r, g, run, rfl, resolved, fun cut => ?_⟩
    by_cases ne : g.code.toList = []
    · rw [ne]
      exact ⟨by decide, by simp [render, jumpTarget?]⟩
    · rw [splitOn_render ne cut]
      exact resolved

/-- A program with jumps of all kinds, one inside another, and a function in the middle of them. -/
def winding : Node :=
  .program [.function "wind" (.several [.parameter "n" "int" 1]) "null" (.several
    [.whileLoop (.identifier "n" 2) (.branch (.number 1 2) (.ret .nothing 2) .nothing 2) 2,
     .forLoop "i" (.number 0 3) (.ternary (.identifier "n" 3) (.number 1 3) (.identifier "n" 3) 3) (.several
       [.function "unwind" (.several []) "int" (.several [.doLoop (.block [] 4) (.boolean "false" 4) 4]) 4]) 3]) 1]

theorem winding_resolved : ∃ code r g, (generate winding {}).1 = .ok code ∧ Ran (Gen.visitTree winding) {} r g ∧
    (labelsIn g.code.toList).length = 9 ∧ LabelsResolved (code.toList.splitOn '\n') := by
  have counted : (labelsIn (Gen.left (Gen.visitTree winding) {}).code.toList).length = 9 ∧
      ∀ l ∈ (Gen.left (Gen.visitTree winding) {}).code.toList, '\n' ∉ l.text.toList := by
    decide +kernel
  have generated : ∃ code, (generate winding {}).1 = .ok code := by
    have ends : (generate winding {}).1.isOk = true := by decide +kernel
    cases answer : (generate winding {}).1 with
    | ok code => exact ⟨code, rfl⟩
    | error f =>
      rw [answer] at ends
      cases ends
  obtain ⟨code, generated⟩ := generated
  obtain ⟨r, g, run, -, -, cut⟩ := labels_resolved generated
  rw [Gen.left_of_ran run] at counted
  exact ⟨code, r, g, generated, run, counted.1, cut counted.2⟩

end Session
end TesLang
