import TesLang.Code.Line
import TesLang.Proofs.Parsing.Spelling
/-!
# Well-formed lines

The form of code is said of its text alone: a line is empty, a comment, the head of a procedure, a label, a return, or an
instruction with the operands that it takes (`isLine`).  An operand has the form of a register, of a number, of a label or
of the name of a function, and `None` is none of these.

A generated line is spelled right (`Line.Spelled`), whether or not its operands are there.  Then its text is well formed
if and only if nothing is missing in it (`isLine_text`).
-/
namespace TesLang.Code

/-! ### The form of operands -/

def isNumeral (t : List Char) : Bool := !t.isEmpty && t.all Char.isDigit

def isRegister : List Char → Bool
  | 'r' :: n => isNumeral n
  | _ => false

def isLiteral : List Char → Bool
  | '-' :: n => isNumeral n
  | n => isNumeral n

/-- What labels start with. -/
def stems : List String :=
  ["else", "endif", "while_start", "while_end", "do_start", "for_start", "for_end", "ternary_false", "ternary_end"]

def isLabel (t : List Char) : Bool := stems.any fun stem => stem.toList.isPrefixOf t && isNumeral (t.drop stem.toList.length)

/-- What an instruction can take in one place. -/
inductive Operand where
  | register | value | label | function

def Operand.admits : Operand → List Char → Bool
  | register, t => isRegister t
  | value, t => isRegister t || isLiteral t
  | label, t => isLabel t
  | function, t => isWord (String.ofList t) && t != "None".toList

/-! ### The form of lines -/

/-- The operands that an instruction takes, which has `n`.  A call takes a function and registers, one for the result and
as many more as it has. -/
def signature (n : Nat) : String → Option (List Operand)
  | "mov" => some [.register, .value]
  | "add" | "sub" | "mul" | "div" | "cmp<" | "cmp>" | "cmp<=" | "cmp>=" | "cmp==" | "cmp!=" =>
    some [.register, .register, .register]
  | "jz" | "jnz" => some [.register, .label]
  | "jmp" => some [.label]
  | "ld" | "st" => some [.register, .register]
  | "call" => some (.function :: .register :: List.replicate (n - 2) .register)
  | _ => none

/-- Whether there are as many operands as are taken, and each has the form that is. -/
def fits : List Operand → List (List Char) → Bool
  | [], [] => true
  | k :: ks, a :: as => k.admits a && fits ks as
  | _, _ => false

/-- Takes the commas off some words, of which each but the last has to end in one. -/
def separated : List (List Char) → Option (List (List Char))
  | [] => some []
  | [w] => some [w]
  | w :: w' :: ws => if w.getLast? = some ',' then (separated (w' :: ws)).map (w.dropLast :: ·) else none

def isInstruction (name : String) (ws : List (List Char)) : Bool :=
  (separated ws).any fun as => (signature as.length name).any (fits · as)

/-- **Whether a text is a line of well-formed code.** -/
def isLine (t : List Char) : Bool :=
  match t.splitOn ' ' with
  | [] => false
  | [w] => w == [] || w == "ret".toList || (w.getLast? == some ':' && isLabel w.dropLast)
  | w :: ws =>
    if w = "#".toList then true
    else if w = "proc".toList then ws.length == 1 && ws.all (isWord ∘ String.ofList)
    else isInstruction (String.ofList w) ws

/-! ### Texts that hold no blank -/

def Solid (s : String) : Prop := ' ' ∉ s.toList ∧ '\n' ∉ s.toList
  deriving Decidable

namespace Solid

theorem append {a b : String} (ha : Solid a) (hb : Solid b) : Solid (a ++ b) := by
  unfold Solid
  rw [String.toList_append, List.mem_append, List.mem_append]
  exact ⟨not_or.2 ⟨ha.1, hb.1⟩, not_or.2 ⟨ha.2, hb.2⟩⟩

theorem of_all {p : Char → Bool} {s : String} (h : s.toList.all p = true) (blank : p ' ' = false) (newline : p '\n' = false) :
    Solid s := by
  rw [List.all_eq_true] at h
  exact ⟨fun hc => by simp [h _ hc] at blank, fun hc => by simp [h _ hc] at newline⟩

theorem word {w : String} (h : isWord w = true) : Solid w := by
  unfold isWord at h
  refine of_all (p := fun c => Token.isWordStart c || Token.isWordPart c) ?_ (by decide) (by decide)
  split at h
  · cases h
  · next hw =>
    simp only [Bool.and_eq_true, List.all_eq_true] at h
    rw [hw, List.all_cons, h.1, Bool.true_or, Bool.true_and, List.all_eq_true]
    intro c hc
    rw [h.2 c hc, Bool.or_true]

theorem nat (n : Nat) : Solid (toString n) := by
  refine of_all (p := Char.isDigit) ?_ (by decide) (by decide)
  rw [Nat.toString_eq_ofList_toDigits, String.toList_ofList, List.all_eq_true]
  exact fun c hc => Nat.isDigit_of_mem_toDigits (by decide) (by decide) hc

theorem int : ∀ i : Int, Solid (toString i)
  | .ofNat n => nat n
  | .negSucc n => append (a := "-") (by decide) (nat (n + 1))

theorem reg (r : Reg) : Solid r.text := append (a := "r") (by decide) (int r.index)

theorem label {l : Label} (h : l.stem ∈ stems) : Solid l.text := by
  have hs : ∀ stem ∈ stems, Solid stem := by decide
  exact (hs _ h).append (nat l.index)

theorem source : ∀ s : Source, Solid s.text
  | .reg r => reg r
  | .literal n => int n
  | .missing => by decide

theorem operand (r : Option Reg) : Solid (Line.operand r) := source _

end Solid

/-! ### Operands in writing -/

/-- The register has a number that is written without a sign. -/
def Reg.Unsigned (r : Reg) : Prop := 0 ≤ r.index

theorem isNumeral_nat (n : Nat) : isNumeral (toString n).toList = true := by
  rw [Nat.toString_eq_ofList_toDigits, String.toList_ofList, isNumeral, Bool.and_eq_true, List.all_eq_true]
  refine ⟨?_, fun c hc => Nat.isDigit_of_mem_toDigits (by decide) (by decide) hc⟩
  rw [Bool.not_eq_true', List.isEmpty_eq_false_iff]
  exact Nat.toDigits_ne_nil

theorem admits_reg {r : Reg} (h : r.Unsigned) : Operand.register.admits r.text.toList = true := by
  obtain ⟨n, hn⟩ := Int.eq_ofNat_of_zero_le h
  rw [Reg.text, hn, String.toList_append]
  exact isNumeral_nat n

theorem admits_operand : ∀ {a : Option Reg}, (∀ r ∈ a, r.Unsigned) →
    Operand.register.admits (Line.operand a).toList = a.isSome
  | none, _ => by decide
  | some r, h => admits_reg (h r rfl)

theorem isLiteral_int : ∀ i : Int, isLiteral (toString i).toList = true
  | .negSucc n => by
    show isLiteral ("-" ++ toString (n + 1)).toList = true
    rw [String.toList_append]
    exact isNumeral_nat (n + 1)
  | .ofNat n => by
    have numeral : isNumeral (toString n).toList = true := isNumeral_nat n
    show isLiteral (toString n).toList = true
    unfold isLiteral
    split
    · next hn =>
      rw [hn] at numeral
      cases numeral
    · exact numeral

theorem admits_source {s : Source} (h : ∀ r, s = .reg r → r.Unsigned) :
    Operand.value.admits s.text.toList = decide (s ≠ .missing) := by
  cases s with
  | reg r =>
    have register : isRegister r.text.toList = true := admits_reg (h r rfl)
    rw [Operand.admits, Source.text, register]
    rfl
  | literal n =>
    rw [Operand.admits, Source.text, isLiteral_int, Bool.or_true]
    rfl
  | missing => decide

theorem admits_label {l : Label} (h : l.stem ∈ stems) : Operand.label.admits l.text.toList = true := by
  rw [Operand.admits, isLabel, List.any_eq_true]
  refine ⟨l.stem, h, ?_⟩
  rw [Label.text, String.toList_append, List.drop_left, isNumeral_nat, Bool.and_true, List.isPrefixOf_iff_prefix]
  exact List.prefix_append _ _

theorem admits_function {f : String} (h : isWord f = true) : Operand.function.admits f.toList = decide (f ≠ "None") := by
  rw [Operand.admits, String.ofList_toList, h, Bool.true_and, Bool.eq_iff_iff, bne_iff_ne, decide_eq_true_iff, ne_eq, ne_eq,
    String.toList_inj]

/-! ### Lines in writing -/

theorem separated_words : ∀ {as : List String}, (∀ a ∈ as, Solid a) → as ≠ [] →
    separated ((", ".intercalate as).toList.splitOn ' ') = some (as.map String.toList)
  | [], _, h => absurd rfl h
  | [a], h, _ => by
    rw [String.intercalate_singleton, List.splitOn_eq_singleton (h a List.mem_cons_self).1]
    rfl
  | a :: b :: as, h, _ => by
    have ha : ' ' ∉ a.toList ++ [','] := by
      simpa using (h a List.mem_cons_self).1
    have rest := separated_words (fun c hc => h c (List.mem_cons_of_mem a hc)) (List.cons_ne_nil b as)
    have words : (", ".intercalate (a :: b :: as)).toList.splitOn ' '
        = (a.toList ++ [',']) :: (", ".intercalate (b :: as)).toList.splitOn ' ' := by
      rw [String.intercalate_cons_cons, ← List.splitOn_append_cons_self_of_not_mem ha]
      simp
    rw [words]
    cases hw : (", ".intercalate (b :: as)).toList.splitOn ' ' with
    | nil => exact absurd hw (List.splitOn_ne_nil _ _)
    | cons w ws =>
      rw [hw] at rest
      rw [separated, if_pos List.getLast?_concat, rest, List.dropLast_concat]
      rfl

theorem isLine_instruction {name : String} {as : List String} (hn : Solid name) (known : name ≠ "#" ∧ name ≠ "proc")
    (solid : ∀ a ∈ as, Solid a) (ne : as ≠ []) :
    isLine (name ++ " " ++ ", ".intercalate as).toList
      = (signature as.length name).any (fits · (as.map String.toList)) := by
  have words : (name ++ " " ++ ", ".intercalate as).toList.splitOn ' '
      = name.toList :: (", ".intercalate as).toList.splitOn ' ' := by
    rw [← List.splitOn_append_cons_self_of_not_mem hn.1]
    simp
  rw [isLine, words]
  cases hw : (", ".intercalate as).toList.splitOn ' ' with
  | nil => exact absurd hw (List.splitOn_ne_nil _ _)
  | cons w ws =>
    dsimp only
    rw [if_neg (mt String.toList_inj.1 known.1), if_neg (mt String.toList_inj.1 known.2), isInstruction, ← hw,
      separated_words solid ne, String.ofList_toList, Option.any_some, List.length_map]

namespace Line

/-- Whether nothing is missing in a line: all operands are there, the machine has the operation, and no function is named
like a missing operand. -/
def complete : Line → Bool
  | mov _ source => source ≠ .missing
  | binary o _ left right => o ≠ .unknown && left.isSome && right.isSome
  | call f _ _ => f ≠ "None"
  | output r | memory _ r | store r _ | jumpIfZero r _ | jumpUnlessZero r _ => r.isSome
  | _ => true

/-- The line is spelled right: its registers are unsigned, its labels are generated ones, and its names are words. -/
def Spelled : Line → Prop
  | proc f => isWord f = true
  | comment s => '\n' ∉ s.toList
  | label l | jump l => l.stem ∈ stems
  | mov target source => target.Unsigned ∧ ∀ r, source = .reg r → r.Unsigned
  | binary _ target left right => target.Unsigned ∧ (∀ r ∈ left, r.Unsigned) ∧ ∀ r ∈ right, r.Unsigned
  | call f target args => isWord f = true ∧ target.Unsigned ∧ ∀ r ∈ args, r.Unsigned
  | input target => target.Unsigned
  | output source => ∀ r ∈ source, r.Unsigned
  | memory r other | store other r => r.Unsigned ∧ ∀ r ∈ other, r.Unsigned
  | load target base => target.Unsigned ∧ base.Unsigned
  | jumpIfZero test l | jumpUnlessZero test l => (∀ r ∈ test, r.Unsigned) ∧ l.stem ∈ stems
  | ret | blank => True
  | raw _ => False

end Line

theorem intercalate_regs : ∀ (rs : List Reg) (a : String),
    ", ".intercalate (a :: rs.map Reg.text) = a ++ String.join (rs.map fun r => ", " ++ r.text)
  | [], a => by simp
  | r :: rs, a => by
    rw [List.map_cons, List.map_cons, String.intercalate_cons_cons, intercalate_regs rs r.text, String.join_cons]
    simp only [String.append_assoc]

theorem fits_regs : ∀ {rs : List Reg}, (∀ r ∈ rs, r.Unsigned) →
    fits (List.replicate rs.length .register) ((rs.map Reg.text).map String.toList) = true
  | [], _ => rfl
  | r :: rs, h => by
    have rest := fits_regs fun q hq => h q (List.mem_cons_of_mem r hq)
    simp only [List.length_cons, List.replicate_succ, List.map_cons, fits, admits_reg (h r List.mem_cons_self), rest,
      Bool.and_self]

namespace Line

/-- The name and the operands of an instruction. -/
def parts : Line → Option (String × List String)
  | mov target source => some ("mov", [target.text, source.text])
  | binary o target left right => some (o.text, [target.text, operand left, operand right])
  | call f target args => some ("call", f :: target.text :: args.map Reg.text)
  | input target => some ("call", ["iget", target.text])
  | output source => some ("call", ["iput", operand source])
  | memory target size => some ("call", ["mem", target.text, operand size])
  | load target base => some ("ld", [target.text, base.text])
  | store source base => some ("st", [operand source, base.text])
  | jumpIfZero test l => some ("jz", [operand test, l.text])
  | jumpUnlessZero test l => some ("jnz", [operand test, l.text])
  | jump l => some ("jmp", [l.text])
  | _ => none

variable {l : Line} {name : String} {as : List String}

theorem text_of_parts (h : l.parts = some (name, as)) : l.text = name ++ " " ++ ", ".intercalate as := by
  cases l with
  | call f target args =>
    cases h
    rw [String.intercalate_cons_cons, intercalate_regs, text]
    simp only [← String.append_assoc]
    rfl
  | binary o target left right =>
    cases h
    simp only [text, String.intercalate_cons_cons, String.intercalate_singleton, ← String.append_assoc]
  | proc _ | comment _ | label _ | ret | blank | raw _ => cases h
  | _ =>
    cases h
    simp only [text, String.intercalate_cons_cons, String.intercalate_singleton, ← String.append_assoc]
    rfl

theorem solid_of_parts (hl : l.Spelled) (h : l.parts = some (name, as)) : ∀ a ∈ as, Solid a := by
  cases l with
  | call f target args =>
    cases h
    simpa [Solid.reg] using Solid.word hl.1
  | jumpIfZero _ _ | jumpUnlessZero _ _ =>
    cases h
    simp [Solid.operand, Solid.label hl.2]
  | jump _ =>
    cases h
    simpa using Solid.label hl
  | proc _ | comment _ | label _ | ret | blank | raw _ => cases h
  | _ =>
    cases h
    simp [Solid.reg, Solid.operand, Solid.source, show Solid "iget" by decide, show Solid "iput" by decide,
      show Solid "mem" by decide]

theorem name_of_parts (h : l.parts = some (name, as)) : Solid name ∧ name ≠ "#" ∧ name ≠ "proc" ∧ as ≠ [] := by
  cases l with
  | binary o _ _ _ =>
    cases h
    refine ⟨?_, ?_, ?_, List.cons_ne_nil _ _⟩ <;> cases o <;> decide
  | proc _ | comment _ | label _ | ret | blank | raw _ => cases h
  | _ =>
    cases h
    exact ⟨by decide, by decide, by decide, List.cons_ne_nil _ _⟩

theorem isLine_of_parts (hl : l.Spelled) (h : l.parts = some (name, as)) :
    isLine l.text.toList = (signature as.length name).any (fits · (as.map String.toList)) := by
  obtain ⟨solid, comment, proc, ne⟩ := name_of_parts h
  rw [text_of_parts h, isLine_instruction solid ⟨comment, proc⟩ (solid_of_parts hl h) ne]

end Line

theorem signature_operation {o : Operation} (known : o ≠ .unknown) (n : Nat) :
    signature n o.text = some [.register, .register, .register] := by
  cases o with
  | unknown => exact absurd rfl known
  | _ => rw [Operation.text, signature]

/-- **A line that is spelled right is well formed if and only if nothing is missing in it.** -/
theorem isLine_text {l : Line} (h : l.Spelled) : isLine l.text.toList = l.complete := by
  cases l with
  | proc f =>
    have words : ("proc " ++ f).toList.splitOn ' ' = ["proc".toList, f.toList] := by
      rw [← List.splitOn_eq_singleton (Solid.word h).1, ← List.splitOn_append_cons_self_of_not_mem (by decide)]
      simp
    rw [show (Line.proc f).text = "proc " ++ f from rfl, isLine, words]
    simp only [Line.Spelled] at h
    simp [Line.complete, h]
  | comment s =>
    have words : ("# " ++ s).toList.splitOn ' ' = "#".toList :: s.toList.splitOn ' ' := by
      rw [← List.splitOn_append_cons_self_of_not_mem (by decide)]
      simp
    rw [show (Line.comment s).text = "# " ++ s from rfl, isLine, words]
    cases hw : s.toList.splitOn ' ' with
    | nil => exact absurd hw (List.splitOn_ne_nil _ _)
    | cons w ws => rfl
  | label l =>
    have hl : ' ' ∉ (l.text ++ ":").toList := ((Solid.label h).append (by decide)).1
    rw [show (Line.label l).text = l.text ++ ":" from rfl, isLine, List.splitOn_eq_singleton hl]
    have hl : isLabel l.text.toList = true := admits_label h
    simp [hl, Line.complete]
  | ret => decide
  | blank => decide
  | raw _ => exact h.elim
  | mov target source =>
    rw [Line.isLine_of_parts h rfl]
    simp [signature, fits, admits_reg h.1, admits_source h.2, Line.complete]
  | binary o target left right =>
    rw [Line.isLine_of_parts h rfl]
    obtain ⟨ht, hl, hr⟩ := h
    by_cases known : o = .unknown
    · simp [known, signature, Operation.text, fits, Line.complete]
    · simp [known, signature_operation known, fits, admits_reg ht, admits_operand hl, admits_operand hr, Line.complete]
  | call f target args =>
    rw [Line.isLine_of_parts h rfl]
    obtain ⟨hf, ht, ha⟩ := h
    have fit := fits_regs ha
    rw [List.map_map] at fit
    simp [signature, fits, admits_function hf, admits_reg ht, fit, Line.complete]
  | input target =>
    have hf : Operand.function.admits ['i', 'g', 'e', 't'] = true := by decide
    rw [Line.isLine_of_parts h rfl]
    simp only [Line.Spelled] at h
    simp [signature, fits, hf, admits_reg h, Line.complete]
  | output source =>
    have hf : Operand.function.admits ['i', 'p', 'u', 't'] = true := by decide
    rw [Line.isLine_of_parts h rfl]
    simp only [Line.Spelled] at h
    simp [signature, fits, hf, admits_operand h, Line.complete]
  | memory target size =>
    have hf : Operand.function.admits ['m', 'e', 'm'] = true := by decide
    rw [Line.isLine_of_parts h rfl]
    simp [signature, fits, hf, admits_reg h.1, admits_operand h.2, Line.complete]
  | load target base =>
    rw [Line.isLine_of_parts h rfl]
    simp [signature, fits, admits_reg h.1, admits_reg h.2, Line.complete]
  | store source base =>
    rw [Line.isLine_of_parts h rfl]
    simp [signature, fits, admits_reg h.1, admits_operand h.2, Line.complete]
  | jumpIfZero test l | jumpUnlessZero test l =>
    rw [Line.isLine_of_parts h rfl]
    simp [signature, fits, admits_operand h.1, admits_label h.2, Line.complete]
  | jump l =>
    rw [Line.isLine_of_parts h rfl]
    simp only [Line.Spelled] at h
    simp [signature, fits, admits_label h, Line.complete]

/-! ### Code in writing -/

theorem newline_notMem_intercalate : ∀ {as : List String}, (∀ a ∈ as, '\n' ∉ a.toList) →
    '\n' ∉ (", ".intercalate as).toList
  | [], _ => by simp
  | [a], h => by simpa using h a List.mem_cons_self
  | a :: b :: as, h => by
    have ha := h a List.mem_cons_self
    have rest := newline_notMem_intercalate fun c hc => h c (List.mem_cons_of_mem a hc)
    rw [String.intercalate_cons_cons, String.toList_append, String.toList_append, List.mem_append, List.mem_append]
    exact not_or.2 ⟨not_or.2 ⟨ha, by decide⟩, rest⟩

theorem newline_notMem_text {l : Line} (h : l.Spelled) : '\n' ∉ l.text.toList := by
  cases hp : l.parts with
  | some p =>
    obtain ⟨solid, -⟩ := Line.name_of_parts hp
    have rest := newline_notMem_intercalate fun a ha => (Line.solid_of_parts h hp a ha).2
    rw [Line.text_of_parts hp, String.toList_append, String.toList_append, List.mem_append, List.mem_append]
    exact not_or.2 ⟨not_or.2 ⟨solid.2, by decide⟩, rest⟩
  | none =>
    cases l with
    | proc f => simpa [Line.text] using (Solid.word h).2
    | comment s => simpa [Line.text, Line.Spelled] using h
    | label l => exact ((Solid.label h).append (by decide)).2
    | ret => decide
    | blank => decide
    | raw _ => exact h.elim
    | _ => cases hp

theorem splitOn_render {ls : List Line} (ne : ls ≠ []) (h : ∀ l ∈ ls, '\n' ∉ l.text.toList) :
    (render ls).toList.splitOn '\n' = ls.map fun l => l.text.toList := by
  rw [render, String.toList_intercalate, List.map_map]
  refine List.splitOn_intercalate '\n' (fun t ht => ?_) (by simpa using ne)
  obtain ⟨l, hl, rfl⟩ := List.mem_map.1 ht
  exact h l hl

/-- **The lines of a rendered code are well formed if and only if nothing is missing in the code.** -/
theorem isLine_render {ls : List Line} (h : ∀ l ∈ ls, l.Spelled) :
    (∀ t ∈ (render ls).toList.splitOn '\n', isLine t = true) ↔ ls.all Line.complete = true := by
  by_cases ne : ls = []
  · subst ne
    decide
  · rw [splitOn_render ne fun l hl => newline_notMem_text (h l hl), List.forall_mem_map, List.all_eq_true]
    exact forall₂_congr fun l hl => by rw [isLine_text (h l hl)]

end TesLang.Code
