import TesLang.Proofs.Generation.Step
/-!
# How procedures end

A procedure gets a `ret` unless its last line ends in these letters.  All other instructions end in a number, in the colon
of a label or in `None`, so among the instructions only `ret` itself does (`endsInRet_of_isInstruction`).
-/
namespace TesLang.Code

theorem isBlank_of_visible {c : Char} (lower : 33 ≤ c.toNat) (upper : c.toNat ≤ 126) : Text.isBlank c = false := by
  simp only [Text.isBlank, Text.blankRanges, List.any_cons, List.any_nil, Bool.or_false, Bool.or_eq_false_iff,
    Bool.and_eq_false_iff, decide_eq_false_iff_not]
  omega

theorem isBlank_of_isDigit {c : Char} (h : c.isDigit = true) : Text.isBlank c = false := by
  simp only [Char.isDigit, Bool.and_eq_true, decide_eq_true_eq, ge_iff_le, UInt32.le_iff_toNat_le] at h
  have lower : 48 ≤ c.toNat := h.1
  have upper : c.toNat ≤ 57 := h.2
  exact isBlank_of_visible (by omega) (by omega)

def Unclosing (s : String) : Prop := ∃ cs c, s.toList = cs ++ [c] ∧ Text.isBlank c = false ∧ c ≠ 't'

namespace Unclosing

theorem append (a : String) {b : String} (h : Unclosing b) : Unclosing (a ++ b) := by
  obtain ⟨cs, c, hb, h⟩ := h
  exact ⟨a.toList ++ cs, c, by rw [String.toList_append, hb, List.append_assoc], h⟩

theorem nat (n : Nat) : Unclosing (toString n) := by
  have hne : Nat.toDigits 10 n ≠ [] := Nat.toDigits_ne_nil
  have hd : ((Nat.toDigits 10 n).getLast hne).isDigit = true :=
    Nat.isDigit_of_mem_toDigits (by decide) (by decide) (List.getLast_mem hne)
  refine ⟨(Nat.toDigits 10 n).dropLast, (Nat.toDigits 10 n).getLast hne, ?_, isBlank_of_isDigit hd, fun h => ?_⟩
  · rw [List.dropLast_concat_getLast, Nat.toString_eq_ofList_toDigits, String.toList_ofList]
  · rw [h] at hd
    cases hd

theorem int : ∀ i : Int, Unclosing (toString i)
  | .ofNat n => nat n
  | .negSucc n => .append "-" (nat (n + 1))

theorem reg (r : Reg) : Unclosing r.text := .append "r" (int r.index)

theorem label (l : Label) : Unclosing l.text := .append l.stem (nat l.index)

theorem none : Unclosing "None" := ⟨['N', 'o', 'n'], 'e', rfl, by decide, by decide⟩

theorem source : ∀ s : Source, Unclosing s.text
  | .reg r => reg r
  | .literal n => int n
  | .missing => none

theorem operand (r : Option Reg) : Unclosing (Line.operand r) := source _

theorem regs : ∀ (rs : List Reg) {a : String}, Unclosing a → Unclosing (a ++ String.join (rs.map fun r => ", " ++ r.text))
  | [], a, h => by simpa using h
  | r :: rs, a, h => by
    rw [List.map_cons, String.join_cons, ← String.append_assoc]
    exact regs rs (.append a (.append ", " (reg r)))

theorem intercalate : ∀ {texts : List String}, texts ≠ [] → (∀ t ∈ texts, Unclosing t) → Unclosing (", ".intercalate texts)
  | [t], _, h => by
    rw [String.intercalate_singleton]
    exact h t List.mem_cons_self
  | t :: u :: texts, _, h => by
    rw [String.intercalate_cons_cons]
    exact .append _ (intercalate (List.cons_ne_nil u texts) fun x hx => h x (List.mem_cons_of_mem _ hx))

end Unclosing

/-- Whether a line is an instruction or a label, other than a return. -/
def Line.isInstruction : Line → Bool
  | .proc _ | .comment _ | .ret | .blank | .raw _ => false
  | _ => true

namespace Gen

theorem dropWhile_append_singleton {p : Char → Bool} {c : Char} (h : p c = false) :
    ∀ cs : List Char, (cs ++ [c]).dropWhile p = cs.dropWhile p ++ [c]
  | [] => by simp [h]
  | d :: cs => by
    rw [List.cons_append, List.dropWhile_cons, List.dropWhile_cons]
    split
    · exact dropWhile_append_singleton h cs
    · rfl

theorem trim_append_singleton {c : Char} (h : Text.isBlank c = false) (cs : List Char) :
    Text.trim (cs ++ [c]) = cs.dropWhile Text.isBlank ++ [c] := by
  rw [Text.trim, dropWhile_append_singleton h, List.reverse_append, List.reverse_singleton, List.singleton_append,
    List.dropWhile_cons_of_neg (by simp [h]), List.reverse_cons, List.reverse_reverse]

theorem endsInRet_of_unclosing {l : Line} (h : Unclosing l.text) : endsInRet l = false := by
  obtain ⟨cs, c, ht, hb, hc⟩ := h
  rw [endsInRet, ht, trim_append_singleton hb, Bool.eq_false_iff]
  intro hs
  obtain ⟨pre, hp⟩ := List.isSuffixOf_iff_suffix.1 hs
  have : (pre ++ "ret".toList).getLast? = some c := by rw [hp]; simp
  rw [List.getLast?_append] at this
  exact hc (Option.some.inj this).symm

theorem endsInRet_comment {text : String} (h : Unclosing text) : endsInRet (.comment text) = false :=
  endsInRet_of_unclosing (.append "# " h)

/-- **No instruction but a return ends a procedure.** -/
theorem endsInRet_of_isInstruction {l : Line} (h : l.isInstruction = true) : endsInRet l = false := by
  refine endsInRet_of_unclosing ?_
  cases l with
  | label l => exact ⟨l.text.toList, ':', by simp [Line.text], by decide, by decide⟩
  | mov t s => exact .append _ (.source s)
  | binary o t l r => exact .append _ (.operand r)
  | call f t args => exact .regs args (.append _ (.reg t))
  | input t => exact .append _ (.reg t)
  | output s => exact .append _ (.operand s)
  | memory t s => exact .append _ (.operand s)
  | load t b => exact .append _ (.reg b)
  | store s b => exact .append _ (.reg b)
  | jumpIfZero r l => exact .append _ (.label l)
  | jumpUnlessZero r l => exact .append _ (.label l)
  | jump l => exact .append _ (.label l)
  | _ => cases h

end Gen
end TesLang.Code
