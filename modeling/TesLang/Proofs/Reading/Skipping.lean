import Mathlib.Logic.Relation
import TesLang.Proofs.Reading.Coverage
/-!
# How stray text is skipped

A reading goes from one position of a text to the next, and finds tokens and notices on its way (`Progress`, `Next`).  As
long as no comment is left open, the text is read as if it were read from any of the positions reached (`Reaches.lex_eq`).

Where no rule applies, the reading looks for the next space, semicolon, line end or tab (`Breaks`).  If there is one it
notes the run of characters up to there and goes on; if there is none it cannot (`stray_skipped`).
-/
namespace TesLang.Token

/-- The characters up to which stray text reaches. -/
def breaks : List Char := [' ', ';', '\n', '\t']

/-- **The first break behind a position.** -/
structure Breaks (source : List Char) (pos stop : Nat) : Prop where
  behind : pos < stop
  here : ∃ c ∈ source[stop]?, c ∈ breaks
  first : ∀ q, pos < q → q < stop → ∀ c ∈ source[q]?, c ∉ breaks

/-- **How far a reading has come**: the position and the line, and what it found up to there. -/
structure Progress where
  pos : Nat := 0
  line : Nat
  tokens : List Token := []
  notices : List Notice := []
  deriving DecidableEq

namespace Progress

/-- The reading goes on behind what stands at its position, if that can be read. -/
def next? (source : List Char) (r : Progress) : Option Progress :=
  match source.drop r.pos with
  | [] => none
  | c :: cs =>
    match step c cs (c :: cs) with
    | .gap extra newlines => some { r with pos := r.pos + 1 + extra, line := r.line + newlines }
    | .token kind value extra =>
      some { r with pos := r.pos + 1 + extra, tokens := r.tokens ++ [⟨kind, value, r.line, r.pos⟩] }
    | .stray run => some { r with
        pos := r.pos + 1 + (run.length - 1), notices := r.notices ++ [.stray (String.ofList run) r.line] }
    | .unclosed | .fault _ => none

/-- **The reading of a text that starts on line `line` gets there**, with no comment left open on its way. -/
def Reaches (source : List Char) (line : Nat) : Progress → Prop :=
  Relation.ReflTransGen (fun r r' => r.next? source = some r') { line }

/-- What is found in the whole text by a reading that has come this far. -/
def whole (source : List Char) (r : Progress) : Scan :=
  (scan (source.drop r.pos) 0 r.pos r.line).behind r.tokens r.notices

end Progress

theorem prefix_of_symbol? {cs : List Char} {s : String × Kind} (h : symbol? cs = some s) : s.1.toList <+: cs := by
  unfold symbol? at h
  have fits := List.find?_some h
  exact List.isPrefixOf_iff_prefix.1 fits

theorem scan_drop (cs : List Char) (skip pos line : Nat) : scan cs skip pos line = scan (cs.drop skip) 0 (pos + skip) line := by
  induction cs generalizing skip pos with
  | nil => simp [scan]
  | cons c cs ih =>
    cases skip with
    | zero => rfl
    | succ skip =>
      rw [scan, ih, List.drop_succ_cons]
      congr 1
      omega

namespace Progress

variable {source : List Char} {line : Nat} {r r' : Progress}

theorem reaches_start : Reaches source line { line } := .refl

theorem Reaches.next (h : Reaches source line r) (next : r.next? source = some r') : Reaches source line r' := h.tail next

theorem whole_next (h : r.next? source = some r') : r.whole source = r'.whole source := by
  unfold next? at h
  cases rest : source.drop r.pos with
  | nil => simp [rest] at h
  | cons c cs =>
    have later (extra : Nat) : source.drop (r.pos + 1 + extra) = cs.drop extra := by
      rw [Nat.add_assoc, Nat.add_comm 1, ← List.drop_drop, rest, List.drop_succ_cons]
    simp only [rest] at h
    unfold whole
    rw [rest, scan]
    cases read : step c cs (c :: cs) with
    | gap extra newlines =>
      simp only [read, Option.some.injEq] at h
      subst h
      dsimp only
      rw [scan_drop, later]
    | token kind value extra =>
      simp only [read, Option.some.injEq] at h
      subst h
      dsimp only
      rw [scan_drop, later]
      simp [Scan.token, Scan.behind]
    | stray run =>
      simp only [read, Option.some.injEq] at h
      subst h
      dsimp only
      rw [scan_drop, later]
      simp [Scan.notice, Scan.behind]
    | unclosed => simp [read] at h
    | fault f => simp [read] at h

/-- **A text is read as it is from any position reached.** -/
theorem Reaches.lex_eq (h : Reaches source line r) :
    lex source line = (r.whole source).orAgain fun pos line => restart (source.length + 2) source (source.drop pos) line := by
  have same : scan source 0 0 line = r.whole source := by
    induction h with
    | refl => rfl
    | tail _ next ih => exact ih.trans (whole_next next)
  rw [lex, same]

theorem Reaches.lex_stuck (h : Reaches source line r) {f : Fault} (stuck : Stuck (.fault f) (source.drop r.pos)) :
    lex source line = { tokens := r.tokens, notices := r.notices, line := r.line, stop := .fault f } := by
  rcases scan_stuck stuck r.pos r.line with ⟨other, -⟩ | ⟨g, same, read⟩
  · cases other
  · obtain rfl : f = g := by simpa using same
    rw [h.lex_eq, whole, read]
    simp [Scan.fault, Scan.behind, Scan.orAgain]

end Progress

/-! ### Up to the next break -/

theorem endsStray_iff {c : Char} : endsStray c = true ↔ c ∈ breaks := by
  simp [endsStray, breaks, or_assoc]

theorem drop_eq_slice_append (source : List Char) {p q : Nat} (h : p ≤ q) :
    source.drop p = slice source p q ++ source.drop q := by
  have later : source.drop q = (source.drop p).drop (q - p) := by rw [List.drop_drop, Nat.add_sub_cancel' h]
  rw [slice, List.drop_take, later, List.take_append_drop]

theorem mem_slice {source : List Char} {p q : Nat} {c : Char} (h : c ∈ slice source p q) :
    ∃ i, p ≤ i ∧ i < q ∧ c ∈ source[i]? := by
  rw [slice, List.mem_iff_getElem?] at h
  obtain ⟨i, found⟩ := h
  rw [List.getElem?_drop, List.getElem?_take] at found
  split at found
  · next within => exact ⟨p + i, by omega, within, found⟩
  · cases found

theorem NoRule.here {source : List Char} {pos : Nat} (none : NoRule (source.drop pos)) : ∀ c ∈ source[pos]?, c ∉ breaks := by
  intro c hc
  obtain ⟨b, bs, rest⟩ := List.exists_cons_of_ne_nil none.nonempty
  obtain rfl : b = c := by
    rw [← Nat.add_zero pos, ← List.getElem?_drop, rest] at hc
    exact Option.some.inj hc
  rw [rest] at none
  rw [← endsStray_iff, none.not_endsStray]
  exact Bool.false_ne_true

theorem Breaks.fits {source : List Char} {pos stop : Nat} (h : Breaks source pos stop) (none : NoRule (source.drop pos)) :
    Fits (.stray (slice source pos stop)) (source.drop stop) := by
  refine .stray (fun c hc => ?_) ?_ (by rwa [← drop_eq_slice_append source (Nat.le_of_lt h.behind)])
  · obtain ⟨i, low, high, found⟩ := mem_slice hc
    rw [← Bool.not_eq_true, endsStray_iff]
    rcases Nat.eq_or_lt_of_le low with rfl | low
    · exact none.here c found
    · exact h.first i low high c found
  · obtain ⟨c, found, ends⟩ := h.here
    exact ⟨c, by rwa [List.head?_drop], endsStray_iff.2 ends⟩

theorem stuck_of_not_breaks {source : List Char} {pos : Nat} (none : NoRule (source.drop pos))
    (never : ∀ stop, ¬ Breaks source pos stop) : Stuck (.fault .runsOff) (source.drop pos) := by
  have behind : ∀ q, pos < q → ∀ c ∈ source[q]?, c ∉ breaks := by
    intro q
    induction q using Nat.strongRecOn with
    | _ q ih =>
      intro low c found ends
      exact never q ⟨low, ⟨c, found, ends⟩, fun i hi hq => ih i hq hi⟩
  refine .runsOff none fun c hc => ?_
  obtain ⟨i, found⟩ := List.mem_iff_getElem?.1 hc
  rw [List.getElem?_drop] at found
  rw [← Bool.not_eq_true, endsStray_iff]
  rcases Nat.eq_zero_or_pos i with rfl | later
  · exact none.here c found
  · exact behind _ (by omega) c found

theorem Progress.next?_of_breaks {source : List Char} {r : Progress} {stop : Nat} (h : Breaks source r.pos stop)
    (none : NoRule (source.drop r.pos)) : r.next? source = some { r with
      pos := stop, notices := r.notices ++ [.stray (String.ofList (slice source r.pos stop)) r.line] } := by
  have fits := h.fits none
  have split := drop_eq_slice_append source (Nat.le_of_lt h.behind)
  have length : (slice source r.pos stop).length = stop - r.pos := by
    obtain ⟨c, found, -⟩ := h.here
    obtain ⟨within, -⟩ := List.getElem?_eq_some_iff.1 found
    rw [slice, List.length_drop, List.length_take, Nat.min_eq_left (Nat.le_of_lt within)]
  obtain ⟨c, run, text⟩ := List.exists_cons_of_ne_nil fits.ne_nil
  have text : slice source r.pos stop = c :: run := text
  rw [text] at fits split length
  have place : r.pos + 1 + ((c :: run).length - 1) = stop := by
    have := h.behind
    rw [List.length_cons] at length ⊢
    omega
  have read := step_stray fits
  rw [List.cons_append] at split read
  simp only [next?, split, read, place, text]

end TesLang.Token

namespace TesLang.Session

open Token Progress

/-- **Stray text is noted and skipped up to the next break.**  Let the reading of a text come to a position at which no rule
applies, with no comment left open before it.  If there is a break behind it, the reading prints one message, with the
characters up to the break and the line at hand, finds no token, and goes on at the break and on the same line.  If there is
none, the reading ends at once with the tokens and messages it has, and with a fault.

If all comments of the text are closed, it never happens that no rule applies and nothing can be skipped. -/
theorem stray_skipped {s : Session} {source : String} {r : Progress} (reached : Reaches source.toList s.line r)
    (none : NoRule (source.toList.drop r.pos)) :
    (∀ stop, Breaks source.toList r.pos stop →
      let run := String.ofList (slice source.toList r.pos stop)
      let next : Progress := { r with pos := stop, notices := r.notices ++ [.stray run r.line] }
      Reaches source.toList s.line next ∧
      (read source s).1 = (next.whole source.toList).orAgain (fun pos line =>
        restart (source.toList.length + 2) source.toList (source.toList.drop pos) line) ∧
      next.notices.map Notice.message =
        r.notices.map Notice.message ++ ["Illegal token \"" ++ run ++ "\" in line " ++ toString r.line]) ∧
    ((∀ stop, ¬ Breaks source.toList r.pos stop) →
      (read source s).1 = { tokens := r.tokens, notices := r.notices, line := r.line, stop := .fault .runsOff }) ∧
    (read source s).2.printed = s.printed ++ Text.unlines ((read source s).1.notices.map Notice.message) ∧
    ((∀ n, .unclosed n ∉ (read source s).1.notices) → ∀ c, (read source s).1.stop ≠ .fault (.noRule c)) := by
  have scanned : (read source s).1 = lex source.toList s.line := rfl
  refine ⟨fun stop breaks => ?_, fun never => ?_, rfl, fun closed c => ?_⟩
  · have next := reached.next (next?_of_breaks breaks none)
    exact ⟨next, scanned.trans (Reaches.lex_eq next), List.map_append⟩
  · exact scanned.trans (reached.lex_stuck (stuck_of_not_breaks none never))
  · rw [scanned] at closed ⊢
    obtain ⟨ps, rest, -, -, -, -, -, ends⟩ := lex_cut closed
    rcases ends with ⟨-, finished⟩ | ⟨f, stuck, fault⟩
    · simp [finished]
    · rw [fault]
      rintro ⟨⟩
      cases stuck

/-- A text with stray text in front of a semicolon, and more of it at its end. -/
def frayed : String := "a </ b\n /> @~;#"

/-- The reading of `frayed` at its first stray character, and at its second. -/
def frayedAt : Progress := { pos := 11, line := 2, tokens := [⟨.id, .text "a", 1, 0⟩] }

def frayedEnd : Progress :=
  { pos := 14, line := 2, tokens := [⟨.id, .text "a", 1, 0⟩, ⟨.semicolon, .text ";", 2, 13⟩], notices := [.stray "@~" 2] }

theorem frayed_skipped : NoRule (frayed.toList.drop 11) ∧ Breaks frayed.toList 11 13 ∧
    Reaches frayed.toList 1 { frayedAt with pos := 13, notices := [.stray "@~" 2] } ∧
    NoRule (frayed.toList.drop 14) ∧ (∀ stop, ¬ Breaks frayed.toList 14 stop) ∧
    (read frayed {}).1 = { tokens := frayedEnd.tokens, notices := [.stray "@~" 2], line := 2, stop := .fault .runsOff } := by
  have text : frayed.toList = ['a', ' ', '<', '/', ' ', 'b', '\n', ' ', '/', '>', ' ', '@', '~', ';', '#'] := by
    rw [frayed, String.toList_ofList]
  have none : NoRule (frayed.toList.drop 11) ∧ NoRule (frayed.toList.drop 14) := by
    rw [text]
    exact ⟨noRule_iff.2 (by decide +kernel), noRule_iff.2 (by decide +kernel)⟩
  have breaks : Breaks frayed.toList 11 13 := by
    rw [text]
    refine ⟨by decide, ⟨';', rfl, by decide⟩, fun q low high => ?_⟩
    obtain rfl : q = 12 := by omega
    intro c hc
    obtain rfl : '~' = c := Option.some.inj hc
    decide
  have never : ∀ stop, ¬ Breaks frayed.toList 14 stop := by
    rintro stop ⟨behind, ⟨c, found, -⟩, -⟩
    obtain ⟨within, -⟩ := List.getElem?_eq_some_iff.1 found
    have length : frayed.toList.length = 15 := by rw [text]; rfl
    omega
  have word : next? frayed.toList { line := 1 } = some { frayedAt with pos := 1, line := 1 } := by decide +kernel
  have blank : next? frayed.toList { frayedAt with pos := 1, line := 1 } = some { frayedAt with pos := 2, line := 1 } := by
    decide +kernel
  have comment : next? frayed.toList { frayedAt with pos := 2, line := 1 } = some { frayedAt with pos := 10 } := by
    decide +kernel
  have blank' : next? frayed.toList { frayedAt with pos := 10 } = some frayedAt := by decide +kernel
  have there : Reaches frayed.toList 1 frayedAt := (((reaches_start.next word).next blank).next comment).next blank'
  have skipped := ((stray_skipped (s := {}) there none.1).1 13 breaks).1
  have semicolon : next? frayed.toList { frayedAt with pos := 13, notices := [.stray "@~" 2] } = some frayedEnd := by
    decide +kernel
  have same : String.ofList (slice frayed.toList 11 13) = "@~" := by decide +kernel
  rw [show frayedAt.pos = 11 from rfl, same] at skipped
  have stopped := (stray_skipped (s := {}) (skipped.next semicolon) none.2).2.1 never
  exact ⟨none.1, breaks, skipped, none.2, never, stopped⟩

end TesLang.Session
