import Mathlib.Data.List.Nodup
import Mathlib.Data.List.Perm.Basic
import TesLang.Proofs.Generation.Walk
/-!
# Labels while code is generated

Labels are numbered through, and the number of a label is used for no other one.  So the lines that a run adds define
labels with numbers from a stretch of their own (`Labelled`), no two alike, and whatever they jump to is defined among
them.  `visit_labelled` says so of every node, functions and whole programs included.
-/
namespace TesLang.Code

/-- The labels that some lines define. -/
def labelsIn (ls : List Line) : List Label := ls.filterMap Line.label?

/-- The labels that some lines jump to. -/
def targetsIn (ls : List Line) : List Label := ls.filterMap Line.target?

@[simp] theorem labelsIn_nil : labelsIn [] = [] := rfl

@[simp] theorem labelsIn_append (a b : List Line) : labelsIn (a ++ b) = labelsIn a ++ labelsIn b :=
  List.filterMap_append

@[simp] theorem targetsIn_nil : targetsIn [] = [] := rfl

@[simp] theorem targetsIn_append (a b : List Line) : targetsIn (a ++ b) = targetsIn a ++ targetsIn b :=
  List.filterMap_append

@[simp] theorem labelsIn_cons (l : Line) (ls : List Line) : labelsIn (l :: ls) = l.label?.toList ++ labelsIn ls := by
  unfold labelsIn
  cases h : l.label? <;> simp [h]

@[simp] theorem targetsIn_cons (l : Line) (ls : List Line) :
    targetsIn (l :: ls) = l.target?.toList ++ targetsIn ls := by
  unfold targetsIn
  cases h : l.target? <;> simp [h]

/-- The numbers of the labels are those from `a` on and below `b`, each of them once. -/
structure Numbered (a b : Nat) (ls : List Label) : Prop where
  length : a + ls.length = b
  nodup : (ls.map Label.index).Nodup
  within : ∀ l ∈ ls, a ≤ l.index ∧ l.index < b

namespace Numbered

theorem nil (a : Nat) : Numbered a a [] := ⟨rfl, List.nodup_nil, fun _ hl => by cases hl⟩

theorem append {a b c : Nat} {ls ms : List Label} (h : Numbered a b ls) (h' : Numbered b c ms) :
    Numbered a c (ls ++ ms) where
  length := by
    have := h.length
    have := h'.length
    rw [List.length_append]
    omega
  nodup := by
    rw [List.map_append, List.nodup_append]
    refine ⟨h.nodup, h'.nodup, fun i hi j hj => ?_⟩
    obtain ⟨l, hl, rfl⟩ := List.mem_map.1 hi
    obtain ⟨m, hm, rfl⟩ := List.mem_map.1 hj
    have := (h.within l hl).2
    have := (h'.within m hm).1
    omega
  within l hl := by
    have := h.length
    have := h'.length
    rcases List.mem_append.1 hl with hl | hl
    · have := h.within l hl; omega
    · have := h'.within l hl; omega

theorem single (stem : String) (a : Nat) : Numbered a (a + 1) [⟨stem, a⟩] :=
  ⟨rfl, List.nodup_singleton a, fun l hl => by obtain rfl := List.mem_singleton.1 hl; exact ⟨Nat.le_refl _, by simp⟩⟩

theorem perm {a b : Nat} {ls ms : List Label} (h : Numbered a b ls) (hp : ls.Perm ms) : Numbered a b ms :=
  ⟨by rw [← hp.length_eq]; exact h.length, (hp.map Label.index).nodup_iff.1 h.nodup, fun l hl => h.within l (hp.mem_iff.2 hl)⟩

end Numbered

/-- The lines that were added define labels with new numbers, and jump only to labels that are among them. -/
def Labelled (s s' : Generator) : Prop :=
  ∃ new, s'.code.toList = s.code.toList ++ new ∧ Numbered s.labels s'.labels (labelsIn new) ∧ targetsIn new ⊆ labelsIn new

namespace Labelled

theorem refl (s : Generator) : Labelled s s := ⟨[], by simp, .nil _, by simp⟩

theorem trans {s s' s'' : Generator} (h : Labelled s s') (h' : Labelled s' s'') : Labelled s s'' := by
  obtain ⟨a, ha, hna, hta⟩ := h
  obtain ⟨b, hb, hnb, htb⟩ := h'
  refine ⟨a ++ b, by rw [hb, ha, List.append_assoc], ?_, ?_⟩
  · rw [labelsIn_append]
    exact hna.append hnb
  · rw [labelsIn_append, targetsIn_append]
    exact List.append_subset.2 ⟨fun l hl => List.mem_append_left _ (hta hl), fun l hl => List.mem_append_right _ (htb hl)⟩

theorem of_quiet {s s' : Generator} (new : List Line) (code : s'.code.toList = s.code.toList ++ new)
    (labels : s'.labels = s.labels) (defines : labelsIn new = []) (jumps : targetsIn new = []) : Labelled s s' :=
  ⟨new, code, by rw [labels, defines]; exact .nil _, by rw [jumps]; exact List.nil_subset _⟩

end Labelled

namespace Gen

def Labelling {α : Type} (m : Gen α) : Prop := Steady Labelled m

namespace Labelling

variable {α β : Type}

theorem pure (a : α) : Labelling (pure a) := Steady.pure Labelled.refl a

theorem bind {m : Gen α} {f : α → Gen β} (first : Labelling m) (rest : ∀ a, Labelling (f a)) :
    Labelling (m >>= f) := Steady.bind (R := Labelled) Labelled.trans first rest

theorem throw (f : Fault) : Labelling (throw f : Gen α) := Steady.throw f

theorem discard {m : Gen α} (h : Labelling m) : Labelling (discard m) := by
  intro s u s' hr
  obtain ⟨a, hr⟩ := ran_discard.1 hr
  exact h s a s' hr

theorem emit (l : Line) (defines : l.label? = none) (jumps : l.target? = none) : Labelling (emit l) := by
  intro s u s' h
  obtain rfl := ran_emit.1 h
  exact .of_quiet [l] (by simp) rfl (by simp [defines]) (by simp [jumps])

theorem modify (f : Generator → Generator) (code : ∀ s, (f s).code = s.code) (labels : ∀ s, (f s).labels = s.labels) :
    Labelling (modify f : Gen Unit) := by
  intro s u s' h
  obtain rfl := ran_modify.1 h
  exact .of_quiet [] (by simp [code]) (labels s) rfl rfl

theorem warn (kind : String) : Labelling (warn kind) := .modify _ (fun _ => rfl) fun _ => rfl

theorem get {f : Generator → Gen α} (h : ∀ s, Labelling (f s)) : Labelling (get >>= f) := by
  intro s a s' run
  obtain ⟨_, _, hg, run⟩ := ran_bind.1 run
  obtain ⟨rfl, rfl⟩ := ran_get.1 hg
  exact h _ _ _ _ run

theorem allocate : Labelling allocate := by
  intro s r s' h
  obtain ⟨-, rfl⟩ := ran_allocate.1 h
  exact .of_quiet [] (by simp) rfl rfl rfl

end Labelling
/-! ### Shapes with labels

A label is numbered before the code in front of it is generated, so the numbers do not come in the order of the lines.
-/

theorem branching_labelled {test yes no : Gen (Option Reg)} (ht : Labelling test) (hy : Labelling yes)
    (hn : Labelling no) : Labelling (branching test yes no) := by
  intro s a s' h
  unfold branching at h
  simp only [↓ran_freshLabel_bind, ↓ran_emit_bind, ran_bind, ran_pure] at h
  obtain ⟨t, s₁, h₁, _, s₂, h₂, _, s₃, h₃, -, rfl⟩ := h
  obtain ⟨a, ha, na, ta⟩ := ht _ _ _ h₁
  obtain ⟨b, hb, nb, tb⟩ := hy _ _ _ h₂
  obtain ⟨c, hc, nc, tc⟩ := hn _ _ _ h₃
  refine ⟨a ++ [Line.jumpIfZero t ⟨"else", s₁.labels⟩] ++ b ++ [Line.jump ⟨"endif", s₁.labels + 1⟩, .label ⟨"else", s₁.labels⟩] ++
    c ++ [Line.label ⟨"endif", s₁.labels + 1⟩], by simp [ha, hb, hc], ?_, ?_⟩
  · refine ((((na.append (.single "else" _)).append (.single "endif" _)).append nb).append nc).perm ?_
    refine List.perm_iff_count.2 fun l => ?_
    simp only [labelsIn_append, labelsIn_cons, labelsIn_nil, Line.label?, Option.toList, List.count_append, List.count_nil]
    omega
  · intro l
    have := @ta l
    have := @tb l
    have := @tc l
    simp [Line.label?, Line.target?] at *
    grind

theorem repeating_labelled {test body : Gen (Option Reg)} (ht : Labelling test) (hb : Labelling body) :
    Labelling (repeating test body) := by
  intro s a s' h
  unfold repeating at h
  simp only [↓ran_freshLabel_bind, ↓ran_emit_bind, ran_bind, ran_pure] at h
  obtain ⟨t, s₁, h₁, _, s₂, h₂, -, rfl⟩ := h
  obtain ⟨a, ha, na, ta⟩ := ht _ _ _ h₁
  obtain ⟨b, hb, nb, tb⟩ := hb _ _ _ h₂
  refine ⟨[Line.label ⟨"while_start", s.labels⟩] ++ a ++ [Line.jumpIfZero t ⟨"while_end", s.labels + 1⟩] ++ b ++
    [Line.jump ⟨"while_start", s.labels⟩, .label ⟨"while_end", s.labels + 1⟩], by simp [ha, hb], ?_, ?_⟩
  · refine ((((Numbered.single "while_start" _).append (.single "while_end" _)).append na).append nb).perm ?_
    refine List.perm_iff_count.2 fun l => ?_
    simp only [labelsIn_append, labelsIn_cons, labelsIn_nil, Line.label?, Option.toList, List.count_append, List.count_nil]
    omega
  · intro l
    have := @ta l
    have := @tb l
    simp [Line.label?, Line.target?] at *
    grind

theorem retrying_labelled {body test : Gen (Option Reg)} (hb : Labelling body) (ht : Labelling test) :
    Labelling (retrying body test) := by
  intro s a s' h
  unfold retrying at h
  simp only [↓ran_freshLabel_bind, ↓ran_emit_bind, ran_bind, ran_pure] at h
  obtain ⟨_, s₁, h₁, t, s₂, h₂, -, rfl⟩ := h
  obtain ⟨a, ha, na, ta⟩ := hb _ _ _ h₁
  obtain ⟨b, hb, nb, tb⟩ := ht _ _ _ h₂
  refine ⟨[Line.label ⟨"do_start", s.labels⟩] ++ a ++ b ++ [Line.jumpUnlessZero t ⟨"do_start", s.labels⟩], by simp [ha, hb], ?_, ?_⟩
  · simp only [labelsIn_append, labelsIn_cons, labelsIn_nil, Line.label?, Option.toList, List.append_nil]
    exact ((Numbered.single "do_start" _).append na).append nb
  · intro l
    have := @ta l
    have := @tb l
    simp [Line.label?, Line.target?] at *
    grind

theorem counting_labelled (v : Reg) (bound : Option Reg) {body : Gen (Option Reg)} (hb : Labelling body) :
    Labelling (counting v bound body) := by
  intro s a s' h
  unfold counting at h
  simp only [↓ran_freshLabel_bind, ↓ran_emit_bind, ↓ran_allocate_bind, ran_bind, ran_pure] at h
  obtain ⟨_, s₁, h₁, -, rfl⟩ := h
  obtain ⟨a, ha, na, ta⟩ := hb _ _ _ h₁
  refine ⟨[Line.label ⟨"for_start", s.labels⟩, .binary .less s.next (some v) bound,
    .jumpIfZero (some s.next) ⟨"for_end", s.labels + 1⟩] ++ a ++ [Line.mov s₁.next (.literal 1),
    .binary .add v (some v) (some s₁.next), .jump ⟨"for_start", s.labels⟩, .label ⟨"for_end", s.labels + 1⟩], by simp [ha], ?_, ?_⟩
  · refine (((Numbered.single "for_start" _).append (.single "for_end" _)).append na).perm ?_
    refine List.perm_iff_count.2 fun l => ?_
    simp only [labelsIn_append, labelsIn_cons, labelsIn_nil, Line.label?, Option.toList, List.count_append, List.count_nil]
    omega
  · intro l
    have := @ta l
    simp [Line.label?, Line.target?] at *
    grind

theorem choosing_labelled {test yes no : Gen (Option Reg)} (ht : Labelling test) (hy : Labelling yes)
    (hn : Labelling no) : Labelling (choosing test yes no) := by
  intro s a s' h
  unfold choosing at h
  simp only [↓ran_freshLabel_bind, ↓ran_emit_bind, ↓ran_allocate_bind, ran_bind, ran_pure] at h
  obtain ⟨t, s₁, h₁, y, s₂, h₂, n, s₃, h₃, -, rfl⟩ := h
  obtain ⟨a, ha, na, ta⟩ := ht _ _ _ h₁
  obtain ⟨b, hb, nb, tb⟩ := hy _ _ _ h₂
  obtain ⟨c, hc, nc, tc⟩ := hn _ _ _ h₃
  refine ⟨a ++ [Line.jumpIfZero t ⟨"ternary_false", s₁.labels⟩] ++ b ++ [Line.mov s₁.next (.ofReg y),
    .jump ⟨"ternary_end", s₁.labels + 1⟩, .label ⟨"ternary_false", s₁.labels⟩] ++ c ++ [Line.mov s₁.next (.ofReg n),
    .label ⟨"ternary_end", s₁.labels + 1⟩], by simp [ha, hb, hc], ?_, ?_⟩
  · refine ((((na.append (.single "ternary_false" _)).append (.single "ternary_end" _)).append nb).append nc).perm ?_
    refine List.perm_iff_count.2 fun l => ?_
    simp only [labelsIn_append, labelsIn_cons, labelsIn_nil, Line.label?, Option.toList, List.count_append, List.count_nil]
    omega
  · intro l
    have := @ta l
    have := @tb l
    have := @tc l
    simp [Line.label?, Line.target?] at *
    grind

/-! ### All nodes -/

theorem shaped_labelling : Settling fun {_} m => Labelling m where
  pure := .pure
  throw := .throw
  bind := .bind
  discard := .discard
  say _ defines jumps := .emit _ defines jumps
  allocate := .allocate
  warn := .warn
  ask _ h := .get h
  settle _ _ := .modify _ (fun _ => rfl) fun _ => rfl
  procedure := procedure_of_steps .pure .throw .bind (fun _ _ => .modify _ (fun _ => rfl) fun _ => rfl) (fun {l} h =>
    .emit l (by cases l <;> first | rfl | cases h) (by cases l <;> first | rfl | cases h)) .get fun _ =>
    .modify _ (fun _ => rfl) fun _ => rfl
  branching := branching_labelled
  repeating := repeating_labelled
  retrying := retrying_labelled
  counting v bound _ h := counting_labelled v bound h
  choosing := choosing_labelled

/-- **Every run over a node numbers its labels anew, and jumps only to labels that it defines.** -/
theorem visit_labelled (n : Node) : Labelling (visit n) := shaped_labelling.has (.visit n)

end Gen
end TesLang.Code
