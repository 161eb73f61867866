import TesLang.Proofs.Generation.Labels
import TesLang.Proofs.Generation.Outline
import TesLang.Proofs.Machine
/-!
# Places in a program

Code is generated line by line, and each state of the generator is a place in the program that it ends in: the machine
is at this place where its remaining lines are `here prog s`.  A jump to a label leads to the place at which the label was
added, for no label is defined twice; a call leads to the place of the head that it names, if there is one only.
-/
namespace TesLang.Code

/-- The lines of `prog` from the place on that the generator has reached in `s`. -/
def here (prog : List Line) (s : Generator) : List Line := prog.drop s.code.size

@[simp] theorem here_draw (prog : List Line) (s : Generator) : here prog s.draw = here prog s := rfl

@[simp] theorem here_number (prog : List Line) (s : Generator) : here prog s.number = here prog s := rfl

@[simp] theorem here_settle (prog : List Line) (s : Generator) (x : String) : here prog (s.settle x) = here prog s := rfl

section
variable {prog : List Line} {s : Generator}

theorem prog_eq_add {l : Line} (h : (s.add l).code.toList <+: prog) :
    prog = s.code.toList ++ l :: here prog (s.add l) := by
  obtain ⟨rest, rfl⟩ := h
  simp [here, List.drop_append]

theorem here_add {l : Line} (h : (s.add l).code.toList <+: prog) : here prog s = l :: here prog (s.add l) := by
  conv_lhs => rw [here, prog_eq_add h]
  rw [List.drop_append_of_le_length (by simp), List.drop_of_length_le (by simp), List.nil_append]

theorem label_mem_labelsIn {l : Label} {ls : List Line} (h : Line.label l ∈ ls) : l ∈ labelsIn ls :=
  List.mem_filterMap.2 ⟨_, h, rfl⟩

/-- **A jump leads to the place where its label was added.** -/
theorem linesFrom?_label (nodup : (labelsIn prog).Nodup) {l : Label} (h : (s.add (.label l)).code.toList <+: prog) :
    linesFrom? (.label l) prog = some (here prog s) := by
  have hp := prog_eq_add h
  rw [here_add h]
  conv_lhs => rw [hp]
  refine linesFrom?_append fun hm => ?_
  rw [hp, labelsIn_append, labelsIn_cons] at nodup
  exact (List.nodup_append.1 nodup).2.2 l (label_mem_labelsIn hm) l (by simp [Line.label?]) rfl

/-- **A call leads to the place where the head was added that it names**, if no other head has the name. -/
theorem linesFrom?_proc (nodup : (headsOf (outlineIn prog)).Nodup) {f : String}
    (h : (s.add (.proc f)).code.toList <+: prog) : linesFrom? (.proc f) prog = some (here prog s) := by
  have hp := prog_eq_add h
  rw [here_add h]
  conv_lhs => rw [hp]
  refine linesFrom?_append fun hm => ?_
  have hf : f ∈ headsOf (outlineIn s.code.toList) :=
    List.mem_filterMap.2 ⟨.head f, List.mem_filterMap.2 ⟨_, hm, rfl⟩, rfl⟩
  rw [hp, outlineIn_append, headsOf_append] at nodup
  exact (List.nodup_append.1 nodup).2.2 f hf f (by simp [outlineIn, headsOf, Line.entry?]) rfl

end

end TesLang.Code
