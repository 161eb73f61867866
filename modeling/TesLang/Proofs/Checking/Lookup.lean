import TesLang.Proofs.Checking.Run
import TesLang.Proofs.Checking.Scope
/-!
# Names are found in the nearest scope

Scopes are made one after another, each under an earlier one or under none, and names are bound in them.  A history tells what
was done, the latest first, and from it alone it is clear under which scope another one was made (`History.parent`) and what a
name was last bound to in a scope (`History.bound`).

Looking a name up finds what the history tells for the nearest scope that has the name, and binding a name in a scope shows only
from where no nearer scope has it (`lookup_nearest`).

A walk over a program keeps the scopes that are open, and forgets a scope that it closes.  A forest in which each scope is made
where the walk opens one has the scopes of the walk as one of its chains, before the walk and after it (`visit_follows`).
-/
namespace TesLang.Forest

/-- What is done to a forest. -/
inductive Deed where
  | grow (parent : Option Nat)
  | insert (scope : Nat) (name : String) (symbol : Symbol)

/-- What was done to a forest, the latest first. -/
abbrev History := List Deed

/-- The forest that a history leads to. -/
def ofHistory : History → Forest
  | [] => #[]
  | .grow parent :: h => (ofHistory h).grow parent
  | .insert i x sym :: h => (ofHistory h).insert i x sym

namespace History

/-- How many scopes were made. -/
def size : History → Nat
  | [] => 0
  | .grow _ :: h => size h + 1
  | .insert .. :: h => size h

/-- Every scope is made under an earlier one or under none, and names are bound in scopes that were made. -/
def Sound : History → Prop
  | [] => True
  | .grow parent :: h => (∀ j ∈ parent, j < size h) ∧ Sound h
  | .insert i _ _ :: h => i < size h ∧ Sound h

/-- The scope under which scope `i` was made. -/
def parent : History → Nat → Option Nat
  | [], _ => none
  | .grow p :: h, i => if i = size h then p else parent h i
  | .insert .. :: h, i => parent h i

/-- What a name was last bound to in scope `i`. -/
def bound : History → Nat → String → Option Symbol
  | [], _, _ => none
  | .grow _ :: h, i, x => bound h i x
  | .insert j y sym :: h, i, x => if j = i ∧ y = x then some sym else bound h i x

/-- **The way out of a scope**: `t` is on the chain of parents of `s`, and `nearer` are the scopes before it, from `s` on. -/
inductive Way (h : History) : Nat → List Nat → Nat → Prop where
  | here (s : Nat) : Way h s [] s
  | out {s p t : Nat} {nearer : List Nat} : parent h s = some p → Way h p nearer t → Way h s (s :: nearer) t

/-- A name that is bound in scope `t` is seen from scope `s`: `t` is on its chain, and no nearer scope has the name. -/
def Seen (h : History) (s : Nat) (x : String) (t : Nat) : Prop :=
  ∃ nearer, Way h s nearer t ∧ ∀ u ∈ nearer, bound h u x = none

variable {h : History}

theorem parent_lt (sound : Sound h) {i p : Nat} (hp : parent h i = some p) : p < i ∧ i < size h := by
  induction h with
  | nil => cases hp
  | cons d h ih =>
    cases d with
    | grow q =>
      rw [parent] at hp
      split at hp
      · next last => exact ⟨last ▸ sound.1 p hp, last ▸ Nat.lt_succ_self _⟩
      · obtain ⟨before, made⟩ := ih sound.2 hp
        exact ⟨before, Nat.lt_succ_of_lt made⟩
    | insert i x sym => exact ih sound.2 hp

theorem bound_eq_none (sound : Sound h) {i : Nat} (late : size h ≤ i) (x : String) : bound h i x = none := by
  induction h with
  | nil => rfl
  | cons d h ih =>
    cases d with
    | grow q => exact ih sound.2 (Nat.le_of_succ_le late)
    | insert j y sym =>
      have other : ¬ (j = i ∧ y = x) := fun same => Nat.not_lt.2 late (same.1 ▸ sound.1)
      rw [bound, if_neg other]
      exact ih sound.2 late

theorem Way.le (sound : Sound h) {s t : Nat} {nearer : List Nat} (way : Way h s nearer t) : t ≤ s := by
  induction way with
  | here => exact Nat.le_refl _
  | out hp _ ih => exact Nat.le_trans ih (Nat.le_of_lt (parent_lt sound hp).1)

theorem Seen.out {s p t : Nat} {x : String} (own : bound h s x = none) (hp : parent h s = some p) (seen : Seen h p x t) :
    Seen h s x t := by
  obtain ⟨nearer, way, none⟩ := seen
  exact ⟨s :: nearer, .out hp way, List.forall_mem_cons.2 ⟨own, none⟩⟩

end History

open History

variable {h : History}

theorem size_ofHistory (h : History) : (ofHistory h).size = size h := by
  induction h with
  | nil => rfl
  | cons d h ih => cases d <;> simp [ofHistory, grow, insert, size, ih]

/-- **The scopes of a forest are those of its history.** -/
theorem getElem?_ofHistory (sound : Sound h) {i : Nat} (made : i < size h) :
    ∃ scope : Scope, (ofHistory h)[i]? = some ⟨parent h i, scope⟩ ∧ ∀ x, scope.find? x = bound h i x := by
  induction h with
  | nil => cases made
  | cons d h ih =>
    cases d with
    | grow p =>
      rw [ofHistory, grow, Array.getElem?_push, size_ofHistory, parent]
      by_cases last : i = size h
      · refine ⟨[], by simp [last], fun x => ?_⟩
        exact (bound_eq_none sound.2 (Nat.le_of_eq last.symm) x).symm
      · rw [if_neg last, if_neg last]
        exact ih sound.2 (by simp only [size] at made; omega)
    | insert j y sym =>
      obtain ⟨scope, found, same⟩ := ih sound.2 made
      rw [ofHistory, insert, Array.getElem?_modify, found]
      by_cases here : j = i
      · refine ⟨_, by rw [if_pos here]; rfl, fun x => ?_⟩
        rw [Bindings.find?_insert, same, bound]
        simp [here]
      · refine ⟨scope, by rw [if_neg here]; rfl, fun x => ?_⟩
        rw [same, bound, if_neg fun both => here both.1]

/-- The chain of a scope is not cut off by the bound on its length. -/
theorem chainUpTo_ofHistory (sound : Sound h) {n m i : Nat} (hn : i < n) (hm : i < m) :
    (ofHistory h).chainUpTo n i = (ofHistory h).chainUpTo m i := by
  induction n generalizing m i with
  | zero => cases hn
  | succ n ih =>
    obtain ⟨m, rfl⟩ := Nat.exists_eq_succ_of_ne_zero (Nat.ne_zero_of_lt hm)
    unfold chainUpTo
    cases found : (ofHistory h)[i]? with
    | none => rfl
    | some s =>
      have made : i < size h := by
        rw [← size_ofHistory]
        exact (Array.getElem?_eq_some_iff.1 found).1
      obtain ⟨scope, found', -⟩ := getElem?_ofHistory sound made
      obtain rfl := Option.some.inj (found.symm.trans found')
      cases hp : parent h i with
      | none => rfl
      | some p =>
        have := (parent_lt sound hp).1
        exact congrArg (scope :: ·) (ih (by omega) (by omega))

/-- **One step of looking a name up**: what the scope has, or else what its parent finds. -/
theorem lookup_ofHistory (sound : Sound h) (s : Nat) (x : String) :
    (ofHistory h).lookup s x = (bound h s x).or ((parent h s).bind fun p => (ofHistory h).lookup p x) := by
  unfold lookup chain
  rcases Nat.lt_or_ge s (size h) with made | late
  · obtain ⟨scope, found, same⟩ := getElem?_ofHistory sound made
    rw [chainUpTo, found, ← same]
    cases hp : parent h s with
    | none => cases own : scope.find? x <;> simp [own]
    | some p =>
      have longer := chainUpTo_ofHistory sound (m := p + 1) (parent_lt sound hp).1 (Nat.lt_succ_self p)
      cases own : scope.find? x <;> simp [own, longer]
  · have absent : (ofHistory h)[s]? = none := Array.getElem?_eq_none (size_ofHistory h ▸ late)
    rw [chainUpTo, absent, bound_eq_none sound late]
    cases hp : parent h s with
    | none => rfl
    | some p => exact absurd (parent_lt sound hp).2 (Nat.not_lt.2 late)

theorem lookup_of_seen (sound : Sound h) {s t : Nat} {x : String} {sym : Symbol} (seen : Seen h s x t)
    (found : bound h t x = some sym) : (ofHistory h).lookup s x = some sym := by
  obtain ⟨nearer, way, none⟩ := seen
  induction way with
  | here s => rw [lookup_ofHistory sound, found, Option.some_or]
  | out hp _ ih =>
    obtain ⟨own, rest⟩ := List.forall_mem_cons.1 none
    rw [lookup_ofHistory sound, own, hp]
    exact ih found rest

theorem seen_of_lookup (sound : Sound h) {s : Nat} {x : String} {sym : Symbol} (found : (ofHistory h).lookup s x = some sym) :
    ∃ t, Seen h s x t ∧ bound h t x = some sym := by
  induction s using Nat.strongRecOn with
  | ind s ih =>
    rw [lookup_ofHistory sound] at found
    cases own : bound h s x with
    | some sym' => exact ⟨s, ⟨[], .here s, by simp⟩, by simpa [own] using found⟩
    | none =>
      obtain ⟨p, hp, found⟩ := Option.bind_eq_some_iff.1 (by simpa [own] using found)
      obtain ⟨t, seen, found⟩ := ih p (parent_lt sound hp).1 found
      exact ⟨t, seen.out own hp, found⟩

theorem bound_of_lookup_eq_none (sound : Sound h) {s t : Nat} {x : String} {nearer : List Nat} (way : Way h s nearer t)
    (absent : (ofHistory h).lookup s x = none) : bound h t x = none := by
  induction way with
  | here s =>
    rw [lookup_ofHistory sound, Option.or_eq_none_iff] at absent
    exact absent.1
  | out hp _ ih =>
    rw [lookup_ofHistory sound, Option.or_eq_none_iff, hp] at absent
    exact ih absent.2

section
variable {t : Nat} {x : String} {sym : Symbol}

/-- A new binding is found from where it is seen. -/
theorem lookup_insert_of_seen (sound : Sound h) (made : t < size h) {s : Nat} (seen : Seen h s x t) :
    (ofHistory (.insert t x sym :: h)).lookup s x = some sym := by
  have sound' : Sound (.insert t x sym :: h) := ⟨made, sound⟩
  obtain ⟨nearer, way, none⟩ := seen
  induction way with
  | here s => rw [lookup_ofHistory sound', bound, if_pos ⟨rfl, rfl⟩, Option.some_or]
  | @out s p t nearer hp way ih =>
    obtain ⟨own, rest⟩ := List.forall_mem_cons.1 none
    have other : t ≠ s := Nat.ne_of_lt (Nat.lt_of_le_of_lt (way.le sound) (parent_lt sound hp).1)
    rw [lookup_ofHistory sound', bound, if_neg fun same => other same.1, own, parent, hp]
    exact ih made sound' rest

/-- **A new binding is found under its name only, and only from where it is seen.** -/
theorem seen_of_lookup_insert_ne (sound : Sound h) (made : t < size h) {s : Nat} {y : String}
    (changed : (ofHistory (.insert t x sym :: h)).lookup s y ≠ (ofHistory h).lookup s y) : y = x ∧ Seen h s x t := by
  induction s using Nat.strongRecOn with
  | ind s ih =>
    have sound' : Sound (.insert t x sym :: h) := ⟨made, sound⟩
    rw [lookup_ofHistory sound', lookup_ofHistory sound, bound, parent] at changed
    by_cases here : t = s ∧ x = y
    · obtain ⟨rfl, rfl⟩ := here
      exact ⟨rfl, [], .here t, by simp⟩
    · rw [if_neg here] at changed
      cases own : bound h s y with
      | some sym' => simp [own] at changed
      | none =>
        cases hp : parent h s with
        | none => simp [own, hp] at changed
        | some p =>
          obtain ⟨rfl, seen⟩ := ih p (parent_lt sound hp).1 (by simpa [own, hp] using changed)
          exact ⟨rfl, seen.out own hp⟩

end

/-- **Names are found in the nearest scope.**  Whatever scopes were made and names were bound, looking `x` up in scope `s` finds
what `x` was last bound to in the nearest scope on the chain of `s` that has it, and nothing if none has.

If a name is bound in scope `t`, another symbol is found in `s` only under that name, if `t` is on the chain of `s` and no nearer
scope has the name; and then the new symbol is found. -/
theorem lookup_nearest (sound : Sound h) (s : Nat) (x : String) :
    (∀ sym, (ofHistory h).lookup s x = some sym ↔ ∃ t, Seen h s x t ∧ bound h t x = some sym) ∧
    ((ofHistory h).lookup s x = none ↔ ∀ nearer t, Way h s nearer t → bound h t x = none) ∧
    ∀ t y sym, t < size h →
      ((ofHistory (.insert t y sym :: h)).lookup s x ≠ (ofHistory h).lookup s x → x = y ∧ Seen h s y t) ∧
      (Seen h s y t → (ofHistory (.insert t y sym :: h)).lookup s y = some sym) := by
  refine ⟨fun sym => ⟨seen_of_lookup sound, fun ⟨t, seen, found⟩ => lookup_of_seen sound seen found⟩, ⟨?_, ?_⟩, ?_⟩
  · exact fun absent nearer t way => bound_of_lookup_eq_none sound way absent
  · intro unbound
    refine Option.eq_none_iff_forall_ne_some.2 fun sym found => ?_
    obtain ⟨t, ⟨nearer, way, -⟩, bound⟩ := seen_of_lookup sound found
    exact absurd ((unbound nearer t way).symm.trans bound) (by simp)
  · exact fun t y sym made => ⟨seen_of_lookup_insert_ne sound made, lookup_insert_of_seen sound made⟩

/-- Two scopes inside a first one, each with a variable of the same name, which is bound a second time in the outer one. -/
def shadowing : History :=
  [.insert 0 "x" { name := "x", kind := .variable, type := some "bool" }, .insert 1 "x" { name := "x", kind := .function },
    .grow (some 0), .grow (some 0), .insert 0 "x" { name := "x", kind := .variable }, .grow none]

theorem shadowing_nearest : Sound shadowing ∧ (∃ t, Seen shadowing 1 "x" t ∧
      bound shadowing t "x" = some { name := "x", kind := .function }) ∧
    (∃ t, Seen shadowing 2 "x" t ∧ bound shadowing t "x" = some { name := "x", kind := .variable, type := some "bool" }) := by
  have sound : Sound shadowing := by simp [Sound, shadowing, size]
  refine ⟨sound, ((lookup_nearest sound 1 "x").1 _).1 ?_, ((lookup_nearest sound 2 "x").1 _).1 ?_⟩ <;> decide

/-! ### The scopes of a walk -/

theorem scope_grow {i : Nat} (made : i < size h) (p : Option Nat) :
    (ofHistory (.grow p :: h)).scope i = (ofHistory h).scope i := by
  rw [scope, scope, ofHistory, grow, Array.getElem?_push, size_ofHistory, if_neg (Nat.ne_of_lt made)]

theorem scope_insert {i : Nat} (made : i < size h) (t : Nat) (x : String) (sym : Symbol) :
    (ofHistory (.insert t x sym :: h)).scope i =
      if t = i then Bindings.insert x sym ((ofHistory h).scope i) else (ofHistory h).scope i := by
  have found : (ofHistory h)[i]? = some _ := Array.getElem?_eq_getElem (size_ofHistory h ▸ made)
  rw [scope, scope, ofHistory, insert, Array.getElem?_modify, found]
  split <;> rfl

/-- **The chain of a scope** is the scope itself, and the chain of its parent. -/
theorem chain_ofHistory (sound : Sound h) {i : Nat} (made : i < size h) :
    (ofHistory h).chain i = (ofHistory h).scope i :: (parent h i).elim [] (ofHistory h).chain := by
  obtain ⟨scope, found, -⟩ := getElem?_ofHistory sound made
  rw [chain, chainUpTo, Forest.scope, found]
  cases hp : parent h i with
  | none => rfl
  | some p => exact congrArg (scope :: ·) (chainUpTo_ofHistory sound (parent_lt sound hp).1 (Nat.lt_succ_self p))

/-- A chain is told by its scopes and their parents. -/
theorem chain_congr {h' : History} (sound : Sound h) (sound' : Sound h') {i : Nat} (made : i < size h) (made' : i < size h')
    (same : ∀ j ≤ i, parent h' j = parent h j ∧ (ofHistory h').scope j = (ofHistory h).scope j) :
    (ofHistory h').chain i = (ofHistory h).chain i := by
  induction i using Nat.strongRecOn with
  | ind i ih =>
    obtain ⟨parents, scopes⟩ := same i (Nat.le_refl i)
    rw [chain_ofHistory sound made, chain_ofHistory sound' made', parents, scopes]
    cases hp : parent h i with
    | none => rfl
    | some p =>
      have before := (parent_lt sound hp).1
      exact congrArg (_ :: ·) (ih p before (Nat.lt_trans before made) (Nat.lt_trans before made') fun j hj =>
        same j (Nat.le_trans hj (Nat.le_of_lt before)))

theorem chain_grow (sound : Sound h) {p : Option Nat} (hp : ∀ j ∈ p, j < size h) {i : Nat} (made : i < size h) :
    (ofHistory (.grow p :: h)).chain i = (ofHistory h).chain i := by
  have sound' : Sound (.grow p :: h) := ⟨hp, sound⟩
  refine chain_congr sound sound' made (Nat.lt_succ_of_lt made) fun j hj => ?_
  have made := Nat.lt_of_le_of_lt hj made
  exact ⟨if_neg (Nat.ne_of_lt made), scope_grow made p⟩

/-- What is bound in a scope does not show in the chains of earlier ones. -/
theorem chain_insert_of_lt (sound : Sound h) {i t : Nat} (made : t < size h) (before : i < t) (x : String) (sym : Symbol) :
    (ofHistory (.insert t x sym :: h)).chain i = (ofHistory h).chain i := by
  have sound' : Sound (.insert t x sym :: h) := ⟨made, sound⟩
  have made' := Nat.lt_trans before made
  refine chain_congr sound sound' made' made' fun j hj => ⟨rfl, ?_⟩
  rw [scope_insert (Nat.lt_of_le_of_lt hj made'), if_neg (Nat.ne_of_gt (Nat.lt_of_le_of_lt hj before))]

theorem chain_insert_self (sound : Sound h) {i : Nat} (made : i < size h) (x : String) (sym : Symbol) :
    (ofHistory (.insert i x sym :: h)).chain i =
      Bindings.insert x sym ((ofHistory h).scope i) :: (parent h i).elim [] (ofHistory h).chain := by
  have sound' : Sound (.insert i x sym :: h) := ⟨made, sound⟩
  rw [chain_ofHistory sound' made, scope_insert made, if_pos rfl, parent]
  cases hp : parent h i with
  | none => rfl
  | some p => exact congrArg (_ :: ·) (chain_insert_of_lt sound made (parent_lt sound hp).1 x sym)

theorem update_eq_insert {x : String} {f : Symbol → Symbol} {sym : Symbol} : ∀ {s : Scope}, s.find? x = some sym →
    Bindings.update x f s = Bindings.insert x (f sym) s
  | entry :: s, found => by
    rw [Bindings.find?_cons] at found
    rw [Bindings.update, Bindings.insert]
    split at found
    · next h =>
      cases found
      rw [if_pos h, if_pos h, h]
    · next h => rw [if_neg h, if_neg h, update_eq_insert found]

/-- A symbol that is changed where it is seen is bound anew there. -/
theorem exists_updateFirst (sound : Sound h) (x : String) (f : Symbol → Symbol) {i : Nat} (made : i < size h) :
    (ofHistory h).chain i = Chain.updateFirst x f ((ofHistory h).chain i) ∨ ∃ t ≤ i, ∃ sym,
      (ofHistory (.insert t x sym :: h)).chain i = Chain.updateFirst x f ((ofHistory h).chain i) := by
  induction i using Nat.strongRecOn with
  | ind i ih =>
    rw [chain_ofHistory sound made, Chain.updateFirst]
    cases own : ((ofHistory h).scope i).find? x with
    | some sym =>
      refine .inr ⟨i, Nat.le_refl i, f sym, ?_⟩
      rw [chain_insert_self sound made, Option.isSome_some, if_pos rfl, update_eq_insert own]
    | none =>
      rw [Option.isSome_none, if_neg Bool.false_ne_true]
      cases hp : parent h i with
      | none => exact .inl rfl
      | some p =>
        have before := (parent_lt sound hp).1
        rcases ih p before (Nat.lt_trans before made) with same | ⟨t, ht, sym, changed⟩
        · exact .inl (congrArg (_ :: ·) same)
        · have early : t < i := Nat.lt_of_le_of_lt ht before
          have sound' : Sound (.insert t x sym :: h) := ⟨Nat.lt_trans early made, sound⟩
          refine .inr ⟨t, Nat.le_of_lt early, sym, ?_⟩
          rw [chain_ofHistory sound' made, scope_insert made, if_neg (Nat.ne_of_lt early), parent, hp]
          exact congrArg (_ :: ·) changed

/-- Whatever forest has the scopes of the walk as the chain of some scope, deeds lead to a forest that has them later on as the
chain of the same scope. -/
def Follows (s s' : Checker) : Prop :=
  ∀ past i, Sound past → i < size past → (ofHistory past).chain i = s.chain.scopes →
    ∃ deeds, Sound (deeds ++ past) ∧ (ofHistory (deeds ++ past)).chain i = s'.chain.scopes

theorem size_le_append (deeds past : History) : size past ≤ size (deeds ++ past) := by
  induction deeds with
  | nil => exact Nat.le_refl _
  | cons d deeds ih => cases d with
    | grow p => exact Nat.le_succ_of_le ih
    | insert t x sym => exact ih

/-- The parent of a scope stays the same. -/
theorem parent_append (deeds past : History) {i : Nat} (made : i < size past) : parent (deeds ++ past) i = parent past i := by
  induction deeds with
  | nil => rfl
  | cons d deeds ih => cases d with
    | grow p => exact (if_neg (Nat.ne_of_lt (Nat.lt_of_lt_of_le made (size_le_append deeds past)))).trans ih
    | insert t x sym => exact ih

theorem allows_follows : Check.Allows Follows where
  trans first rest past i sound made shows := by
    obtain ⟨deeds, sound₁, shows₁⟩ := first past i sound made shows
    obtain ⟨deeds', sound₂, shows₂⟩ := rest _ i sound₁ (Nat.lt_of_lt_of_le made (size_le_append deeds past)) shows₁
    exact ⟨deeds' ++ deeds, by rwa [List.append_assoc], by rwa [List.append_assoc]⟩
  notes h past i sound _ shows := ⟨[], sound, h.chain ▸ shows⟩
  insert s x sym past i sound made shows := by
    refine ⟨[.insert i x sym], ⟨made, sound⟩, (chain_insert_self sound made x sym).trans ?_⟩
    rw [chain_ofHistory sound made, Chain.scopes, List.cons.injEq] at shows
    rw [shows.1, shows.2]
    rfl
  assigned s x past i sound made shows := by
    dsimp only
    rw [Chain.scopes_assigned, ← shows]
    rcases exists_updateFirst sound x _ made with same | ⟨t, ht, sym, changed⟩
    · exact ⟨[], sound, same⟩
    · exact ⟨[.insert t x sym], ⟨Nat.lt_of_le_of_lt ht made, sound⟩, changed⟩
  around := by
    intro s s' e inside past i sound made shows
    -- the scope of the function is made under the scope around it, and stays behind when the function is left
    have under : ∀ j ∈ some i, j < size past := fun j hj => Option.some.inj hj ▸ made
    have sound₁ : Sound (.grow (some i) :: past) := ⟨under, sound⟩
    have last : size past < size (.grow (some i) :: past) := Nat.lt_succ_self _
    have opened : (ofHistory (.grow (some i) :: past)).chain (size past) = s.chain.enter.scopes := by
      rw [chain_ofHistory sound₁ last, parent, if_pos rfl, Option.elim_some, chain_grow sound under made, shows, scope,
        ofHistory, grow, Array.getElem?_push, size_ofHistory, if_pos rfl]
      rfl
    obtain ⟨deeds, sound₂, closed⟩ := inside _ _ sound₁ last opened
    refine ⟨deeds ++ [.grow (some i)], by rwa [List.append_assoc], ?_⟩
    have made₁ := Nat.lt_of_lt_of_le last (size_le_append deeds _)
    rw [chain_ofHistory sound₂ made₁, parent_append deeds _ last, parent, if_pos rfl, Option.elim_some, Chain.scopes,
      List.cons.injEq, chain_ofHistory sound₂ (Nat.lt_trans made made₁)] at closed
    rw [List.append_assoc, List.singleton_append, chain_ofHistory sound₂ (Nat.lt_trans made made₁), closed.2, Chain.leave,
      ← closed.2]
    rfl

/-- **A forest follows a walk over any tree, from any state**: if the scopes of the walk are the chain of some scope of the
forest, then after some deeds they are so again, and a name is found in this scope as the walk finds it. -/
theorem visit_follows (tree : Node) {s s' : Checker} {type : Option String} (walk : Ran (Check.visit tree) s type s')
    {i : Nat} (sound : Sound h) (made : i < size h) (shows : (ofHistory h).chain i = s.chain.scopes) :
    ∃ deeds, Sound (deeds ++ h) ∧ (ofHistory (deeds ++ h)).chain i = s'.chain.scopes ∧
      ∀ x, (ofHistory (deeds ++ h)).lookup i x = s'.chain.lookup x := by
  obtain ⟨deeds, sound', shows'⟩ := allows_follows.visit tree s type s' walk h i sound made shows
  refine ⟨deeds, sound', shows', fun x => ?_⟩
  rw [lookup, shows']
  rfl

end TesLang.Forest
