import Std.Data.String.ToInt
import TesLang.Proofs.Generation.Registers
/-!
# What a bank hands out

A bank serves demands: for a register, for a name to be reserved, to be cleared, and to go on from some number
(`Bank.serve`).  A journal tells what has been done, the latest first, and from it alone it is clear which names are taken
(`Journal.held`) and which registers were handed out (`Journal.handedOut`).

Whatever was demanded, the next register is the first one at or after the point of the bank whose name is not taken, and
the highest number is that of a register that was handed out (`allocate_least`).
-/
namespace TesLang.Code

namespace Reg

theorem text_inj {r q : Reg} : r.text = q.text ↔ r = q := by
  refine ⟨fun h => ?_, fun h => h ▸ rfl⟩
  have digits := Int.repr_inj.1 ((String.append_right_inj "r").1 h)
  cases r
  cases q
  exact congrArg Reg.mk digits

theorem ofText?_eq_some {s : String} {r : Reg} : ofText? s = some r ↔ r.text = s := by
  constructor
  · intro h
    rw [ofText?, Option.bind_eq_bind, Option.bind_eq_some_iff] at h
    obtain ⟨i, -, hi⟩ := h
    dsimp only at hi
    split at hi
    · next same => exact Option.some.inj hi ▸ same
    · cases hi
  · rintro rfl
    have digits : (r.text.drop 1).toString = r.index.repr := by
      rw [← String.toList_inj]
      simp [text, toString]
    rw [ofText?, digits, Int.toInt?_repr]
    exact if_pos rfl

end Reg

namespace Bank

/-- **The register that is handed out next is the first free one**: all before it, from the point on, are taken. -/
theorem free_least (b : Bank) : b.current ≤ b.free ∧ ∀ i, b.current ≤ i → i < b.free → (⟨i⟩ : Reg) ∈ b.taken := by
  unfold free candidates
  rw [List.find?_map]
  cases found : (List.range (b.taken.length + 1)).find? _ with
  | none => exact ⟨Int.le_refl _, fun i low high => by simp at high; omega⟩
  | some n =>
    obtain ⟨-, -, before⟩ := List.find?_range_eq_some.1 found
    refine ⟨Int.le_add_of_nonneg_right (Int.natCast_nonneg n), fun i low high => ?_⟩
    obtain ⟨d, rfl⟩ := Int.le.dest low
    have taken := before d (by simpa using high)
    simpa using taken

/-- What may be demanded of a bank. -/
inductive Demand where
  | allocate
  | reserve (name : String)
  | clear
  | moveTo (n : Nat)

/-- What has been done with a bank. -/
inductive Event where
  | handedOut (r : Reg)
  | reserved (name : String)
  | cleared
  | moved (n : Nat)

/-- What has been done, the latest first. -/
abbrev Journal := List Event

namespace Journal

/-- The names that were handed out or reserved since the bank was cleared, and that of the first register. -/
def held : Journal → List String
  | [] | .cleared :: _ => ["r0"]
  | .handedOut r :: es => r.text :: held es
  | .reserved s :: es => s :: held es
  | .moved _ :: es => held es

/-- All registers that were ever handed out. -/
def handedOut (es : Journal) : List Reg :=
  es.filterMap fun
    | .handedOut r => some r
    | _ => none

end Journal

/-- A demand is served, and what was done is noted. -/
def step : Journal × Bank → Demand → Journal × Bank
  | (es, b), .allocate => (.handedOut b.allocate.1 :: es, b.allocate.2)
  | (es, b), .reserve s => (.reserved s :: es, b.reserveName s)
  | (es, b), .clear => (.cleared :: es, b.clear)
  | (es, b), .moveTo n => (.moved n :: es, b.moveTo n)

/-- Demands are served one after another, by a bank that is new. -/
def serve (ds : List Demand) : Journal × Bank := ds.foldl step ([], {})

/-- **What a bank is, by its journal**: which registers are taken, where it stands, and its highest number. -/
structure Follows (es : Journal) (b : Bank) : Prop where
  taken : ∀ r : Reg, r ∈ b.taken ↔ r.text ∈ Journal.held es
  current : 0 ≤ b.current
  upper : ∀ r ∈ Journal.handedOut es, r.index ≤ b.highest
  highest : (Journal.handedOut es = [] ∧ b.highest = 0) ∨ ∃ r ∈ Journal.handedOut es, r.index = b.highest

theorem mem_taken_reserveName (b : Bank) (s : String) (r : Reg) :
    r ∈ (b.reserveName s).taken ↔ r ∈ b.taken ∨ r.text = s := by
  unfold reserveName
  cases name : Reg.ofText? s with
  | some q =>
    obtain rfl := Reg.ofText?_eq_some.1 name
    rw [Reg.text_inj]
    exact mem_taken_reserve b q r
  | none =>
    have other : r.text ≠ s := fun h => by simp [Reg.ofText?_eq_some.2 h] at name
    dsimp only
    split <;> simp [other]

@[simp] theorem current_reserveName (b : Bank) (s : String) : (b.reserveName s).current = b.current := by
  unfold reserveName reserve
  repeat' split
  all_goals rfl

@[simp] theorem highest_reserveName (b : Bank) (s : String) : (b.reserveName s).highest = b.highest := by
  unfold reserveName reserve
  repeat' split
  all_goals rfl

theorem held_result (es : Journal) : "r0" ∈ Journal.held es := by
  fun_induction Journal.held es <;> simp_all

namespace Follows

variable {es : Journal} {b : Bank}

theorem free_nonneg (h : Follows es b) : 0 ≤ b.free := Int.le_trans h.current b.free_least.1

theorem allocate (h : Follows es b) : Follows (.handedOut b.allocate.1 :: es) b.allocate.2 where
  taken r := by
    rw [mem_taken_allocate, h.taken, Journal.held, List.mem_cons, Reg.text_inj, or_comm]
  current := Int.le_trans h.free_nonneg (Int.le_add_one (Int.le_refl _))
  upper r hr := by
    rcases List.mem_cons.1 hr with rfl | hr
    · exact Int.le_max_right _ _
    · exact Int.le_trans (h.upper r hr) (Int.le_max_left _ _)
  highest := by
    refine .inr ?_
    rcases Int.le_total b.highest b.free with le | le
    · exact ⟨_, List.mem_cons_self, (Int.max_eq_right le).symm⟩
    · rcases h.highest with ⟨-, zero⟩ | ⟨r, hr, same⟩
      · refine ⟨_, List.mem_cons_self, (Int.max_eq_right ?_).symm⟩
        exact zero ▸ h.free_nonneg
      · exact ⟨r, List.mem_cons_of_mem _ hr, same.trans (Int.max_eq_left le).symm⟩

theorem step (h : Follows es b) (d : Demand) : Follows (step (es, b) d).1 (step (es, b) d).2 := by
  cases d with
  | allocate => exact h.allocate
  | reserve s =>
    refine ⟨fun r => ?_, ?_, ?_, ?_⟩
    · show r ∈ (b.reserveName s).taken ↔ r.text ∈ s :: Journal.held es
      rw [mem_taken_reserveName, h.taken, List.mem_cons, or_comm]
    · exact (current_reserveName b s).symm ▸ h.current
    · exact (highest_reserveName b s).symm ▸ h.upper
    · exact (highest_reserveName b s).symm ▸ h.highest
  | clear =>
    refine ⟨fun r => ?_, Int.le_refl _, h.upper, h.highest⟩
    show r ∈ [Reg.result] ↔ r.text ∈ [Reg.result.text]
    rw [List.mem_singleton, List.mem_singleton, Reg.text_inj]
  | moveTo n => exact ⟨h.taken, Int.natCast_nonneg n, h.upper, h.highest⟩

end Follows

/-- **A bank follows its journal, whatever was demanded.** -/
theorem follows_serve (ds : List Demand) : Follows (serve ds).1 (serve ds).2 := by
  have new : Follows [] {} := by
    refine ⟨fun r => ?_, Int.le_refl _, by simp [Journal.handedOut], .inl ⟨rfl, rfl⟩⟩
    show r ∈ [Reg.result] ↔ r.text ∈ [Reg.result.text]
    rw [List.mem_singleton, List.mem_singleton, Reg.text_inj]
  exact List.foldlRecOn (motive := fun p : Journal × Bank => Follows p.1 p.2) ds step (b := ([], {})) new fun p h d _ => h.step d

/-- **The search for a register**: a number whose register is taken is passed by. -/
inductive Seeks (held : List String) : Int → Int → Prop where
  | found {k : Int} : Reg.text ⟨k⟩ ∉ held → Seeks held k k
  | next {i k : Int} : Reg.text ⟨i⟩ ∈ held → Seeks held (i + 1) k → Seeks held i k

theorem seeks_of_least {held : List String} {k : Int} (free : Reg.text ⟨k⟩ ∉ held) (n : Nat)
    (before : ∀ i, k - n ≤ i → i < k → Reg.text ⟨i⟩ ∈ held) : Seeks held (k - n) k := by
  induction n with
  | zero => simpa using Seeks.found free
  | succ n ih =>
    refine .next (before _ (Int.le_refl _) (by omega)) ?_
    have step : k - ((n + 1 : Nat) : Int) + 1 = k - n := by omega
    rw [step]
    exact ih fun i low high => before i (by omega) high

/-- **What is handed out, after any demands.**  The search from the point of the bank ends, at the least number whose register is
not taken; that register is handed out, and the point is behind it.  It is not the first register, nor any that was handed out
or reserved since the bank was cleared, wherever the point was moved.

The highest number is the largest one that was handed out since the bank was made, or zero if there is none, and clearing the
bank does not change it. -/
theorem allocate_least (ds : List Demand) :
    (∃ k : Nat, Seeks (Journal.held (serve ds).1) (serve ds).2.current k ∧
      (serve ds).2.allocate.1.text = "r" ++ toString k ∧ (serve ds).2.allocate.2.current = k + 1 ∧
      (serve ds).2.current ≤ k ∧ "r" ++ toString k ∉ Journal.held (serve ds).1 ∧
      (∀ i : Nat, (serve ds).2.current ≤ i → i < k → "r" ++ toString i ∈ Journal.held (serve ds).1)) ∧
    (serve ds).2.allocate.1.text ≠ "r0" ∧
    (∀ r ∈ Journal.handedOut (serve ds).1, r.index ≤ (serve ds).2.highest) ∧
    (Journal.handedOut (serve ds).1 = [] ∧ (serve ds).2.highest = 0 ∨
      ∃ r ∈ Journal.handedOut (serve ds).1, r.index = (serve ds).2.highest) ∧
    (serve (ds ++ [.clear])).2.highest = (serve ds).2.highest := by
  have h := follows_serve ds
  generalize served : serve ds = p at h ⊢
  obtain ⟨es, b⟩ := p
  dsimp only at h ⊢
  obtain ⟨low, before⟩ := b.free_least
  have fresh : Reg.text ⟨b.free⟩ ∉ Journal.held es := fun held => b.free_notMem ((h.taken _).2 held)
  have taken (i : Int) (ge : b.current ≤ i) (lt : i < b.free) : Reg.text ⟨i⟩ ∈ Journal.held es :=
    (h.taken _).1 (before i ge lt)
  obtain ⟨k, hk⟩ := Int.eq_ofNat_of_zero_le h.free_nonneg
  have point : (k : Int) - (k - b.current).toNat = b.current := by omega
  rw [hk] at low fresh taken
  have sought := seeks_of_least fresh (k - b.current).toNat fun i ge lt => taken i (by omega) lt
  rw [point] at sought
  have handed : b.allocate.1 = ⟨k⟩ := congrArg Reg.mk hk
  refine ⟨⟨k, sought, congrArg Reg.text handed, congrArg (Reg.index · + 1) handed, low, fresh, fun i ge lt => ?_⟩, ?_,
    h.upper, h.highest, ?_⟩
  · exact taken i ge (by omega)
  · rw [handed]
    exact fun same => fresh (same ▸ held_result es)
  · rw [serve, List.foldl_append, ← serve, served]
    rfl

end Bank

end TesLang.Code
