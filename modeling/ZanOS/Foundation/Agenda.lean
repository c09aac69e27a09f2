import Mathlib.Algebra.Order.Ring.Nat
import Mathlib.Data.List.Sort
import Mathlib.Tactic.Common

/-!
# Agendas and clocks that wrap around

An agenda is a list of tasks in the order in which they are due, those that are due at the same time
in the order in which they came (`schedule`). A program often keeps it with a clock of 32 bits that
wraps around, and then decides which of two times is the earlier one by the sign of their
difference. That is right as long as no two times are further apart than half of the range of the
clock (`wrapLess_ofNat_iff`), and then the program's list is the agenda, entry by entry
(`map_schedule`).
-/

namespace Foundation

/-! ## Clocks that wrap around -/

/-- The first time is earlier than the second one, by the sign of their difference. -/
def wrapLess (a b : UInt32) : Prop := 0x7fffffff < a - b

instance (a b : UInt32) : Decidable (wrapLess a b) := inferInstanceAs (Decidable (_ < _))

/-- **The sign of the difference is right** for times that are less than half the range apart. -/
theorem wrapLess_ofNat_iff {a b : ℕ} (hab : a < b + 2 ^ 31) (hba : b < a + 2 ^ 31) :
    wrapLess (UInt32.ofNat a) (UInt32.ofNat b) ↔ a < b := by
  have hmax : (0x7fffffff : UInt32).toNat = 0x7fffffff := rfl
  rw [wrapLess, UInt32.lt_iff_toNat_lt, UInt32.toNat_sub, UInt32.toNat_ofNat', UInt32.toNat_ofNat',
    hmax]
  omega

theorem ofNat_sub_ofNat {a b : ℕ} (hle : b ≤ a) :
    UInt32.ofNat a - UInt32.ofNat b = UInt32.ofNat (a - b) := by
  rw [← UInt32.toNat_inj, UInt32.toNat_sub, UInt32.toNat_ofNat', UInt32.toNat_ofNat',
    UInt32.toNat_ofNat']
  omega

/-! ## Agendas -/

variable {α : Type*}

/-- A task and the time at which it is due. -/
structure Entry (α : Type*) where
  due : ℕ
  task : α

/-- The entry is due before the other one. -/
def Before (e f : Entry α) : Prop := e.due < f.due

instance (e f : Entry α) : Decidable (Before e f) := inferInstanceAs (Decidable (_ < _))

/-- An entry is put behind all that are not due later. -/
def schedule (e : Entry α) (l : List (Entry α)) : List (Entry α) := l.orderedInsert Before e

/-- The agenda is in order. -/
def Ordered (l : List (Entry α)) : Prop := l.Pairwise fun e f ↦ e.due ≤ f.due

theorem perm_schedule (e : Entry α) (l : List (Entry α)) : (schedule e l).Perm (e :: l) :=
  List.perm_orderedInsert _ _ _

theorem mem_schedule {e f : Entry α} {l : List (Entry α)} : f ∈ schedule e l ↔ f = e ∨ f ∈ l :=
  List.mem_orderedInsert _

theorem Ordered.schedule {l : List (Entry α)} (h : Ordered l) (e : Entry α) :
    Ordered (schedule e l) := by
  induction l with
  | nil => exact List.pairwise_singleton _ _
  | cons f l ih =>
    obtain ⟨hf, hl⟩ := List.pairwise_cons.mp h
    rw [Foundation.schedule, List.orderedInsert_cons]
    split_ifs with hlt
    · refine List.pairwise_cons.mpr ⟨fun g hg ↦ ?_, h⟩
      rcases List.mem_cons.mp hg with rfl | hg
      · exact Nat.le_of_lt hlt
      · exact (Nat.le_of_lt hlt).trans (hf g hg)
    · refine List.pairwise_cons.mpr ⟨fun g hg ↦ ?_, ih hl⟩
      rcases mem_schedule.mp hg with rfl | hg
      · exact Nat.le_of_not_lt hlt
      · exact hf g hg

/-- The agenda of a program whose clock wraps around. -/
theorem map_schedule {β : Type*} {less : β → β → Prop} [DecidableRel less] (f : Entry α → β)
    (e : Entry α) (l : List (Entry α))
    (h : ∀ x ∈ l, (less (f e) (f x) ↔ Before e x) ∧ (less (f x) (f e) ↔ Before x e)) :
    (schedule e l).map f = (l.map f).orderedInsert less (f e) :=
  List.map_orderedInsert _ _ f l e (fun x hx ↦ (h x hx).2.symm) fun x hx ↦ (h x hx).1.symm

theorem Ordered.head_le {e : Entry α} {l : List (Entry α)} (h : Ordered (e :: l)) :
    ∀ f ∈ e :: l, e.due ≤ f.due := by
  intro f hf
  rcases List.mem_cons.mp hf with rfl | hf
  · exact le_rfl
  · exact (List.pairwise_cons.mp h).1 f hf

end Foundation
