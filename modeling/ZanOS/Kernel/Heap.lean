import Mathlib.Algebra.BigOperators.Group.List.Basic
import Mathlib.Algebra.Order.Ring.Nat
import Mathlib.Data.Set.Lattice
import Mathlib.Order.CompletePartialOrder
import Mathlib.Order.Interval.Set.Basic
import ZanOS.Foundation.Machine

/-!
# The kernel heap

`heap.c` is a bump allocator over 32-bit addresses. Nothing is ever freed, so the state is one
pointer, the end of the region and a byte count; `kmalloc` compares `heap_ptr + size` with the end
and otherwise moves the pointer. Both the comparison and the move are modular, and `NULL` is the
address `0`, so two kinds of request fall outside what the comparison is meant to guarantee:

* a size that carries `heap_ptr + size` past `2 ^ 32` compares as a small address and is granted;
* a block at address `0` is handed out as the value that means failure.

`Fits` excludes exactly these two, as a condition on the state before the request: a run turns out
to be safe precisely when each of its requests fits.

The comparison is also too strict by one byte: a request that reaches the end of the region exactly
is refused, so a heap is never used up (`ServesAll`).
-/

namespace ZanOS

open Foundation

/-- The statics of `heap.c`. -/
structure Heap where
  heapPtr : UInt32
  heapEnd : UInt32
  used : UInt32
  deriving DecidableEq

/-- `heap_init`. -/
def heapInit (start size : UInt32) : Heap where
  heapPtr := start
  heapEnd := start + size
  used := 0

/-- `kmalloc`, with the returned pointer; `0` is `NULL`. -/
def kmalloc (h : Heap) (size : UInt32) : Heap × UInt32 :=
  if h.heapPtr + size ≥ h.heapEnd then (h, 0)
  else ({ h with heapPtr := h.heapPtr + size, used := h.used + size }, h.heapPtr)

/-- `heap_used`. -/
def heapUsed (h : Heap) : UInt32 := h.used

/-- Runs of `kmalloc` requests. -/
def heapMachine : Machine Heap UInt32 UInt32 where
  next h size := some (kmalloc h size)

theorem toNat_add_of_lt {a b : UInt32} (h : a.toNat + b.toNat < 2 ^ 32) :
    (a + b).toNat = a.toNat + b.toNat := by
  rw [UInt32.toNat_add, Nat.mod_eq_of_lt h]

namespace Heap

/-- A request of a run, with its result. -/
abbrev Request := Transition Heap UInt32 UInt32

/-- The requests that returned a non-`NULL` pointer. -/
def granted (tr : List Request) : List Request := tr.filter fun t ↦ t.output ≠ 0

/-- The sum of the sizes granted, as an unbounded number. -/
def total (tr : List Request) : ℕ := ((granted tr).map fun t ↦ t.event.toNat).sum

/-- The addresses of the block a request was given. -/
def block (t : Request) : Set ℕ := Set.Ico t.output.toNat (t.output.toNat + t.event.toNat)

/-- What a caller of `kmalloc` relies on over a whole run from `heap_init start size`. -/
structure Safe (start size : UInt32) (tr : List Request) (h : Heap) : Prop where
  /-- Every block lies inside the region. -/
  inside : ∀ t ∈ tr, t.output ≠ 0 → start.toNat ≤ t.output.toNat ∧
    t.output.toNat + t.event.toNat ≤ start.toNat + size.toNat
  disjoint : (granted tr).Pairwise fun t u ↦ Disjoint (block t) (block u)
  used_eq : (heapUsed h).toNat = total tr
  used_le : (heapUsed h).toNat ≤ size.toNat
  /-- A refused request changes nothing. -/
  null_unchanged : ∀ t ∈ tr, t.output = 0 → t.post = t.pre

/-- The request neither wraps around the address space nor would be served from address `0`. -/
def Fits (h : Heap) (size : UInt32) : Prop :=
  h.heapPtr.toNat + size.toNat < 2 ^ 32 ∧
    ¬(h.heapPtr = 0 ∧ 0 < size ∧ size < h.heapEnd)

instance (h : Heap) (size : UInt32) : Decidable (Fits h size) :=
  inferInstanceAs (Decidable (_ ∧ _))

theorem granted_append_singleton (tr : List Request) (t : Request) :
    granted (tr ++ [t]) = if t.output = 0 then granted tr else granted tr ++ [t] := by
  rw [granted, List.filter_append, ← granted]
  by_cases ht : t.output = 0 <;> simp [ht]

theorem total_append_singleton (tr : List Request) (t : Request) :
    total (tr ++ [t]) = total tr + if t.output = 0 then 0 else t.event.toNat := by
  rw [total, granted_append_singleton]
  by_cases ht : t.output = 0 <;> simp [ht, total]

/-! ## One request -/

theorem kmalloc_cases {h : Heap} {size : UInt32} (hfit : h.heapPtr.toNat + size.toNat < 2 ^ 32) :
    (h.heapEnd.toNat ≤ h.heapPtr.toNat + size.toNat ∧ kmalloc h size = (h, 0)) ∨
      (h.heapPtr.toNat + size.toNat < h.heapEnd.toNat ∧
        kmalloc h size =
          ({ h with heapPtr := h.heapPtr + size, used := h.used + size }, h.heapPtr)) := by
  have hadd := toNat_add_of_lt hfit
  by_cases hle : h.heapEnd.toNat ≤ h.heapPtr.toNat + size.toNat
  · exact Or.inl ⟨hle, by rw [kmalloc, if_pos (UInt32.le_iff_toNat_le.mpr (by rwa [hadd]))]⟩
  · refine Or.inr ⟨not_le.mp hle, ?_⟩
    rw [kmalloc, if_neg]
    rw [ge_iff_le, UInt32.le_iff_toNat_le, hadd]
    exact hle

/-- A request that wraps is always granted: the wrapped sum is below the pointer it came from. -/
theorem kmalloc_of_wraps {h : Heap} {size : UInt32} (hle : h.heapPtr.toNat ≤ h.heapEnd.toNat)
    (hwrap : 2 ^ 32 ≤ h.heapPtr.toNat + size.toNat) :
    (kmalloc h size).2 = h.heapPtr := by
  have hptr := h.heapPtr.toNat_lt
  have hsize := size.toNat_lt
  have hadd : (h.heapPtr + size).toNat = h.heapPtr.toNat + size.toNat - 2 ^ 32 := by
    rw [UInt32.toNat_add]
    omega
  rw [kmalloc, if_neg]
  rw [ge_iff_le, UInt32.le_iff_toNat_le, hadd]
  omega

/-! ## Runs of fitting requests -/

/-- The invariant: the pointer has moved by exactly what was granted, and every block handed out
so far lies between the start of the region and the pointer. -/
structure Inv (start size : UInt32) (tr : List Request) (h : Heap) : Prop where
  end_eq : h.heapEnd.toNat = start.toNat + size.toNat
  ptr_eq : h.heapPtr.toNat = start.toNat + total tr
  used_eq : h.used.toNat = total tr
  ptr_le : h.heapPtr.toNat ≤ h.heapEnd.toNat
  below : ∀ t ∈ granted tr, start.toNat ≤ t.output.toNat ∧
    t.output.toNat + t.event.toNat ≤ h.heapPtr.toNat
  disjoint : (granted tr).Pairwise fun t u ↦ Disjoint (block t) (block u)
  null_unchanged : ∀ t ∈ tr, t.output = 0 → t.post = t.pre

variable {start size : UInt32} {tr : List Request} {h : Heap}

theorem inv_heapInit (hsize : start.toNat + size.toNat < 2 ^ 32) :
    Inv start size [] (heapInit start size) := by
  have hend := toNat_add_of_lt hsize
  refine ⟨hend, rfl, rfl, ?_, by simp [granted], by simp [granted], by simp⟩
  change start.toNat ≤ (start + size).toNat
  omega

private theorem disjoint_block {t u : Request}
    (htu : t.output.toNat + t.event.toNat ≤ u.output.toNat) : Disjoint (block t) (block u) := by
  rw [block, block, Set.disjoint_left]
  rintro x ⟨-, hx⟩ ⟨hx', -⟩
  omega

private theorem Inv.refused (hinv : Inv start size tr h) (n : UInt32) :
    Inv start size (tr ++ [⟨h, n, 0, h⟩]) h := by
  have hgranted : granted (tr ++ [⟨h, n, 0, h⟩]) = granted tr := by
    rw [granted_append_singleton, if_pos rfl]
  have htotal : total (tr ++ [⟨h, n, 0, h⟩]) = total tr := by
    rw [total_append_singleton, if_pos rfl, Nat.add_zero]
  refine ⟨hinv.end_eq, htotal ▸ hinv.ptr_eq, htotal ▸ hinv.used_eq, hinv.ptr_le,
    hgranted ▸ hinv.below, hgranted ▸ hinv.disjoint, ?_⟩
  intro t ht hout
  rcases List.mem_append.mp ht with ht | ht
  · exact hinv.null_unchanged t ht hout
  · rw [List.mem_singleton.mp ht]

private theorem Inv.served (hinv : Inv start size tr h) {n : UInt32} (hne : h.heapPtr ≠ 0)
    (hlt : h.heapPtr.toNat + n.toNat < h.heapEnd.toNat) :
    Inv start size
      (tr ++ [⟨h, n, h.heapPtr, { h with heapPtr := h.heapPtr + n, used := h.used + n }⟩])
      { h with heapPtr := h.heapPtr + n, used := h.used + n } := by
  have hend := h.heapEnd.toNat_lt
  have hadd : (h.heapPtr + n).toNat = h.heapPtr.toNat + n.toNat := toNat_add_of_lt (by omega)
  have hused : (h.used + n).toNat = h.used.toNat + n.toNat := by
    have := hinv.used_eq
    have := hinv.ptr_eq
    exact toNat_add_of_lt (by omega)
  constructor
  case end_eq => exact hinv.end_eq
  case ptr_eq =>
    rw [total_append_singleton, if_neg hne, hadd, hinv.ptr_eq, Nat.add_assoc]
  case used_eq =>
    rw [total_append_singleton, if_neg hne, hused, hinv.used_eq]
  case ptr_le =>
    change (h.heapPtr + n).toNat ≤ h.heapEnd.toNat
    omega
  case below =>
    rw [granted_append_singleton, if_neg hne]
    intro t ht
    rcases List.mem_append.mp ht with ht | ht
    · have := hinv.below t ht
      exact ⟨this.1, by rw [hadd]; omega⟩
    · rw [List.mem_singleton.mp ht, hadd]
      exact ⟨by rw [hinv.ptr_eq]; omega, le_rfl⟩
  case disjoint =>
    rw [granted_append_singleton, if_neg hne, List.pairwise_append]
    refine ⟨hinv.disjoint, List.pairwise_singleton _ _, ?_⟩
    intro t ht u hu
    rw [List.mem_singleton.mp hu]
    exact disjoint_block (hinv.below t ht).2
  case null_unchanged =>
    intro t ht hout
    rcases List.mem_append.mp ht with ht | ht
    · exact hinv.null_unchanged t ht hout
    · rw [List.mem_singleton.mp ht] at hout
      exact absurd hout hne

theorem Inv.step (hinv : Inv start size tr h) {n : UInt32} (hfit : Fits h n) :
    Inv start size (tr ++ [⟨h, n, (kmalloc h n).2, (kmalloc h n).1⟩]) (kmalloc h n).1 := by
  rcases kmalloc_cases hfit.1 with ⟨-, hk⟩ | ⟨hlt, hk⟩
  · rw [hk]
    exact hinv.refused n
  · rw [hk]
    by_cases hptr : h.heapPtr = 0
    · -- a granted request at address `0` fits only if it asks for nothing
      have hn : n = 0 := by
        by_contra hn
        refine hfit.2 ⟨hptr, UInt32.pos_iff_ne_zero.mpr hn, ?_⟩
        rw [UInt32.lt_iff_toNat_lt]
        omega
      subst hn
      rw [UInt32.add_zero, UInt32.add_zero, hptr]
      have hself : (⟨0, h.heapEnd, h.used⟩ : Heap) = h := by rw [← hptr]
      rw [hself]
      exact hinv.refused 0
    · exact hinv.served hptr hlt

theorem inv_of_fits (hsize : start.toNat + size.toNat < 2 ^ 32)
    (hrun : heapMachine.Run (heapInit start size) tr h)
    (hfit : ∀ t ∈ tr, Fits t.pre t.event) : Inv start size tr h := by
  induction hrun with
  | nil => exact inv_heapInit hsize
  | snoc _ hnext ih =>
    have hinv := ih fun t ht ↦ hfit t (List.mem_append_left _ ht)
    have hlast := hfit _ List.mem_concat_self
    obtain ⟨rfl, rfl⟩ := Prod.mk.inj (Option.some.inj hnext)
    exact hinv.step hlast

theorem Inv.safe (hinv : Inv start size tr h) : Safe start size tr h where
  inside t ht hout := by
    have hmem : t ∈ granted tr := List.mem_filter.mpr ⟨ht, by simpa using hout⟩
    have := hinv.below t hmem
    have := hinv.ptr_le
    have := hinv.end_eq
    omega
  disjoint := hinv.disjoint
  used_eq := hinv.used_eq
  used_le := by
    have := hinv.used_eq
    have := hinv.ptr_eq
    have := hinv.ptr_le
    have := hinv.end_eq
    rw [heapUsed]
    omega
  null_unchanged := hinv.null_unchanged

/-! ## Requests that do not fit -/

/-- The first request that does not fit is granted, and gives the caller either a block that
leaves the region or `NULL` together with a changed state. -/
theorem Inv.harm_of_not_fits (hinv : Inv start size tr h) {n : UInt32} (hfit : ¬Fits h n)
    (hsize : start.toNat + size.toNat < 2 ^ 32) :
    ((kmalloc h n).2 ≠ 0 ∧
        start.toNat + size.toNat < (kmalloc h n).2.toNat + n.toNat) ∨
      ((kmalloc h n).2 = 0 ∧ (kmalloc h n).1 ≠ h) := by
  have hn := n.toNat_lt
  by_cases hwrap : h.heapPtr.toNat + n.toNat < 2 ^ 32
  · right
    have hzero : h.heapPtr = 0 ∧ 0 < n ∧ n < h.heapEnd := by
      by_contra hc
      exact hfit ⟨hwrap, hc⟩
    obtain ⟨hptr, hpos, hlt⟩ := hzero
    rw [UInt32.lt_iff_toNat_lt] at hlt hpos
    have hptr' : h.heapPtr.toNat = 0 := by rw [hptr]; rfl
    rcases kmalloc_cases hwrap with ⟨hle, -⟩ | ⟨-, hk⟩
    · omega
    · rw [hk]
      refine ⟨hptr, fun heq ↦ ?_⟩
      have hmoved : (h.heapPtr + n).toNat = h.heapPtr.toNat := congrArg (·.heapPtr.toNat) heq
      rw [toNat_add_of_lt hwrap] at hmoved
      have : (0 : UInt32).toNat = 0 := rfl
      omega
  · left
    have hres := kmalloc_of_wraps hinv.ptr_le (not_lt.mp hwrap)
    rw [hres]
    refine ⟨fun hptr ↦ ?_, by omega⟩
    have hptr' : h.heapPtr.toNat = 0 := by rw [hptr]; rfl
    omega

theorem fits_of_safe (hsize : start.toNat + size.toNat < 2 ^ 32)
    (hrun : heapMachine.Run (heapInit start size) tr h)
    (hinside : ∀ t ∈ tr, t.output ≠ 0 →
      t.output.toNat + t.event.toNat ≤ start.toNat + size.toNat)
    (hnull : ∀ t ∈ tr, t.output = 0 → t.post = t.pre) :
    ∀ t ∈ tr, Fits t.pre t.event := by
  induction hrun with
  | nil => simp
  | snoc hrun hnext ih =>
    have hprev := ih (fun t ht ↦ hinside t (List.mem_append_left _ ht))
      (fun t ht ↦ hnull t (List.mem_append_left _ ht))
    have hinv := inv_of_fits hsize hrun hprev
    obtain ⟨rfl, rfl⟩ := Prod.mk.inj (Option.some.inj hnext)
    intro t ht
    rcases List.mem_append.mp ht with ht | ht
    · exact hprev t ht
    · rw [List.mem_singleton.mp ht]
      by_contra hfit
      rcases hinv.harm_of_not_fits hfit hsize with ⟨hout, hpast⟩ | ⟨hout, hchanged⟩
      · exact absurd (hinside _ List.mem_concat_self hout) (not_le.mpr hpast)
      · exact hchanged (hnull _ List.mem_concat_self hout)

/-- **Allocator safety, exactly.** A run of requests is safe if and only if every request fits the
state it was made in. -/
theorem safe_iff_forall_fits (hsize : start.toNat + size.toNat < 2 ^ 32)
    (hrun : heapMachine.Run (heapInit start size) tr h) :
    Safe start size tr h ↔ ∀ t ∈ tr, Fits t.pre t.event := by
  constructor
  · intro hsafe
    exact fits_of_safe hsize hrun (fun t ht hout ↦ (hsafe.inside t ht hout).2)
      hsafe.null_unchanged
  · intro hfit
    exact (inv_of_fits hsize hrun hfit).safe

/-- The two requests `main` makes at boot, on the 8 KiB heap it sets up. -/
theorem safe_boot_requests : ∃ tr h, heapMachine.Run (heapInit 0x20001000 8192) tr h ∧
    tr.map (·.event) = [100, 28] ∧ Safe 0x20001000 8192 tr h := by
  have hrun := Machine.exec_run
    (show heapMachine.exec (heapInit 0x20001000 8192) [100, 28] = some _ from rfl)
  exact ⟨_, _, hrun, rfl, (safe_iff_forall_fits (by decide) hrun).mpr (by decide)⟩

/-- On the same heap, a second request of `2 ^ 32 - 1` bytes is granted. -/
theorem not_safe_wrapping_request : ∃ tr h, heapMachine.Run (heapInit 0x20001000 8192) tr h ∧
    tr.map (·.event) = [100, 0xFFFFFFFF] ∧ ¬Safe 0x20001000 8192 tr h := by
  have hrun := Machine.exec_run
    (show heapMachine.exec (heapInit 0x20001000 8192) [100, 0xFFFFFFFF] = some _ from rfl)
  refine ⟨_, _, hrun, rfl, fun hsafe ↦ ?_⟩
  have hfit := fits_of_safe (by decide) hrun (fun t ht hout ↦ (hsafe.inside t ht hout).2)
    hsafe.null_unchanged
  exact absurd hfit (by decide)

/-! ## Using the heap up

Requests that together ask for no more than the region holds should all be served, from one end of
it to the other. The comparison with `>=` refuses the one that would take the last byte. -/

/-- The pointers returned for requests made one after the other. -/
def kmallocAll (h : Heap) : List UInt32 → List UInt32
  | [] => []
  | n :: ns => (kmalloc h n).2 :: kmallocAll (kmalloc h n).1 ns

/-- Where blocks of these sizes start when they are laid end to end from `addr`. -/
def layout (addr : ℕ) : List UInt32 → List ℕ
  | [] => []
  | n :: ns => addr :: layout (addr + n.toNat) ns

/-- The bytes asked for. -/
def demand (ns : List UInt32) : ℕ := (ns.map UInt32.toNat).sum

/-- Every request is served, from where the ones before it end. -/
def ServesAll (h : Heap) (ns : List UInt32) : Prop :=
  (∀ p ∈ kmallocAll h ns, p ≠ 0) ∧ (kmallocAll h ns).map UInt32.toNat = layout h.heapPtr.toNat ns

theorem demand_cons (n : UInt32) (ns : List UInt32) :
    demand (n :: ns) = n.toNat + demand ns := by
  rw [demand, List.map_cons, List.sum_cons, ← demand]

theorem servesAll_nil (h : Heap) : ServesAll h [] := ⟨by simp [kmallocAll], rfl⟩

theorem not_servesAll_of_refused {n : UInt32} (ns : List UInt32) (hk : (kmalloc h n).2 = 0) :
    ¬ ServesAll h (n :: ns) := by
  rintro ⟨hne, -⟩
  rw [kmallocAll, List.forall_mem_cons] at hne
  exact hne.1 hk

theorem servesAll_cons_iff {n : UInt32} {ns : List UInt32}
    (hk : kmalloc h n
      = ({ h with heapPtr := h.heapPtr + n, used := h.used + n }, h.heapPtr)) :
    ServesAll h (n :: ns) ↔ h.heapPtr ≠ 0 ∧
      (∀ p ∈ kmallocAll (kmalloc h n).1 ns, p ≠ 0) ∧
      (kmallocAll (kmalloc h n).1 ns).map UInt32.toNat
        = layout (h.heapPtr.toNat + n.toNat) ns := by
  rw [ServesAll, kmallocAll, layout, List.forall_mem_cons, List.map_cons, List.cons.injEq, hk]
  tauto

/-- **From a pointer below the end, requests that go no further than the end are all served exactly
if they stop short of it.** -/
theorem servesAll_iff_of_le {ns : List UInt32}
    (hle : h.heapPtr.toNat + demand ns ≤ h.heapEnd.toNat) :
    ServesAll h ns ↔
      ns = [] ∨ h.heapPtr ≠ 0 ∧ h.heapPtr.toNat + demand ns < h.heapEnd.toNat := by
  induction ns generalizing h with
  | nil => exact iff_of_true (servesAll_nil h) (.inl rfl)
  | cons n ns ih =>
    rw [demand_cons, ← Nat.add_assoc] at hle ⊢
    have hend := h.heapEnd.toNat_lt
    have hadd : (h.heapPtr + n).toNat = h.heapPtr.toNat + n.toNat := toNat_add_of_lt (by omega)
    rw [or_iff_right (List.cons_ne_nil n ns)]
    rcases kmalloc_cases (show h.heapPtr.toNat + n.toNat < 2 ^ 32 by omega) with
      ⟨hfull, hk⟩ | ⟨hroom, hk⟩
    · -- the request reaches the end
      refine iff_of_false (not_servesAll_of_refused ns (by rw [hk])) ?_
      rintro ⟨-, hlt⟩
      omega
    · have hrest := ih (h := (kmalloc h n).1) (by rw [hk]; exact hadd ▸ hle)
      rw [ServesAll, hk] at hrest
      simp only [hadd] at hrest
      rw [servesAll_cons_iff hk, hk, hrest]
      refine and_congr_right fun hne ↦ ⟨?_, fun hlt ↦ ?_⟩
      · rintro (rfl | ⟨-, hlt⟩)
        · exact hroom
        · exact hlt
      · refine .inr ⟨fun hzero ↦ hne (UInt32.toNat_inj.mp ?_), hlt⟩
        have hsum := congrArg UInt32.toNat hzero
        rw [hadd, UInt32.toNat_zero] at hsum
        exact (Nat.add_eq_zero_iff.mp hsum).1

/-- A region that ends at the top of the address space or wraps around it serves one request at
most, and only one that wraps around itself. -/
theorem servesAll_iff_of_wraps {ns : List UInt32}
    (hwrap : 2 ^ 32 ≤ start.toNat + size.toNat) (hsum : demand ns ≤ size.toNat) :
    ServesAll (heapInit start size) ns ↔
      ns = [] ∨ ∃ n, ns = [n] ∧ n < size ∧ 2 ^ 32 ≤ start.toNat + n.toNat := by
  have hstart := start.toNat_lt
  have hsize := size.toNat_lt
  have hend : (start + size).toNat = start.toNat + size.toNat - 2 ^ 32 := by
    rw [UInt32.toNat_add]
    omega
  rcases ns with _ | ⟨n, ns⟩
  · exact iff_of_true (servesAll_nil _) (.inl rfl)
  rw [demand_cons] at hsum
  rw [or_iff_right (List.cons_ne_nil n ns)]
  have hptr := UInt32.toNat_add start n
  by_cases hserved : n < size ∧ 2 ^ 32 ≤ start.toNat + n.toNat
  · -- the sum has wrapped as the end has, and compares with it as the sizes do
    have hk : kmalloc (heapInit start size) n
        = ({ heapInit start size with heapPtr := start + n, used := 0 + n }, start) := by
      rw [kmalloc, if_neg]
      · rfl
      · rw [ge_iff_le, UInt32.le_iff_toNat_le, not_le]
        have hlt := UInt32.lt_iff_toNat_lt.mp hserved.1
        change (start + n).toNat < (start + size).toNat
        omega
    rw [servesAll_cons_iff hk]
    rcases ns with _ | ⟨m, ms⟩
    · refine iff_of_true ⟨fun hzero ↦ ?_, by simp [kmallocAll], rfl⟩ ⟨n, rfl, hserved⟩
      rw [show start = 0 from hzero, UInt32.toNat_zero] at hserved
      exact absurd n.toNat_lt (not_lt.mpr (by omega))
    · -- the second block would start past the top
      refine iff_of_false ?_ ?_
      · rintro ⟨-, -, haddr⟩
        have hfirst := (List.cons.inj haddr).1
        have hlt := (kmalloc (kmalloc (heapInit start size) n).1 m).2.toNat_lt
        rw [hfirst] at hlt
        exact absurd hserved.2 (not_le.mpr hlt)
      · rintro ⟨n', heq, -⟩
        exact absurd (List.cons.inj heq).2 (List.cons_ne_nil m ms)
  · refine iff_of_false (not_servesAll_of_refused ns ?_) ?_
    · rw [kmalloc, if_pos]
      rw [ge_iff_le, UInt32.le_iff_toNat_le]
      rw [UInt32.lt_iff_toNat_lt] at hserved
      change (start + size).toNat ≤ (start + n).toNat
      omega
    · rintro ⟨n', heq, hserved'⟩
      rw [(List.cons.inj heq).1] at hserved
      exact hserved hserved'

/-- **The last byte of the heap is never handed out.** Requests for no more than the size of the
region are all served if and only if they leave a byte of it, the region starts above address `0`
and lies below the top of the address space. (A region that does not can serve one request, the
sum of which with the start wraps.) -/
theorem servesAll_iff (start size : UInt32) (ns : List UInt32) (hsum : demand ns ≤ size.toNat) :
    ServesAll (heapInit start size) ns ↔
      ns = [] ∨
      start ≠ 0 ∧ start.toNat + size.toNat < 2 ^ 32 ∧ demand ns < size.toNat ∨
      ∃ n, ns = [n] ∧ n < size ∧ 2 ^ 32 ≤ start.toNat + n.toNat := by
  by_cases hwrap : 2 ^ 32 ≤ start.toNat + size.toNat
  · rw [servesAll_iff_of_wraps hwrap hsum]
    refine or_congr_right ⟨.inr, ?_⟩
    rintro (⟨-, hlt, -⟩ | hone)
    · exact absurd hlt (not_lt.mpr hwrap)
    · exact hone
  · rw [not_le] at hwrap
    have hend := toNat_add_of_lt hwrap
    have hle : (heapInit start size).heapPtr.toNat + demand ns
        ≤ (heapInit start size).heapEnd.toNat := by
      change start.toNat + demand ns ≤ (start + size).toNat
      omega
    rw [servesAll_iff_of_le hle]
    refine or_congr_right ⟨?_, ?_⟩
    · rintro ⟨hne, hlt⟩
      refine .inl ⟨hne, hwrap, ?_⟩
      change start.toNat + demand ns < (start + size).toNat at hlt
      omega
    · rintro (⟨hne, -, hlt⟩ | ⟨n, -, hn, hpast⟩)
      · refine ⟨hne, ?_⟩
        change start.toNat + demand ns < (start + size).toNat
        omega
      · rw [UInt32.lt_iff_toNat_lt] at hn
        omega

/-- All of the 8 KiB heap but one byte, in two requests. -/
theorem servesAll_all_but_one : ServesAll (heapInit 0x20001000 8192) [8000, 191] :=
  (servesAll_iff 0x20001000 8192 [8000, 191] (by decide)).mpr
    (.inr (.inl ⟨by decide, by decide, by decide⟩))

/-- All of it at once is refused. -/
theorem not_servesAll_whole_heap :
    demand [8192] ≤ (8192 : UInt32).toNat ∧
      kmalloc (heapInit 0x20001000 8192) 8192 = (heapInit 0x20001000 8192, 0) ∧
      ¬ ServesAll (heapInit 0x20001000 8192) [8192] :=
  ⟨by decide, by decide, not_servesAll_of_refused [] (by decide)⟩

end Heap

end ZanOS
