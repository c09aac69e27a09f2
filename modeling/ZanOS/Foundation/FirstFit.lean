import Mathlib.Algebra.BigOperators.Ring.List
import Mathlib.Algebra.Order.Ring.Nat
import Mathlib.Data.List.Chain
import Mathlib.Data.List.TakeWhile
import Mathlib.Tactic.Common

/-!
# First fit

An allocator that keeps no table of its own cuts its region into blocks that lie end to end, each
behind a header, and marks every block as used or free. Here the region is the list of its blocks,
in the order of their addresses, so that it is a partition by construction: a block is where the
blocks in front of it end (`extent`).

There are three operations, with the size `head` of a header and the least payload `least` as
parameters. `allocate` takes the first free block that is large enough and gives back what it does
not need, unless that is too little to be a block. `release` frees a block and joins it with free
neighbours. `shrink` gives back the end of a used block. Each of them keeps the extent of the
region and `WellCut`, which is what the next operation needs: every block has room for a header and
the least payload, sizes are multiples of a unit, and no two free blocks are in a row.

`busy` lists the used blocks with their addresses. It is what the clients of the allocator see of
it, and each operation changes one entry of it.
-/

namespace Foundation

/-- A block with its header; it starts where the blocks in front of it end. -/
structure Block where
  size : ℕ
  used : Bool
  deriving DecidableEq

/-- The space that blocks take. -/
def extent (bs : List Block) : ℕ := (bs.map Block.size).sum

@[simp] theorem extent_nil : extent [] = 0 := rfl

@[simp] theorem extent_cons (b : Block) (bs : List Block) :
    extent (b :: bs) = b.size + extent bs := rfl

@[simp] theorem extent_append (bs cs : List Block) :
    extent (bs ++ cs) = extent bs + extent cs := by
  rw [extent, List.map_append, List.sum_append, extent, extent]

theorem mul_length_le_extent {k : ℕ} {bs : List Block} (h : ∀ b ∈ bs, k ≤ b.size) :
    k * bs.length ≤ extent bs := by
  induction bs with
  | nil => exact le_rfl
  | cons b bs ih =>
    have hb := h b List.mem_cons_self
    have hbs := ih fun c hc ↦ h c (List.mem_cons_of_mem _ hc)
    rw [List.length_cons, extent_cons, Nat.mul_succ, Nat.add_comm]
    exact Nat.add_le_add hb hbs

/-! ## No two free blocks in a row -/

/-- Of two neighbours one is used. -/
def Joined (bs : List Block) : Prop := bs.IsChain fun a b ↦ a.used = true ∨ b.used = true

/-- What a free block behind these blocks needs. -/
def EndsUsed (bs : List Block) : Prop := ∀ b ∈ bs.getLast?, b.used = true

/-- What a free block in front of these blocks needs. -/
def StartsUsed (bs : List Block) : Prop := ∀ b ∈ bs.head?, b.used = true

theorem endsUsed_nil : EndsUsed [] := by simp [EndsUsed]

theorem startsUsed_nil : StartsUsed [] := by simp [StartsUsed]

theorem startsUsed_cons (b : Block) (bs : List Block) : StartsUsed (b :: bs) ↔ b.used = true := by
  simp [StartsUsed]

theorem joined_used_iff (n : ℕ) (pre post : List Block) :
    Joined (pre ++ ⟨n, true⟩ :: post) ↔ Joined pre ∧ Joined post := by
  simp [Joined, List.isChain_append, List.isChain_cons]

theorem joined_free_iff (n : ℕ) (pre post : List Block) :
    Joined (pre ++ ⟨n, false⟩ :: post)
      ↔ Joined pre ∧ Joined post ∧ EndsUsed pre ∧ StartsUsed post := by
  simp only [Joined, List.isChain_append, List.isChain_cons, EndsUsed, StartsUsed, List.head?_cons,
    Option.mem_some_iff, forall_eq', Bool.false_eq_true, or_false, false_or]
  tauto

/-- Room for a header and the least payload, and a multiple of the unit. -/
def BlockSize (head least unit n : ℕ) : Prop := head + least ≤ n ∧ unit ∣ n

/-- What an operation may rely on: `head` is the size of a header, `least` the least payload, and
`unit` divides all sizes. -/
structure WellCut (head least unit : ℕ) (bs : List Block) : Prop where
  blockSize : ∀ b ∈ bs, BlockSize head least unit b.size
  joined : Joined bs

theorem WellCut.dvd_extent {head least unit : ℕ} {bs : List Block}
    (h : WellCut head least unit bs) : unit ∣ extent bs :=
  List.dvd_sum fun _ hn ↦ by
    obtain ⟨b, hb, rfl⟩ := List.mem_map.mp hn
    exact (h.blockSize b hb).2

theorem wellCut_nil (head least unit : ℕ) : WellCut head least unit [] :=
  ⟨by simp, List.isChain_nil⟩

theorem wellCut_used_iff {head least unit n : ℕ} {pre post : List Block} :
    WellCut head least unit (pre ++ ⟨n, true⟩ :: post) ↔
      BlockSize head least unit n ∧ WellCut head least unit pre ∧
        WellCut head least unit post := by
  constructor
  · rintro ⟨hsize, hjoined⟩
    simp only [List.mem_append, List.mem_cons] at hsize
    obtain ⟨hpre, hpost⟩ := (joined_used_iff _ _ _).mp hjoined
    exact ⟨hsize _ (.inr (.inl rfl)), ⟨fun b hb ↦ hsize b (.inl hb), hpre⟩,
      ⟨fun b hb ↦ hsize b (.inr (.inr hb)), hpost⟩⟩
  · rintro ⟨hn, hpre, hpost⟩
    refine ⟨?_, (joined_used_iff _ _ _).mpr ⟨hpre.joined, hpost.joined⟩⟩
    simp only [List.mem_append, List.mem_cons]
    rintro b (hb | rfl | hb)
    exacts [hpre.blockSize b hb, hn, hpost.blockSize b hb]

theorem wellCut_free_iff {head least unit n : ℕ} {pre post : List Block} :
    WellCut head least unit (pre ++ ⟨n, false⟩ :: post) ↔
      BlockSize head least unit n ∧ WellCut head least unit pre ∧ WellCut head least unit post ∧
        EndsUsed pre ∧ StartsUsed post := by
  constructor
  · rintro ⟨hsize, hjoined⟩
    simp only [List.mem_append, List.mem_cons] at hsize
    obtain ⟨hpre, hpost, hends⟩ := (joined_free_iff _ _ _).mp hjoined
    exact ⟨hsize _ (.inr (.inl rfl)), ⟨fun b hb ↦ hsize b (.inl hb), hpre⟩,
      ⟨fun b hb ↦ hsize b (.inr (.inr hb)), hpost⟩, hends⟩
  · rintro ⟨hn, hpre, hpost, hends⟩
    refine ⟨?_, (joined_free_iff _ _ _).mpr ⟨hpre.joined, hpost.joined, hends⟩⟩
    simp only [List.mem_append, List.mem_cons]
    rintro b (hb | rfl | hb)
    exacts [hpre.blockSize b hb, hn, hpost.blockSize b hb]

theorem wellCut_cons_free_iff {head least unit n : ℕ} {post : List Block} :
    WellCut head least unit (⟨n, false⟩ :: post) ↔
      BlockSize head least unit n ∧ WellCut head least unit post ∧ StartsUsed post := by
  rw [← List.nil_append (_ :: _), wellCut_free_iff]
  exact ⟨fun h ↦ ⟨h.1, h.2.2.1, h.2.2.2.2⟩,
    fun h ↦ ⟨h.1, wellCut_nil _ _ _, h.2.1, endsUsed_nil, h.2.2⟩⟩

section Operations

variable {head least unit need : ℕ} {pre post bs : List Block} {b : Block}

/-! ## The used blocks -/

/-- The used blocks of `bs`, laid out from the address `a`: their addresses and sizes. -/
def busy : ℕ → List Block → List (ℕ × ℕ)
  | _, [] => []
  | a, b :: bs => if b.used then (a, b.size) :: busy (a + b.size) bs else busy (a + b.size) bs

@[simp] theorem busy_nil (a : ℕ) : busy a [] = [] := rfl

@[simp] theorem busy_cons_used (a n : ℕ) (bs : List Block) :
    busy a (⟨n, true⟩ :: bs) = (a, n) :: busy (a + n) bs := rfl

@[simp] theorem busy_cons_free (a n : ℕ) (bs : List Block) :
    busy a (⟨n, false⟩ :: bs) = busy (a + n) bs := rfl

theorem busy_append (a : ℕ) (bs cs : List Block) :
    busy a (bs ++ cs) = busy a bs ++ busy (a + extent bs) cs := by
  induction bs generalizing a with
  | nil => rfl
  | cons b bs ih =>
    obtain ⟨n, used⟩ := b
    cases used <;> simp [ih, Nat.add_assoc]

theorem exists_of_mem_busy {a x n : ℕ} (h : (x, n) ∈ busy a bs) :
    ∃ pre post, bs = pre ++ ⟨n, true⟩ :: post ∧ x = a + extent pre := by
  induction bs generalizing a with
  | nil => cases h
  | cons b bs ih =>
    obtain ⟨m, used⟩ := b
    have hrest : (x, n) ∈ busy (a + m) bs →
        ∃ pre post, (⟨m, used⟩ : Block) :: bs = pre ++ ⟨n, true⟩ :: post ∧ x = a + extent pre := by
      intro h
      obtain ⟨pre, post, rfl, rfl⟩ := ih h
      exact ⟨⟨m, used⟩ :: pre, post, rfl, by rw [extent_cons, Nat.add_assoc]⟩
    cases used with
    | false => exact hrest h
    | true =>
      rcases List.mem_cons.mp h with heq | h
      · obtain ⟨rfl, rfl⟩ := Prod.mk.inj heq
        exact ⟨[], bs, rfl, rfl⟩
      · exact hrest h

theorem mem_busy (a n : ℕ) (pre post : List Block) :
    (a + extent pre, n) ∈ busy a (pre ++ ⟨n, true⟩ :: post) := by
  rw [busy_append, busy_cons_used]
  exact List.mem_append_right _ List.mem_cons_self

theorem le_of_mem_busy {a : ℕ} {e : ℕ × ℕ} (h : e ∈ busy a bs) :
    a ≤ e.1 ∧ e.1 + e.2 ≤ a + extent bs := by
  obtain ⟨pre, post, rfl, he⟩ := exists_of_mem_busy h
  simp only [extent_append, extent_cons]
  omega

/-- The used blocks lie apart, in the order of their addresses. -/
theorem pairwise_busy (a : ℕ) (bs : List Block) :
    (busy a bs).Pairwise fun e f ↦ e.1 + e.2 ≤ f.1 := by
  induction bs generalizing a with
  | nil => exact .nil
  | cons b bs ih =>
    obtain ⟨n, used⟩ := b
    cases used with
    | false => exact ih (a + n)
    | true => exact .cons (fun e he ↦ (le_of_mem_busy he).1) (ih (a + n))

theorem size_of_mem_busy {a : ℕ} {e : ℕ × ℕ} (h : e ∈ busy a bs) : ⟨e.2, true⟩ ∈ bs := by
  obtain ⟨pre, post, rfl, -⟩ := exists_of_mem_busy h
  exact List.mem_append_right _ List.mem_cons_self

theorem apart_of_mem_busy {a : ℕ} {e f : ℕ × ℕ} (he : e ∈ busy a bs) (hf : f ∈ busy a bs)
    (hne : e ≠ f) : e.1 + e.2 ≤ f.1 ∨ f.1 + f.2 ≤ e.1 := by
  have hsymm : Std.Symm fun e f : ℕ × ℕ ↦ e.1 + e.2 ≤ f.1 ∨ f.1 + f.2 ≤ e.1 :=
    ⟨fun _ _ ↦ Or.symm⟩
  have hpairwise : (busy a bs).Pairwise fun e f ↦ e.1 + e.2 ≤ f.1 ∨ f.1 + f.2 ≤ e.1 :=
    (pairwise_busy a bs).imp Or.inl
  exact hpairwise.forall he hf hne

theorem ne_of_busy_eq {a x n : ℕ} {l r : List (ℕ × ℕ)} (hpos : ∀ b ∈ bs, 0 < b.size)
    (h : busy a bs = l ++ (x, n) :: r) : ∀ u ∈ l ++ r, u.1 ≠ x := by
  have hpairwise := pairwise_busy a bs
  have hsize : ∀ u ∈ busy a bs, 0 < u.2 := fun u hu ↦ hpos _ (size_of_mem_busy hu)
  rw [h] at hpairwise hsize
  rw [List.pairwise_append, List.pairwise_cons] at hpairwise
  obtain ⟨-, ⟨hr, -⟩, hl⟩ := hpairwise
  intro u hu
  rcases List.mem_append.mp hu with hu | hu
  · have hlt := hl u hu _ List.mem_cons_self
    have hpos := hsize u (List.mem_append_left _ hu)
    dsimp only at hlt
    omega
  · have hlt := hr u hu
    have hpos := hsize _ (List.mem_append_right l List.mem_cons_self)
    dsimp only at hlt hpos
    omega

/-- The space that the used blocks take. -/
def busyExtent (bs : List Block) : ℕ := ((busy 0 bs).map Prod.snd).sum

theorem map_snd_busy (a : ℕ) (bs : List Block) :
    (busy a bs).map Prod.snd = (busy 0 bs).map Prod.snd := by
  induction bs generalizing a with
  | nil => rfl
  | cons b bs ih =>
    obtain ⟨n, used⟩ := b
    cases used <;> simp only [busy_cons_used, busy_cons_free, List.map_cons] <;>
      rw [ih (a + n), ih (0 + n)]

theorem busyExtent_append (bs cs : List Block) :
    busyExtent (bs ++ cs) = busyExtent bs + busyExtent cs := by
  rw [busyExtent, busy_append, List.map_append, List.sum_append, map_snd_busy (0 + extent bs) cs,
    busyExtent, busyExtent]

theorem busyExtent_used (n : ℕ) (bs : List Block) :
    busyExtent (⟨n, true⟩ :: bs) = n + busyExtent bs := by
  rw [busyExtent, busy_cons_used, List.map_cons, List.sum_cons, map_snd_busy, busyExtent]

theorem busyExtent_free (n : ℕ) (bs : List Block) :
    busyExtent (⟨n, false⟩ :: bs) = busyExtent bs := by
  rw [busyExtent, busy_cons_free, map_snd_busy, busyExtent]

theorem busyExtent_le (bs : List Block) : busyExtent bs ≤ extent bs := by
  induction bs with
  | nil => exact le_rfl
  | cons b bs ih =>
    obtain ⟨n, used⟩ := b
    cases used
    · rw [busyExtent_free, extent_cons]
      exact ih.trans (Nat.le_add_left _ _)
    · rw [busyExtent_used, extent_cons]
      exact Nat.add_le_add_left ih n

theorem eq_singleton_of_busy_eq_nil (hjoined : Joined bs) (hne : bs ≠ []) (h : busy 0 bs = []) :
    bs = [⟨extent bs, false⟩] := by
  have hfree : ∀ {a : ℕ} {bs : List Block}, busy a bs = [] → ∀ b ∈ bs, b.used = false := by
    intro a bs h b hb
    obtain ⟨pre, post, rfl⟩ := List.append_of_mem hb
    obtain ⟨n, _ | _⟩ := b
    · rfl
    · exact absurd (h ▸ mem_busy a n pre post) List.not_mem_nil
  obtain ⟨⟨n, used⟩, cs, rfl⟩ := List.exists_cons_of_ne_nil hne
  obtain rfl : used = false := hfree h _ List.mem_cons_self
  cases cs with
  | nil => rfl
  | cons c cs =>
    have hc : c.used = false := hfree h c (List.mem_cons_of_mem _ List.mem_cons_self)
    have hstarts := ((joined_free_iff n [] (c :: cs)).mp hjoined).2.2.2
    rw [startsUsed_cons, hc] at hstarts
    cases hstarts

/-! ## The lowest free block -/

/-- Where the first free block starts, or the end of the region. -/
def lowestFree (bs : List Block) : ℕ := extent (bs.takeWhile Block.used)

theorem lowestFree_nil : lowestFree [] = 0 := rfl

theorem lowestFree_cons_used (n : ℕ) (bs : List Block) :
    lowestFree (⟨n, true⟩ :: bs) = n + lowestFree bs := by
  simp [lowestFree]

theorem lowestFree_cons_free (n : ℕ) (bs : List Block) : lowestFree (⟨n, false⟩ :: bs) = 0 := by
  simp [lowestFree]

theorem lowestFree_le (bs : List Block) : lowestFree bs ≤ extent bs := by
  conv_rhs => rw [← List.takeWhile_append_dropWhile (p := Block.used) (l := bs)]
  rw [extent_append]
  exact Nat.le_add_right _ _

theorem lowestFree_append (pre post : List Block) :
    lowestFree (pre ++ post)
      = if ∀ b ∈ pre, b.used = true then extent pre + lowestFree post else lowestFree pre := by
  induction pre with
  | nil => simp
  | cons b pre ih =>
    obtain ⟨n, used⟩ := b
    cases used with
    | false => simp [lowestFree_cons_free]
    | true =>
      rw [List.cons_append, lowestFree_cons_used, ih, lowestFree_cons_used]
      by_cases h : ∀ b ∈ pre, b.used = true
      · rw [if_pos h, if_pos (by simpa using h), extent_cons, Nat.add_assoc]
      · rw [if_neg h, if_neg (by simpa using h)]

theorem lowestFree_lt (hpos : ∀ b ∈ bs, 0 < b.size) (h : ¬ ∀ b ∈ bs, b.used = true) :
    lowestFree bs < extent bs := by
  induction bs with
  | nil => exact absurd (by simp) h
  | cons b bs ih =>
    obtain ⟨n, used⟩ := b
    have hn : 0 < n := hpos _ List.mem_cons_self
    cases used with
    | false => rw [lowestFree_cons_free, extent_cons]; exact Nat.add_pos_left hn _
    | true =>
      rw [lowestFree_cons_used, extent_cons]
      exact Nat.add_lt_add_left (ih (fun b hb ↦ hpos b (List.mem_cons_of_mem _ hb))
        (by simpa using h)) n

/-! ## Allocating -/

/-- The block can be had for a payload of `need`. -/
def Fits (head need : ℕ) (b : Block) : Prop := b.used = false ∧ head + need ≤ b.size

instance (head need : ℕ) (b : Block) : Decidable (Fits head need b) :=
  inferInstanceAs (Decidable (_ ∧ _))

/-- The block, taken: what is not needed is a free block, if there is room for one. -/
def place (head least need size : ℕ) : List Block :=
  if head + need + (head + least) ≤ size then
    [⟨head + need, true⟩, ⟨size - (head + need), false⟩]
  else [⟨size, true⟩]

/-- Take the first block that fits: its address, and the blocks afterwards. -/
def allocate (head least need : ℕ) : List Block → Option (ℕ × List Block)
  | [] => none
  | b :: bs =>
      if Fits head need b then some (0, place head least need b.size ++ bs)
      else (allocate head least need bs).map fun r ↦ (b.size + r.1, b :: r.2)

theorem allocate_eq_none_iff :
    allocate head least need bs = none ↔ ∀ b ∈ bs, ¬ Fits head need b := by
  induction bs with
  | nil => simp [allocate]
  | cons b bs ih =>
    rw [allocate]
    split_ifs with h
    · simp [h]
    · simp [h, ih]

theorem allocate_append (hpre : ∀ c ∈ pre, ¬ Fits head need c) :
    allocate head least need (pre ++ bs)
      = (allocate head least need bs).map fun r ↦ (extent pre + r.1, pre ++ r.2) := by
  induction pre with
  | nil => simp
  | cons c pre ih =>
    rw [List.cons_append, allocate, if_neg (hpre c List.mem_cons_self),
      ih fun d hd ↦ hpre d (List.mem_cons_of_mem _ hd), Option.map_map]
    congr 1
    funext r
    simp [Nat.add_assoc]

theorem exists_of_allocate {x : ℕ} {bs' : List Block}
    (h : allocate head least need bs = some (x, bs')) :
    ∃ pre size post, bs = pre ++ ⟨size, false⟩ :: post ∧ head + need ≤ size ∧
      (∀ c ∈ pre, ¬ Fits head need c) ∧ x = extent pre ∧
      bs' = pre ++ (place head least need size ++ post) := by
  induction bs generalizing x bs' with
  | nil => cases h
  | cons b bs ih =>
    rw [allocate] at h
    split_ifs at h with hfits
    · obtain ⟨rfl, rfl⟩ := Prod.mk.inj (Option.some.inj h)
      obtain ⟨n, used⟩ := b
      obtain rfl : used = false := hfits.1
      exact ⟨[], n, bs, rfl, hfits.2, by simp, rfl, rfl⟩
    · obtain ⟨⟨y, cs⟩, hy, heq⟩ := Option.map_eq_some_iff.mp h
      obtain ⟨rfl, rfl⟩ := Prod.mk.inj heq
      obtain ⟨pre, n, post, rfl, hn, hpre, rfl, rfl⟩ := ih hy
      refine ⟨b :: pre, n, post, rfl, hn, fun c hc ↦ ?_, rfl, rfl⟩
      rcases List.mem_cons.mp hc with rfl | hc
      · exact hfits
      · exact hpre c hc

theorem exists_busy_place {size : ℕ} (h : head + need ≤ size) (a : ℕ) (post : List Block) :
    ∃ n, head + need ≤ n ∧
      busy a (place head least need size ++ post) = (a, n) :: busy (a + size) post := by
  rw [place]
  split_ifs
  · refine ⟨head + need, le_rfl, ?_⟩
    rw [List.cons_append, busy_cons_used, List.cons_append, busy_cons_free, List.nil_append,
      Nat.add_assoc, Nat.add_sub_cancel' h]
  · exact ⟨size, h, rfl⟩

/-- The block that is taken joins the used ones. -/
theorem exists_busy_allocate {x : ℕ} {bs' : List Block}
    (h : allocate head least need bs = some (x, bs')) :
    ∃ l r n, busy 0 bs = l ++ r ∧ busy 0 bs' = l ++ (x, n) :: r ∧ head + need ≤ n := by
  obtain ⟨pre, size, post, rfl, hsize, -, rfl, rfl⟩ := exists_of_allocate h
  obtain ⟨n, hn, hbusy⟩ : ∃ n, head + need ≤ n ∧
      busy (0 + extent pre) (place head least need size ++ post)
        = (0 + extent pre, n) :: busy (0 + extent pre + size) post := exists_busy_place hsize _ _
  refine ⟨busy 0 pre, busy (0 + extent pre + size) post, n, ?_, ?_, hn⟩
  · rw [busy_append, busy_cons_free]
  · rw [busy_append, hbusy, Nat.zero_add]

theorem BlockSize.sub {n m : ℕ} (hn : unit ∣ n) (hm : unit ∣ m) (h : m + (head + least) ≤ n) :
    BlockSize head least unit (n - m) :=
  ⟨by omega, Nat.dvd_sub hn hm⟩

theorem WellCut.place {size : ℕ} (h : WellCut head least unit (pre ++ ⟨size, false⟩ :: post))
    (hhead : unit ∣ head) (hneed : BlockSize 0 least unit need) :
    WellCut head least unit (pre ++ (place head least need size ++ post)) := by
  obtain ⟨hsize, hpre, hpost, -, hstarts⟩ := wellCut_free_iff.mp h
  have hdvd : unit ∣ head + need := Nat.dvd_add hhead hneed.2
  have hleast : least ≤ need := (Nat.zero_add least).symm.trans_le hneed.1
  rw [Foundation.place]
  split_ifs with hsplit
  · exact wellCut_used_iff.mpr ⟨⟨Nat.add_le_add_left hleast head, hdvd⟩, hpre,
      wellCut_cons_free_iff.mpr ⟨.sub hsize.2 hdvd hsplit, hpost, hstarts⟩⟩
  · exact wellCut_used_iff.mpr ⟨hsize, hpre, hpost⟩

/-! ## Releasing -/

/-- A block in front of others, joined with the first of them if both are free. -/
def join (b : Block) : List Block → List Block
  | [] => [b]
  | c :: bs =>
      if b.used = false ∧ c.used = false then ⟨b.size + c.size, false⟩ :: bs else b :: c :: bs

/-- Blocks in front of others, joined where they meet. -/
def glue (pre bs : List Block) : List Block :=
  match pre.getLast? with
  | none => bs
  | some a => pre.dropLast ++ join a bs

/-- The blocks `pre` and `post` around a block of size `n`, after that block was freed. -/
def release (pre : List Block) (n : ℕ) (post : List Block) : List Block :=
  glue pre (join ⟨n, false⟩ post)

theorem glue_concat (pre : List Block) (a : Block) (bs : List Block) :
    glue (pre ++ [a]) bs = pre ++ join a bs := by
  simp [glue]

theorem release_nil (n : ℕ) (post : List Block) : release [] n post = join ⟨n, false⟩ post := rfl

theorem release_concat (pre : List Block) (a : Block) (n : ℕ) (post : List Block) :
    release (pre ++ [a]) n post = pre ++ join a (join ⟨n, false⟩ post) := glue_concat pre a _

theorem join_used (m : ℕ) (bs : List Block) : join ⟨m, true⟩ bs = ⟨m, true⟩ :: bs := by
  cases bs <;> simp [join]

theorem join_free_used (n m : ℕ) (bs : List Block) :
    join ⟨n, false⟩ (⟨m, true⟩ :: bs) = ⟨n, false⟩ :: ⟨m, true⟩ :: bs := by simp [join]

theorem join_free_free (n m : ℕ) (bs : List Block) :
    join ⟨n, false⟩ (⟨m, false⟩ :: bs) = ⟨n + m, false⟩ :: bs := by simp [join]

theorem join_free_nil (n : ℕ) : join ⟨n, false⟩ [] = [⟨n, false⟩] := rfl

theorem BlockSize.add {n m : ℕ} (hn : BlockSize head least unit n)
    (hm : BlockSize head least unit m) : BlockSize head least unit (n + m) :=
  ⟨hn.1.trans (Nat.le_add_right _ _), Nat.dvd_add hn.2 hm.2⟩

/-- A free block in front of others is a free block, at least as large, in front of a used one. -/
theorem exists_join_free {n : ℕ} (hn : BlockSize head least unit n)
    (hpost : WellCut head least unit post) :
    ∃ m rest, join ⟨n, false⟩ post = ⟨m, false⟩ :: rest ∧ BlockSize head least unit m ∧
      WellCut head least unit rest ∧ StartsUsed rest ∧
      ∀ a, busy (a + n) post = busy (a + m) rest := by
  rcases post with _ | ⟨⟨m, _ | _⟩, post⟩
  · exact ⟨n, [], rfl, hn, hpost, startsUsed_nil, fun a ↦ rfl⟩
  · obtain ⟨hm, hrest, hstarts⟩ := wellCut_cons_free_iff.mp hpost
    refine ⟨n + m, post, join_free_free n m post, hn.add hm, hrest, hstarts, fun a ↦ ?_⟩
    rw [busy_cons_free, Nat.add_assoc]
  · exact ⟨n, _, join_free_used n m post, hn, hpost, (startsUsed_cons _ _).mpr rfl, fun a ↦ rfl⟩

theorem WellCut.release {n : ℕ} (h : WellCut head least unit (pre ++ ⟨n, true⟩ :: post)) :
    WellCut head least unit (release pre n post) := by
  obtain ⟨hn, hpre, hpost⟩ := wellCut_used_iff.mp h
  obtain ⟨m, rest, hjoin, hm, hrest, hstarts, -⟩ := exists_join_free hn hpost
  rcases List.eq_nil_or_concat' pre with rfl | ⟨pre, ⟨k, _ | _⟩, rfl⟩
  · rw [release_nil, hjoin]
    exact wellCut_cons_free_iff.mpr ⟨hm, hrest, hstarts⟩
  · obtain ⟨hk, hpre, -, hends, -⟩ := wellCut_free_iff.mp hpre
    rw [release_concat, hjoin, join_free_free]
    exact wellCut_free_iff.mpr ⟨hk.add hm, hpre, hrest, hends, hstarts⟩
  · rw [release_concat, hjoin, join_used]
    obtain ⟨hk, hpre, -⟩ := wellCut_used_iff.mp hpre
    exact wellCut_used_iff.mpr ⟨hk, hpre, wellCut_cons_free_iff.mpr ⟨hm, hrest, hstarts⟩⟩

theorem busy_join (a : ℕ) (b : Block) (bs : List Block) :
    busy a (join b bs) = busy a (b :: bs) := by
  obtain ⟨n, _ | _⟩ := b
  · rcases bs with _ | ⟨⟨m, _ | _⟩, bs⟩
    · rfl
    · rw [join_free_free, busy_cons_free, busy_cons_free, busy_cons_free, Nat.add_assoc]
    · rw [join_free_used]
  · rw [join_used]

/-- The freed block is no longer among the used ones, and the others are as they were. -/
theorem busy_release (a : ℕ) (pre : List Block) (n : ℕ) (post : List Block) :
    busy a (release pre n post) = busy a pre ++ busy (a + extent pre + n) post := by
  rcases List.eq_nil_or_concat' pre with rfl | ⟨pre, ⟨m, _ | _⟩, rfl⟩
  · rw [release_nil, busy_join, busy_cons_free]
    rfl
  all_goals
    rw [release_concat, busy_append, busy_join, busy_append]
    simp only [busy_cons_used, busy_cons_free, busy_join, extent_append, extent_cons, extent_nil,
      busy_nil, List.append_nil, List.append_assoc, List.cons_append, List.nil_append, Nat.add_zero,
      Nat.add_assoc]

theorem busyExtent_release (pre : List Block) (n : ℕ) (post : List Block) :
    busyExtent (release pre n post) = busyExtent pre + busyExtent post := by
  rw [busyExtent, busy_release, List.map_append, List.sum_append, map_snd_busy _ post,
    busyExtent, busyExtent]

theorem lowestFree_join_free (n : ℕ) (bs : List Block) : lowestFree (join ⟨n, false⟩ bs) = 0 := by
  rcases bs with _ | ⟨⟨m, _ | _⟩, bs⟩
  · rw [join_free_nil, lowestFree_cons_free]
  · rw [join_free_free, lowestFree_cons_free]
  · rw [join_free_used, lowestFree_cons_free]

/-- The lowest free block is the freed one, or what it is joined with, unless there is one in front
of it. -/
theorem lowestFree_release (pre : List Block) (n : ℕ) (post : List Block) :
    lowestFree (release pre n post) = lowestFree pre := by
  rcases List.eq_nil_or_concat' pre with rfl | ⟨pre, ⟨m, _ | _⟩, rfl⟩
  · rw [release_nil, lowestFree_join_free, lowestFree_nil]
  · rw [release_concat, lowestFree_append, lowestFree_append, lowestFree_join_free,
      lowestFree_cons_free]
  · rw [release_concat, join_used, lowestFree_append, lowestFree_append, lowestFree_cons_used,
      lowestFree_cons_used, lowestFree_join_free, lowestFree_nil]

/-! ## Shrinking -/

/-- A used block of size `n` with `post` behind it, shrunk to a payload of `need`: the end goes to
a free block behind it, or else becomes one if there is room for it. -/
def shrink (head least need n : ℕ) (post : List Block) : List Block :=
  match post with
  | ⟨m, false⟩ :: rest => ⟨head + need, true⟩ :: ⟨n - (head + need) + m, false⟩ :: rest
  | ⟨_, true⟩ :: _ | [] => place head least need n ++ post

theorem shrink_of_startsUsed (h : StartsUsed post) (n : ℕ) :
    shrink head least need n post = place head least need n ++ post := by
  rcases post with _ | ⟨⟨m, _ | _⟩, post⟩
  · rfl
  · cases (startsUsed_cons _ _).mp h
  · rfl

theorem WellCut.shrink {n : ℕ} (h : WellCut head least unit (pre ++ ⟨n, true⟩ :: post))
    (hhead : unit ∣ head) (hneed : BlockSize 0 least unit need) :
    WellCut head least unit (pre ++ shrink head least need n post) := by
  obtain ⟨hn, hpre, hpost⟩ := wellCut_used_iff.mp h
  have hdvd : unit ∣ head + need := Nat.dvd_add hhead hneed.2
  have hleast : least ≤ need := (Nat.zero_add least).symm.trans_le hneed.1
  by_cases hstarts : StartsUsed post
  · -- nothing to join with: as if the block had been free and taken again
    rw [shrink_of_startsUsed hstarts, Foundation.place]
    split_ifs with hsplit
    · exact wellCut_used_iff.mpr ⟨⟨Nat.add_le_add_left hleast head, hdvd⟩, hpre,
        wellCut_cons_free_iff.mpr ⟨.sub hn.2 hdvd hsplit, hpost, hstarts⟩⟩
    · exact h
  · rcases post with _ | ⟨⟨m, _ | _⟩, post⟩
    · exact absurd startsUsed_nil hstarts
    · obtain ⟨hm, hrest, hused⟩ := wellCut_cons_free_iff.mp hpost
      refine wellCut_used_iff.mpr ⟨⟨Nat.add_le_add_left hleast head, hdvd⟩, hpre,
        wellCut_cons_free_iff.mpr ⟨⟨?_, ?_⟩, hrest, hused⟩⟩
      · exact hm.1.trans (Nat.le_add_left _ _)
      · exact Nat.dvd_add (Nat.dvd_sub hn.2 hdvd) hm.2
    · exact absurd ((startsUsed_cons _ _).mpr rfl) hstarts

theorem exists_busy_shrink {n : ℕ} (h : head + need ≤ n) (a : ℕ) (post : List Block) :
    ∃ m, head + need ≤ m ∧
      busy a (shrink head least need n post) = (a, m) :: busy (a + n) post := by
  by_cases hstarts : StartsUsed post
  · rw [shrink_of_startsUsed hstarts]
    exact exists_busy_place h a post
  · rcases post with _ | ⟨⟨m, _ | _⟩, post⟩
    · exact absurd startsUsed_nil hstarts
    · refine ⟨head + need, le_rfl, ?_⟩
      rw [shrink, busy_cons_used, busy_cons_free, busy_cons_free]
      congr 2
      omega
    · exact absurd ((startsUsed_cons _ _).mpr rfl) hstarts

/-! ## Vacant stretches -/

/-- The addresses from `a` to `b`, counted from the start of the region, are in the region, and in
no used block. -/
def Vacant (bs : List Block) (a b : ℕ) : Prop :=
  b ≤ extent bs ∧ ∀ e ∈ busy 0 bs, b ≤ e.1 ∨ e.1 + e.2 ≤ a

theorem vacant_block (pre : List Block) (n : ℕ) (post : List Block) {b : ℕ}
    (hb : b ≤ extent pre + n) :
    Vacant (pre ++ ⟨n, false⟩ :: post) (extent pre) b := by
  refine ⟨?_, fun e he ↦ ?_⟩
  · rw [extent_append, extent_cons]
    dsimp only
    omega
  · rw [busy_append, busy_cons_free, Nat.zero_add, List.mem_append] at he
    rcases he with he | he
    · exact .inr (by have := (le_of_mem_busy he).2; omega)
    · exact .inl (hb.trans (le_of_mem_busy he).1)

/-- **A vacant stretch is in one block**: no two free blocks are in a row. -/
theorem exists_block_of_vacant {a k b : ℕ} (hjoined : Joined bs) (hpos : ∀ b ∈ bs, 0 < b.size)
    (hka : k ≤ a) (hab : a < b) (hend : b ≤ k + extent bs)
    (hvacant : ∀ e ∈ busy k bs, b ≤ e.1 ∨ e.1 + e.2 ≤ a) :
    ∃ pre n post, bs = pre ++ ⟨n, false⟩ :: post ∧ k + extent pre ≤ a ∧
      b ≤ k + extent pre + n := by
  induction bs generalizing k with
  | nil => exact absurd (hend.trans (Nat.add_le_add_right hka 0)) (Nat.not_le.mpr hab)
  | cons c bs ih =>
    obtain ⟨n, used⟩ := c
    rw [extent_cons] at hend
    have hpos' : ∀ b ∈ bs, 0 < b.size := fun b hb ↦ hpos b (List.mem_cons_of_mem _ hb)
    have hn : 0 < n := hpos _ List.mem_cons_self
    have hrest : k + n ≤ a → (∀ e ∈ busy (k + n) bs, b ≤ e.1 ∨ e.1 + e.2 ≤ a) →
        ∃ pre m post, (⟨n, used⟩ : Block) :: bs = pre ++ ⟨m, false⟩ :: post ∧
          k + extent pre ≤ a ∧ b ≤ k + extent pre + m := by
      intro hle hvacant
      obtain ⟨pre, m, post, rfl, hpre, hm⟩ :=
        ih (List.isChain_cons.mp hjoined).2 hpos' hle (by dsimp only at hend; omega) hvacant
      refine ⟨⟨n, used⟩ :: pre, m, post, rfl, ?_⟩
      rw [extent_cons, ← Nat.add_assoc]
      exact ⟨hpre, hm⟩
    cases used with
    | true =>
      rw [busy_cons_used, List.forall_mem_cons] at hvacant
      dsimp only at hvacant
      exact hrest (by omega) hvacant.2
    | false =>
      rw [busy_cons_free] at hvacant
      by_cases hle : k + n ≤ a
      · exact hrest hle hvacant
      · refine ⟨[], n, bs, rfl, hka, ?_⟩
        rw [extent_nil, Nat.add_zero]
        -- what follows is the end of the region or a used block
        rcases bs with _ | ⟨⟨m, _ | _⟩, bs⟩
        · exact hend
        · have hstarts := ((joined_free_iff n [] _).mp hjoined).2.2.2
          cases (startsUsed_cons _ _).mp hstarts
        · have hm : 0 < m := hpos' _ List.mem_cons_self
          rw [busy_cons_used, List.forall_mem_cons] at hvacant
          dsimp only at hvacant
          omega

/-- A vacant stretch that is long enough is in a block that fits. -/
theorem exists_fits_of_vacant {a : ℕ} (hjoined : Joined bs) (hpos : ∀ b ∈ bs, 0 < b.size)
    (hneed : 0 < head + need) (hvacant : Vacant bs a (a + (head + need))) :
    ∃ pre n post, bs = pre ++ ⟨n, false⟩ :: post ∧ extent pre ≤ a ∧ Fits head need ⟨n, false⟩ := by
  obtain ⟨pre, n, post, rfl, hpre, hn⟩ := exists_block_of_vacant hjoined hpos (Nat.zero_le a)
    (Nat.lt_add_of_pos_right hneed) ((Nat.zero_add _).symm ▸ hvacant.1) hvacant.2
  rw [Nat.zero_add] at hpre hn
  exact ⟨pre, n, post, rfl, hpre, rfl, by dsimp only; omega⟩

/-- **First fit.** The block is taken at the lowest address with enough room. -/
theorem allocate_le_of_vacant {x a : ℕ} {bs' : List Block} (hjoined : Joined bs)
    (hpos : ∀ b ∈ bs, 0 < b.size) (hneed : 0 < head + need)
    (h : allocate head least need bs = some (x, bs'))
    (hvacant : Vacant bs a (a + (head + need))) : x ≤ a := by
  obtain ⟨pre, n, post, hsplit, hpre, hfits⟩ := exists_fits_of_vacant hjoined hpos hneed hvacant
  obtain ⟨pre', n', post', rfl, -, hfront, rfl, -⟩ := exists_of_allocate h
  -- a block that fits cannot be in front of the one that was taken
  refine le_trans ?_ hpre
  rcases List.append_eq_append_iff.mp hsplit with ⟨l, rfl, -⟩ | ⟨l, rfl, hl⟩
  · rw [extent_append]
    exact Nat.le_add_right _ _
  · cases l with
    | nil => rw [List.append_nil]
    | cons c l =>
      rw [List.cons_append, List.cons.injEq] at hl
      exact absurd hfits (hl.1 ▸ hfront c (List.mem_append_right _ List.mem_cons_self))

/-- **Nothing is overlooked**: if no block is taken, there is no room. -/
theorem not_vacant_of_allocate {a : ℕ} (hjoined : Joined bs) (hpos : ∀ b ∈ bs, 0 < b.size)
    (hneed : 0 < head + need) (h : allocate head least need bs = none) :
    ¬ Vacant bs a (a + (head + need)) := by
  intro hvacant
  obtain ⟨pre, n, post, rfl, -, hfits⟩ := exists_fits_of_vacant hjoined hpos hneed hvacant
  exact allocate_eq_none_iff.mp h _ (List.mem_append_right _ List.mem_cons_self) hfits

theorem vacant_of_allocate {x : ℕ} {bs' : List Block}
    (h : allocate head least need bs = some (x, bs')) : Vacant bs x (x + (head + need)) := by
  obtain ⟨pre, n, post, rfl, hn, -, rfl, -⟩ := exists_of_allocate h
  exact vacant_block pre n post (Nat.add_le_add_left hn _)

end Operations

end Foundation
