import ZanOS.Lwip.Blocks

/-!
# What the functions of `mem.c` do to the blocks

One theorem for each function: on a heap that is made up of the blocks `bs`, it returns, and the
heap is made up of the blocks that the operation of `Foundation.FirstFit` makes of `bs`. No
assertion fails on the way, with one exception. `mem_trim` asserts that the block it shrinks is not
the last one, on the path on which it cuts off the end of the block as a new one; nothing keeps a
client from shrinking the last block, so there the kernel stops (`Rep.memTrim_last`).
-/

namespace ZanOS.Lwip

open Foundation

variable {ram ram' : Ram} {p a : ℕ} {h : MemHeap} {bs pre post : List Block}

/-! ## Taking a block -/

theorem decUsed_used {s : MemStats} {y : ℕ} (hle : y ≤ s.used) (hlt : s.used < 2 ^ 16) :
    (s.decUsed y).used = s.used - y := by
  rw [MemStats.decUsed, usub_eq hle]
  exact Nat.mod_eq_of_lt (Nat.lt_of_le_of_lt (Nat.sub_le _ _) hlt)

theorem incUsed_used {s : MemStats} {y : ℕ} (hlt : s.used + y < 2 ^ 16) :
    (s.incUsed y).used = s.used + y := Nat.mod_eq_of_lt hlt

theorem Rep.exists_takeBlock_split {size n : ℕ} (hrep : Rep h (pre ++ ⟨n, false⟩ :: post))
    (hn : 8 + size + (8 + 12) ≤ n) :
    ∃ ram', takeBlock h (extent pre) size
        = some ⟨ram', h.lfree, h.stats.incUsed (8 + size)⟩ ∧
      Closed ram' 0 0 (pre ++ ⟨8 + size, true⟩ :: ⟨n - (8 + size), false⟩ :: post) ∧
      Kept h.ram ram' (pre ++ ⟨8 + size, true⟩ :: ⟨n - (8 + size), false⟩ :: post) := by
  obtain ⟨ram, lfree, stats⟩ := h
  obtain ⟨hlinked, hhead, hrest⟩ := hrep.split
  obtain ⟨-, hpre, hpost, -⟩ := wellCut_free_iff.mp hrep.wellCut
  dsimp only at hlinked hhead hrest ⊢
  have hend := hrest.extent_eq
  have hback := backlink_le pre
  have hfree : usub (extent pre + n) (extent pre + 8) = n - 8 := by
    rw [usub_eq (by omega)]
    omega
  have hptr2 : (extent pre + 8 + size) % 2 ^ 16 = extent pre + (8 + size) := by
    rw [Nat.add_assoc]
    exact Nat.mod_eq_of_lt (by omega)
  obtain ⟨ram', hrelink, hclosed, hout⟩ := Closed.exists_cut hlinked (eight_le_size hpre) hrest
    (eight_le_size hpost) (show extent pre + (8 + size) + 8 ≤ _ by omega) (show 1 < 2 ^ 8 by decide)
  rw [takeBlock, hhead]
  simp only [Option.bind_eq_bind, Option.bind_some, hfree, hptr2]
  rw [if_pos (by omega), lwipAssert, if_pos (by omega), Option.bind_some,
    MemHeap.insert_eq hhead (by omega) (by omega) (by omega), Option.bind_some]
  dsimp only
  rw [MemHeap.update_eq (loadMem_writeMem (by omega) (by omega) (by omega) (by decide)),
    Option.bind_some, writeMem_writeMem]
  dsimp only
  rw [loadMem_writeMem_of_ne (by omega),
    loadMem_writeMem (by omega) (by omega) (by omega) (by decide), Option.bind_some]
  dsimp only
  rw [hrelink, Option.bind_some, Nat.add_comm size 8]
  refine ⟨ram', rfl, ?_, ?_⟩
  · have hcut := hclosed true rfl
    rwa [show extent pre + n - (extent pre + (8 + size)) = n - (8 + size) by omega] at hcut
  · refine kept_of_outside [⟨8 + size, true⟩, ⟨n - (8 + size), false⟩] (fun i hi ↦ ?_)
      fun e he i hi hlt ↦ ?_
    · simp only [extent_cons, extent_nil] at hi
      exact hout i (by omega)
    · rw [busy_cons_used, busy_cons_free, busy_nil, List.mem_singleton] at he
      rw [he] at hi hlt
      exact hout i (by dsimp only at hi hlt; omega)

theorem Rep.exists_takeBlock_whole {size n : ℕ} (hrep : Rep h (pre ++ ⟨n, false⟩ :: post))
    (hn : 8 + size ≤ n) (hlt : n < 8 + size + (8 + 12)) :
    ∃ ram', takeBlock h (extent pre) size = some ⟨ram', h.lfree, h.stats.incUsed n⟩ ∧
      Closed ram' 0 0 (pre ++ ⟨n, true⟩ :: post) ∧ Kept h.ram ram' (pre ++ ⟨n, true⟩ :: post) := by
  obtain ⟨ram, lfree, stats⟩ := h
  obtain ⟨hlinked, hhead, hrest⟩ := hrep.split
  obtain ⟨-, hpre, hpost, -⟩ := wellCut_free_iff.mp hrep.wellCut
  dsimp only at hlinked hhead hrest ⊢
  have hend := hrest.extent_eq
  have hback := backlink_le pre
  have hfree : usub (extent pre + n) (extent pre + 8) = n - 8 := by
    rw [usub_eq (by omega)]
    omega
  have hsize : usub (extent pre + n) (extent pre) = n := by
    rw [usub_eq (by omega)]
    omega
  rw [takeBlock, hhead]
  simp only [Option.bind_eq_bind, Option.bind_some, hfree]
  rw [if_neg (by omega), MemHeap.update_eq hhead, Option.bind_some]
  dsimp only
  rw [loadMem_writeMem (by omega) (by omega) (by omega) (by decide), Option.bind_some, hsize]
  refine ⟨_, rfl, ?_, ?_⟩
  · rw [closed_append, Nat.zero_add, closed_cons]
    exact ⟨hlinked.congr (eight_le_size hpre) fun i _ hi ↦ writeMem_of_outside (by omega),
      loadMem_writeMem (by omega) (by omega) (by omega) (by decide),
      hrest.congr (eight_le_size hpost) fun i hi ↦ writeMem_of_outside (by omega)⟩
  · refine kept_of_outside [⟨n, true⟩] (fun i hi ↦ ?_) fun e he i hi hlt ↦ ?_
    · simp only [extent_cons, extent_nil] at hi
      exact writeMem_of_outside (by omega)
    · rw [busy_cons_used, busy_nil, List.mem_singleton] at he
      rw [he] at hi hlt
      exact writeMem_of_outside (by dsimp only at hi hlt; omega)

/-- **A block is taken** as `place` says. -/
theorem Rep.exists_takeBlock {size n : ℕ} (hrep : Rep h (pre ++ ⟨n, false⟩ :: post))
    (hn : 8 + size ≤ n) :
    ∃ h', takeBlock h (extent pre) size = some h' ∧ h'.lfree = h.lfree ∧
      Closed h'.ram 0 0 (pre ++ (place 8 12 size n ++ post)) ∧
      h'.stats.used = busyExtent (pre ++ (place 8 12 size n ++ post)) ∧
      Kept h.ram h'.ram (pre ++ (place 8 12 size n ++ post)) := by
  have hend := hrep.closed.extent_eq
  rw [extent_append, extent_cons] at hend
  dsimp only at hend
  have hused : h.stats.used = busyExtent pre + busyExtent post := by
    rw [hrep.used, busyExtent_append, busyExtent_free]
  have hpre := busyExtent_le pre
  have hpost := busyExtent_le post
  rw [place]
  split_ifs with hsplit
  · obtain ⟨ram', htake, hclosed, hkept⟩ := hrep.exists_takeBlock_split hsplit
    refine ⟨_, htake, rfl, hclosed, ?_, hkept⟩
    rw [incUsed_used (by omega), hused]
    simp only [List.cons_append, List.nil_append, busyExtent_append, busyExtent_used,
      busyExtent_free]
    omega
  · obtain ⟨ram', htake, hclosed, hkept⟩ := hrep.exists_takeBlock_whole hn (not_le.mp hsplit)
    refine ⟨_, htake, rfl, hclosed, ?_, hkept⟩
    rw [incUsed_used (by omega), hused]
    simp only [List.cons_append, List.nil_append, busyExtent_append, busyExtent_used]
    omega

/-! ## Searching -/

/-- **The search finds the first block that fits.** It does not look at the blocks from which on
what is left of the heap is too small. -/
theorem Closed.findFree_eq {size fuel : ℕ} (hclosed : Closed ram p a bs)
    (hsize : ∀ b ∈ bs, 8 ≤ b.size) (hfuel : bs.length < fuel) :
    findFree ram size fuel a = some ((allocate 8 12 size bs).map fun r ↦ a + r.1) := by
  induction bs generalizing p a fuel with
  | nil =>
    obtain ⟨fuel, rfl⟩ := Nat.exists_eq_add_one_of_ne_zero hfuel.ne'
    have ha : a = 16000 := hclosed.extent_eq
    rw [findFree, if_neg (by omega)]
    rfl
  | cons b bs ih =>
    obtain ⟨fuel, rfl⟩ := Nat.exists_eq_add_one_of_ne_zero (Nat.ne_of_gt (Nat.zero_lt_of_lt hfuel))
    have hend := hclosed.extent_eq
    have hb := hsize b List.mem_cons_self
    obtain ⟨hhead, hrest⟩ := closed_cons.mp hclosed
    rw [extent_cons] at hend
    rw [findFree]
    split_ifs with hlt
    · have hfree : usub (a + b.size) (a + 8) = b.size - 8 := by
        rw [usub_eq (by omega)]
        omega
      rw [hhead]
      simp only [Option.bind_eq_bind, Option.bind_some, hfree]
      rw [allocate]
      by_cases hfits : Fits 8 size b
      · have hused : b.used.toNat = 0 := by rw [hfits.1]; rfl
        have hle := hfits.2
        rw [if_pos hfits, if_pos ⟨hused, by omega⟩, Option.map_some, Nat.add_zero]
      · rw [if_neg hfits, if_neg, ih hrest (fun c hc ↦ hsize c (List.mem_cons_of_mem _ hc))
          (Nat.lt_of_succ_lt_succ hfuel), Option.map_map]
        · simp only [Function.comp_def, Nat.add_assoc]
        · rintro ⟨hused, hle⟩
          exact hfits ⟨by simpa using hused, by omega⟩
    · -- every block from here on is shorter than what is asked for
      have hnone : allocate 8 12 size (b :: bs) = none := by
        rw [allocate_eq_none_iff]
        intro c hc hfits
        obtain ⟨l, r, hsplit⟩ := List.append_of_mem hc
        have hext : extent (b :: bs) = extent l + (c.size + extent r) := by
          rw [hsplit, extent_append, extent_cons]
        rw [extent_cons] at hext
        have hle := hfits.2
        omega
      rw [hnone]
      rfl

/-- **The loop that moves `lfree` on** ends at the first free block. -/
theorem Closed.exists_skipUsed {fuel : ℕ} (hclosed : Closed ram p a bs)
    (hsize : ∀ b ∈ bs, 8 ≤ b.size) (hfuel : bs.length < fuel) :
    ∃ m, skipUsed ram fuel a = some (a + lowestFree bs) ∧
      loadMem ram (a + lowestFree bs) = some m ∧ (a + lowestFree bs = 16000 ∨ m.used = 0) := by
  induction bs generalizing p a fuel with
  | nil =>
    obtain ⟨fuel, rfl⟩ := Nat.exists_eq_add_one_of_ne_zero hfuel.ne'
    obtain rfl : a = 16000 := hclosed.extent_eq
    refine ⟨_, ?_, hclosed.ramEnd, .inl rfl⟩
    rw [skipUsed, hclosed.ramEnd]
    rfl
  | cons b bs ih =>
    obtain ⟨fuel, rfl⟩ := Nat.exists_eq_add_one_of_ne_zero (Nat.ne_of_gt (Nat.zero_lt_of_lt hfuel))
    have hend := hclosed.extent_eq
    have hb := hsize b List.mem_cons_self
    obtain ⟨hhead, hrest⟩ := closed_cons.mp hclosed
    obtain ⟨n, used⟩ := b
    rw [extent_cons] at hend
    dsimp only at hend hb hrest hhead
    rw [skipUsed, hhead]
    simp only [Option.bind_eq_bind, Option.bind_some]
    cases used with
    | false =>
      rw [lowestFree_cons_free, Nat.add_zero, if_neg fun hne ↦ hne.1 rfl]
      exact ⟨_, rfl, hhead, .inr rfl⟩
    | true =>
      rw [lowestFree_cons_used, ← Nat.add_assoc, if_pos ⟨by decide, by omega⟩]
      exact ih hrest (fun c hc ↦ hsize c (List.mem_cons_of_mem _ hc))
        (Nat.lt_of_succ_lt_succ hfuel)

/-! ## `mem_malloc` -/

theorem length_lt_of_closed (hclosed : Closed ram p a bs) (hsize : ∀ b ∈ bs, 8 ≤ b.size) :
    bs.length < 16000 := by
  have hlen := mul_length_le_extent hsize
  have hend := hclosed.extent_eq
  omega

theorem lowestFree_eq_extent_iff (n : ℕ) (post : List Block) (hpre : ∀ b ∈ pre, 8 ≤ b.size) :
    lowestFree (pre ++ ⟨n, false⟩ :: post) = extent pre ↔ ∀ b ∈ pre, b.used = true := by
  rw [lowestFree_append, lowestFree_cons_free, Nat.add_zero]
  split_ifs with hused
  · exact iff_of_true rfl hused
  · exact iff_of_false
      (lowestFree_lt (fun b hb ↦ Nat.lt_of_lt_of_le (by decide) (hpre b hb)) hused).ne hused

theorem Rep.exists_adjustLfree {n : ℕ} {mid : List Block} (hpre : ∀ b ∈ pre, 8 ≤ b.size)
    (hlfree : h.lfree = lowestFree (pre ++ ⟨n, false⟩ :: post))
    (hclosed : Closed h.ram 0 0 (pre ++ mid)) (hsize : ∀ b ∈ pre ++ mid, 8 ≤ b.size) :
    adjustLfree h (extent pre) = some { h with lfree := lowestFree (pre ++ mid) } := by
  obtain ⟨-, hmid⟩ := closed_append.mp hclosed
  rw [Nat.zero_add] at hmid
  rw [adjustLfree, hlfree]
  have hiff := lowestFree_eq_extent_iff n post hpre
  by_cases hused : ∀ b ∈ pre, b.used = true
  · obtain ⟨m, hskip, hload, hm⟩ := hmid.exists_skipUsed
      (fun b hb ↦ hsize b (List.mem_append_right _ hb))
      (Nat.lt_of_le_of_lt (by simp) (length_lt_of_closed hclosed hsize))
    rw [if_pos (hiff.mpr hused).symm, hiff.mpr hused, hskip, lowestFree_append, if_pos hused]
    simp only [Option.bind_eq_bind, Option.bind_some]
    rw [hload, Option.bind_some, lwipAssert, if_pos hm]
    rfl
  · have hsame : lowestFree (pre ++ mid) = h.lfree := by
      rw [hlfree, lowestFree_append, if_neg hused, lowestFree_append, if_neg hused]
    rw [if_neg fun heq ↦ hused (hiff.mp heq.symm), hsame]

theorem payloadSize_eq_max (size : ℕ) :
    payloadSize size = max 12 (memAlignSize size % 2 ^ 16) := by
  simp only [payloadSize]
  split_ifs with hlt
  · rw [max_eq_left hlt.le]
  · rw [max_eq_right (not_lt.mp hlt)]

theorem blockSize_payloadSize (size : ℕ) : BlockSize 0 12 4 (payloadSize size) := by
  rw [payloadSize_eq_max, memAlignSize]
  exact ⟨by omega, by omega⟩

/-- The sizes that `mem_malloc` refuses without looking. -/
def Refused (size : ℕ) : Prop :=
  size = 0 ∨ 16000 < payloadSize size ∨ payloadSize size < size

instance (size : ℕ) : Decidable (Refused size) := inferInstanceAs (Decidable (_ ∨ _))

theorem memMalloc_refused {size : ℕ} (hsize : Refused size) :
    memMalloc h size = some (h, none) := by
  rw [memMalloc]
  dsimp only
  split_ifs with hzero hlarge
  · rfl
  · rfl
  · exact absurd (hsize.resolve_left hzero) hlarge

/-- **`mem_malloc`** takes the first block that fits. -/
theorem Rep.memMalloc_eq {size : ℕ} (hrep : Rep h bs) (hsize : ¬ Refused size) :
    match allocate 8 12 (payloadSize size) bs with
    | none => memMalloc h size = some ({ h with stats := h.stats.incErr }, none)
    | some (x, bs') => ∃ h', memMalloc h size = some (h', some (x + 8)) ∧ Rep h' bs' ∧
        Kept h.ram h'.ram bs' := by
  have hge := eight_le_size hrep.wellCut
  have hneed := blockSize_payloadSize size
  rw [Refused, not_or] at hsize
  -- the search starts at the lowest free block, behind blocks that are used
  have hsearch : findFree h.ram (payloadSize size) 16000 h.lfree
      = some ((allocate 8 12 (payloadSize size) bs).map Prod.fst) := by
    have hused : ∀ b ∈ bs.takeWhile Block.used, b.used = true := fun b hb ↦
      List.mem_takeWhile_imp hb
    have happend := List.takeWhile_append_dropWhile (p := Block.used) (l := bs)
    have hclosed := hrep.closed
    rw [← happend, closed_append, Nat.zero_add] at hclosed
    have halloc : allocate 8 12 (payloadSize size) bs
        = (allocate 8 12 (payloadSize size) (bs.dropWhile Block.used)).map
          fun r ↦ (extent (bs.takeWhile Block.used) + r.1, bs.takeWhile Block.used ++ r.2) := by
      conv_lhs => rw [← happend]
      exact allocate_append fun c hc hfits ↦ by simpa [hused c hc] using hfits.1
    rw [hrep.lfree, lowestFree, halloc, Option.map_map]
    exact hclosed.2.findFree_eq (fun b hb ↦ hge b ((List.dropWhile_sublist _).mem hb))
      (Nat.lt_of_le_of_lt (List.dropWhile_sublist _).length_le
        (length_lt_of_closed hrep.closed hge))
  rw [memMalloc, if_neg hsize.1, if_neg hsize.2, hsearch]
  simp only [Option.bind_eq_bind, Option.bind_some]
  rcases hallocate : allocate 8 12 (payloadSize size) bs with _ | ⟨x, bs'⟩
  · rfl
  · obtain ⟨pre, n, post, rfl, hn, -, rfl, rfl⟩ := exists_of_allocate hallocate
    have hcut := hrep.wellCut.place (by decide) hneed
    obtain ⟨h', htake, hlfree, hclosed, hused, hkept⟩ := hrep.exists_takeBlock hn
    have hadjust := Rep.exists_adjustLfree
      (fun b hb ↦ hge b (List.mem_append_left _ hb)) (hlfree.trans hrep.lfree) hclosed
      (eight_le_size hcut)
    have hend := hrep.closed.extent_eq
    rw [Nat.zero_add, extent_append, extent_cons] at hend
    dsimp only at hend
    have hdvd := (wellCut_free_iff.mp hrep.wellCut).2.1.dvd_extent
    simp only [Option.map_some]
    rw [htake, Option.bind_some, hadjust, Option.bind_some, lwipAssert, if_pos (by omega),
      Option.bind_some, lwipAssert, if_pos (by omega), Option.bind_some, lwipAssert,
      if_pos (by omega), Option.bind_some]
    exact ⟨_, rfl, ⟨hcut, hclosed, rfl, hused⟩, hkept⟩

/-! ## `mem_free` -/

theorem Closed.exists_absorb {n m : ℕ}
    (hclosed : Closed ram 0 0 (pre ++ ⟨n, false⟩ :: ⟨m, false⟩ :: post))
    (hpre : ∀ b ∈ pre, 8 ≤ b.size) (hpost : ∀ b ∈ post, 8 ≤ b.size) (hn : 8 ≤ n) (hm : 8 ≤ m) :
    ∃ ram', (∀ lfree stats, MemHeap.absorb ⟨ram, lfree, stats⟩ (extent pre) (extent pre + n)
        = some ⟨ram', lfree, stats⟩) ∧
      Closed ram' 0 0 (pre ++ ⟨n + m, false⟩ :: post) ∧
      Kept ram ram' (pre ++ ⟨n + m, false⟩ :: post) := by
  obtain ⟨hlinked, hclosed⟩ := closed_append.mp hclosed
  rw [Nat.zero_add] at hclosed
  obtain ⟨hfirst, hclosed⟩ := closed_cons.mp hclosed
  obtain ⟨hsecond, hrest⟩ := closed_cons.mp hclosed
  dsimp only at hfirst hsecond hrest
  have hend := hrest.extent_eq
  have hback := backlink_le pre
  set ram₁ := writeMem ram (extent pre) ⟨extent pre + n + m, backlink 0 0 pre, 0⟩ with hram₁
  have hout₁ : ∀ i, i < extent pre ∨ extent pre + 5 ≤ i → ram₁ i = ram i := fun i hi ↦
    writeMem_of_outside hi
  have hhead₁ : loadMem ram₁ (extent pre) = some ⟨extent pre + n + m, backlink 0 0 pre, 0⟩ :=
    loadMem_writeMem (by omega) (by omega) (by omega) (by decide)
  obtain ⟨ram₂, hrelink, hrest₂, hout₂⟩ := (hrest.congr hpost
    fun i hi ↦ hout₁ i (by omega)).exists_relink hpost (show extent pre < 2 ^ 16 by omega)
  refine ⟨ram₂, fun lfree stats ↦ ?_, ?_, ?_⟩
  · rw [MemHeap.absorb]
    dsimp only
    rw [hsecond]
    simp only [Option.bind_eq_bind, Option.bind_some]
    rw [MemHeap.update_eq hfirst, Option.bind_some]
    dsimp only
    rw [loadMem_writeMem_of_ne (by omega), hsecond, Option.bind_some]
    exact hrelink lfree stats
  · rw [closed_append, Nat.zero_add, closed_cons]
    dsimp only
    rw [← Nat.add_assoc]
    refine ⟨hlinked.congr hpre fun i _ hi ↦ ?_, ?_, hrest₂⟩
    · rw [hout₂ i (by omega), hout₁ i (by omega)]
    · exact (loadMem_congr fun i _ _ ↦ hout₂ i (by omega)).trans hhead₁
  · refine kept_of_outside [⟨n + m, false⟩] (fun i hi ↦ ?_) fun e he ↦ ?_
    · simp only [extent_cons, extent_nil] at hi
      rw [hout₂ i (by omega), hout₁ i (by omega)]
    · cases he

/-- The first half of `plug_holes`. -/
theorem Closed.exists_plugForward {n lfree : ℕ}
    (hclosed : Closed ram 0 0 (pre ++ ⟨n, false⟩ :: post)) (hpre : ∀ b ∈ pre, 8 ≤ b.size)
    (hpost : ∀ b ∈ post, 8 ≤ b.size) (hn : 8 ≤ n) (hlfree : lfree ≤ extent pre) :
    ∃ ram', (∀ stats, plugForward ⟨ram, lfree, stats⟩ (extent pre)
        = some ⟨ram', lfree, stats⟩) ∧
      Closed ram' 0 0 (pre ++ join ⟨n, false⟩ post) ∧
      Kept ram ram' (pre ++ join ⟨n, false⟩ post) := by
  obtain ⟨hlinked, hrest⟩ := closed_append.mp hclosed
  rw [Nat.zero_add] at hrest
  obtain ⟨hhead, hrest⟩ := closed_cons.mp hrest
  dsimp only at hhead hrest
  have hend := hrest.extent_eq
  obtain ⟨m, hnext, hm⟩ := hrest.exists_loadMem
  simp only [plugForward, hhead, hnext, Option.bind_eq_bind, Option.bind_some]
  by_cases hfree : m.used = 0
  · obtain ⟨k, post, rfl⟩ := hm.mp hfree
    have hk : 8 ≤ k := hpost _ List.mem_cons_self
    obtain ⟨ram', habsorb, hclosed', hkept⟩ := hclosed.exists_absorb hpre
      (fun b hb ↦ hpost b (List.mem_cons_of_mem _ hb)) hn hk
    rw [extent_cons] at hend
    dsimp only at hend
    refine ⟨ram', fun stats ↦ ?_, ?_⟩
    · rw [if_pos ⟨by omega, hfree, by omega⟩, if_neg (by omega)]
      exact habsorb lfree stats
    · rw [join_free_free]
      exact ⟨hclosed', hkept⟩
  · refine ⟨ram, fun stats ↦ if_neg fun hc ↦ hfree hc.2.1, ?_⟩
    have hjoin : join ⟨n, false⟩ post = ⟨n, false⟩ :: post := by
      rcases post with _ | ⟨⟨k, _ | _⟩, post⟩
      · rfl
      · exact absurd (hm.mpr ⟨k, post, rfl⟩) hfree
      · exact join_free_used n k post
    rw [hjoin]
    exact ⟨hclosed, fun _ _ _ _ _ ↦ rfl⟩

/-- The second half of `plug_holes`. -/
theorem Closed.exists_plugBackward {n lfree : ℕ}
    (hclosed : Closed ram 0 0 (pre ++ ⟨n, false⟩ :: post)) (hpre : ∀ b ∈ pre, 8 ≤ b.size)
    (hpost : ∀ b ∈ post, 8 ≤ b.size) (hn : 8 ≤ n) (hlfree : lfree = lowestFree pre) :
    ∃ ram', (∀ stats, plugBackward ⟨ram, lfree, stats⟩ (extent pre)
        = some ⟨ram', lfree, stats⟩) ∧
      Closed ram' 0 0 (glue pre (⟨n, false⟩ :: post)) ∧
      Kept ram ram' (glue pre (⟨n, false⟩ :: post)) := by
  obtain ⟨hlinked, hrest⟩ := closed_append.mp hclosed
  rw [Nat.zero_add] at hrest
  obtain ⟨hhead, hrest⟩ := closed_cons.mp hrest
  dsimp only at hhead hrest
  simp only [plugBackward, hhead, Option.bind_eq_bind, Option.bind_some]
  rcases List.eq_nil_or_concat' pre with rfl | ⟨pre, ⟨k, used⟩, rfl⟩
  · -- the first block is its own predecessor
    refine ⟨ram, fun stats ↦ ?_, hclosed, fun _ _ _ _ _ ↦ rfl⟩
    have hself : loadMem ram (backlink 0 0 []) = some ⟨extent [] + n, backlink 0 0 [], 0⟩ := hhead
    rw [hself, Option.bind_some, if_neg fun hc ↦ hc.1 rfl]
  · have hk : 8 ≤ k := hpre _ List.mem_concat_self
    obtain ⟨hfront, hlast⟩ := linked_append.mp hlinked
    have hprev := hlast.1
    rw [Nat.zero_add] at hprev
    rw [glue_concat, backlink_concat, Nat.zero_add, hprev]
    simp only [Option.bind_some]
    rw [extent_append, extent_cons, extent_nil, Nat.add_zero]
    cases used with
    | false =>
      rw [List.append_assoc, List.cons_append, List.nil_append] at hclosed
      obtain ⟨ram', habsorb, hclosed', hkept⟩ := hclosed.exists_absorb
        (fun b hb ↦ hpre b (List.mem_append_left _ hb)) hpost hk hn
      rw [join_free_free]
      refine ⟨ram', fun stats ↦ ?_, hclosed', hkept⟩
      have hle : lfree ≤ extent pre := by
        rw [hlfree, lowestFree_append, lowestFree_cons_free]
        split_ifs
        · exact le_rfl
        · exact lowestFree_le pre
      rw [if_pos ⟨by dsimp only; omega, rfl⟩, if_neg (by dsimp only; omega)]
      exact habsorb lfree stats
    | true =>
      refine ⟨ram, fun stats ↦ if_neg fun hc ↦ absurd hc.2 (by decide), ?_, fun _ _ _ _ _ ↦ rfl⟩
      rw [join_used]
      simpa using hclosed

theorem Closed.memLinkValid_eq {b : Block} (hclosed : Closed ram 0 0 (pre ++ b :: post)) :
    memLinkValid ram (extent pre) = some true := by
  obtain ⟨hlinked, hrest⟩ := closed_append.mp hclosed
  rw [Nat.zero_add] at hrest
  obtain ⟨hhead, hrest⟩ := closed_cons.mp hrest
  have hend := hrest.extent_eq
  have hback := backlink_le pre
  have hprev : ∃ m, loadMem ram (backlink 0 0 pre) = some m ∧
      (backlink 0 0 pre = extent pre ∨ m.next = extent pre) := by
    rcases List.eq_nil_or_concat' pre with rfl | ⟨pre, a, rfl⟩
    · exact ⟨_, hhead, .inl rfl⟩
    · have hlast := (linked_append.mp hlinked).2.1
      rw [Nat.zero_add] at hlast
      rw [backlink_concat, Nat.zero_add]
      exact ⟨_, hlast, .inr (by simp)⟩
  have hnext : ∃ m, loadMem ram (extent pre + b.size) = some m ∧
      (extent pre + b.size = 16000 ∨ m.prev = extent pre) := by
    cases post with
    | nil => exact ⟨_, hend ▸ hrest.ramEnd, .inl hend⟩
    | cons c post => exact ⟨_, hrest.linked.1, .inr rfl⟩
  obtain ⟨m₁, hload₁, hm₁⟩ := hprev
  obtain ⟨m₂, hload₂, hm₂⟩ := hnext
  simp only [memLinkValid, hhead, hload₁, hload₂, Option.bind_eq_bind, Option.bind_some]
  rw [Option.some.injEq, decide_eq_true_iff]
  omega

/-- `plug_holes` joins a free block with its neighbours. -/
theorem Closed.exists_plugHoles {n : ℕ} (hclosed : Closed ram 0 0 (pre ++ ⟨n, false⟩ :: post))
    (hpre : WellCut 8 12 4 pre) (hpost : WellCut 8 12 4 post) (hn : BlockSize 8 12 4 n) :
    ∃ ram', (∀ stats, plugHoles ⟨ram, lowestFree pre, stats⟩ (extent pre)
        = some ⟨ram', lowestFree pre, stats⟩) ∧
      Closed ram' 0 0 (release pre n post) ∧ Kept ram ram' (release pre n post) := by
  have hhead := (closed_append.mp hclosed).2.linked.1
  rw [Nat.zero_add] at hhead
  have hend := hclosed.extent_eq
  rw [Nat.zero_add, extent_append, extent_cons] at hend
  dsimp only at hend
  have hge := eight_le_size hpre
  have hn20 := hn.1
  obtain ⟨ram₁, hforward, hclosed₁, hkept₁⟩ := hclosed.exists_plugForward hge
    (eight_le_size hpost) (by omega) (lowestFree_le pre)
  obtain ⟨m, rest, hjoin, hm, hrest, -⟩ := exists_join_free hn hpost
  have hm20 := hm.1
  have hbusy : busy 0 (release pre n post) = busy 0 (pre ++ join ⟨n, false⟩ post) := by
    rw [busy_release, busy_append, busy_join, busy_cons_free]
  have hrelease : release pre n post = glue pre (⟨m, false⟩ :: rest) := by rw [release, hjoin]
  rw [Kept, ← hbusy] at hkept₁
  rw [hjoin] at hclosed₁
  obtain ⟨ram₂, hbackward, hclosed₂, hkept₂⟩ := hclosed₁.exists_plugBackward hge
    (eight_le_size hrest) (by omega) rfl
  rw [← hrelease] at hclosed₂ hkept₂
  refine ⟨ram₂, fun stats ↦ ?_, hclosed₂, fun e he i hi hlt ↦ ?_⟩
  · rw [plugHoles]
    simp only [hhead, lwipAssert, Option.bind_eq_bind, Option.bind_some, Bool.toNat_false]
    rw [if_pos (by omega), Option.bind_some, if_pos trivial, Option.bind_some, if_pos (by omega),
      Option.bind_some, hforward, Option.bind_some, hbackward]
  · rw [hkept₂ e he i hi hlt, hkept₁ e he i hi hlt]

/-- `lfree` after the mark was taken off a block. -/
theorem min_lowestFree {n : ℕ} (hn : 0 < n) (pre post : List Block) :
    (if extent pre < lowestFree (pre ++ ⟨n, true⟩ :: post) then extent pre
      else lowestFree (pre ++ ⟨n, true⟩ :: post)) = lowestFree pre := by
  have hle := lowestFree_le pre
  rw [lowestFree_append, lowestFree_cons_used]
  by_cases hused : ∀ b ∈ pre, b.used = true
  · rw [if_pos hused, if_pos (by omega), lowestFree, List.takeWhile_eq_self_iff.mpr hused]
  · rw [if_neg hused, if_neg (by omega)]

/-- **`mem_free`** releases the block in front of the pointer. -/
theorem Rep.exists_memFree {n : ℕ} (hrep : Rep h (pre ++ ⟨n, true⟩ :: post)) :
    ∃ h', memFree h (some ((extent pre + 8 : ℕ) : ℤ)) = some h' ∧ Rep h' (release pre n post) ∧
      Kept h.ram h'.ram (release pre n post) := by
  have hvalid := hrep.closed.memLinkValid_eq
  have hlow := hrep.lfree
  have hstats := hrep.used
  obtain ⟨hn, hpre, hpost⟩ := wellCut_used_iff.mp hrep.wellCut
  obtain ⟨hlinked, hhead, hrest⟩ := hrep.split
  obtain ⟨ram, lfree, stats⟩ := h
  dsimp only at hvalid hlow hstats hlinked hhead hrest ⊢
  have hend := hrest.extent_eq
  have hback := backlink_le pre
  have hdvd := hpre.dvd_extent
  have hn20 := hn.1
  have hge := eight_le_size hpre
  have hbusy := busyExtent_le (pre ++ ⟨n, true⟩ :: post)
  rw [extent_append, extent_cons, ← hstats] at hbusy
  dsimp only at hbusy
  rw [busyExtent_append, busyExtent_used] at hstats
  -- the mark is taken off
  set ram₁ := writeMem ram (extent pre) ⟨extent pre + n, backlink 0 0 pre, 0⟩ with hram₁
  have hclosed₁ : Closed ram₁ 0 0 (pre ++ ⟨n, false⟩ :: post) := by
    rw [closed_append, Nat.zero_add, closed_cons]
    exact ⟨hlinked.congr hge fun i _ hi ↦ writeMem_of_outside (by omega),
      loadMem_writeMem (by omega) (by omega) (by omega) (by decide),
      hrest.congr (eight_le_size hpost) fun i hi ↦ writeMem_of_outside (by omega)⟩
  have hkept₁ : Kept ram ram₁ (release pre n post) := by
    have hkept : Kept ram ram₁ (pre ++ ([⟨n, false⟩] ++ post)) := by
      refine kept_of_outside _ (fun i hi ↦ writeMem_of_outside ?_) fun e he ↦ absurd he ?_
      · simp only [extent_cons, extent_nil] at hi
        omega
      · exact List.not_mem_nil
    rw [Kept, busy_release]
    rwa [Kept, busy_append, List.singleton_append, busy_cons_free] at hkept
  obtain ⟨ram₂, hplug, hclosed₂, hkept₂⟩ := hclosed₁.exists_plugHoles hpre hpost hn
  refine ⟨⟨ram₂, lowestFree pre, stats.decUsed n⟩, ?_, ⟨hrep.wellCut.release, hclosed₂, ?_, ?_⟩,
    fun e he i hi hlt ↦ ?_⟩
  · simp only [memFree, lwipAssert]
    rw [if_pos (by omega)]
    simp only [Option.bind_eq_bind, Option.bind_some]
    rw [if_pos (by omega), Option.bind_some, show ((extent pre + 8 : ℕ) - 8 : ℤ).toNat = extent pre
      by omega, hhead, Option.bind_some]
    dsimp only [Bool.toNat_true]
    rw [if_pos Nat.one_ne_zero, Option.bind_some, hvalid, Option.bind_some, if_pos rfl,
      Option.bind_some, MemHeap.update_eq hhead, Option.bind_some]
    dsimp only
    rw [hlow, min_lowestFree (by omega), usub_eq (by omega), Nat.add_sub_cancel_left]
    exact hplug _
  · rw [lowestFree_release]
  · rw [busyExtent_release, decUsed_used (by omega) (by omega)]
    omega
  · exact (hkept₂ e he i hi hlt).trans (hkept₁ e he i hi hlt)

/-! ## `mem_trim` -/

theorem Closed.exists_cutOff {need y n : ℕ} (hlinked : Linked ram 0 0 pre)
    (hpre : ∀ b ∈ pre, 8 ≤ b.size) (hrest : Closed ram a y post) (hpost : ∀ b ∈ post, 8 ≤ b.size)
    (hhead : loadMem ram (extent pre) = some ⟨extent pre + n, backlink 0 0 pre, 1⟩)
    (hy : extent pre + (8 + need) + 8 ≤ y) :
    ∃ ram', (∀ lfree stats, MemHeap.cutOff ⟨ram, lfree, stats⟩ (extent pre)
        (extent pre + (8 + need)) y = some ⟨ram', lfree, stats⟩) ∧
      Closed ram' 0 0
        (pre ++ ⟨8 + need, true⟩ :: ⟨y - (extent pre + (8 + need)), false⟩ :: post) ∧
      Kept ram ram'
        (pre ++ ⟨8 + need, true⟩ :: ⟨y - (extent pre + (8 + need)), false⟩ :: post) := by
  have hend := hrest.extent_eq
  have hback := backlink_le pre
  obtain ⟨ram', hrelink, hclosed, hout⟩ := Closed.exists_cut hlinked hpre hrest hpost hy
    (show 1 < 2 ^ 8 by decide)
  refine ⟨ram', fun lfree stats ↦ ?_, hclosed true rfl, ?_⟩
  · rw [MemHeap.cutOff]
    simp only [Option.bind_eq_bind]
    rw [MemHeap.insert_eq hhead (by omega) (by omega) (by omega), Option.bind_some]
    dsimp only
    rw [loadMem_writeMem_of_ne (by omega),
      loadMem_writeMem (by omega) (by omega) (by omega) (by decide), Option.bind_some, hrelink]
  · refine kept_of_outside [⟨8 + need, true⟩, ⟨y - (extent pre + (8 + need)), false⟩]
      (fun i hi ↦ ?_) fun e he i hi hlt ↦ ?_
    · simp only [extent_cons, extent_nil] at hi
      exact hout i (by omega)
    · rw [busy_cons_used, busy_cons_free, busy_nil, List.mem_singleton] at he
      rw [he] at hi hlt
      exact hout i (by dsimp only at hi hlt; omega)

theorem Rep.exists_trimBlock_free {need n m : ℕ}
    (hrep : Rep h (pre ++ ⟨n, true⟩ :: ⟨m, false⟩ :: post)) (hlt : 8 + need < n) :
    ∃ h', trimBlock h (extent pre) (extent pre + n) (n - 8) need = some h' ∧
      Closed h'.ram 0 0
        (pre ++ ⟨8 + need, true⟩ :: ⟨n - (8 + need) + m, false⟩ :: post) ∧
      h'.lfree = lowestFree (pre ++ ⟨8 + need, true⟩ :: ⟨n - (8 + need) + m, false⟩ :: post) ∧
      h'.stats = h.stats.decUsed (n - (8 + need)) ∧
      Kept h.ram h'.ram (pre ++ ⟨8 + need, true⟩ :: ⟨n - (8 + need) + m, false⟩ :: post) := by
  have hlow := hrep.lfree
  obtain ⟨hlinked, hhead, hrest⟩ := hrep.split
  obtain ⟨-, hpre, hpost⟩ := wellCut_used_iff.mp hrep.wellCut
  obtain ⟨hm, hpost, -⟩ := wellCut_cons_free_iff.mp hpost
  obtain ⟨ram, lfree, stats⟩ := h
  obtain ⟨hnext, hrest⟩ := closed_cons.mp hrest
  dsimp only at hlow hlinked hhead hnext hrest ⊢
  have hm20 := hm.1
  have hend := hrest.extent_eq
  obtain ⟨ram', hcut, hclosed, hkept⟩ := Closed.exists_cutOff hlinked
    (eight_le_size hpre) hrest (eight_le_size hpost) hhead
    (show extent pre + (8 + need) + 8 ≤ _ by omega)
  rw [show extent pre + n + m - (extent pre + (8 + need)) = n - (8 + need) + m by omega]
    at hclosed hkept
  have hptr2 : (extent pre + 8 + need) % 2 ^ 16 = extent pre + (8 + need) := by
    rw [Nat.add_assoc]
    exact Nat.mod_eq_of_lt (by omega)
  rw [trimBlock, if_neg (by omega), hnext]
  simp only [Option.bind_eq_bind, Option.bind_some, hptr2, Bool.toNat_false, if_true]
  rw [lwipAssert, if_pos (by omega), Option.bind_some, hcut, Option.bind_some, Nat.sub_sub]
  refine ⟨_, rfl, hclosed, ?_, rfl, hkept⟩
  have hle := lowestFree_le pre
  dsimp only
  rw [hlow, lowestFree_append, lowestFree_append, lowestFree_cons_used, lowestFree_cons_used,
    lowestFree_cons_free, lowestFree_cons_free, Nat.add_zero, Nat.add_zero]
  by_cases hused : ∀ b ∈ pre, b.used = true
  · rw [if_pos hused, if_pos hused, if_pos rfl]
  · rw [if_neg hused, if_neg hused, if_neg (by omega)]

theorem Rep.exists_trimBlock_used {need n : ℕ} (hrep : Rep h (pre ++ ⟨n, true⟩ :: post))
    (hstarts : StartsUsed post) (hne : post ≠ []) (hlt : 8 + need + (8 + 12) ≤ n) :
    ∃ h', trimBlock h (extent pre) (extent pre + n) (n - 8) need = some h' ∧
      Closed h'.ram 0 0
        (pre ++ ⟨8 + need, true⟩ :: ⟨n - (8 + need), false⟩ :: post) ∧
      h'.lfree = lowestFree (pre ++ ⟨8 + need, true⟩ :: ⟨n - (8 + need), false⟩ :: post) ∧
      h'.stats = h.stats.decUsed (n - (8 + need)) ∧
      Kept h.ram h'.ram (pre ++ ⟨8 + need, true⟩ :: ⟨n - (8 + need), false⟩ :: post) := by
  have hlow := hrep.lfree
  obtain ⟨hlinked, hhead, hrest⟩ := hrep.split
  obtain ⟨-, hpre, hpost⟩ := wellCut_used_iff.mp hrep.wellCut
  obtain ⟨ram, lfree, stats⟩ := h
  dsimp only at hlow hlinked hhead hrest ⊢
  have hend := hrest.extent_eq
  obtain ⟨m2, hnext, hm2⟩ := hrest.exists_loadMem
  have hm2used : m2.used ≠ 0 := by
    intro hzero
    obtain ⟨k, rest, rfl⟩ := hm2.mp hzero
    cases (startsUsed_cons _ _).mp hstarts
  have hpos : 0 < extent post := by
    obtain ⟨b, rest, rfl⟩ := List.exists_cons_of_ne_nil hne
    have hb := eight_le_size hpost b List.mem_cons_self
    rw [extent_cons]
    omega
  obtain ⟨ram', hcut, hclosed, hkept⟩ := Closed.exists_cutOff hlinked
    (eight_le_size hpre) hrest (eight_le_size hpost) hhead
    (show extent pre + (8 + need) + 8 ≤ _ by omega)
  rw [show extent pre + n - (extent pre + (8 + need)) = n - (8 + need) by omega] at hclosed hkept
  have hptr2 : (extent pre + 8 + need) % 2 ^ 16 = extent pre + (8 + need) := by
    rw [Nat.add_assoc]
    exact Nat.mod_eq_of_lt (by omega)
  rw [trimBlock, if_neg (by omega), hnext]
  simp only [Option.bind_eq_bind, Option.bind_some, hptr2]
  rw [if_neg hm2used, if_pos (by omega), lwipAssert, if_pos (by omega), Option.bind_some, hcut,
    Option.bind_some, Nat.sub_sub]
  refine ⟨_, rfl, hclosed, ?_, rfl, hkept⟩
  have hle := lowestFree_le pre
  rw [hlow, lowestFree_append, lowestFree_append, lowestFree_cons_used, lowestFree_cons_used,
    lowestFree_cons_free]
  by_cases hused : ∀ b ∈ pre, b.used = true
  · rw [if_pos hused, if_pos hused, if_pos (by omega), Nat.add_zero]
  · rw [if_neg hused, if_neg hused, if_neg (by omega)]

/-- The sizes that `mem_trim` refuses without looking. -/
def TrimRefused (size : ℕ) : Prop := 16000 < payloadSize size ∨ payloadSize size < size

instance (size : ℕ) : Decidable (TrimRefused size) := inferInstanceAs (Decidable (_ ∨ _))

theorem Rep.memTrim_eq {size n : ℕ} (hrep : Rep h (pre ++ ⟨n, true⟩ :: post))
    (hsize : ¬ TrimRefused size) (hle : 8 + payloadSize size ≤ n) :
    memTrim h (extent pre + 8) size
      = (trimBlock h (extent pre) (extent pre + n) (n - 8) (payloadSize size)).map
          fun h ↦ (h, some (extent pre + 8)) := by
  obtain ⟨-, hhead, hrest⟩ := hrep.split
  dsimp only at hhead hrest
  have hend := hrest.extent_eq
  have hwhole : usub (usub (extent pre + n) (extent pre) % 2 ^ 16) 8 % 2 ^ 16 = n - 8 := by
    have hn : n % 2 ^ 16 = n := Nat.mod_eq_of_lt (by omega)
    rw [usub_eq (Nat.le_add_right _ _), Nat.add_sub_cancel_left, hn, usub_eq (by omega)]
    exact Nat.mod_eq_of_lt (by omega)
  have hn := (wellCut_used_iff.mp hrep.wellCut).1.1
  rw [TrimRefused] at hsize
  rw [memTrim]
  dsimp only
  rw [if_neg hsize, lwipAssert, if_pos (by omega), if_pos (by omega), Nat.add_sub_cancel]
  simp only [Option.bind_eq_bind, Option.bind_some]
  rw [hhead, Option.bind_some]
  dsimp only
  rw [hwhole, lwipAssert, if_pos (by omega), Option.bind_some, Option.map_eq_bind]
  rfl

/-- The case that `mem_trim` does not expect: the last block of the heap, with so much to cut off
that it would be a block. -/
def CutsLast (need n : ℕ) (post : List Block) : Prop := post = [] ∧ 8 + need + (8 + 12) ≤ n

/-- **`mem_trim`** shrinks the block in front of the pointer. -/
theorem Rep.exists_memTrim {size n : ℕ} (hrep : Rep h (pre ++ ⟨n, true⟩ :: post))
    (hsize : ¬ TrimRefused size) (hle : 8 + payloadSize size ≤ n)
    (hlast : ¬ CutsLast (payloadSize size) n post) :
    ∃ h', memTrim h (extent pre + 8) size = some (h', some (extent pre + 8)) ∧
      Rep h' (pre ++ shrink 8 12 (payloadSize size) n post) ∧
      Kept h.ram h'.ram (pre ++ shrink 8 12 (payloadSize size) n post) := by
  have hcut := hrep.wellCut.shrink (by decide) (blockSize_payloadSize size)
  have hend := hrep.closed.extent_eq
  have hbusy := busyExtent_le (pre ++ ⟨n, true⟩ :: post)
  have hused := hrep.used
  rw [Nat.zero_add] at hend
  rw [hend, ← hused] at hbusy
  rw [busyExtent_append, busyExtent_used] at hused
  rw [hrep.memTrim_eq hsize hle]
  generalize payloadSize size = need at hle hlast hcut
  -- what is cut off is a block of its own, goes to the block behind, or is too little
  by_cases hstarts : StartsUsed post
  · rw [shrink_of_startsUsed hstarts, place] at hcut ⊢
    split_ifs at hcut ⊢ with hsplit
    · obtain ⟨h', htrim, hclosed, hlfree, hstats, hkept⟩ := hrep.exists_trimBlock_used hstarts
        (fun hnil ↦ hlast ⟨hnil, hsplit⟩) hsplit
      refine ⟨h', by rw [htrim]; rfl, ⟨hcut, hclosed, hlfree, ?_⟩, hkept⟩
      rw [hstats, decUsed_used (by omega) (by omega)]
      simp only [List.cons_append, List.nil_append, busyExtent_append, busyExtent_used,
        busyExtent_free]
      omega
    · refine ⟨h, ?_, hrep, fun _ _ _ _ _ ↦ rfl⟩
      obtain ⟨m2, hnext, hm2⟩ := hrep.split.2.2.exists_loadMem
      have hm2used : m2.used ≠ 0 := by
        intro hzero
        obtain ⟨k, rest, rfl⟩ := hm2.mp hzero
        cases (startsUsed_cons _ _).mp hstarts
      rw [trimBlock]
      by_cases heq : need = n - 8
      · rw [if_pos heq]
        rfl
      · rw [if_neg heq, hnext]
        simp only [Option.bind_eq_bind, Option.bind_some]
        rw [if_neg hm2used, if_neg (by omega)]
        rfl
  · obtain ⟨m, rest, rfl⟩ : ∃ m rest, post = ⟨m, false⟩ :: rest := by
      rcases post with _ | ⟨⟨m, _ | _⟩, rest⟩
      · exact absurd startsUsed_nil hstarts
      · exact ⟨m, rest, rfl⟩
      · exact absurd ((startsUsed_cons _ _).mpr rfl) hstarts
    by_cases hlt : 8 + need < n
    · obtain ⟨h', htrim, hclosed, hlfree, hstats, hkept⟩ := hrep.exists_trimBlock_free hlt
      refine ⟨h', by rw [htrim]; rfl, ⟨hcut, hclosed, hlfree, ?_⟩, hkept⟩
      rw [hstats, decUsed_used (by omega) (by omega), shrink]
      rw [busyExtent_free] at hused
      simp only [busyExtent_append, busyExtent_used, busyExtent_free]
      omega
    · obtain rfl : 8 + need = n := by omega
      rw [trimBlock, if_pos (by omega)]
      rw [shrink, Nat.sub_self, Nat.zero_add]
      exact ⟨h, rfl, hrep, fun _ _ _ _ _ ↦ rfl⟩

/-- **The exception**: an assertion of `mem_trim` fails. -/
theorem Rep.memTrim_last {size n : ℕ} (hrep : Rep h (pre ++ ⟨n, true⟩ :: post))
    (hsize : ¬ TrimRefused size) (hlast : CutsLast (payloadSize size) n post) :
    memTrim h (extent pre + 8) size = none := by
  obtain ⟨rfl, hle⟩ := hlast
  have hrest := hrep.split.2.2
  have hend : extent pre + n = 16000 := hrest.extent_eq
  rw [hrep.memTrim_eq hsize (by omega), trimBlock, if_neg (by omega), hend, hrest.ramEnd]
  simp only [Option.bind_eq_bind, Option.bind_some]
  rw [if_neg Nat.one_ne_zero, if_pos (by omega), lwipAssert, if_neg (not_not.mpr rfl)]
  rfl

/-! ## `mem_init` and `mem_sanity` -/

/-- **`mem_init`** makes one free block of the array, whatever was in it. -/
theorem exists_memInit (ram : Ram) :
    ∃ h, memInit ram = some h ∧ Rep h [⟨16000, false⟩] := by
  obtain ⟨m₀, hm₀⟩ : ∃ m, loadMem ram 0 = some m := exists_loadMem (by decide)
  obtain ⟨m₁, hm₁⟩ : ∃ m, loadMem ram 16000 = some m := exists_loadMem (by decide)
  obtain ⟨-, hprev₀, hused₀⟩ := inRange_of_loadMem hm₀
  obtain ⟨hnext₁, hprev₁, -⟩ := inRange_of_loadMem hm₁
  have hsize : 16000 < 2 ^ 16 := by decide
  have hmark : 1 < 2 ^ 8 := by decide
  have hend : ∀ m', loadMem (writeMem ram 0 m') 16000 = some m₁ := fun m' ↦
    (loadMem_writeMem_of_ne (.inr (by decide))).trans hm₁
  refine ⟨⟨writeMem (writeMem ram 0 ⟨16000, 0, 0⟩) 16000 ⟨16000, 16000, 1⟩, 0, ⟨0, 0, 0⟩⟩, ?_, ?_⟩
  · rw [memInit]
    simp only [Option.bind_eq_bind]
    rw [updateMem_eq hm₀, Option.bind_some,
      updateMem_eq (loadMem_writeMem (by decide) hsize hprev₀ hused₀), Option.bind_some,
      writeMem_writeMem,
      updateMem_eq (loadMem_writeMem (by decide) hsize (Nat.two_pow_pos 16) hused₀),
      Option.bind_some, writeMem_writeMem, updateMem_eq (hend _), Option.bind_some,
      updateMem_eq (loadMem_writeMem (by decide) hnext₁ hprev₁ hmark), Option.bind_some,
      writeMem_writeMem,
      updateMem_eq (loadMem_writeMem (by decide) hsize hprev₁ hmark), Option.bind_some,
      writeMem_writeMem]
  · refine ⟨?_, ⟨⟨?_, trivial⟩, rfl, ?_⟩, rfl, rfl⟩
    · exact wellCut_cons_free_iff.mpr ⟨⟨by decide, by decide⟩, wellCut_nil _ _ _, startsUsed_nil⟩
    · exact (loadMem_writeMem_of_ne (.inl (by decide))).trans
        (loadMem_writeMem (by decide) (by decide) (by decide) (by decide))
    · exact loadMem_writeMem (by decide) (by decide) (by decide) (by decide)

theorem Closed.sanityWalk_eq {b : Block} {fuel : ℕ} (hclosed : Closed ram 0 0 (pre ++ b :: post))
    (hcut : WellCut 8 12 4 (pre ++ b :: post)) (hfuel : post.length < fuel) :
    sanityWalk ram fuel (extent pre + b.size) b.used.toNat = some () := by
  induction post generalizing pre b fuel with
  | nil =>
    obtain ⟨fuel, rfl⟩ := Nat.exists_eq_add_one_of_ne_zero hfuel.ne'
    have hend := hclosed.extent_eq
    rw [Nat.zero_add, extent_append, extent_cons, extent_nil, Nat.add_zero] at hend
    rw [sanityWalk, hend, if_neg (by decide), hclosed.ramEnd]
    rfl
  | cons c post ih =>
    obtain ⟨fuel, rfl⟩ := Nat.exists_eq_add_one_of_ne_zero (Nat.ne_of_gt (Nat.zero_lt_of_lt hfuel))
    -- the block `b` goes to the front, and the walk is at `c`
    have hext : extent (pre ++ [b]) = extent pre + b.size := by
      rw [extent_append, extent_cons, extent_nil, Nat.add_zero]
    have hused : if b.used.toNat = 0 then c.used.toNat = 1
        else c.used.toNat = 0 ∨ c.used.toNat = 1 := by
      have hjoined := (List.isChain_append.mp hcut.joined).2.1
      have hor := (List.isChain_cons_cons.mp hjoined).1
      obtain ⟨n, _ | _⟩ := b <;> obtain ⟨m, _ | _⟩ := c <;> simp_all
    rw [List.append_cons] at hclosed hcut
    have hvalid := hclosed.memLinkValid_eq
    have hrest := ih hclosed hcut (Nat.lt_of_succ_lt_succ hfuel)
    have hend := hclosed.extent_eq
    obtain ⟨-, hhead⟩ := closed_append.mp hclosed
    rw [Nat.zero_add] at hhead
    have hload := hhead.linked.1
    have hback := backlink_le (pre ++ [b])
    have hb := eight_le_size hcut b (by simp)
    have hc := eight_le_size hcut c (by simp)
    have hdvd : 4 ∣ extent (pre ++ [b]) := List.dvd_sum fun n hn ↦ by
      obtain ⟨d, hd, rfl⟩ := List.mem_map.mp hn
      exact (hcut.blockSize d (List.mem_append_left _ hd)).2
    rw [hext] at hvalid hrest hload hback hdvd
    rw [Nat.zero_add, extent_append, extent_cons, hext] at hend
    rw [sanityWalk, if_pos ⟨by omega, by omega⟩, hload]
    simp only [Option.bind_eq_bind, Option.bind_some]
    rw [lwipAssert, if_pos (by omega), Option.bind_some, lwipAssert, if_pos (by omega),
      Option.bind_some, lwipAssert, if_pos (by omega), Option.bind_some, lwipAssert, if_pos hused,
      Option.bind_some, hvalid, Option.bind_some, lwipAssert, if_pos rfl, Option.bind_some]
    exact hrest

/-- **`mem_sanity`** finds nothing to complain about. -/
theorem Rep.memSanity_eq (hrep : Rep h bs) : memSanity h.ram = some () := by
  have hend := hrep.closed.extent_eq
  cases bs with
  | nil => cases hend
  | cons b bs =>
    rw [Nat.zero_add, extent_cons] at hend
    have hload := hrep.closed.linked.1
    have hlen := length_lt_of_closed hrep.closed (eight_le_size hrep.wellCut)
    have hwalk : sanityWalk h.ram 16000 (extent [] + b.size) b.used.toNat = some () :=
      Closed.sanityWalk_eq hrep.closed hrep.wellCut (Nat.lt_of_succ_lt hlen)
    rw [memSanity, hload]
    simp only [Option.bind_eq_bind, Option.bind_some]
    rw [lwipAssert, if_pos (by cases b.used <;> simp), Option.bind_some, lwipAssert, if_pos trivial,
      Option.bind_some, lwipAssert, if_pos (by omega), Option.bind_some]
    exact hwalk

end ZanOS.Lwip
