import ZanOS.Lwip.Mem

/-!
# The heap as a list of blocks

The headers in `ram` lead from block to block. `Rep h bs` says that they are those of the blocks
`bs`, laid end to end, and that `lfree` and the counter of the used bytes are what they should be
for these blocks. The functions of `mem.c` then are the operations of `Foundation.FirstFit` with a
header of 8 bytes and a least payload of 12.

Besides the headers a function changes no byte that a client owns: the payload of every block that
is in use after the call is as it was before it (`Kept`).
-/

namespace ZanOS.Lwip

open Foundation

variable {ram ram' : Ram} {p q a : ℕ} {m m' : Mem} {h : MemHeap} {bs cs pre post : List Block}

/-! ## Headers in memory -/

theorem add_six_le_of_loadMem (hm : loadMem ram p = some m) : p + 6 ≤ 16016 := by
  by_contra hp
  rw [loadMem, if_neg hp] at hm
  cases hm

theorem inRange_of_loadMem (hm : loadMem ram p = some m) :
    m.next < 2 ^ 16 ∧ m.prev < 2 ^ 16 ∧ m.used < 2 ^ 8 := by
  rw [loadMem, if_pos (add_six_le_of_loadMem hm), Option.some.injEq] at hm
  rw [← hm]
  exact ⟨UInt16.toNat_lt _, UInt16.toNat_lt _, UInt8.toNat_lt _⟩

theorem exists_loadMem (hp : p + 6 ≤ 16016) : ∃ m, loadMem ram p = some m :=
  ⟨_, if_pos hp⟩

theorem loadMem_congr (heq : ∀ i, p ≤ i → i < p + 5 → ram' i = ram i) :
    loadMem ram' p = loadMem ram p := by
  rw [loadMem, loadMem, heq p (by omega) (by omega), heq (p + 1) (by omega) (by omega),
    heq (p + 2) (by omega) (by omega), heq (p + 3) (by omega) (by omega),
    heq (p + 4) (by omega) (by omega)]

theorem writeMem_of_outside {i : ℕ} (hi : i < p ∨ p + 5 ≤ i) : writeMem ram p m i = ram i :=
  if_neg (by omega)

theorem writeMem_writeMem : writeMem (writeMem ram p m) p m' = writeMem ram p m' := by
  funext i
  by_cases hi : p ≤ i ∧ i < p + 5
  · rw [writeMem, if_pos hi, writeMem, if_pos hi]
  · rw [writeMem_of_outside (by omega), writeMem_of_outside (by omega),
      writeMem_of_outside (by omega)]

theorem writeMem_add {k : ℕ} (hk : k < 5) : writeMem ram p m (p + k) = m.bytes.getD k 0 := by
  rw [writeMem, if_pos (by omega), Nat.add_sub_cancel_left]

theorem loadMem_writeMem {next prev used : ℕ} (hp : p + 6 ≤ 16016) (hnext : next < 2 ^ 16)
    (hprev : prev < 2 ^ 16) (hused : used < 2 ^ 8) :
    loadMem (writeMem ram p ⟨next, prev, used⟩) p = some ⟨next, prev, used⟩ := by
  have hfirst : writeMem ram p ⟨next, prev, used⟩ (p + 0)
      = (Mem.bytes ⟨next, prev, used⟩).getD 0 0 := writeMem_add (by decide)
  rw [Nat.add_zero] at hfirst
  rw [loadMem, if_pos hp, hfirst, writeMem_add (by decide), writeMem_add (by decide),
    writeMem_add (by decide), writeMem_add (by decide)]
  simp only [Mem.bytes, halfBytes, List.cons_append, List.nil_append, List.getD_cons_zero,
    List.getD_cons_succ, leHalf_of_halfBytes]
  rw [UInt16.toNat_ofNat_of_lt' hnext, UInt16.toNat_ofNat_of_lt' hprev,
    UInt8.toNat_ofNat_of_lt' hused]

theorem loadMem_writeMem_of_ne (hq : q + 8 ≤ p ∨ p + 8 ≤ q) :
    loadMem (writeMem ram p m) q = loadMem ram q :=
  loadMem_congr fun _ _ _ ↦ writeMem_of_outside (by omega)

theorem updateMem_eq (hm : loadMem ram p = some m) (f : Mem → Mem) :
    updateMem ram p f = some (writeMem ram p (f m)) := by
  rw [updateMem, hm]
  rfl

theorem MemHeap.update_eq (hm : loadMem ram p = some m) (lfree : ℕ) (stats : MemStats)
    (f : Mem → Mem) :
    MemHeap.update ⟨ram, lfree, stats⟩ p f = some ⟨writeMem ram p (f m), lfree, stats⟩ := by
  rw [update, updateMem_eq hm]
  rfl

/-- The four assignments come to two structures: the new one, and the old one linked to it. -/
theorem MemHeap.insert_eq {next : ℕ} (hm : loadMem ram p = some m) (hq : p + 8 ≤ q)
    (hend : q + 6 ≤ 16016) (hnext : next < 2 ^ 16) (lfree : ℕ) (stats : MemStats) :
    MemHeap.insert ⟨ram, lfree, stats⟩ p q next
      = some ⟨writeMem (writeMem ram q ⟨next, p, 0⟩) p { m with next := q }, lfree, stats⟩ := by
  obtain ⟨m₀, hm₀⟩ : ∃ m₀, loadMem ram q = some m₀ := exists_loadMem hend
  obtain ⟨hnext₀, hprev₀, -⟩ := inRange_of_loadMem hm₀
  rw [insert]
  simp only [Option.bind_eq_bind]
  rw [update_eq hm₀, Option.bind_some,
    update_eq (loadMem_writeMem hend hnext₀ hprev₀ (Nat.two_pow_pos 8)), Option.bind_some,
    writeMem_writeMem, update_eq (loadMem_writeMem hend hnext hprev₀ (Nat.two_pow_pos 8)),
    Option.bind_some, writeMem_writeMem,
    update_eq ((loadMem_writeMem_of_ne (.inl hq)).trans hm)]

/-! ## Linked blocks -/

/-- The headers of the blocks `bs`, laid out from `a`, with `p` as the offset of what is in front
of them. -/
def Linked (ram : Ram) : (p a : ℕ) → List Block → Prop
  | _, _, [] => True
  | p, a, b :: bs =>
      loadMem ram a = some ⟨a + b.size, p, b.used.toNat⟩ ∧ Linked ram a (a + b.size) bs

/-- Linked blocks that end at `ram_end`. -/
structure Closed (ram : Ram) (p a : ℕ) (bs : List Block) : Prop where
  linked : Linked ram p a bs
  extent_eq : a + extent bs = 16000
  ramEnd : loadMem ram 16000 = some ⟨16000, 16000, 1⟩

/-- The offset that the header behind the blocks `bs` has to give for what is in front of it. -/
def backlink (p a : ℕ) : List Block → ℕ
  | [] => p
  | b :: bs => backlink a (a + b.size) bs

theorem backlink_concat (p a : ℕ) (bs : List Block) (b : Block) :
    backlink p a (bs ++ [b]) = a + extent bs := by
  induction bs generalizing p a with
  | nil => rfl
  | cons c bs ih => rw [List.cons_append, backlink, ih, extent_cons, Nat.add_assoc]

theorem linked_append :
    Linked ram p a (bs ++ cs)
      ↔ Linked ram p a bs ∧ Linked ram (backlink p a bs) (a + extent bs) cs := by
  induction bs generalizing p a with
  | nil => simp [Linked, backlink]
  | cons b bs ih => simp only [List.cons_append, Linked, ih, backlink, extent_cons, Nat.add_assoc,
      and_assoc]

theorem closed_append :
    Closed ram p a (bs ++ cs)
      ↔ Linked ram p a bs ∧ Closed ram (backlink p a bs) (a + extent bs) cs := by
  constructor
  · rintro ⟨hlinked, hextent, hend⟩
    rw [linked_append] at hlinked
    rw [extent_append, ← Nat.add_assoc] at hextent
    exact ⟨hlinked.1, hlinked.2, hextent, hend⟩
  · rintro ⟨hbs, hcs, hextent, hend⟩
    exact ⟨linked_append.mpr ⟨hbs, hcs⟩, by rw [extent_append, ← Nat.add_assoc, hextent], hend⟩

theorem closed_cons {b : Block} :
    Closed ram p a (b :: bs)
      ↔ loadMem ram a = some ⟨a + b.size, p, b.used.toNat⟩ ∧ Closed ram a (a + b.size) bs := by
  constructor
  · rintro ⟨⟨hhead, hrest⟩, hextent, hend⟩
    exact ⟨hhead, hrest, by rw [← hextent, extent_cons, Nat.add_assoc], hend⟩
  · rintro ⟨hhead, hrest, hextent, hend⟩
    exact ⟨⟨hhead, hrest⟩, by rw [← hextent, extent_cons, Nat.add_assoc], hend⟩

theorem Linked.congr (hlinked : Linked ram p a bs) (hsize : ∀ b ∈ bs, 8 ≤ b.size)
    (heq : ∀ i, a ≤ i → i < a + extent bs → ram' i = ram i) : Linked ram' p a bs := by
  induction bs generalizing p a with
  | nil => trivial
  | cons b bs ih =>
    have hb : 8 ≤ b.size := hsize b List.mem_cons_self
    rw [extent_cons] at heq
    refine ⟨(loadMem_congr fun i hi hlt ↦ heq i hi (by omega)).trans hlinked.1, ?_⟩
    exact ih hlinked.2 (fun c hc ↦ hsize c (List.mem_cons_of_mem _ hc))
      fun i hi hlt ↦ heq i (by omega) (by omega)

theorem Closed.congr (hclosed : Closed ram p a bs) (hsize : ∀ b ∈ bs, 8 ≤ b.size)
    (heq : ∀ i, a ≤ i → ram' i = ram i) : Closed ram' p a bs := by
  have hle : a ≤ 16000 := Nat.le_of_add_right_le hclosed.extent_eq.le
  exact ⟨hclosed.linked.congr hsize fun i hi _ ↦ heq i hi, hclosed.extent_eq,
    (loadMem_congr fun i hi _ ↦ heq i (hle.trans hi)).trans hclosed.ramEnd⟩

theorem Closed.exists_loadMem (hclosed : Closed ram p a bs) :
    ∃ m, loadMem ram a = some m ∧ (m.used = 0 ↔ ∃ n rest, bs = ⟨n, false⟩ :: rest) := by
  cases bs with
  | nil =>
    have ha : a = 16000 := hclosed.extent_eq
    exact ⟨_, ha ▸ hclosed.ramEnd, by simp⟩
  | cons b bs =>
    obtain ⟨n, used⟩ := b
    refine ⟨_, hclosed.linked.1, ?_⟩
    cases used <;> simp

theorem Closed.exists_relink {p' : ℕ} (hclosed : Closed ram p a bs)
    (hsize : ∀ b ∈ bs, 8 ≤ b.size) (hp' : p' < 2 ^ 16) :
    ∃ ram', (∀ lfree stats, MemHeap.relink ⟨ram, lfree, stats⟩ a p' = some ⟨ram', lfree, stats⟩) ∧
      Closed ram' p' a bs ∧ ∀ i, i < a ∨ a + 5 ≤ i → ram' i = ram i := by
  cases bs with
  | nil =>
    have ha : a = 16000 := hclosed.extent_eq
    exact ⟨ram, fun _ _ ↦ if_neg (not_not.mpr ha),
      ⟨trivial, hclosed.extent_eq, hclosed.ramEnd⟩, fun _ _ ↦ rfl⟩
  | cons b bs =>
    obtain ⟨hhead, hrest⟩ := closed_cons.mp hclosed
    have hb : 8 ≤ b.size := hsize b List.mem_cons_self
    have hend := hrest.extent_eq
    obtain ⟨hnext, -, hused⟩ := inRange_of_loadMem hhead
    refine ⟨_, fun lfree stats ↦ (if_pos (by omega)).trans (MemHeap.update_eq hhead _ _ _),
      closed_cons.mpr ⟨?_, ?_⟩, fun i hi ↦ writeMem_of_outside hi⟩
    · exact loadMem_writeMem (by omega) hnext hp' hused
    · exact hrest.congr (fun c hc ↦ hsize c (List.mem_cons_of_mem _ hc))
        fun i hi ↦ writeMem_of_outside (by omega)

/-! ## The heap and its blocks -/

/-- The heap is made up of the blocks `bs`. -/
structure Rep (h : MemHeap) (bs : List Block) : Prop where
  wellCut : WellCut 8 12 4 bs
  closed : Closed h.ram 0 0 bs
  lfree : h.lfree = lowestFree bs
  used : h.stats.used = busyExtent bs

/-- The payload of the used blocks of `bs` is the same in both. -/
def Kept (ram ram' : Ram) (bs : List Block) : Prop :=
  ∀ e ∈ busy 0 bs, ∀ i, e.1 + 8 ≤ i → i < e.1 + e.2 → ram' i = ram i

theorem usub_eq {a b : ℕ} (hle : b ≤ a) : usub a b = a - b := if_pos hle

theorem eight_le_size (hcut : WellCut 8 12 4 bs) : ∀ b ∈ bs, 8 ≤ b.size := fun b hb ↦
  (show 8 ≤ 8 + 12 by decide).trans (hcut.blockSize b hb).1

/-- A change inside some blocks and in the header behind them leaves the other payloads alone. -/
theorem kept_of_outside (mid : List Block)
    (hout : ∀ i, i < extent pre ∨ extent pre + extent mid + 5 ≤ i → ram' i = ram i)
    (hmid : ∀ e ∈ busy (extent pre) mid, ∀ i, e.1 + 8 ≤ i → i < e.1 + e.2 → ram' i = ram i) :
    Kept ram ram' (pre ++ (mid ++ post)) := by
  intro e he i hi hlt
  rw [busy_append, busy_append, Nat.zero_add, List.mem_append, List.mem_append] at he
  rcases he with he | he | he
  · exact hout i (.inl (hlt.trans_le ((le_of_mem_busy he).2.trans (Nat.zero_add _).le)))
  · exact hmid e he i hi hlt
  · have hge := (le_of_mem_busy he).1
    exact hout i (.inr (by omega))

/-! ## Taking a block -/

/-- The header of a block in the middle, and what is around it. -/
theorem Rep.split {b : Block} (hrep : Rep h (pre ++ b :: post)) :
    Linked h.ram 0 0 pre ∧
      loadMem h.ram (extent pre)
        = some ⟨extent pre + b.size, backlink 0 0 pre, b.used.toNat⟩ ∧
      Closed h.ram (extent pre) (extent pre + b.size) post := by
  obtain ⟨hpre, hrest⟩ := closed_append.mp hrep.closed
  rw [Nat.zero_add] at hrest
  exact ⟨hpre, closed_cons.mp hrest⟩

theorem backlink_le (bs : List Block) : backlink 0 0 bs ≤ extent bs := by
  rcases List.eq_nil_or_concat' bs with rfl | ⟨bs, b, rfl⟩
  · exact le_rfl
  · rw [backlink_concat, extent_append, Nat.zero_add]
    exact Nat.le_add_right _ _

/-- A new header at `q` between the one at the end of `pre` and the blocks behind, which start at
`y`: both headers are written, and the link back follows. -/
theorem Closed.exists_cut {size y u : ℕ} (hlinked : Linked ram 0 0 pre)
    (hpre : ∀ b ∈ pre, 8 ≤ b.size) (hrest : Closed ram a y post) (hpost : ∀ b ∈ post, 8 ≤ b.size)
    (hy : extent pre + (8 + size) + 8 ≤ y) (hu : u < 2 ^ 8) :
    ∃ ram', (∀ lfree stats, MemHeap.relink
        ⟨writeMem (writeMem ram (extent pre + (8 + size)) ⟨y, extent pre, 0⟩) (extent pre)
          ⟨extent pre + (8 + size), backlink 0 0 pre, u⟩, lfree, stats⟩ y (extent pre + (8 + size))
        = some ⟨ram', lfree, stats⟩) ∧
      (∀ b : Bool, b.toNat = u → Closed ram' 0 0
        (pre ++ ⟨8 + size, b⟩ :: ⟨y - (extent pre + (8 + size)), false⟩ :: post)) ∧
      ∀ i, i < extent pre ∨ extent pre + 5 ≤ i ∧ i < extent pre + (8 + size) ∨ y + 5 ≤ i →
        ram' i = ram i := by
  have hend := hrest.extent_eq
  have hback := backlink_le pre
  obtain ⟨q, hq⟩ : ∃ q, extent pre + (8 + size) = q := ⟨_, rfl⟩
  rw [hq] at hy ⊢
  set ram₁ := writeMem (writeMem ram q ⟨y, extent pre, 0⟩) (extent pre) ⟨q, backlink 0 0 pre, u⟩
    with hram₁
  have hout₁ : ∀ i, i < extent pre ∨ extent pre + 5 ≤ i ∧ (i < q ∨ q + 5 ≤ i) →
      ram₁ i = ram i := by
    intro i hi
    rw [hram₁, writeMem_of_outside (by omega), writeMem_of_outside (by omega)]
  have hnew : loadMem ram₁ q = some ⟨y, extent pre, 0⟩ :=
    (loadMem_writeMem_of_ne (by omega)).trans
      (loadMem_writeMem (by omega) (by omega) (by omega) (by decide))
  have hold : loadMem ram₁ (extent pre) = some ⟨q, backlink 0 0 pre, u⟩ :=
    loadMem_writeMem (by omega) (by omega) (by omega) hu
  obtain ⟨ram₂, hrelink, hrest₂, hout₂⟩ := (hrest.congr hpost
    fun i hi ↦ hout₁ i (by omega)).exists_relink hpost (show q < 2 ^ 16 by omega)
  refine ⟨ram₂, hrelink, fun b hb ↦ ?_, fun i hi ↦ ?_⟩
  · rw [closed_append, Nat.zero_add, closed_cons, closed_cons]
    dsimp only
    rw [hq, show q + (y - q) = y by omega, hb]
    refine ⟨hlinked.congr hpre fun i _ hi ↦ ?_, ?_, ?_, hrest₂⟩
    · rw [hout₂ i (by omega), hout₁ i (by omega)]
    · exact (loadMem_congr fun i _ _ ↦ hout₂ i (by omega)).trans hold
    · exact (loadMem_congr fun i _ _ ↦ hout₂ i (by omega)).trans hnew
  · rw [hout₂ i (by omega), hout₁ i (by omega)]

end ZanOS.Lwip
