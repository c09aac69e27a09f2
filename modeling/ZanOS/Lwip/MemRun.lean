import Mathlib.Data.List.Nodup
import ZanOS.Foundation.Machine
import ZanOS.Lwip.MemOps

/-!
# The clients of the heap

Everything that uses `mem.c` is one machine: its events are the calls, in any order, and the bytes
that clients store in what they were given. Its state is the heap together with what the clients
hold, and what they last stored in each byte of it. That second part is not in the kernel; it is
what the heap has to be faithful to.

A client keeps to the rules (`Allowed`) when it frees and shrinks only what it holds, does not grow
a piece by shrinking it, and stores inside its pieces. As long as all clients do, `Sound` holds:
what they hold are exactly the used blocks, and what they stored is still there.
-/

namespace ZanOS.Lwip

open Foundation

/-- A pointer that a client holds, and what it last stored in each byte behind it; `none` is a byte
that it has not stored in. -/
structure Piece where
  ptr : ℕ
  data : List (Option UInt8)
  deriving DecidableEq

/-- The heap and all that its clients hold. -/
structure Clients where
  heap : MemHeap
  live : List Piece

/-- A call of a function of `mem.c`, or an assignment to a byte of a piece. -/
inductive MemCall
  | malloc (size : ℕ)
  | calloc (count size : ℕ)
  | free (p : ℕ)
  | trim (p size : ℕ)
  | store (p i : ℕ) (b : UInt8)

/-- The pieces, with the data of the one at `p` changed. -/
def editPiece (p : ℕ) (f : List (Option UInt8) → List (Option UInt8)) (live : List Piece) :
    List Piece :=
  live.map fun e ↦ if e.ptr = p then { e with data := f e.data } else e

/-- The pieces after a function has returned a pointer or null. -/
def addPiece (r : Option ℕ) (data : List (Option UInt8)) (live : List Piece) : List Piece :=
  match r with
  | none => live
  | some p => ⟨p, data⟩ :: live

/-- The calls, with the pointer that they return. A call that stops the kernel has no successor. -/
def memMachine : Machine Clients MemCall (Option ℕ) where
  next c call :=
    match call with
    | .malloc size =>
        (memMalloc c.heap size).map fun r ↦
          (⟨r.1, addPiece r.2 (List.replicate size none) c.live⟩, r.2)
    | .calloc count size =>
        (memCalloc c.heap count size).map fun r ↦
          (⟨r.1, addPiece r.2 (List.replicate (count * size) (some 0)) c.live⟩, r.2)
    | .free p =>
        (memFree c.heap (some p)).map fun h ↦ (⟨h, c.live.filter (·.ptr ≠ p)⟩, none)
    | .trim p size =>
        (memTrim c.heap p size).map fun r ↦
          (⟨r.1, if r.2 = none then c.live else editPiece p (List.take size) c.live⟩, r.2)
    | .store p i b =>
        some (⟨{ c.heap with ram := Function.update c.heap.ram (p + i) b },
          editPiece p (·.set i (some b)) c.live⟩, none)

/-- The rules for clients. The sizes are of type `mem_size_t`. -/
def Allowed (c : Clients) : MemCall → Prop
  | .malloc size => size < 2 ^ 16
  | .calloc count size => count < 2 ^ 16 ∧ size < 2 ^ 16
  | .free p => ∃ e ∈ c.live, e.ptr = p
  | .trim p size => ∃ e ∈ c.live, e.ptr = p ∧ size ≤ e.data.length
  | .store p i _ => ∃ e ∈ c.live, e.ptr = p ∧ i < e.data.length

instance (c : Clients) : (call : MemCall) → Decidable (Allowed c call)
  | .malloc _ => inferInstanceAs (Decidable (_ < _))
  | .calloc _ _ => inferInstanceAs (Decidable (_ ∧ _))
  | .free _ => inferInstanceAs (Decidable (∃ e ∈ c.live, _))
  | .trim _ _ => inferInstanceAs (Decidable (∃ e ∈ c.live, _))
  | .store _ _ _ => inferInstanceAs (Decidable (∃ e ∈ c.live, _))

/-- The call that `mem_trim` does not survive: the block is the last of the heap, and what is cut
off would be a block of its own. -/
def TrimsLast (c : Clients) : MemCall → Prop
  | .trim p size =>
      (loadMem c.heap.ram (p - 8)).map Mem.next = some 16000 ∧
        p + payloadSize size + (8 + 12) ≤ 16000
  | _ => False

/-! ## What the clients hold -/

/-- The piece is the payload of a used block. -/
def InBlock (us : List (ℕ × ℕ)) (e : Piece) : Prop :=
  ∃ u ∈ us, e.ptr = u.1 + 8 ∧ 8 + payloadSize e.data.length ≤ u.2 ∧
    e.data.length ≤ payloadSize e.data.length

/-- The bytes of the piece are what the client stored. -/
def Holds (ram : Ram) (e : Piece) : Prop :=
  ∀ i b, e.data[i]? = some (some b) → ram (e.ptr + i) = b

/-- What the clients hold are the used blocks of the heap. -/
structure Sound (c : Clients) (bs : List Block) : Prop where
  rep : Rep c.heap bs
  inBlock : ∀ e ∈ c.live, InBlock (busy 0 bs) e
  exists_piece : ∀ u ∈ busy 0 bs, ∃ e ∈ c.live, e.ptr = u.1 + 8
  nodup : (c.live.map Piece.ptr).Nodup
  holds : ∀ e ∈ c.live, Holds c.heap.ram e

variable {c : Clients} {bs : List Block} {h : MemHeap} {e : Piece} {us : List (ℕ × ℕ)}

theorem InBlock.mono {us' : List (ℕ × ℕ)} (he : InBlock us e) (hsub : us ⊆ us') :
    InBlock us' e := by
  obtain ⟨u, hu, hptr⟩ := he
  exact ⟨u, hsub hu, hptr⟩

theorem Holds.kept {ram ram' : Ram} (hholds : Holds ram e) (he : InBlock (busy 0 bs) e)
    (hkept : Kept ram ram' bs) : Holds ram' e := by
  obtain ⟨u, hu, hptr, hsize, hlen⟩ := he
  intro i b hi
  have hlt : i < e.data.length := (List.getElem?_eq_some_iff.mp hi).1
  rw [hkept u hu _ (by omega) (by omega), hholds i b hi]

theorem holds_replicate_none (ram : Ram) (p n : ℕ) : Holds ram ⟨p, List.replicate n none⟩ := by
  intro i b hi
  rw [List.getElem?_replicate] at hi
  split_ifs at hi
  cases Option.some.inj hi

theorem pos_of_wellCut (hcut : WellCut 8 12 4 bs) : ∀ b ∈ bs, 0 < b.size := fun b hb ↦
  Nat.lt_of_lt_of_le (by decide) (hcut.blockSize b hb).1

theorem Rep.store {u : ℕ × ℕ} {ram' : Ram} (hrep : Rep h bs) (hu : u ∈ busy 0 bs)
    (hout : ∀ i, i < u.1 + 8 ∨ u.1 + u.2 ≤ i → ram' i = h.ram i) :
    Rep { h with ram := ram' } bs := by
  obtain ⟨pre, post, rfl, hx⟩ := exists_of_mem_busy hu
  obtain ⟨-, hpre, hpost⟩ := wellCut_used_iff.mp hrep.wellCut
  obtain ⟨hlinked, hhead, hrest⟩ := hrep.split
  refine ⟨hrep.wellCut, ?_, hrep.lfree, hrep.used⟩
  rw [closed_append, Nat.zero_add, closed_cons]
  refine ⟨hlinked.congr (eight_le_size hpre) fun i _ hi ↦ hout i (by omega), ?_, ?_⟩
  · exact (loadMem_congr fun i _ hi ↦ hout i (by omega)).trans hhead
  · exact hrest.congr (eight_le_size hpost) fun i hi ↦ hout i (by dsimp only at hi; omega)

theorem Holds.store {u : ℕ × ℕ} {ram ram' : Ram} (hholds : Holds ram e)
    (he : InBlock (busy 0 bs) e) (hu : u ∈ busy 0 bs) (hne : e.ptr ≠ u.1 + 8)
    (hout : ∀ i, i < u.1 + 8 ∨ u.1 + u.2 ≤ i → ram' i = ram i) : Holds ram' e := by
  obtain ⟨v, hv, hptr, hsize, hlen⟩ := he
  have hapart := apart_of_mem_busy hv hu fun heq ↦ hne (heq ▸ hptr)
  intro i b hi
  have hlt : i < e.data.length := (List.getElem?_eq_some_iff.mp hi).1
  rw [hout _ (by omega), hholds i b hi]

/-! ## One call -/

theorem Sound.add {x : ℕ} {n : ℕ} {l r : List (ℕ × ℕ)} {bs' : List Block}
    {data : List (Option UInt8)} (hs : Sound c bs) (hrep : Rep h bs')
    (hbusy : busy 0 bs = l ++ r) (hbusy' : busy 0 bs' = l ++ (x, n) :: r)
    (hn : 8 + payloadSize data.length ≤ n) (hlen : data.length ≤ payloadSize data.length)
    (hnew : Holds h.ram ⟨x + 8, data⟩) (hold : ∀ e ∈ c.live, Holds h.ram e) :
    Sound ⟨h, ⟨x + 8, data⟩ :: c.live⟩ bs' := by
  have hne := ne_of_busy_eq (pos_of_wellCut hrep.wellCut) hbusy'
  rw [← hbusy] at hne
  refine ⟨hrep, fun e he ↦ ?_, fun u hu ↦ ?_, ?_, fun e he ↦ ?_⟩
  · rcases List.mem_cons.mp he with rfl | he
    · exact ⟨(x, n), hbusy' ▸ List.mem_append_right _ List.mem_cons_self, rfl, hn, hlen⟩
    · refine (hs.inBlock e he).mono ?_
      rw [hbusy, hbusy']
      exact ((List.sublist_cons_self _ r).append_left l).subset
  · rw [hbusy', List.mem_append, List.mem_cons] at hu
    rcases hu with hu | rfl | hu
    · obtain ⟨e, he, hptr⟩ := hs.exists_piece u (hbusy ▸ List.mem_append_left _ hu)
      exact ⟨e, List.mem_cons_of_mem _ he, hptr⟩
    · exact ⟨_, List.mem_cons_self, rfl⟩
    · obtain ⟨e, he, hptr⟩ := hs.exists_piece u (hbusy ▸ List.mem_append_right _ hu)
      exact ⟨e, List.mem_cons_of_mem _ he, hptr⟩
  · rw [List.map_cons, List.nodup_cons]
    refine ⟨fun hmem ↦ ?_, hs.nodup⟩
    obtain ⟨e, he, hptr⟩ := List.mem_map.mp hmem
    obtain ⟨u, hu, hu8, -⟩ := hs.inBlock e he
    exact hne u hu (Nat.add_right_cancel (hu8.symm.trans hptr))
  · rcases List.mem_cons.mp he with rfl | he
    · exact hnew
    · exact hold e he

theorem Sound.kept {bs' : List Block} {ram' : Ram} {l r : List (ℕ × ℕ)} {x : ℕ × ℕ}
    (hs : Sound c bs) (hbusy : busy 0 bs = l ++ r) (hbusy' : busy 0 bs' = l ++ x :: r)
    (hkept : Kept c.heap.ram ram' bs') : ∀ e ∈ c.live, Holds ram' e := by
  intro e he
  refine (hs.holds e he).kept ((hs.inBlock e he).mono ?_) hkept
  rw [hbusy, hbusy']
  exact ((List.sublist_cons_self _ r).append_left l).subset

/-- **`mem_malloc` returns**, with a piece or with null. -/
theorem Sound.exists_malloc {size : ℕ} (hs : Sound c bs) :
    ∃ h' r bs', memMalloc c.heap size = some (h', r) ∧
      Sound ⟨h', addPiece r (List.replicate size none) c.live⟩ bs' := by
  by_cases hsize : Refused size
  · exact ⟨c.heap, none, bs, memMalloc_refused hsize, hs⟩
  · have hmalloc := hs.rep.memMalloc_eq hsize
    rcases hallocate : allocate 8 12 (payloadSize size) bs with _ | ⟨x, bs'⟩
    · rw [hallocate] at hmalloc
      exact ⟨_, none, bs, hmalloc, ⟨hs.rep.wellCut, hs.rep.closed, hs.rep.lfree, hs.rep.used⟩,
        hs.inBlock, hs.exists_piece, hs.nodup, hs.holds⟩
    · rw [hallocate] at hmalloc
      obtain ⟨h', hmalloc, hrep, hkept⟩ := hmalloc
      obtain ⟨l, r, n, hbusy, hbusy', hn⟩ := exists_busy_allocate hallocate
      rw [Refused, not_or, not_or] at hsize
      refine ⟨h', some (x + 8), bs', hmalloc, hs.add hrep hbusy hbusy' ?_ ?_
        (holds_replicate_none _ _ _) (hs.kept hbusy hbusy' hkept)⟩
      · rwa [List.length_replicate]
      · rw [List.length_replicate]
        exact not_lt.mp hsize.2.2

/-- The data of one piece changes, and with it perhaps the size of its block. -/
theorem Sound.edit {x n m : ℕ} {l r : List (ℕ × ℕ)} {bs' : List Block}
    {f : List (Option UInt8) → List (Option UInt8)} (hs : Sound c bs) (hrep : Rep h bs')
    (hbusy : busy 0 bs = l ++ (x, n) :: r) (hbusy' : busy 0 bs' = l ++ (x, m) :: r)
    (hpiece : ∀ e ∈ c.live, e.ptr = x + 8 → 8 + payloadSize (f e.data).length ≤ m ∧
      (f e.data).length ≤ payloadSize (f e.data).length ∧ Holds h.ram ⟨x + 8, f e.data⟩)
    (hother : ∀ e ∈ c.live, e.ptr ≠ x + 8 → Holds h.ram e) :
    Sound ⟨h, editPiece (x + 8) f c.live⟩ bs' := by
  have hptr : (editPiece (x + 8) f c.live).map Piece.ptr = c.live.map Piece.ptr := by
    rw [editPiece, List.map_map]
    refine List.map_congr_left fun e _ ↦ ?_
    dsimp only [Function.comp_apply]
    split_ifs <;> rfl
  refine ⟨hrep, fun e he ↦ ?_, fun u hu ↦ ?_, ?_, fun e he ↦ ?_⟩
  · obtain ⟨d, hd, rfl⟩ := List.mem_map.mp he
    split_ifs with heq
    · obtain ⟨hm, hlen, -⟩ := hpiece d hd heq
      exact ⟨(x, m), hbusy' ▸ List.mem_append_right _ List.mem_cons_self, heq, hm, hlen⟩
    · obtain ⟨u, hu, hu8, hsize⟩ := hs.inBlock d hd
      refine ⟨u, ?_, hu8, hsize⟩
      rw [hbusy, List.mem_append, List.mem_cons] at hu
      rw [hbusy', List.mem_append, List.mem_cons]
      rcases hu with hu | rfl | hu
      · exact .inl hu
      · exact absurd hu8 heq
      · exact .inr (.inr hu)
  · have hmem : ∃ e ∈ c.live, e.ptr = u.1 + 8 := by
      rw [hbusy', List.mem_append, List.mem_cons] at hu
      rcases hu with hu | rfl | hu
      · exact hs.exists_piece u (hbusy ▸ List.mem_append_left _ hu)
      · exact hs.exists_piece (x, n) (hbusy ▸ List.mem_append_right _ List.mem_cons_self)
      · exact hs.exists_piece u (hbusy ▸ List.mem_append_right _ (List.mem_cons_of_mem _ hu))
    rw [← List.mem_map, ← hptr, List.mem_map] at hmem
    exact hmem
  · dsimp only
    rw [hptr]
    exact hs.nodup
  · obtain ⟨d, hd, rfl⟩ := List.mem_map.mp he
    split_ifs with heq
    · obtain ⟨-, -, hholds⟩ := hpiece d hd heq
      rw [heq]
      exact hholds
    · exact hother d hd heq

theorem Sound.remove {x n : ℕ} {l r : List (ℕ × ℕ)} {bs' : List Block} (hs : Sound c bs)
    (hrep : Rep h bs') (hbusy : busy 0 bs = l ++ (x, n) :: r) (hbusy' : busy 0 bs' = l ++ r)
    (hkept : Kept c.heap.ram h.ram bs') :
    Sound ⟨h, c.live.filter (·.ptr ≠ x + 8)⟩ bs' := by
  have hne := ne_of_busy_eq (pos_of_wellCut hs.rep.wellCut) hbusy
  rw [← hbusy'] at hne
  have hmem : ∀ e, e ∈ c.live.filter (·.ptr ≠ x + 8) ↔ e ∈ c.live ∧ e.ptr ≠ x + 8 := fun e ↦ by
    rw [List.mem_filter, decide_eq_true_iff]
  have hin : ∀ e ∈ c.live, e.ptr ≠ x + 8 → InBlock (busy 0 bs') e := by
    intro e he hptr
    obtain ⟨u, hu, hu8, hsize⟩ := hs.inBlock e he
    refine ⟨u, ?_, hu8, hsize⟩
    rw [hbusy, List.mem_append, List.mem_cons] at hu
    rw [hbusy', List.mem_append]
    rcases hu with hu | rfl | hu
    · exact .inl hu
    · exact absurd hu8 hptr
    · exact .inr hu
  refine ⟨hrep, fun e he ↦ ?_, fun u hu ↦ ?_, ?_, fun e he ↦ ?_⟩
  · obtain ⟨he, hptr⟩ := (hmem e).mp he
    exact hin e he hptr
  · have hu' : u ∈ busy 0 bs := by
      rw [hbusy]
      rw [hbusy'] at hu
      exact ((List.sublist_cons_self _ r).append_left l).subset hu
    obtain ⟨e, he, hptr⟩ := hs.exists_piece u hu'
    exact ⟨e, (hmem e).mpr ⟨he, fun heq ↦ hne u hu (Nat.add_right_cancel (hptr.symm.trans heq))⟩,
      hptr⟩
  · exact (List.filter_sublist.map _).nodup hs.nodup
  · obtain ⟨he, hptr⟩ := (hmem e).mp he
    exact (hs.holds e he).kept (hin e he hptr) hkept

theorem Sound.exists_block (hs : Sound c bs) (he : e ∈ c.live) :
    ∃ pre n post, bs = pre ++ ⟨n, true⟩ :: post ∧ e.ptr = extent pre + 8 ∧
      8 + payloadSize e.data.length ≤ n ∧ e.data.length ≤ payloadSize e.data.length := by
  obtain ⟨u, hu, hptr, hsize⟩ := hs.inBlock e he
  obtain ⟨pre, post, hbs, hx⟩ := exists_of_mem_busy hu
  rw [Nat.zero_add] at hx
  exact ⟨pre, u.2, post, hbs, hx ▸ hptr, hsize⟩

theorem Sound.eq_of_ptr_eq {e' : Piece} (hs : Sound c bs) (he : e ∈ c.live)
    (he' : e' ∈ c.live) (hptr : e.ptr = e'.ptr) : e = e' :=
  List.inj_on_of_nodup_map hs.nodup he he' hptr

theorem Sound.write {ram' : Ram} {f : List (Option UInt8) → List (Option UInt8)} (hs : Sound c bs)
    (he : e ∈ c.live) (hlen : (f e.data).length = e.data.length)
    (hholds : Holds ram' ⟨e.ptr, f e.data⟩)
    (hout : ∀ i, i < e.ptr ∨ e.ptr + e.data.length ≤ i → ram' i = c.heap.ram i) :
    Sound ⟨{ c.heap with ram := ram' }, editPiece e.ptr f c.live⟩ bs := by
  obtain ⟨u, hu, hptr, hsize, hle⟩ := hs.inBlock e he
  obtain ⟨x, n⟩ := u
  obtain ⟨l, r, hbusy⟩ := List.append_of_mem hu
  dsimp only at hptr hsize
  have hout' : ∀ i, i < x + 8 ∨ x + n ≤ i → ram' i = c.heap.ram i := fun i hi ↦
    hout i (by omega)
  rw [hptr] at hholds ⊢
  refine hs.edit (hs.rep.store hu hout') hbusy hbusy (fun d hd hdptr ↦ ?_) fun d hd hne ↦ ?_
  · rw [hs.eq_of_ptr_eq hd he (hdptr.trans hptr.symm), hlen]
    exact ⟨hsize, hle, hholds⟩
  · exact (hs.holds d hd).store (hs.inBlock d hd) hu hne hout'

/-- **`mem_calloc` returns**, and its piece holds zeros. -/
theorem Sound.exists_calloc {count size : ℕ} (hs : Sound c bs) (hcount : count < 2 ^ 16)
    (hsize : size < 2 ^ 16) :
    ∃ h' r bs', memCalloc c.heap count size = some (h', r) ∧
      Sound ⟨h', addPiece r (List.replicate (count * size) (some 0)) c.live⟩ bs' := by
  have hprod : count * size % 2 ^ 32 = count * size :=
    Nat.mod_eq_of_lt (lt_of_lt_of_le (Nat.mul_lt_mul'' hcount hsize) (by decide))
  rw [memCalloc]
  dsimp only
  rw [hprod]
  generalize count * size = k
  split_ifs with hwide
  · exact ⟨c.heap, none, bs, rfl, hs⟩
  · obtain ⟨h', r, bs', hmalloc, hs'⟩ := hs.exists_malloc
    rw [hmalloc]
    cases r with
    | none => exact ⟨h', none, bs', rfl, hs'⟩
    | some p =>
      refine ⟨_, some p, bs', rfl, ?_⟩
      -- the piece of `mem_malloc`, with other data
      have hlive : addPiece (some p) (List.replicate k (some 0)) c.live
          = editPiece p (fun _ ↦ List.replicate k (some 0))
            (addPiece (some p) (List.replicate k none) c.live) := by
        have hnodup := (List.nodup_cons.mp hs'.nodup).1
        rw [addPiece, addPiece, editPiece, List.map_cons, if_pos rfl]
        congr 1
        conv_lhs => rw [← List.map_id c.live]
        refine List.map_congr_left fun d hd ↦ ?_
        rw [if_neg fun heq ↦ hnodup (List.mem_map.mpr ⟨d, hd, heq⟩), id]
      rw [hlive]
      refine hs'.write List.mem_cons_self (by simp) ?_ fun i hi ↦ if_neg ?_
      · intro i b hi
        rw [List.getElem?_replicate] at hi
        split_ifs at hi with hlt
        rw [ramSet, if_pos ⟨Nat.le_add_right _ _, Nat.add_lt_add_left hlt p⟩]
        exact Option.some.inj (Option.some.inj hi)
      · rw [List.length_replicate] at hi
        dsimp only at hi
        omega

/-- **`mem_free` returns** when it is given a piece. -/
theorem Sound.exists_free (hs : Sound c bs) (he : e ∈ c.live) :
    ∃ h' bs', memFree c.heap (some e.ptr) = some h' ∧
      Sound ⟨h', c.live.filter (·.ptr ≠ e.ptr)⟩ bs' := by
  obtain ⟨pre, n, post, rfl, hptr, -⟩ := hs.exists_block he
  rw [hptr]
  obtain ⟨h', hfree, hrep, hkept⟩ := hs.rep.exists_memFree
  have hbusy : busy 0 (pre ++ ⟨n, true⟩ :: post)
      = busy 0 pre ++ (extent pre, n) :: busy (0 + extent pre + n) post := by
    rw [busy_append, busy_cons_used, Nat.zero_add]
  have hbusy' := busy_release 0 pre n post
  exact ⟨h', _, hfree, hs.remove hrep hbusy hbusy' hkept⟩

/-- Smaller requests need no more space, as long as they are not too large for the heap. -/
theorem payloadSize_mono {size k : ℕ} (hle : size ≤ k) (hk : payloadSize k ≤ 16000)
    (hkk : k ≤ payloadSize k) :
    payloadSize size ≤ payloadSize k ∧ size ≤ payloadSize size := by
  simp only [payloadSize_eq_max, memAlignSize] at hk hkk ⊢
  omega

/-- **`mem_trim` returns** when it is given a piece, unless it is the last block that is to be cut
in two. -/
theorem Sound.exists_trim {size : ℕ} (hs : Sound c bs) (he : e ∈ c.live)
    (hsize : size ≤ e.data.length) (hlast : ¬ TrimsLast c (.trim e.ptr size)) :
    ∃ h' bs', memTrim c.heap e.ptr size = some (h', some e.ptr) ∧
      Sound ⟨h', editPiece e.ptr (List.take size) c.live⟩ bs' := by
  obtain ⟨pre, n, post, rfl, hptr, hn, hlen⟩ := hs.exists_block he
  have hrest := hs.rep.split.2.2
  have hend := hrest.extent_eq
  dsimp only at hrest hend
  obtain ⟨hmono, hself⟩ := payloadSize_mono hsize (by omega) hlen
  have hnot : ¬ TrimRefused size := by
    rw [TrimRefused]
    omega
  have hcut : ¬ CutsLast (payloadSize size) n post := by
    rintro ⟨rfl, hle⟩
    refine hlast ⟨?_, ?_⟩
    · rw [hptr, Nat.add_sub_cancel, hs.rep.split.2.1, Option.map_some]
      exact congrArg some hend
    · rw [extent_nil] at hend
      omega
  obtain ⟨h', htrim, hrep, hkept⟩ := hs.rep.exists_memTrim hnot (by omega) hcut
  obtain ⟨m, hm, hshrink⟩ : ∃ m, 8 + payloadSize size ≤ m ∧
      busy (0 + extent pre) (shrink 8 12 (payloadSize size) n post)
        = (0 + extent pre, m) :: busy (0 + extent pre + n) post :=
    exists_busy_shrink (by omega) _ _
  have hbusy : busy 0 (pre ++ ⟨n, true⟩ :: post)
      = busy 0 pre ++ (extent pre, n) :: busy (0 + extent pre + n) post := by
    rw [busy_append, busy_cons_used, Nat.zero_add]
  have hbusy' : busy 0 (pre ++ shrink 8 12 (payloadSize size) n post)
      = busy 0 pre ++ (extent pre, m) :: busy (0 + extent pre + n) post := by
    rw [busy_append, hshrink, Nat.zero_add]
  have htake : (e.data.take size).length = size := List.length_take_of_le hsize
  rw [hptr]
  refine ⟨h', _, htrim, hs.edit hrep hbusy hbusy' (fun d hd hdptr ↦ ?_) fun d hd hdptr ↦ ?_⟩
  · obtain rfl := hs.eq_of_ptr_eq hd he (hdptr.trans hptr.symm)
    have hin : InBlock (busy 0 (pre ++ shrink 8 12 (payloadSize size) n post))
        ⟨extent pre + 8, d.data.take size⟩ :=
      ⟨(extent pre, m), hbusy' ▸ List.mem_append_right _ List.mem_cons_self, rfl,
        htake.symm ▸ hm, htake.symm ▸ hself⟩
    have hold : Holds c.heap.ram ⟨extent pre + 8, d.data.take size⟩ := by
      intro i b hi
      rw [List.getElem?_take] at hi
      split_ifs at hi
      exact hptr ▸ hs.holds d hd i b hi
    rw [htake]
    exact ⟨hm, hself, hold.kept hin hkept⟩
  · refine (hs.holds d hd).kept ?_ hkept
    obtain ⟨u, hu, hu8, hsize⟩ := hs.inBlock d hd
    refine ⟨u, ?_, hu8, hsize⟩
    rw [hbusy, List.mem_append, List.mem_cons] at hu
    rw [hbusy', List.mem_append, List.mem_cons]
    rcases hu with hu | rfl | hu
    · exact .inl hu
    · exact absurd hu8 hdptr
    · exact .inr (.inr hu)

theorem Sound.store {i : ℕ} (b : UInt8) (hs : Sound c bs) (he : e ∈ c.live)
    (hi : i < e.data.length) :
    Sound ⟨{ c.heap with ram := Function.update c.heap.ram (e.ptr + i) b },
      editPiece e.ptr (·.set i (some b)) c.live⟩ bs := by
  refine hs.write he List.length_set (fun j b' hj ↦ ?_) fun j hj ↦ ?_
  · rw [List.getElem?_set] at hj
    split_ifs at hj with heq
    · rw [← heq, Function.update_self]
      exact Option.some.inj (Option.some.inj hj)
    · rw [Function.update_of_ne fun hne ↦ heq (Nat.add_left_cancel hne).symm]
      exact hs.holds e he j b' hj
  · exact Function.update_of_ne (by omega) _ _

/-- **One call**: a call within the rules returns, unless it is the one exception, and the clients
still hold what they held. -/
theorem Sound.exists_next {call : MemCall} (hs : Sound c bs) (hallowed : Allowed c call)
    (hlast : ¬ TrimsLast c call) :
    ∃ c' r bs', memMachine.next c call = some (c', r) ∧ Sound c' bs' := by
  cases call with
  | malloc size =>
    obtain ⟨h', r, bs', hmalloc, hs'⟩ := hs.exists_malloc
    exact ⟨_, r, bs', congrArg (Option.map _) hmalloc, hs'⟩
  | calloc count size =>
    obtain ⟨h', r, bs', hcalloc, hs'⟩ := hs.exists_calloc hallowed.1 hallowed.2
    exact ⟨_, r, bs', congrArg (Option.map _) hcalloc, hs'⟩
  | free p =>
    obtain ⟨e, he, rfl⟩ := hallowed
    obtain ⟨h', bs', hfree, hs'⟩ := hs.exists_free he
    exact ⟨_, none, bs', congrArg (Option.map _) hfree, hs'⟩
  | trim p size =>
    obtain ⟨e, he, rfl, hsize⟩ := hallowed
    obtain ⟨h', bs', htrim, hs'⟩ := hs.exists_trim he hsize hlast
    exact ⟨_, some e.ptr, bs', congrArg (Option.map _) htrim, hs'⟩
  | store p i b =>
    obtain ⟨e, he, rfl, hi⟩ := hallowed
    exact ⟨_, none, bs, rfl, hs.store b he hi⟩

theorem Sound.next_eq_none {call : MemCall} (hs : Sound c bs) (hallowed : Allowed c call)
    (hlast : TrimsLast c call) : memMachine.next c call = none := by
  cases call with
  | trim p size =>
    obtain ⟨e, he, rfl, hsize⟩ := hallowed
    obtain ⟨hnext, hle⟩ := hlast
    obtain ⟨pre, n, post, rfl, hptr, hn, hlen⟩ := hs.exists_block he
    have hrest := hs.rep.split.2.2
    have hend := hrest.extent_eq
    dsimp only at hend
    rw [hptr, Nat.add_sub_cancel, hs.rep.split.2.1, Option.map_some, Option.some.injEq] at hnext
    dsimp only at hnext
    obtain ⟨hmono, hself⟩ := payloadSize_mono hsize (by omega) hlen
    have hnot : ¬ TrimRefused size := by
      rw [TrimRefused]
      omega
    have hpost : post = [] := by
      have hlength := mul_length_le_extent
        (eight_le_size (wellCut_used_iff.mp hs.rep.wellCut).2.2)
      exact List.eq_nil_of_length_eq_zero (by omega)
    have htrim := hs.rep.memTrim_last hnot ⟨hpost, by omega⟩
    rw [← hptr] at htrim
    exact congrArg (Option.map _) htrim
  | malloc | calloc | free | store => exact hlast.elim

/-! ## Every run -/

/-- **The invariant.** From `mem_init` on, as long as the clients keep to the rules. -/
theorem exists_sound {ram : Ram} {tr : List (Transition Clients MemCall (Option ℕ))}
    (hinit : memInit ram = some h) (hrun : memMachine.Run ⟨h, []⟩ tr c)
    (hallowed : ∀ t ∈ tr, Allowed t.pre t.event) : ∃ bs, Sound c bs := by
  refine hrun.invariant (P := fun c ↦ ∃ bs, Sound c bs) (C := Allowed) ?_ ?_ hallowed
  · obtain ⟨h', hinit', hrep⟩ := exists_memInit ram
    obtain rfl := Option.some.inj (hinit.symm.trans hinit')
    exact ⟨_, hrep, by simp, by simp, List.nodup_nil, by simp⟩
  · rintro c c' call r ⟨bs, hs⟩ hallowed hnext
    by_cases hlast : TrimsLast c call
    · rw [hs.next_eq_none hallowed hlast] at hnext
      cases hnext
    · obtain ⟨c'', r', bs', hnext', hs'⟩ := hs.exists_next hallowed hlast
      rw [hnext', Option.some.injEq, Prod.mk.injEq] at hnext
      exact ⟨bs', hnext.1 ▸ hs'⟩

/-- Where the block in front of `p` ends, by its header. -/
def blockEnd (ram : Ram) (p : ℕ) : ℕ := ((loadMem ram (p - 8)).map Mem.next).getD 0

theorem Rep.blockEnd_eq {u : ℕ × ℕ} (hrep : Rep h bs) (hu : u ∈ busy 0 bs) :
    blockEnd h.ram (u.1 + 8) = u.1 + u.2 := by
  obtain ⟨pre, post, rfl, hx⟩ := exists_of_mem_busy hu
  rw [blockEnd, Nat.add_sub_cancel, hx, Nat.zero_add, hrep.split.2.1]
  rfl

/-- The bytes from `a` to `b` are in no block that a client holds. -/
def Gap (c : Clients) (a b : ℕ) : Prop :=
  b ≤ 16000 ∧ ∀ e ∈ c.live, b ≤ e.ptr - 8 ∨ blockEnd c.heap.ram e.ptr ≤ a

/-- What a request takes of the heap: a header, and its size rounded up to a multiple of four and to
12 bytes at least. -/
def roomFor (size : ℕ) : ℕ := 8 + max 12 (memAlignSize size)

theorem roomFor_of_not_refused {size : ℕ} (hsize : ¬ Refused size) :
    roomFor size = 8 + payloadSize size := by
  rw [Refused, payloadSize_eq_max, memAlignSize] at hsize
  rw [roomFor, payloadSize_eq_max, memAlignSize]
  omega

/-- A size that is refused at once is too large for the heap, or zero. -/
theorem lt_roomFor_of_refused {size : ℕ} (hsize : Refused size) (hpos : 0 < size) :
    16000 < roomFor size := by
  rw [Refused, payloadSize_eq_max, memAlignSize] at hsize
  rw [roomFor, memAlignSize]
  omega

theorem Sound.gap_iff {a b : ℕ} (hs : Sound c bs) : Gap c a b ↔ Vacant bs a b := by
  have hend := hs.rep.closed.extent_eq
  rw [Nat.zero_add] at hend
  rw [Gap, Vacant, hend]
  refine and_congr_right fun _ ↦ ⟨fun hgap u hu ↦ ?_, fun hvacant e he ↦ ?_⟩
  · obtain ⟨e, he, hptr⟩ := hs.exists_piece u hu
    have hor := hgap e he
    rwa [hptr, hs.rep.blockEnd_eq hu, Nat.add_sub_cancel] at hor
  · obtain ⟨u, hu, hptr, -⟩ := hs.inBlock e he
    rw [hptr, hs.rep.blockEnd_eq hu, Nat.add_sub_cancel]
    exact hvacant u hu

theorem Sound.perm (hs : Sound c bs) :
    (c.live.map Piece.ptr).Perm ((busy 0 bs).map fun u ↦ u.1 + 8) := by
  have hnodup : ((busy 0 bs).map fun u ↦ u.1 + 8).Nodup := by
    rw [List.nodup_iff_pairwise_ne, List.pairwise_map]
    refine (pairwise_busy 0 bs).imp_of_mem fun {u v} hu _ huv ↦ ?_
    have hpos : 0 < u.2 := pos_of_wellCut hs.rep.wellCut _ (size_of_mem_busy hu)
    omega
  refine (List.perm_ext_iff_of_nodup hs.nodup hnodup).mpr fun p ↦ ?_
  rw [List.mem_map, List.mem_map]
  constructor
  · rintro ⟨e, he, rfl⟩
    obtain ⟨u, hu, hptr, -⟩ := hs.inBlock e he
    exact ⟨u, hu, hptr.symm⟩
  · rintro ⟨u, hu, rfl⟩
    exact hs.exists_piece u hu

theorem exists_run_malloc {size : ℕ} {bs : List Block} (hlt : size < 2 ^ 16)
    (hsize : ¬ Refused size)
    (hallocate : allocate 8 12 (payloadSize size) [⟨16000, false⟩] = some (0, bs)) :
    ∃ h tr h', memInit (fun _ ↦ 0) = some h ∧
      memMachine.Run ⟨h, []⟩ tr ⟨h', [⟨8, List.replicate size none⟩]⟩ ∧
      (∀ t ∈ tr, Allowed t.pre t.event) ∧ Rep h' bs := by
  obtain ⟨h, hinit, hrep⟩ := exists_memInit fun _ ↦ 0
  have hmalloc := hrep.memMalloc_eq hsize
  rw [hallocate] at hmalloc
  obtain ⟨h', hmalloc, hrep', -⟩ := hmalloc
  have hnext : memMachine.next ⟨h, []⟩ (.malloc size)
      = some (⟨h', [⟨8, List.replicate size none⟩]⟩, some 8) := congrArg (Option.map _) hmalloc
  refine ⟨h, _, h', hinit, .single hnext, fun t ht ↦ ?_, hrep'⟩
  rw [List.mem_singleton.mp ht]
  exact hlt

/-- Three pieces, a byte stored in the first and in the last, and the one in between freed: a hole
of 20 bytes between two blocks. -/
def holeCalls : List MemCall :=
  [.malloc 20, .malloc 12, .malloc 30, .store 8 0 7, .store 56 29 9, .free 36]

section Results

variable {ram : Ram} {tr : List (Transition Clients MemCall (Option ℕ))}

/-- **What clients get is theirs.** Their pieces are aligned, in the heap, and apart from each other
with room for a header in between; and every byte of them is what was last stored in it. -/
theorem pieces_of_run (hinit : memInit ram = some h) (hrun : memMachine.Run ⟨h, []⟩ tr c)
    (hallowed : ∀ t ∈ tr, Allowed t.pre t.event) :
    (∀ e ∈ c.live, 4 ∣ e.ptr ∧ 8 ≤ e.ptr ∧ e.ptr + e.data.length ≤ 16000 ∧
      Holds c.heap.ram e) ∧
    c.live.Pairwise fun e f ↦
      e.ptr + e.data.length + 8 ≤ f.ptr ∨ f.ptr + f.data.length + 8 ≤ e.ptr := by
  obtain ⟨bs, hs⟩ := exists_sound hinit hrun hallowed
  refine ⟨fun e he ↦ ?_, ?_⟩
  · obtain ⟨pre, n, post, rfl, hptr, hn, hlen⟩ := hs.exists_block he
    have hend := hs.rep.split.2.2.extent_eq
    have hdvd := (wellCut_used_iff.mp hs.rep.wellCut).2.1.dvd_extent
    dsimp only at hend
    exact ⟨by omega, by omega, by omega, hs.holds e he⟩
  · refine (List.pairwise_map.mp hs.nodup).imp_of_mem fun {e f} he hf hne ↦ ?_
    obtain ⟨u, hu, hptr, hsize, hlen⟩ := hs.inBlock e he
    obtain ⟨v, hv, hptr', hsize', hlen'⟩ := hs.inBlock f hf
    have hapart := apart_of_mem_busy hu hv fun heq ↦ hne (by rw [hptr, hptr', heq])
    omega

/-- The two pieces around the hole, each with the byte that was stored in it. -/
theorem pieces_of_run_hole :
    ∃ c : Clients, c.live = [⟨56, List.replicate 29 none ++ [some 9]⟩,
        ⟨8, some 7 :: List.replicate 19 none⟩] ∧
      (∀ e ∈ c.live, 4 ∣ e.ptr ∧ 8 ≤ e.ptr ∧ e.ptr + e.data.length ≤ 16000 ∧
        Holds c.heap.ram e) ∧
      c.live.Pairwise fun e f ↦
        e.ptr + e.data.length + 8 ≤ f.ptr ∨ f.ptr + f.data.length + 8 ≤ e.ptr := by
  obtain ⟨h, tr, c, hinit, hrun, hallowed, hlive⟩ :
      ∃ h tr c, memInit (fun _ ↦ 0) = some h ∧ memMachine.Run ⟨h, []⟩ tr c ∧
        (∀ t ∈ tr, Allowed t.pre t.event) ∧
        c.live = [⟨56, List.replicate 29 none ++ [some 9]⟩,
          ⟨8, some 7 :: List.replicate 19 none⟩] :=
    Machine.exists_run_of_start holeCalls (by decide +kernel)
  exact ⟨c, hlive, pieces_of_run hinit hrun hallowed⟩

/-- **No call within the rules stops the kernel**, but for one that `mem_trim` does not expect; and
`mem_sanity` passes after every call. -/
theorem next_eq_none_iff_trimsLast (hinit : memInit ram = some h)
    (hrun : memMachine.Run ⟨h, []⟩ tr c) (hallowed : ∀ t ∈ tr, Allowed t.pre t.event) :
    memSanity c.heap.ram = some () ∧
      ∀ call, Allowed c call → (memMachine.next c call = none ↔ TrimsLast c call) := by
  obtain ⟨bs, hs⟩ := exists_sound hinit hrun hallowed
  refine ⟨hs.rep.memSanity_eq, fun call hcall ↦ ⟨fun hnone ↦ ?_, hs.next_eq_none hcall⟩⟩
  by_contra hlast
  obtain ⟨c', r, bs', hnext, -⟩ := hs.exists_next hcall hlast
  rw [hnone] at hnext
  cases hnext

/-- The exception is within the rules: one piece takes the whole heap, and is shrunk. -/
theorem next_eq_none_of_trim :
    ∃ c : Clients, memSanity c.heap.ram = some () ∧ Allowed c (.trim 8 100) ∧
      memMachine.next c (.trim 8 100) = none := by
  obtain ⟨h, tr, h', hinit, hrun, hallowed, hrep⟩ :=
    exists_run_malloc (show 15992 < 2 ^ 16 by decide) (by decide) rfl
  have hcall : Allowed ⟨h', [⟨8, List.replicate 15992 none⟩]⟩ (.trim 8 100) :=
    ⟨_, List.mem_cons_self, rfl, by rw [List.length_replicate]; decide⟩
  have hresult := next_eq_none_iff_trimsLast hinit hrun hallowed
  refine ⟨_, hresult.1, hcall, (hresult.2 _ hcall).mpr ⟨?_, by decide⟩⟩
  rw [hrep.closed.linked.1]
  rfl

/-- **`mem_malloc` is first fit and overlooks nothing**: a request of at least one byte returns the
lowest place where it and a header have room between the blocks of the clients, and null only if
there is no such place. -/
theorem memMalloc_first_fit {size : ℕ} (hinit : memInit ram = some h)
    (hrun : memMachine.Run ⟨h, []⟩ tr c) (hallowed : ∀ t ∈ tr, Allowed t.pre t.event)
    (hpos : 0 < size) :
    ∃ h' r, memMalloc c.heap size = some (h', r) ∧
      match r with
      | none => ∀ a, ¬ Gap c a (a + roomFor size)
      | some p => ∃ x, p = x + 8 ∧ Gap c x (x + roomFor size) ∧
          ∀ a, Gap c a (a + roomFor size) → x ≤ a := by
  obtain ⟨bs, hs⟩ := exists_sound hinit hrun hallowed
  by_cases hsize : Refused size
  · refine ⟨_, _, memMalloc_refused hsize, fun a hgap ↦ ?_⟩
    have hroom := lt_roomFor_of_refused hsize hpos
    have hend := hgap.1
    omega
  · have hblocks := pos_of_wellCut hs.rep.wellCut
    have hspec := hs.rep.memMalloc_eq hsize
    simp only [hs.gap_iff, roomFor_of_not_refused hsize]
    rcases hallocate : allocate 8 12 (payloadSize size) bs with _ | ⟨x, bs'⟩
    · rw [hallocate] at hspec
      exact ⟨_, _, hspec, fun a ↦
        not_vacant_of_allocate hs.rep.wellCut.joined hblocks (by omega) hallocate⟩
    · rw [hallocate] at hspec
      obtain ⟨h', hspec, -⟩ := hspec
      exact ⟨h', _, hspec, x, rfl, vacant_of_allocate hallocate, fun a ↦
        allocate_le_of_vacant hs.rep.wellCut.joined hblocks (by omega) hallocate⟩

/-- The hole is taken again by a request that just fits, and passed over by a larger one. -/
theorem memMalloc_first_fit_hole :
    ∃ c : Clients, c.live.map Piece.ptr = [56, 8] ∧
      (∃ h', memMalloc c.heap 12 = some (h', some 36) ∧
        Gap c 28 (28 + roomFor 12) ∧ ∀ a, Gap c a (a + roomFor 12) → 28 ≤ a) ∧
      ∃ h', memMalloc c.heap 13 = some (h', some 96) ∧
        Gap c 88 (88 + roomFor 13) ∧ ∀ a, Gap c a (a + roomFor 13) → 88 ≤ a := by
  obtain ⟨h, tr, c, hinit, hrun, hallowed, hlive, hsmall, hlarge⟩ :
      ∃ h tr c, memInit (fun _ ↦ 0) = some h ∧ memMachine.Run ⟨h, []⟩ tr c ∧
        (∀ t ∈ tr, Allowed t.pre t.event) ∧ c.live.map Piece.ptr = [56, 8] ∧
        (memMalloc c.heap 12).map Prod.snd = some (some 36) ∧
        (memMalloc c.heap 13).map Prod.snd = some (some 96) :=
    Machine.exists_run_of_start holeCalls (by decide +kernel)
  obtain ⟨h₁, r₁, hmalloc₁, hfit₁⟩ :=
    memMalloc_first_fit hinit hrun hallowed (show 0 < 12 by decide)
  obtain ⟨h₂, r₂, hmalloc₂, hfit₂⟩ :=
    memMalloc_first_fit hinit hrun hallowed (show 0 < 13 by decide)
  rw [hmalloc₁, Option.map_some, Option.some.injEq] at hsmall
  rw [hmalloc₂, Option.map_some, Option.some.injEq] at hlarge
  subst hsmall hlarge
  obtain ⟨x₁, hx₁, hfit₁⟩ := hfit₁
  obtain ⟨x₂, hx₂, hfit₂⟩ := hfit₂
  obtain rfl : x₁ = 28 := by omega
  obtain rfl : x₂ = 88 := by omega
  exact ⟨c, hlive, ⟨h₁, hmalloc₁, hfit₁⟩, h₂, hmalloc₂, hfit₂⟩

/-- **The counter of the used bytes is exact**, and nothing is lost: once all is freed, the heap is
one free block again. -/
theorem used_eq_sum_blocks (hinit : memInit ram = some h) (hrun : memMachine.Run ⟨h, []⟩ tr c)
    (hallowed : ∀ t ∈ tr, Allowed t.pre t.event) :
    c.heap.stats.used
        = (c.live.map fun e ↦ blockEnd c.heap.ram e.ptr - (e.ptr - 8)).sum ∧
      (c.live = [] → loadMem c.heap.ram 0 = some ⟨16000, 0, 0⟩ ∧ c.heap.lfree = 0) := by
  obtain ⟨bs, hs⟩ := exists_sound hinit hrun hallowed
  constructor
  · have hsum := (hs.perm.map fun p ↦ blockEnd c.heap.ram p - (p - 8)).sum_eq
    rw [List.map_map, List.map_map] at hsum
    rw [hs.rep.used, busyExtent]
    refine Eq.trans (congrArg List.sum (List.map_congr_left fun u hu ↦ ?_)) hsum.symm
    rw [Function.comp_apply, hs.rep.blockEnd_eq hu]
    omega
  · intro hnil
    have hbusy : busy 0 bs = [] := by
      have hperm := hs.perm
      rw [hnil, List.map_nil, List.nil_perm, List.map_eq_nil_iff] at hperm
      exact hperm
    have hend := hs.rep.closed.extent_eq
    have hone : bs = [⟨extent bs, false⟩] :=
      eq_singleton_of_busy_eq_nil hs.rep.wellCut.joined (by rintro rfl; cases hend) hbusy
    rw [Nat.zero_add] at hend
    rw [hend] at hone
    subst hone
    exact ⟨hs.rep.closed.linked.1, hs.rep.lfree⟩

/-- The two pieces around the hole, and the heap when they have been freed as well. -/
theorem used_eq_sum_blocks_hole :
    (∃ c : Clients, c.live.map Piece.ptr = [56, 8] ∧ c.heap.stats.used = 68 ∧
      c.heap.stats.used
        = (c.live.map fun e ↦ blockEnd c.heap.ram e.ptr - (e.ptr - 8)).sum) ∧
    ∃ c : Clients, c.live = [] ∧ c.heap.stats.max = 88 ∧
      loadMem c.heap.ram 0 = some ⟨16000, 0, 0⟩ ∧ c.heap.lfree = 0 := by
  constructor
  · obtain ⟨h, tr, c, hinit, hrun, hallowed, hlive, hused⟩ :
        ∃ h tr c, memInit (fun _ ↦ 0) = some h ∧ memMachine.Run ⟨h, []⟩ tr c ∧
          (∀ t ∈ tr, Allowed t.pre t.event) ∧ c.live.map Piece.ptr = [56, 8] ∧
          c.heap.stats.used = 68 :=
      Machine.exists_run_of_start holeCalls (by decide +kernel)
    exact ⟨c, hlive, hused, (used_eq_sum_blocks hinit hrun hallowed).1⟩
  · obtain ⟨h, tr, c, hinit, hrun, hallowed, hlive, hmax⟩ :
        ∃ h tr c, memInit (fun _ ↦ 0) = some h ∧ memMachine.Run ⟨h, []⟩ tr c ∧
          (∀ t ∈ tr, Allowed t.pre t.event) ∧ c.live = [] ∧ c.heap.stats.max = 88 :=
      Machine.exists_run_of_start (holeCalls ++ [.free 8, .free 56]) (by decide +kernel)
    exact ⟨c, hlive, hmax, (used_eq_sum_blocks hinit hrun hallowed).2 hlive⟩

end Results

end ZanOS.Lwip
