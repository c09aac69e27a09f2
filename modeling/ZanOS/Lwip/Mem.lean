import ZanOS.Foundation.FirstFit
import ZanOS.Foundation.Word

/-!
# The heap of lwIP

`mem.c` hands out pieces of the array `ram`, 16000 bytes of it in this configuration. Each piece
lies behind a `struct mem` that holds the offsets of the next and the previous one and a mark; the
array is closed by one more such header, `ram_end`, which is always marked as used. All of this is
in the bytes of the array itself, next to the data of the clients, and that is how it is modelled:
`Ram` are the bytes, `loadMem` and `updateMem` read and write the header at an offset.

A pointer is its offset in `ram`, which is aligned to 4. An assertion that fails stops the kernel
in an endless loop (`LWIP_PLATFORM_ASSERT`), and so does a walk along headers that lead nowhere;
both are `none` here, as is an access to a header outside the array. That none of this happens is
shown in `ZanOS.Lwip.Blocks` and `ZanOS.Lwip.MemRun`.

Offsets and sizes are of type `mem_size_t`, which has 16 bits, and the differences of the source are
computed in 32 bits without a sign (`usub`).
-/

namespace ZanOS.Lwip

open Foundation

/-- The array `ram`. -/
abbrev Ram := ℕ → UInt8

/-- `struct mem`. With its padding it takes `SIZEOF_STRUCT_MEM`, that is, 8 bytes. -/
structure Mem where
  next : ℕ
  prev : ℕ
  used : ℕ
  deriving DecidableEq

/-- The bytes of the structure in front of its padding. -/
def Mem.bytes (m : Mem) : List UInt8 :=
  halfBytes (UInt16.ofNat m.next) ++ halfBytes (UInt16.ofNat m.prev) ++ [UInt8.ofNat m.used]

/-- The structure at `ptr_to_mem(p)`; the array ends `2 * SIZEOF_STRUCT_MEM` behind
`MEM_SIZE_ALIGNED`. -/
def loadMem (ram : Ram) (p : ℕ) : Option Mem :=
  if p + 6 ≤ 16016 then
    some ⟨(leHalf (ram p) (ram (p + 1))).toNat, (leHalf (ram (p + 2)) (ram (p + 3))).toNat,
      (ram (p + 4)).toNat⟩
  else none

/-- The array with a structure at `p`. -/
def writeMem (ram : Ram) (p : ℕ) (m : Mem) : Ram := fun i ↦
  if p ≤ i ∧ i < p + 5 then m.bytes.getD (i - p) 0 else ram i

/-- An assignment to fields of the structure at `p`. -/
def updateMem (ram : Ram) (p : ℕ) (f : Mem → Mem) : Option Ram :=
  (loadMem ram p).map fun m ↦ writeMem ram p (f m)

/-- `LWIP_ASSERT`. -/
def lwipAssert (c : Prop) [Decidable c] : Option Unit := if c then some () else none

/-- The difference of two numbers of 32 bits. -/
def usub (a b : ℕ) : ℕ := if b ≤ a then a - b else a + 2 ^ 32 - b

/-- `LWIP_MEM_ALIGN_SIZE`. -/
def memAlignSize (size : ℕ) : ℕ := (size + 3) / 4 * 4

/-- The counters of `lwip_stats.mem` that change. -/
structure MemStats where
  used : ℕ
  max : ℕ
  err : ℕ

/-- `MEM_STATS_INC_USED`. -/
def MemStats.incUsed (s : MemStats) (y : ℕ) : MemStats :=
  let used := (s.used + y) % 2 ^ 16
  { s with used := used, max := if s.max < used then used else s.max }

/-- `MEM_STATS_DEC_USED`. -/
def MemStats.decUsed (s : MemStats) (y : ℕ) : MemStats :=
  { s with used := (usub s.used y) % 2 ^ 16 }

/-- `MEM_STATS_INC(err)`. -/
def MemStats.incErr (s : MemStats) : MemStats := { s with err := (s.err + 1) % 2 ^ 16 }

/-- The statics of `mem.c` and its counters. -/
structure MemHeap where
  ram : Ram
  lfree : ℕ
  stats : MemStats

namespace MemHeap

/-- An assignment to the structure at `p`. -/
def update (h : MemHeap) (p : ℕ) (f : Mem → Mem) : Option MemHeap :=
  (updateMem h.ram p f).map fun ram ↦ { h with ram := ram }

/-- `ptr_to_mem(p)->prev = v`, which is left out for the end of the heap. -/
def relink (h : MemHeap) (p v : ℕ) : Option MemHeap :=
  if p ≠ 16000 then h.update p ({ · with prev := v }) else some h

end MemHeap

/-- The assignments with which a new structure at `ptr2` is put behind the one at `ptr`. -/
def MemHeap.insert (h : MemHeap) (ptr ptr2 next : ℕ) : Option MemHeap := do
  let h ← h.update ptr2 ({ · with used := 0 })
  let h ← h.update ptr2 ({ · with next := next })
  let h ← h.update ptr2 ({ · with prev := ptr })
  h.update ptr ({ · with next := ptr2 })

/-- `mem_init`, on an array that holds anything. -/
def memInit (ram : Ram) : Option MemHeap := do
  let ram ← updateMem ram 0 ({ · with next := 16000 })
  let ram ← updateMem ram 0 ({ · with prev := 0 })
  let ram ← updateMem ram 0 ({ · with used := 0 })
  let ram ← updateMem ram 16000 ({ · with used := 1 })
  let ram ← updateMem ram 16000 ({ · with next := 16000 })
  let ram ← updateMem ram 16000 ({ · with prev := 16000 })
  some ⟨ram, 0, ⟨0, 0, 0⟩⟩

/-! ## Freeing -/

/-- The assignments with which the block at `second` goes to the one at `first`. -/
def MemHeap.absorb (h : MemHeap) (first second : ℕ) : Option MemHeap := do
  let s ← loadMem h.ram second
  let h ← h.update first ({ · with next := s.next })
  let s ← loadMem h.ram second
  h.relink s.next first

/-- `plug_holes`, the first half: a free block behind `mem` goes to `mem`. -/
def plugForward (h : MemHeap) (mem : ℕ) : Option MemHeap := do
  let m ← loadMem h.ram mem
  let nmem := m.next
  let n ← loadMem h.ram nmem
  if mem ≠ nmem ∧ n.used = 0 ∧ nmem ≠ 16000 then
    MemHeap.absorb { h with lfree := if h.lfree = nmem then mem else h.lfree } mem nmem
  else some h

/-- `plug_holes`, the second half: `mem` goes to a free block in front of it. -/
def plugBackward (h : MemHeap) (mem : ℕ) : Option MemHeap := do
  let m ← loadMem h.ram mem
  let pmem := m.prev
  let p ← loadMem h.ram pmem
  if pmem ≠ mem ∧ p.used = 0 then
    MemHeap.absorb { h with lfree := if h.lfree = mem then pmem else h.lfree } pmem mem
  else some h

/-- `plug_holes`. -/
def plugHoles (h : MemHeap) (mem : ℕ) : Option MemHeap := do
  let m ← loadMem h.ram mem
  lwipAssert (mem < 16000)
  lwipAssert (m.used = 0)
  lwipAssert (m.next ≤ 16000)
  let h ← plugForward h mem
  plugBackward h mem

/-- `mem_link_valid`. -/
def memLinkValid (ram : Ram) (mem : ℕ) : Option Bool := do
  let m ← loadMem ram mem
  let n ← loadMem ram m.next
  let p ← loadMem ram m.prev
  some (¬ (16000 < m.next ∨ 16000 < m.prev ∨ (m.prev ≠ mem ∧ p.next ≠ mem) ∨
    (m.next ≠ 16000 ∧ n.prev ≠ mem)))

/-- `mem_free`, with a pointer relative to `ram`. What it does after a failed assertion is not
reached. -/
def memFree (h : MemHeap) (rmem : Option ℤ) : Option MemHeap :=
  match rmem with
  | none => some h
  | some rmem => do
      lwipAssert (rmem % 4 = 0)
      lwipAssert (¬ (rmem - 8 < 0 ∨ 16000 < rmem + 12))
      let mem := (rmem - 8).toNat
      let m ← loadMem h.ram mem
      lwipAssert (m.used ≠ 0)
      let valid ← memLinkValid h.ram mem
      lwipAssert (valid = true)
      let h ← h.update mem ({ · with used := 0 })
      plugHoles { h with
        lfree := if mem < h.lfree then mem else h.lfree
        stats := h.stats.decUsed (usub m.next mem) } mem

/-! ## Allocating -/

/-- The search of `mem_malloc`, which gives up after `fuel` rounds. -/
def findFree (ram : Ram) (size : ℕ) : (fuel ptr : ℕ) → Option (Option ℕ)
  | 0, _ => none
  | fuel + 1, ptr =>
      if ptr < 16000 - size then do
        let m ← loadMem ram ptr
        if m.used = 0 ∧ size ≤ usub m.next (ptr + 8) then some (some ptr)
        else findFree ram size fuel m.next
      else some none

/-- `mem_malloc` with the block it has found: it is cut in two if the rest can be a block. -/
def takeBlock (h : MemHeap) (ptr size : ℕ) : Option MemHeap := do
  let m ← loadMem h.ram ptr
  if size + 8 + 12 ≤ usub m.next (ptr + 8) then do
    let ptr2 := (ptr + 8 + size) % 2 ^ 16
    lwipAssert (ptr2 ≠ 16000)
    let h ← h.insert ptr ptr2 m.next
    let h ← h.update ptr ({ · with used := 1 })
    let m2 ← loadMem h.ram ptr2
    let h ← h.relink m2.next ptr2
    some { h with stats := h.stats.incUsed (size + 8) }
  else do
    let h ← h.update ptr ({ · with used := 1 })
    let m ← loadMem h.ram ptr
    some { h with stats := h.stats.incUsed (usub m.next ptr) }

/-- The loop of `mem_malloc` that moves `lfree` on. -/
def skipUsed (ram : Ram) : (fuel cur : ℕ) → Option ℕ
  | 0, _ => none
  | fuel + 1, cur => do
      let m ← loadMem ram cur
      if m.used ≠ 0 ∧ cur ≠ 16000 then skipUsed ram fuel m.next else some cur

/-- `lfree` after the block at `ptr` has been taken. -/
def adjustLfree (h : MemHeap) (ptr : ℕ) : Option MemHeap :=
  if ptr = h.lfree then do
    let cur ← skipUsed h.ram 16000 h.lfree
    let m ← loadMem h.ram cur
    lwipAssert (cur = 16000 ∨ m.used = 0)
    some { h with lfree := cur }
  else some h

/-- The payload that `mem_malloc` and `mem_trim` make of a size that they are given. -/
def payloadSize (size : ℕ) : ℕ :=
  let aligned := memAlignSize size % 2 ^ 16
  if aligned < 12 then 12 else aligned

/-- `mem_malloc`: the heap afterwards, and the pointer, which is null if there is none. -/
def memMalloc (h : MemHeap) (sizeIn : ℕ) : Option (MemHeap × Option ℕ) :=
  if sizeIn = 0 then some (h, none)
  else
    let size := payloadSize sizeIn
    if 16000 < size ∨ size < sizeIn then some (h, none)
    else do
      match ← findFree h.ram size 16000 h.lfree with
      | none => some ({ h with stats := h.stats.incErr }, none)
      | some ptr => do
          let h ← takeBlock h ptr size
          let h ← adjustLfree h ptr
          lwipAssert (ptr + 8 + size ≤ 16000)
          lwipAssert ((ptr + 8) % 4 = 0)
          lwipAssert (ptr % 4 = 0)
          some (h, some (ptr + 8))

/-- `memset`, on the array. -/
def ramSet (ram : Ram) (p : ℕ) (c : UInt8) (n : ℕ) : Ram := fun i ↦
  if p ≤ i ∧ i < p + n then c else ram i

/-- `mem_calloc`. -/
def memCalloc (h : MemHeap) (count size : ℕ) : Option (MemHeap × Option ℕ) :=
  let allocSize := count * size % 2 ^ 32
  if allocSize % 2 ^ 16 ≠ allocSize then some (h, none)
  else do
    let (h, p) ← memMalloc h allocSize
    match p with
    | none => some (h, none)
    | some p => some ({ h with ram := ramSet h.ram p 0 allocSize }, some p)

/-! ## Shrinking -/

/-- The assignments with which `mem_trim` puts a new header at `ptr2`, where the block at `ptr` is
to end. -/
def MemHeap.cutOff (h : MemHeap) (ptr ptr2 next : ℕ) : Option MemHeap := do
  let h ← h.insert ptr ptr2 next
  let m2 ← loadMem h.ram ptr2
  h.relink m2.next ptr2

/-- `mem_trim` on a block with a payload of `size` in front of `next`: the end of it goes to a free
block behind it, or becomes a block if it is large enough. -/
def trimBlock (h : MemHeap) (ptr next size newsize : ℕ) : Option MemHeap :=
  if newsize = size then some h
  else do
    let m2 ← loadMem h.ram next
    let ptr2 := (ptr + 8 + newsize) % 2 ^ 16
    if m2.used = 0 then do
      lwipAssert (next ≠ 16000)
      let lfree := if h.lfree = next then ptr2 else h.lfree
      let h ← MemHeap.cutOff { h with lfree := lfree } ptr ptr2 m2.next
      some { h with stats := h.stats.decUsed (size - newsize) }
    else if newsize + 8 + 12 ≤ size then do
      lwipAssert (next ≠ 16000)
      let lfree := if ptr2 < h.lfree then ptr2 else h.lfree
      let h ← MemHeap.cutOff { h with lfree := lfree } ptr ptr2 next
      some { h with stats := h.stats.decUsed (size - newsize) }
    else some h

/-- `mem_trim`: the heap afterwards, and the pointer it returns. -/
def memTrim (h : MemHeap) (rmem newSize : ℕ) : Option (MemHeap × Option ℕ) :=
  let newsize := payloadSize newSize
  if 16000 < newsize ∨ newsize < newSize then some (h, none)
  else do
    lwipAssert (rmem < 16000)
    -- the structure in front of the data has to be in the array
    let ptr ← if 8 ≤ rmem then some (rmem - 8) else none
    let m ← loadMem h.ram ptr
    let size := usub (usub m.next ptr % 2 ^ 16) 8 % 2 ^ 16
    lwipAssert (newsize ≤ size)
    let h ← trimBlock h ptr m.next size newsize
    some (h, some rmem)

/-! ## The check of the heap -/

/-- The loop of `mem_sanity`, from the block at `mem`, and what follows the loop. -/
def sanityWalk (ram : Ram) : (fuel mem lastUsed : ℕ) → Option Unit
  | 0, _, _ => none
  | fuel + 1, mem, lastUsed =>
      if 0 < mem ∧ mem < 16000 then do
        let m ← loadMem ram mem
        lwipAssert (mem % 4 = 0)
        lwipAssert (m.prev ≤ 16000)
        lwipAssert (m.next ≤ 16000)
        lwipAssert (if lastUsed = 0 then m.used = 1 else m.used = 0 ∨ m.used = 1)
        let valid ← memLinkValid ram mem
        lwipAssert (valid = true)
        sanityWalk ram fuel m.next m.used
      else do
        lwipAssert (mem = 16000)
        let m ← loadMem ram mem
        lwipAssert (m.used = 1)
        lwipAssert (m.prev = 16000)
        lwipAssert (m.next = 16000)

/-- `mem_sanity`, which a build with `MEM_SANITY_CHECK` runs after each call. Its assertions that
the links are aligned put the comparison inside `LWIP_MEM_ALIGN` and cannot fail. -/
def memSanity (ram : Ram) : Option Unit := do
  let m ← loadMem ram 0
  lwipAssert (m.used = 0 ∨ m.used = 1)
  lwipAssert (m.prev = 0)
  lwipAssert (m.next ≤ 16000)
  sanityWalk ram 16000 m.next m.used

end ZanOS.Lwip
