import ZanOS.Storage.History

/-!
# The books of the RAM disk

The RAM disk keeps no count of its files. The number that `diag_print` shows is a counter of
`kernel_log.c`, which `ramdisk_create` adds one to; the files themselves are the slots marked as
used. The two are reset by different functions, `diag_init` and `ramdisk_init`, and nothing in the
code compares them.

They agree in every state `main` can reach (`Booked`). The slots are taken from the front and never
given back, so a catalog of `k` entries is the first `k` slots; each slot has the name of the create
that took it (`Claimed`), whatever was written to the disk since; and a call that fails leaves the
books alone.
-/

namespace ZanOS

open Foundation

/-! ## What one call does to the counter -/

theorem ramdiskCreate_cases {d d' : Ramdisk} {name : List UInt8} {r : Int}
    (h : ramdiskCreate d name = some (d', r)) :
    (d'.diag = diagFileCreated d.diag ∧ r = 0) ∨ (d' = d ∧ r = -1) := by
  rw [ramdiskCreate] at h
  split at h
  · obtain ⟨rfl, rfl⟩ := Prod.mk.inj (Option.some.inj h)
    exact Or.inr ⟨rfl, rfl⟩
  · split at h
    · cases h
    · split at h
      · cases h
      · obtain ⟨rfl, rfl⟩ := Prod.mk.inj (Option.some.inj h)
        exact Or.inl ⟨rfl, rfl⟩

theorem ramdiskWrite_cases {d d' : Ramdisk} {name data : List UInt8} {r : Int}
    (h : ramdiskWrite d name data = some (d', r)) :
    (d'.diag = d.diag ∧ r = 0) ∨ (d' = d ∧ r = -1) := by
  rw [ramdiskWrite] at h
  split at h
  · cases h
  · obtain ⟨rfl, rfl⟩ := Prod.mk.inj (Option.some.inj h)
    exact Or.inr ⟨rfl, rfl⟩
  · split at h
    · cases h
    · split at h
      · cases h
      · obtain ⟨rfl, rfl⟩ := Prod.mk.inj (Option.some.inj h)
        exact Or.inl ⟨rfl, rfl⟩

/-- Everything a call can do to the counter. -/
theorem ramdiskMachine_next_cases {d d' : Ramdisk} {op : DiskOp} {r : Int}
    (h : ramdiskMachine.next d op = some (d', r)) :
    (∃ m, op = .create m ∧ d'.diag = diagFileCreated d.diag ∧ r = 0) ∨
      (∃ m data, op = .write m data ∧ d'.diag = d.diag ∧ r = 0) ∨
      (∃ m k buffer, op = .read m k buffer ∧ d' = d) ∨ (d' = d ∧ r = -1) := by
  cases op with
  | create m =>
    rcases ramdiskCreate_cases h with ⟨hdiag, hr⟩ | hfailed
    · exact Or.inl ⟨m, rfl, hdiag, hr⟩
    · exact Or.inr (Or.inr (Or.inr hfailed))
  | write m data =>
    rcases ramdiskWrite_cases h with ⟨hdiag, hr⟩ | hfailed
    · exact Or.inr (Or.inl ⟨m, data, rfl, hdiag, hr⟩)
    · exact Or.inr (Or.inr (Or.inr hfailed))
  | read m k buffer =>
    obtain ⟨out, -, heq⟩ := Option.map_eq_some_iff.mp h
    exact Or.inr (Or.inr (Or.inl ⟨m, k, buffer, rfl, (congrArg Prod.fst heq).symm⟩))

theorem eq_of_next_failed {d d' : Ramdisk} {op : DiskOp}
    (h : ramdiskMachine.next d op = some (d', -1)) : d' = d := by
  rcases ramdiskMachine_next_cases h with
    ⟨-, -, -, hr⟩ | ⟨-, -, -, -, hr⟩ | ⟨-, -, -, -, hd⟩ | ⟨hd, -⟩
  · exact absurd hr (by decide)
  · exact absurd hr (by decide)
  · exact hd
  · exact hd

theorem fileCount_of_next {d d' : Ramdisk} {op : DiskOp} {r : Int}
    (h : ramdiskMachine.next d op = some (d', r)) :
    d'.diag.fileCount = d.diag.fileCount + (createdNames [(op, r)]).length := by
  rcases ramdiskMachine_next_cases h with ⟨m, rfl, hdiag, rfl⟩ | ⟨m, data, rfl, hdiag, rfl⟩ |
    ⟨m, k, buffer, rfl, rfl⟩ | ⟨rfl, rfl⟩
  · rw [hdiag]
    rfl
  · rw [hdiag]
    rfl
  · rfl
  · cases op <;> rfl

/-! ## What a run does -/

theorem createdNames_append (h h' : DiskHistory) :
    createdNames (h ++ h') = createdNames h ++ createdNames h' := List.filterMap_append

theorem fileCount_of_run {d₀ d : Ramdisk} {tr : List (Transition Ramdisk DiskOp Int)}
    (hrun : ramdiskMachine.Run d₀ tr d) :
    d.diag.fileCount
      = d₀.diag.fileCount + (createdNames (tr.map Transition.visible)).length := by
  induction hrun with
  | nil => rfl
  | snoc _ hnext ih =>
    rw [List.map_append, createdNames_append, List.length_append, ← Nat.add_assoc, ← ih]
    exact fileCount_of_next hnext

/-- The number of calls of `ramdisk_create` in a history. -/
def createCalls (h : DiskHistory) : ℕ :=
  h.countP fun
    | (.create _, _) => true
    | _ => false

theorem length_eq_min_createCalls {tr : List (Transition (List Entry) DiskOp Int)} {l : List Entry}
    (hrun : catalogMachine.Run [] tr l) :
    l.length = min 16 (createCalls (tr.map Transition.visible)) := by
  induction hrun with
  | nil => rfl
  | snoc _ hnext ih =>
    rw [createCalls, List.map_append, List.countP_append, ← createCalls, List.map_singleton,
      Transition.visible]
    rcases catalogMachine_next_cases hnext with ⟨m, rfl, hlt, rfl, rfl⟩ | ⟨m, rfl, hle, rfl, rfl⟩ |
      ⟨m, data, c, rfl, -, rfl, rfl⟩ | ⟨m, data, rfl, -, rfl, rfl⟩ | ⟨m, k, buffer, rfl, rfl⟩
    · rw [List.length_append, List.countP_cons_of_pos rfl, List.countP_nil, List.length_singleton]
      omega
    · rw [List.countP_cons_of_pos rfl, List.countP_nil]
      omega
    · rw [← List.length_map Prod.fst, keys_assign, List.length_map]
      exact ih
    · exact ih
    · exact ih

/-! ## Which create a slot belongs to -/

/-- The transition is a create with the name `m` that marks slot `i` as used. -/
def TakesSlot (i : Fin 16) (m : CStr) (t : Transition Ramdisk DiskOp Int) : Prop :=
  t.event = .create m ∧ (t.pre.files.get i).used = 0 ∧ (t.post.files.get i).used ≠ 0

/-- Slot `i` was claimed by a create with the name `m`. -/
def Claimed (tr : List (Transition Ramdisk DiskOp Int)) (i : Fin 16) (m : CStr) : Prop :=
  ∃ t ∈ tr, TakesSlot i m t

theorem claimed_append_singleton {tr : List (Transition Ramdisk DiskOp Int)}
    {t : Transition Ramdisk DiskOp Int} {i : Fin 16} {m : CStr} :
    Claimed (tr ++ [t]) i m ↔ Claimed tr i m ∨ TakesSlot i m t := by
  simp [Claimed, or_and_right, exists_or]

theorem Rep.takesSlot_iff {d d' : Ramdisk} {l l' : List Entry} (h : Rep d l) (h' : Rep d' l')
    {i : Fin 16} {m : CStr} {op : DiskOp} {r : Int} :
    TakesSlot i m ⟨d, op, r, d'⟩ ↔ op = .create m ∧ l.length ≤ i.val ∧ i.val < l'.length := by
  rw [TakesSlot, ← h'.used_iff, ← not_lt, ← h.used_iff, not_not]

/-- A call either appends the name of a create to the names of a catalog, or leaves them. -/
theorem keys_of_next {l l' : List Entry} {op : DiskOp} {r : Int}
    (h : catalogMachine.next l op = some (l', r)) :
    (∃ m, op = .create m ∧ l'.map Prod.fst = l.map Prod.fst ++ [m.bytes.take 31]) ∨
      l'.map Prod.fst = l.map Prod.fst := by
  rcases catalogMachine_next_cases h with ⟨m, rfl, -, rfl, -⟩ | ⟨m, -, -, rfl, -⟩ |
    ⟨m, data, c, -, -, rfl, -⟩ | ⟨m, data, -, -, rfl, -⟩ | ⟨m, k, buffer, -, rfl⟩
  · exact Or.inl ⟨m, rfl, by rw [List.map_append, List.map_singleton]⟩
  · exact Or.inr rfl
  · exact Or.inr (keys_assign _ _ _)
  · exact Or.inr rfl
  · exact Or.inr rfl

/-- **The names are those of the claims.** Entry `i` of the catalog a run has built has the name
that slot `i` was claimed with, cut to 31 bytes. -/
theorem exists_rep_claimed {d₀ d : Ramdisk} {tr : List (Transition Ramdisk DiskOp Int)}
    (hrun : ramdiskMachine.Run (ramdiskInit d₀) tr d) :
    ∃ l, Rep d l ∧ ∀ (i : Fin 16) (x : List UInt8),
      (l.map Prod.fst)[i.val]? = some x ↔ ∃ m, Claimed tr i m ∧ m.bytes.take 31 = x := by
  induction hrun with
  | nil => exact ⟨[], rep_ramdiskInit d₀, fun i x ↦ by simp [Claimed]⟩
  | snoc _ hnext ih =>
    obtain ⟨l, hrep, hclaimed⟩ := ih
    obtain ⟨l', hcat, hrep'⟩ := simulation_rep hrep hnext
    refine ⟨l', hrep', fun i x ↦ ?_⟩
    simp only [claimed_append_singleton, hrep.takesSlot_iff hrep', or_and_right, exists_or,
      ← hclaimed]
    rcases keys_of_next hcat with ⟨m, rfl, hkeys⟩ | hkeys
    · have hlen : l'.length = l.length + 1 := by simpa using congrArg List.length hkeys
      rw [hkeys, hlen, List.getElem?_append, List.length_map]
      split_ifs with hi
      · -- a slot that was taken before is not taken again
        constructor
        · exact Or.inl
        · rintro (h | ⟨m', ⟨-, hle, -⟩, -⟩)
          · exact h
          · omega
      · -- no entry here before: either this is the slot taken, or it is still free
        have hnone : (l.map Prod.fst)[i.val]? = none := List.getElem?_eq_none (by simpa using hi)
        rw [hnone, List.getElem?_singleton]
        split_ifs with hzero
        · rw [Option.some.injEq]
          constructor
          · intro hx
            exact Or.inr ⟨m, ⟨rfl, by omega, by omega⟩, hx⟩
          · rintro (h | ⟨m', ⟨heq, -, -⟩, hx⟩)
            · cases h
            · rwa [DiskOp.create.inj heq]
        · constructor
          · rintro ⟨⟩
          · rintro (⟨⟨⟩⟩ | ⟨m', ⟨-, hle, hlt⟩, -⟩)
            omega
    · have hlen : l'.length = l.length := by simpa using congrArg List.length hkeys
      rw [hkeys, hlen]
      constructor
      · exact Or.inl
      · rintro (h | ⟨m, ⟨-, hle, hlt⟩, -⟩)
        · exact h
        · omega

/-! ## The books -/

/-- The books of a disk with `k` files after a run. -/
structure Booked (tr : List (Transition Ramdisk DiskOp Int)) (d : Ramdisk) (k : ℕ) : Prop where
  le : k ≤ 16
  used_iff : ∀ i : Fin 16, (d.files.get i).used ≠ 0 ↔ i.val < k
  fileCount_eq : d.diag.fileCount = k
  created_eq : (createdNames (tr.map Transition.visible)).length = k
  createCalls_eq : min 16 (createCalls (tr.map Transition.visible)) = k
  claimed : ∀ i : Fin 16, (d.files.get i).used ≠ 0 → ∃ m, Claimed tr i m
  zero_mem : ∀ i : Fin 16, (d.files.get i).used ≠ 0 → (0 : UInt8) ∈ (d.files.get i).name.toList
  name_eq : ∀ (i : Fin 16) (m : CStr), Claimed tr i m →
    cstr (d.files.get i).name.toList = m.bytes.take 31
  size_le : ∀ i : Fin 16, (d.files.get i).used ≠ 0 → (d.files.get i).size.toNat ≤ 255
  zero_notMem : ∀ i : Fin 16, (d.files.get i).used ≠ 0 →
    (0 : UInt8) ∉ (d.files.get i).data.toList.take (d.files.get i).size.toNat

/-- **The books agree.** In every state a run from `diag_init` and `ramdisk_init` reaches, the used
slots are the first `k`, and the counter, the creates that returned `0` and the creates made, up to
sixteen, come to `k` as well; every used slot has its name and contents in order. A call that
returns `-1` changes nothing, and no call with room for what it reads goes outside an array. -/
theorem booked_of_run {d₀ d : Ramdisk} {tr : List (Transition Ramdisk DiskOp Int)}
    (hrun : ramdiskMachine.Run (ramdiskInit { d₀ with diag := diagInit }) tr d) :
    (∃ k, Booked tr d k) ∧
      (∀ op d', ramdiskMachine.next d op = some (d', -1) → d' = d) ∧
      ∀ op, (∀ m k buffer, op = .read m k buffer → 256 ≤ k) →
        ∃ d' r, ramdiskMachine.next d op = some (d', r) := by
  obtain ⟨tr', l, hrun', hrep, hvis, -⟩ := exists_rep hrun
  have hkeys := congrArg List.length (keys_eq_createdNames hrun')
  rw [List.length_map, hvis] at hkeys
  have hcalls := length_eq_min_createCalls hrun'
  rw [hvis] at hcalls
  have hcount := fileCount_of_run hrun
  refine ⟨⟨l.length, ?_⟩, fun op d' ↦ eq_of_next_failed, fun op hroom ↦ ?_⟩
  · have hholds : ∀ i : Fin 16, (d.files.get i).used ≠ 0 → ∃ e, Holds (d.files.get i) e :=
      fun i hused ↦ ⟨_, hrep.holds i _ (List.getElem?_eq_getElem ((hrep.used_iff i).mp hused))⟩
    obtain ⟨l', hrep', hclaimed⟩ := exists_rep_claimed hrun
    refine ⟨hrep.length_le, hrep.used_iff, ?_, hkeys.symm, hcalls.symm, ?_, hrep.zero_mem,
      ?_, ?_, ?_⟩
    · rw [hcount, hkeys]
      exact Nat.zero_add _
    · intro i hused
      obtain ⟨c, hget⟩ := (hrep'.matches_iff i _).mp ⟨hused, rfl⟩
      obtain ⟨m, hm, -⟩ := (hclaimed i _).mp (by rw [List.getElem?_map, hget]; rfl)
      exact ⟨m, hm⟩
    · intro i m hm
      have hkey := (hclaimed i _).mpr ⟨m, hm, rfl⟩
      rw [List.getElem?_map, Option.map_eq_some_iff] at hkey
      obtain ⟨e, hget, he⟩ := hkey
      rw [(hrep'.holds i e hget).name_eq, he]
    · intro i hused
      obtain ⟨e, he⟩ := hholds i hused
      rw [he.size_eq]
      exact he.length_le
    · intro i hused
      obtain ⟨e, he⟩ := hholds i hused
      rw [he.size_eq, he.data_eq]
      exact he.zero_notMem
  · refine hrep.exists_next op fun m k buffer hop c hlookup ↦ ?_
    obtain ⟨i, -, hget, -⟩ := hrep.exists_findFile m.zero_mem_mem (by rwa [CStr.cstr_mem])
    exact (hrep.holds i _ hget).length_le.trans_lt (hroom m k buffer hop)

/-- Seventeen creates and a write that finds no file: sixteen files. -/
theorem booked_seventeen_creates :
    ∃ tr d, ramdiskMachine.Run (ramdiskInit { bootDisk with diag := diagInit }) tr d ∧
      createCalls (tr.map Transition.visible) = 17 ∧ ∃ k, Booked tr d k := by
  obtain ⟨tr, d, hrun, hvis⟩ := Machine.exists_run_of_exec
    (show (ramdiskMachine.exec (ramdiskInit { bootDisk with diag := diagInit })
        (List.replicate 17 (.create ⟨[102], by decide⟩) ++
          [.write ⟨[103], by decide⟩ ⟨[104], by decide⟩])).map
        (fun r ↦ r.1.map Transition.output) = some (List.replicate 16 0 ++ [-1, -1])
      by decide +kernel)
  refine ⟨tr, d, hrun, ?_, (booked_of_run hrun).1⟩
  rw [hvis]
  decide

end ZanOS
