import ZanOS.Foundation.Assoc
import ZanOS.Storage.Ramdisk

/-!
# What the RAM disk is for

Seen from outside, the RAM disk is a catalog: a list of at most sixteen names with their contents,
extended at the back, searched from the front. `catalogMachine` states that behaviour with no
slots, terminators or stale bytes in it, and `Rep` says when a slot table stores a catalog: its
first slots hold the entries, in order, and the others are free.

`simulation_rep` is the refinement, and `Rep.exists_next` the part a simulation leaves open: in a
state that stores a catalog no operation goes outside an array, given a buffer large enough for the
contents read. Everything the development says about runs of the RAM disk is proved on catalogs and
carried over by these two.
-/

namespace ZanOS

open Foundation

/-- A name and its contents. -/
abbrev Entry := List UInt8 × List UInt8

/-- The abstract RAM disk. -/
def catalogMachine : Machine (List Entry) DiskOp Int where
  next l
    | .create name =>
        some (if l.length < 16 then (l ++ [(name.bytes.take 31, [])], 0) else (l, -1))
    | .write name data =>
        some (if (l.lookup name.bytes).isSome
          then (assign name.bytes (data.bytes.take 255) l, 0) else (l, -1))
    | .read name k _ =>
        match l.lookup name.bytes with
        | none => some (l, -1)
        | some c => if c.length < k then some (l, 0) else none

theorem catalogMachine_next_cases {l l' : List Entry} {op : DiskOp} {r : Int}
    (h : catalogMachine.next l op = some (l', r)) :
    (∃ m, op = .create m ∧ l.length < 16 ∧ l' = l ++ [(m.bytes.take 31, [])] ∧ r = 0) ∨
      (∃ m, op = .create m ∧ 16 ≤ l.length ∧ l' = l ∧ r = -1) ∨
      (∃ m data c, op = .write m data ∧ l.lookup m.bytes = some c ∧
        l' = assign m.bytes (data.bytes.take 255) l ∧ r = 0) ∨
      (∃ m data, op = .write m data ∧ l.lookup m.bytes = none ∧ l' = l ∧ r = -1) ∨
      (∃ m k buffer, op = .read m k buffer ∧ l' = l) := by
  cases op with
  | create m =>
    have hstep : (if l.length < 16 then (l ++ [(m.bytes.take 31, [])], (0 : Int)) else (l, -1))
        = (l', r) := Option.some.inj h
    split_ifs at hstep with hlt
    · obtain ⟨rfl, rfl⟩ := Prod.mk.inj hstep
      exact Or.inl ⟨m, rfl, hlt, rfl, rfl⟩
    · obtain ⟨rfl, rfl⟩ := Prod.mk.inj hstep
      exact Or.inr (Or.inl ⟨m, rfl, not_lt.mp hlt, rfl, rfl⟩)
  | write m data =>
    have hstep : (if (l.lookup m.bytes).isSome
        then (assign m.bytes (data.bytes.take 255) l, (0 : Int)) else (l, -1)) = (l', r) :=
      Option.some.inj h
    split_ifs at hstep with hsome
    · obtain ⟨rfl, rfl⟩ := Prod.mk.inj hstep
      obtain ⟨c, hc⟩ := Option.isSome_iff_exists.mp hsome
      exact Or.inr (Or.inr (Or.inl ⟨m, data, c, rfl, hc, rfl, rfl⟩))
    · obtain ⟨rfl, rfl⟩ := Prod.mk.inj hstep
      have hnone := Option.not_isSome_iff_eq_none.mp hsome
      exact Or.inr (Or.inr (Or.inr (Or.inl ⟨m, data, rfl, hnone, rfl, rfl⟩)))
  | read m k buffer =>
    change (match l.lookup m.bytes with
      | none => some (l, (-1 : Int))
      | some c => if c.length < k then some (l, 0) else none) = some (l', r) at h
    refine Or.inr (Or.inr (Or.inr (Or.inr ⟨m, k, buffer, rfl, ?_⟩)))
    split at h
    · exact (Prod.mk.inj (Option.some.inj h)).1.symm
    · split_ifs at h
      exact (Prod.mk.inj (Option.some.inj h)).1.symm

/-- The slot `f` stores the entry `e`. -/
structure Holds (f : File) (e : Entry) : Prop where
  used : f.used ≠ 0
  zero_mem : (0 : UInt8) ∈ f.name.toList
  name_eq : cstr f.name.toList = e.1
  size_eq : f.size.toNat = e.2.length
  length_le : e.2.length ≤ 255
  data_eq : f.data.toList.take e.2.length = e.2
  zero_notMem : (0 : UInt8) ∉ e.2

/-- The slot table stores the catalog `l`. -/
structure Rep (d : Ramdisk) (l : List Entry) : Prop where
  length_le : l.length ≤ 16
  holds : ∀ (i : Fin 16) (e : Entry), l[i.val]? = some e → Holds (d.files.get i) e
  free : ∀ i : Fin 16, l.length ≤ i.val → (d.files.get i).used = 0

theorem rep_ramdiskInit (d : Ramdisk) : Rep (ramdiskInit d) [] where
  length_le := Nat.zero_le _
  holds i e h := by simp at h
  free i _ := by simp [ramdiskInit, Vector.get]

theorem find?_finRange_eq_some_iff {n : ℕ} {p : Fin n → Bool} {i : Fin n} :
    (List.finRange n).find? p = some i ↔ p i = true ∧ ∀ j < i, p j = false := by
  rw [List.find?_eq_some_iff_getElem]
  constructor
  · rintro ⟨hi, m, hm, rfl, hfirst⟩
    refine ⟨hi, fun j hj ↦ ?_⟩
    rw [Fin.lt_def, List.getElem_finRange] at hj
    simpa using hfirst j.val hj
  · rintro ⟨hi, hfirst⟩
    refine ⟨hi, i.val, by simp, by simp, fun j hj ↦ ?_⟩
    have hjn : j < n := hj.trans i.isLt
    simpa using hfirst ⟨j, hjn⟩ hj

namespace Rep

variable {d : Ramdisk} {l : List Entry}

theorem used_iff (h : Rep d l) (i : Fin 16) : (d.files.get i).used ≠ 0 ↔ i.val < l.length := by
  constructor
  · intro hused
    by_contra hlt
    exact hused (h.free i (not_lt.mp hlt))
  · intro hlt
    exact (h.holds i _ (List.getElem?_eq_getElem hlt)).used

theorem zero_mem (h : Rep d l) (i : Fin 16) (hused : (d.files.get i).used ≠ 0) :
    (0 : UInt8) ∈ (d.files.get i).name.toList :=
  (h.holds i _ (List.getElem?_eq_getElem ((h.used_iff i).mp hused))).zero_mem

theorem matches_iff (h : Rep d l) (i : Fin 16) (k : List UInt8) :
    ((d.files.get i).used ≠ 0 ∧ cstr (d.files.get i).name.toList = k) ↔
      ∃ c, l[i.val]? = some (k, c) := by
  constructor
  · rintro ⟨hused, hname⟩
    obtain ⟨e, hget⟩ : ∃ e, l[i.val]? = some e :=
      ⟨_, List.getElem?_eq_getElem ((h.used_iff i).mp hused)⟩
    exact ⟨e.2, by rw [hget, ← hname, (h.holds i e hget).name_eq]⟩
  · rintro ⟨c, hget⟩
    exact ⟨(h.holds i _ hget).used, (h.holds i _ hget).name_eq⟩

theorem findFile_eq_none (h : Rep d l) {name : List UInt8} (hname : (0 : UInt8) ∈ name)
    (hlookup : l.lookup (cstr name) = none) :
    findFile d.files name (List.finRange 16) = some none := by
  rw [findFile_eq_find? hname h.zero_mem, Option.some.injEq, List.find?_eq_none]
  intro i _
  rw [decide_eq_true_iff, h.matches_iff]
  rintro ⟨c, hget⟩
  have hsome : (l.lookup (cstr name)).isSome :=
    (isSome_lookup_iff _ _).mpr ⟨_, List.mem_of_getElem? hget, rfl⟩
  rw [hlookup] at hsome
  exact absurd hsome (by simp)

theorem exists_findFile (h : Rep d l) {name c : List UInt8} (hname : (0 : UInt8) ∈ name)
    (hlookup : l.lookup (cstr name) = some c) :
    ∃ i : Fin 16, findFile d.files name (List.finRange 16) = some (some i) ∧
      l[i.val]? = some (cstr name, c) ∧ ∀ e ∈ l.take i.val, e.1 ≠ cstr name := by
  obtain ⟨i, hget, hfirst⟩ := exists_first_of_lookup hlookup
  have hi : i < l.length := (List.getElem?_eq_some_iff.mp hget).1
  have hi' : i < 16 := hi.trans_le h.length_le
  refine ⟨⟨i, hi'⟩, ?_, hget, hfirst⟩
  rw [findFile_eq_find? hname h.zero_mem, Option.some.injEq, find?_finRange_eq_some_iff]
  refine ⟨decide_eq_true ((h.matches_iff ⟨i, hi'⟩ _).mpr ⟨c, hget⟩), fun j hj ↦ ?_⟩
  rw [decide_eq_false_iff_not, h.matches_iff]
  rintro ⟨c', hget'⟩
  refine hfirst (cstr name, c') ?_ rfl
  rw [List.mem_take_iff_getElem]
  obtain ⟨hj', hval⟩ := List.getElem?_eq_some_iff.mp hget'
  exact ⟨j.val, lt_min hj hj', hval⟩

/-! ## Creating a file -/

private theorem exists_cutName (old : Vector UInt8 32) (name : CStr) :
    ∃ cut cut', strncpy old name.mem 31 = some cut ∧ store cut 31 0 = some cut' ∧
      (0 : UInt8) ∈ cut'.toList ∧ cstr cut'.toList = name.bytes.take 31 := by
  have hlen : (name.bytes.take 31 ++ List.replicate (31 - name.bytes.length) (0 : UInt8)).length
      = 31 := by
    rw [List.length_append, List.length_take, List.length_replicate]
    omega
  obtain ⟨cut, hcut, hlist⟩ := exists_storeAll old
    (show 0 + (name.bytes.take 31 ++ List.replicate (31 - name.bytes.length) 0).length ≤ 32
      by omega)
  have hstr : strncpy old name.mem 31 = some cut := by
    rw [strncpy_eq_storeAll 31 name.zero_mem_mem, CStr.cstr_mem, hcut]
  have hfinal : (cut.set 31 0).toList = name.bytes.take 31
      ++ 0 :: List.replicate (31 - name.bytes.length) 0 := by
    rw [toList_set_eq_splice (by omega), hlist, splice_zero, hlen, splice,
      List.take_append_of_le_length (by omega), List.take_of_length_le (by omega),
      List.length_singleton, List.drop_append, List.drop_eq_nil_of_le (by omega), hlen,
      List.drop_drop, List.drop_eq_nil_of_le (by simp), List.append_nil, List.append_nil,
      List.append_assoc, ← List.replicate_succ', List.replicate_succ]
  refine ⟨cut, cut.set 31 0, hstr, store_eq_some (by omega) 0, ?_, ?_⟩
  · rw [hfinal]; simp
  · rw [hfinal]
    exact cstr_append_zero (fun hmem ↦ name.zero_notMem (List.mem_of_mem_take hmem)) _

theorem find?_free_eq_none (h : Rep d l) (hfull : l.length = 16) :
    ((List.finRange 16).find? fun i ↦ decide ((d.files.get i).used = 0)) = none := by
  rw [List.find?_eq_none]
  intro i _
  rw [decide_eq_true_iff]
  exact (h.used_iff i).mpr (by omega)

theorem find?_free_eq_some (h : Rep d l) (hlt : l.length < 16) :
    ((List.finRange 16).find? fun i ↦ decide ((d.files.get i).used = 0))
      = some ⟨l.length, hlt⟩ := by
  rw [find?_finRange_eq_some_iff]
  refine ⟨decide_eq_true (h.free _ le_rfl), fun j hj ↦ ?_⟩
  rw [decide_eq_false_iff_not]
  exact (h.used_iff j).mpr hj

/-- `ramdisk_create` appends to the catalog. -/
theorem exists_create (h : Rep d l) (name : CStr) :
    ∃ d' l' r, ramdiskMachine.next d (.create name) = some (d', r) ∧
      catalogMachine.next l (.create name) = some (l', r) ∧ Rep d' l' := by
  by_cases hlt : l.length < 16
  · obtain ⟨cut, cut', hcut, hstore, hzero, hname⟩ :=
      exists_cutName (d.files.get ⟨l.length, hlt⟩).name name
    let f := { d.files.get ⟨l.length, hlt⟩ with used := 1, name := cut', size := 0 }
    have hnext : ramdiskMachine.next d (.create name)
        = some (⟨d.files.set l.length f, diagFileCreated d.diag⟩, 0) := by
      change ramdiskCreate d name.mem = _
      rw [ramdiskCreate, h.find?_free_eq_some hlt]
      simp only
      rw [hcut]
      simp only
      rw [hstore]
    refine ⟨_, l ++ [(name.bytes.take 31, [])], 0, hnext, ?_, ?_⟩
    · change some (if l.length < 16 then _ else _) = _
      rw [if_pos hlt]
    · constructor
      · rw [List.length_append, List.length_singleton]
        omega
      · intro i e hget
        by_cases hi : i.val = l.length
        · rw [hi, List.getElem?_append_right le_rfl] at hget
          simp only [Nat.sub_self, List.getElem?_cons_zero, Option.some.injEq] at hget
          subst hget
          obtain rfl : i = ⟨l.length, hlt⟩ := Fin.ext hi
          rw [get_set_self d.files ⟨l.length, hlt⟩ f]
          exact ⟨show (1 : UInt8) ≠ 0 by decide, hzero, hname, rfl, by simp, by simp, by simp⟩
        · have hlt' : i.val < l.length := by
            have := (List.getElem?_eq_some_iff.mp hget).1
            rw [List.length_append, List.length_singleton] at this
            omega
          rw [List.getElem?_append_left hlt'] at hget
          rw [get_set_of_ne d.files (fun heq ↦ hi (congrArg Fin.val heq).symm :
            (⟨l.length, hlt⟩ : Fin 16) ≠ i) f]
          exact h.holds i e hget
      · intro i hi
        rw [List.length_append, List.length_singleton] at hi
        have hne : (⟨l.length, hlt⟩ : Fin 16) ≠ i := by
          rintro rfl
          exact Nat.not_succ_le_self _ hi
        rw [get_set_of_ne d.files hne f]
        exact h.free i (by omega)
  · have hfull : l.length = 16 := le_antisymm h.length_le (not_lt.mp hlt)
    refine ⟨d, l, -1, ?_, ?_, h⟩
    · change ramdiskCreate d name.mem = _
      rw [ramdiskCreate, h.find?_free_eq_none hfull]
    · change some (if l.length < 16 then _ else _) = _
      rw [if_neg hlt]

/-! ## Writing a file -/

private theorem exists_writtenData (old : Vector UInt8 256) (data : CStr) :
    ∃ dst dst', writeLoop old 0 data.mem = some (dst, (data.bytes.take 255).length) ∧
      store dst (data.bytes.take 255).length 0 = some dst' ∧
      dst'.toList.take (data.bytes.take 255).length = data.bytes.take 255 := by
  have hlen : (data.bytes.take 255).length ≤ 255 := by
    rw [List.length_take]
    omega
  obtain ⟨dst, hdst, hlist⟩ := exists_storeAll old
    (show 0 + (data.bytes.take 255).length ≤ 256 by omega)
  refine ⟨dst, dst.set (data.bytes.take 255).length 0, ?_, store_eq_some (by omega) 0, ?_⟩
  · rw [writeLoop_eq_storeAll data.zero_mem_mem, CStr.cstr_mem, hdst, Nat.zero_add]
    rfl
  · rw [Vector.toList_set, List.take_set_of_le le_rfl, hlist]
    have htake := take_splice old.toList
      (show 0 + (data.bytes.take 255).length ≤ old.toList.length by simp)
    rwa [Nat.zero_add, List.take_zero, List.nil_append] at htake

theorem set_files (h : Rep d l) {i : Fin 16} {e : Entry} (hi : i.val < l.length) {f : File}
    (hf : Holds f e) : Rep { d with files := d.files.set i.val f i.isLt } (l.set i.val e) := by
  constructor
  · rw [List.length_set]
    exact h.length_le
  · intro j e' hget
    by_cases hij : i = j
    · subst hij
      rw [List.getElem?_set_self hi, Option.some.injEq] at hget
      subst hget
      rwa [get_set_self]
    · rw [List.getElem?_set_ne fun heq ↦ hij (Fin.ext heq)] at hget
      rw [get_set_of_ne d.files hij f]
      exact h.holds j e' hget
  · intro j hj
    rw [List.length_set] at hj
    have hij : i ≠ j := by
      rintro rfl
      omega
    rw [get_set_of_ne d.files hij f]
    exact h.free j hj

/-- `ramdisk_write` overwrites the first entry of the name. -/
theorem exists_write (h : Rep d l) (name data : CStr) :
    ∃ d' l' r, ramdiskMachine.next d (.write name data) = some (d', r) ∧
      catalogMachine.next l (.write name data) = some (l', r) ∧ Rep d' l' := by
  have hcat : catalogMachine.next l (.write name data)
      = some (if (l.lookup name.bytes).isSome
          then (assign name.bytes (data.bytes.take 255) l, 0) else (l, -1)) := rfl
  cases hlookup : l.lookup name.bytes with
  | none =>
    refine ⟨d, l, -1, ?_, by rw [hcat, hlookup]; rfl, h⟩
    change ramdiskWrite d name.mem data.mem = _
    rw [ramdiskWrite, h.findFile_eq_none name.zero_mem_mem (by rwa [CStr.cstr_mem])]
  | some c =>
    obtain ⟨i, hfind, hget, hfirst⟩ := h.exists_findFile name.zero_mem_mem
      (c := c) (by rwa [CStr.cstr_mem])
    rw [CStr.cstr_mem] at hget hfirst
    obtain ⟨dst, dst', hloop, hstore, hdata⟩ := exists_writtenData (d.files.get i).data data
    have hnext : ramdiskMachine.next d (.write name data)
        = some ({ d with files := d.files.set i.val { (d.files.get i) with
            data := dst', size := UInt32.ofNat (data.bytes.take 255).length } }, 0) := by
      change ramdiskWrite d name.mem data.mem = _
      rw [ramdiskWrite, hfind]
      simp only
      rw [hloop]
      simp only
      rw [hstore]
    refine ⟨_, assign name.bytes (data.bytes.take 255) l, 0, hnext,
      by rw [hcat, hlookup]; rfl, ?_⟩
    rw [assign_eq_set_of_first hget hfirst]
    have hlen : (data.bytes.take 255).length ≤ 255 := by
      rw [List.length_take]
      omega
    have hold := h.holds i _ hget
    refine h.set_files (List.getElem?_eq_some_iff.mp hget).1
      ⟨hold.used, hold.zero_mem, hold.name_eq, ?_, hlen, hdata, ?_⟩
    · exact UInt32.toNat_ofNat_of_lt' (hlen.trans_lt (by decide))
    · exact fun hmem ↦ data.zero_notMem (List.mem_of_mem_take hmem)

/-! ## Reading a file -/

theorem ramdiskRead_of_none (h : Rep d l) (name : CStr) (hlookup : l.lookup name.bytes = none)
    {k : ℕ} (buffer : Vector UInt8 k) :
    ramdiskRead d name.mem buffer = some (buffer, -1) := by
  rw [ramdiskRead, h.findFile_eq_none name.zero_mem_mem (by rwa [CStr.cstr_mem])]

/-- `ramdisk_read` delivers the contents and a terminator, and leaves the rest of the buffer. -/
theorem exists_ramdiskRead (h : Rep d l) (name : CStr) {c : List UInt8}
    (hlookup : l.lookup name.bytes = some c) {k : ℕ} (buffer : Vector UInt8 k)
    (hk : c.length < k) : ∃ buffer', ramdiskRead d name.mem buffer = some (buffer', 0) ∧
      buffer'.toList = c ++ 0 :: buffer.toList.drop (c.length + 1) := by
  obtain ⟨i, hfind, hget, -⟩ := h.exists_findFile name.zero_mem_mem
    (c := c) (by rwa [CStr.cstr_mem])
  have hold := h.holds i _ hget
  obtain ⟨buffer', hstore, hlist⟩ := exists_storeAll buffer (show 0 + c.length ≤ k by omega)
  have hloop : readLoop buffer 0 c.length (d.files.get i).data.toList = some buffer' := by
    rw [readLoop_eq_storeAll (by simpa using hold.length_le.trans (by omega)), hold.data_eq,
      hstore]
  refine ⟨buffer'.set c.length 0, ?_, ?_⟩
  · rw [ramdiskRead, hfind]
    simp only
    rw [hold.size_eq, hloop]
    simp only
    rw [store_eq_some hk]
  · rw [toList_set_eq_splice hk, hlist, splice_zero, splice, List.take_left,
      List.length_singleton, List.drop_append, List.drop_eq_nil_of_le (by omega)]
    simp

/-- A buffer that cannot take the contents and the terminator is overrun. -/
theorem ramdiskRead_eq_none (h : Rep d l) (name : CStr) {c : List UInt8}
    (hlookup : l.lookup name.bytes = some c) {k : ℕ} (buffer : Vector UInt8 k)
    (hk : k ≤ c.length) : ramdiskRead d name.mem buffer = none := by
  obtain ⟨i, hfind, hget, -⟩ := h.exists_findFile name.zero_mem_mem
    (c := c) (by rwa [CStr.cstr_mem])
  have hold := h.holds i _ hget
  have hsize : (d.files.get i).size.toNat = c.length := hold.size_eq
  have hdata : (d.files.get i).data.toList.take c.length = c := hold.data_eq
  rw [ramdiskRead, hfind]
  simp only
  rw [hsize, readLoop_eq_storeAll (by simpa using hold.length_le.trans (by omega)), hdata]
  by_cases hlt : k < c.length
  · rw [storeAll_eq_none (Nat.zero_le _) (by omega)]
  · obtain ⟨buffer', hstore, -⟩ := exists_storeAll buffer (show 0 + c.length ≤ k by omega)
    rw [hstore]
    simp only
    rw [store, dif_neg (not_lt.mpr hk)]

/-- In a state that stores a catalog every call has a result, if the buffer of a read can take
the contents it is read for. -/
theorem exists_next (h : Rep d l) (op : DiskOp)
    (hfit : ∀ name k buffer, op = .read name k buffer →
      ∀ c, l.lookup name.bytes = some c → c.length < k) :
    ∃ d' r, ramdiskMachine.next d op = some (d', r) := by
  cases op with
  | create name =>
    obtain ⟨d', -, r, hnext, -⟩ := h.exists_create name
    exact ⟨d', r, hnext⟩
  | write name data =>
    obtain ⟨d', -, r, hnext, -⟩ := h.exists_write name data
    exact ⟨d', r, hnext⟩
  | read name k buffer =>
    change ∃ d' r, ((ramdiskRead d name.mem buffer).map fun r ↦ (d, r.2)) = some (d', r)
    cases hlookup : l.lookup name.bytes with
    | none => exact ⟨d, -1, by rw [h.ramdiskRead_of_none name hlookup]; rfl⟩
    | some c =>
      obtain ⟨buffer', hread, -⟩ :=
        h.exists_ramdiskRead name hlookup buffer (hfit name k buffer rfl c hlookup)
      exact ⟨d, 0, by rw [hread]; rfl⟩

end Rep

/-- **The refinement.** Each call on a slot table that stores a catalog answers as the catalog does,
and the table it leaves stores the catalog that call leaves. -/
theorem simulation_rep : Machine.Simulation ramdiskMachine catalogMachine Rep := by
  intro d d' l op r h hnext
  cases op with
  | create name =>
    obtain ⟨d₁, l₁, r₁, hnext₁, hcat, hrep⟩ := h.exists_create name
    obtain ⟨rfl, rfl⟩ := Prod.mk.inj (Option.some.inj (hnext.symm.trans hnext₁))
    exact ⟨l₁, hcat, hrep⟩
  | write name data =>
    obtain ⟨d₁, l₁, r₁, hnext₁, hcat, hrep⟩ := h.exists_write name data
    obtain ⟨rfl, rfl⟩ := Prod.mk.inj (Option.some.inj (hnext.symm.trans hnext₁))
    exact ⟨l₁, hcat, hrep⟩
  | read name k buffer =>
    change ((ramdiskRead d name.mem buffer).map fun r ↦ (d, r.2)) = some (d', r) at hnext
    have hcat : catalogMachine.next l (.read name k buffer)
        = match l.lookup name.bytes with
          | none => some (l, -1)
          | some c => if c.length < k then some (l, 0) else none := rfl
    cases hlookup : l.lookup name.bytes with
    | none =>
      rw [h.ramdiskRead_of_none name hlookup] at hnext
      obtain ⟨rfl, rfl⟩ := Prod.mk.inj (Option.some.inj hnext)
      exact ⟨l, by rw [hcat, hlookup], h⟩
    | some c =>
      by_cases hk : c.length < k
      · obtain ⟨buffer', hread, -⟩ := h.exists_ramdiskRead name hlookup buffer hk
        rw [hread] at hnext
        obtain ⟨rfl, rfl⟩ := Prod.mk.inj (Option.some.inj hnext)
        exact ⟨l, by rw [hcat, hlookup]; exact if_pos hk, h⟩
      · rw [h.ramdiskRead_eq_none name hlookup buffer (not_lt.mp hk)] at hnext
        cases hnext

end ZanOS
