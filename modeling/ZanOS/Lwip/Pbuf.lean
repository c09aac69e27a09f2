import ZanOS.Foundation.Pieces
import ZanOS.Http.Client
import ZanOS.Lwip.Mem

/-!
# The contents of packet buffers

A packet of lwIP is a chain of `struct pbuf`, each with a piece of it; the length of a piece is in
`len`, and `tot_len` has the length of all pieces from there to the end of the chain. `pbuf.c` has
functions that read, store, compare and search at an offset of the packet, wherever the pieces are
cut.

`chain` builds the chain of given pieces, with `tot_len` as it has to be, and every function is then
shown to do to the text of the packet what it would do if it were in one piece. The lengths are
16-bit numbers; a difference is only formed where it is not negative, and the sums that are cut to
16 bits say so.
-/

namespace ZanOS.Lwip

open Foundation

/-! ## The functions of `pbuf.c` -/

/-- `struct pbuf`: `tot_len`, and the bytes at `payload`, of which there are `len`. -/
structure Pbuf where
  totLen : ℕ
  payload : List UInt8

/-- `pbuf_skip`: the chain from the buffer on that has the offset, and the offset there. -/
def pbufSkip : List Pbuf → ℕ → List Pbuf × ℕ
  | [], offsetLeft => ([], offsetLeft)
  | q :: next, offsetLeft =>
      if q.payload.length ≤ offsetLeft then pbufSkip next (offsetLeft - q.payload.length)
      else (q :: next, offsetLeft)

/-- `pbuf_try_get_at`; no byte stands for `-1`. -/
def pbufTryGetAt (p : List Pbuf) (offset : ℕ) : Option UInt8 :=
  match pbufSkip p offset with
  | ([], _) => none
  | (q :: _, qIdx) => if qIdx < q.payload.length then q.payload[qIdx]? else none

/-- `pbuf_get_at`. -/
def pbufGetAt (p : List Pbuf) (offset : ℕ) : UInt8 := (pbufTryGetAt p offset).getD 0

/-- The loop of `pbuf_copy_partial`: the bytes that go to `dataptr`. -/
def pbufCopyPartial : List Pbuf → (len offset : ℕ) → List UInt8
  | [], _, _ => []
  | p :: next, len, offset =>
      if len = 0 then []
      else if offset ≠ 0 ∧ p.payload.length ≤ offset then
        pbufCopyPartial next len (offset - p.payload.length)
      else
        let bufCopyLen := min (p.payload.length - offset) len
        slice p.payload offset bufCopyLen ++ pbufCopyPartial next (len - bufCopyLen) 0

/-- The loop of `pbuf_take`, which goes on until all is copied. -/
def takeLoop : List Pbuf → List UInt8 → Option (List Pbuf)
  | [], data => if data = [] then some [] else none
  | p :: next, data =>
      if data = [] then some (p :: next)
      else
        let bufCopyLen := min data.length p.payload.length
        (takeLoop next (data.drop bufCopyLen)).map
          ({ p with payload := splice p.payload 0 (data.take bufCopyLen) } :: ·)

/-- `pbuf_take`. -/
def pbufTake (buf : List Pbuf) (data : List UInt8) : Option (Err × List Pbuf) :=
  match buf with
  | [] => some (.arg, buf)
  | p :: _ =>
      if p.totLen < data.length then some (.mem, buf)
      else (takeLoop buf data).map fun buf ↦ (.ok, buf)

/-- The part of `pbuf_take_at` behind `pbuf_skip`, on the buffers from there on. -/
def takeFrom (q : List Pbuf) (targetOffset : ℕ) (data : List UInt8) : Option (Err × List Pbuf) :=
  match q with
  | [] => some (.mem, q)
  | p :: next =>
      if targetOffset + data.length ≤ p.totLen then do
        lwipAssert (targetOffset < p.payload.length)
        let firstCopyLen := min (p.payload.length - targetOffset) data.length
        let p := { p with payload := splice p.payload targetOffset (data.take firstCopyLen) }
        if 0 < data.length - firstCopyLen then do
          let (err, next) ← pbufTake next (data.drop firstCopyLen)
          return (err, p :: next)
        else return (.ok, p :: next)
      else some (.mem, q)

/-- `pbuf_take_at`. The buffers that are skipped stay as they are. -/
def pbufTakeAt (buf : List Pbuf) (data : List UInt8) (offset : ℕ) : Option (Err × List Pbuf) :=
  let (q, targetOffset) := pbufSkip buf offset
  (takeFrom q targetOffset data).map fun r ↦
    (r.1, buf.take (buf.length - q.length) ++ r.2)

/-- The comparing loop of `pbuf_memcmp`. -/
def compareLoop (q : List Pbuf) (start : ℕ) : List UInt8 → ℕ → ℕ
  | [], _ => 0
  | b :: s2, i =>
      if pbufGetAt q ((start + i) % 2 ^ 16) ≠ b then min (i + 1) 0xFFFF
      else compareLoop q start s2 (i + 1)

/-- `pbuf_memcmp`. The chain is not `NULL`. -/
def pbufMemcmp (p : List Pbuf) (offset : ℕ) (s2 : List UInt8) : Option ℕ :=
  match p with
  | [] => none
  | h :: _ =>
      if h.totLen < offset + s2.length then some 0xFFFF
      else
        let (q, start) := pbufSkip p offset
        some (compareLoop q start s2 0)

/-- The loop of `pbuf_memfind`; `fuel` bounds its rounds. -/
def findLoop (p : List Pbuf) (mem : List UInt8) (maxCmpStart : ℕ) : (fuel i : ℕ) → Option ℕ
  | 0, _ => none
  | fuel + 1, i =>
      if i ≤ maxCmpStart then do
        let plus ← pbufMemcmp p i mem
        if plus = 0 then return i else findLoop p mem maxCmpStart fuel ((i + 1) % 2 ^ 16)
      else some 0xFFFF

/-- `pbuf_memfind`. -/
def pbufMemfind (p : List Pbuf) (mem : List UInt8) (startOffset : ℕ) : Option ℕ :=
  match p with
  | [] => none
  | h :: _ =>
      let maxCmpStart := usub h.totLen mem.length % 2 ^ 16
      if mem.length + startOffset ≤ h.totLen then findLoop p mem maxCmpStart (2 ^ 16) startOffset
      else some 0xFFFF

/-! ## Chains -/

/-- The chain of the given pieces. -/
def chain : List (List UInt8) → List Pbuf
  | [] => []
  | d :: ps => ⟨(d :: ps).flatten.length, d⟩ :: chain ps

theorem length_chain (ps : List (List UInt8)) : (chain ps).length = ps.length := by
  induction ps with
  | nil => rfl
  | cons d ps ih => rw [chain, List.length_cons, List.length_cons, ih]

theorem length_flatten_congr {ps qs : List (List UInt8)}
    (h : ps.map List.length = qs.map List.length) : ps.flatten.length = qs.flatten.length := by
  rw [List.length_flatten, List.length_flatten, h]

theorem chain_append {qs qs' : List (List UInt8)} (h : qs'.flatten.length = qs.flatten.length)
    (pre : List (List UInt8)) :
    chain (pre ++ qs') = (chain (pre ++ qs)).take pre.length ++ chain qs' := by
  induction pre with
  | nil => rfl
  | cons d pre ih =>
    have hlen : (d :: (pre ++ qs')).flatten.length = (d :: (pre ++ qs)).flatten.length := by
      simp only [List.flatten_cons, List.flatten_append, List.length_append, h]
    rw [List.cons_append, List.cons_append, chain, chain, List.length_cons, List.take_succ_cons,
      List.cons_append, ih, hlen]

/-- **`pbuf_skip` finds the piece** the offset is in. -/
theorem exists_pbufSkip (ps : List (List UInt8)) (offset : ℕ) :
    ∃ pre qs i, ps = pre ++ qs ∧ pbufSkip (chain ps) offset = (chain qs, i) ∧
      offset = pre.flatten.length + i ∧ ∀ q rest, qs = q :: rest → i < q.length := by
  induction ps generalizing offset with
  | nil => exact ⟨[], [], offset, rfl, rfl, by simp, by simp⟩
  | cons d ps ih =>
    rw [chain, pbufSkip]
    split_ifs with hd
    · obtain ⟨pre, qs, i, rfl, hskip, hoffset, hhead⟩ := ih (offset - d.length)
      refine ⟨d :: pre, qs, i, rfl, hskip, ?_, hhead⟩
      rw [List.flatten_cons, List.length_append, Nat.add_assoc, ← hoffset]
      exact (Nat.add_sub_cancel' hd).symm
    · refine ⟨[], d :: ps, offset, rfl, rfl, by simp, ?_⟩
      rintro q rest ⟨⟩
      exact not_le.mp hd

theorem pbufTryGetAt_chain (ps : List (List UInt8)) (offset : ℕ) :
    pbufTryGetAt (chain ps) offset = ps.flatten[offset]? := by
  obtain ⟨pre, qs, i, rfl, hskip, rfl, hhead⟩ := exists_pbufSkip ps offset
  rw [pbufTryGetAt, hskip, List.flatten_append, List.getElem?_append_right (Nat.le_add_right _ _),
    Nat.add_sub_cancel_left]
  rcases qs with _ | ⟨q, rest⟩
  · rfl
  · have hi := hhead q rest rfl
    simp only [chain, if_pos hi]
    rw [List.flatten_cons, List.getElem?_append_left hi]

/-- **`pbuf_copy_partial` reads the text of the packet.** -/
theorem pbufCopyPartial_chain (ps : List (List UInt8)) (len offset : ℕ) :
    pbufCopyPartial (chain ps) len offset = slice ps.flatten offset len := by
  induction ps generalizing len offset with
  | nil => simp [chain, pbufCopyPartial, slice]
  | cons d ps ih =>
    rw [chain, pbufCopyPartial, List.flatten_cons]
    split_ifs with hlen hoffset
    · rw [hlen, slice_zero]
    · rw [ih]
      obtain ⟨i, rfl⟩ := Nat.exists_eq_add_of_le hoffset.2
      rw [slice_append_right, Nat.add_sub_cancel_left]
    · have hle : offset ≤ d.length := by
        by_contra hlt
        exact hoffset ⟨by omega, (not_le.mp hlt).le⟩
      have hslice : slice d offset (min (d.length - offset) len) = slice d offset len := by
        rw [slice, slice, Nat.min_comm, ← List.length_drop]
        exact List.take_eq_take_min.symm
      have hrest : len - min (d.length - offset) len = len - (d.length - offset) := by omega
      rw [slice_append hle, ← hslice, ← hrest, ← ih]

/-! ## Storing -/

/-- **The loop of `pbuf_take`** stores the data at the front of the packet. -/
theorem exists_takeLoop {ps : List (List UInt8)} {data : List UInt8}
    (h : data.length ≤ ps.flatten.length) :
    ∃ ps', takeLoop (chain ps) data = some (chain ps') ∧
      ps'.flatten = splice ps.flatten 0 data ∧ ps'.map List.length = ps.map List.length := by
  induction ps generalizing data with
  | nil =>
    have hnil : data = [] := List.length_eq_zero_iff.mp (Nat.le_zero.mp h)
    exact ⟨[], if_pos hnil, by rw [hnil, splice_nil], rfl⟩
  | cons d ps ih =>
    rw [chain, takeLoop]
    split_ifs with hdata
    · exact ⟨d :: ps, rfl, by rw [hdata, splice_nil], rfl⟩
    · rw [List.flatten_cons, List.length_append] at h
      have hrest : (data.drop (min data.length d.length)).length ≤ ps.flatten.length := by
        rw [List.length_drop]
        omega
      obtain ⟨ps', htake, hflatten, hlens⟩ := ih hrest
      have hhead : (splice d 0 (data.take (min data.length d.length))).length = d.length := by
        apply length_splice
        rw [List.length_take]
        omega
      refine ⟨splice d 0 (data.take (min data.length d.length)) :: ps', ?_, ?_, ?_⟩
      · simp only [htake, Option.map_some, chain, List.flatten_cons, List.length_append, hhead,
          length_flatten_congr hlens]
      · rw [List.flatten_cons, List.flatten_cons, hflatten, ← splice_zero_append]
      · rw [List.map_cons, List.map_cons, hlens, hhead]

theorem exists_pbufTake {ps : List (List UInt8)} {data : List UInt8} (hne : data ≠ [])
    (h : data.length ≤ ps.flatten.length) :
    ∃ ps', pbufTake (chain ps) data = some (.ok, chain ps') ∧
      ps'.flatten = splice ps.flatten 0 data ∧ ps'.map List.length = ps.map List.length := by
  obtain ⟨ps', htake, hspec⟩ := exists_takeLoop h
  refine ⟨ps', ?_, hspec⟩
  rcases ps with _ | ⟨d, ps⟩
  · exact absurd (List.length_eq_zero_iff.mp (Nat.le_zero.mp h)) hne
  · rw [chain] at htake ⊢
    rw [pbufTake, if_neg (not_lt.mpr h), htake]
    rfl

theorem exists_takeFrom {qs : List (List UInt8)} {i : ℕ}
    (hhead : ∀ q rest, qs = q :: rest → i < q.length) (data : List UInt8) :
    ∃ err qs', takeFrom (chain qs) i data = some (err, chain qs') ∧
      qs'.map List.length = qs.map List.length ∧
      (err = .ok ↔ qs ≠ [] ∧ i + data.length ≤ qs.flatten.length) ∧
      (err = .ok → qs'.flatten = splice qs.flatten i data) ∧ (err ≠ .ok → qs' = qs) := by
  rcases qs with _ | ⟨d, ps⟩
  · exact ⟨.mem, [], rfl, rfl, by simp, by simp, fun _ ↦ rfl⟩
  · have hi : i < d.length := hhead d ps rfl
    by_cases hfits : i + data.length ≤ (d :: ps).flatten.length
    · have hlen := hfits
      rw [List.flatten_cons, List.length_append] at hlen
      have hok : Err.ok = .ok ↔ d :: ps ≠ [] ∧ i + data.length ≤ (d :: ps).flatten.length :=
        ⟨fun _ ↦ ⟨List.cons_ne_nil d ps, hfits⟩, fun _ ↦ rfl⟩
      have hfirst :
          (splice d i (data.take (min (d.length - i) data.length))).length = d.length := by
        apply length_splice
        rw [List.length_take]
        omega
      by_cases hmore : 0 < data.length - min (d.length - i) data.length
      · -- the data go past the first buffer
        have hmin : min (d.length - i) data.length = d.length - i := by omega
        have hne : data.drop (d.length - i) ≠ [] := fun hnil ↦ by
          rw [List.drop_eq_nil_iff] at hnil
          omega
        have hrest : (data.drop (d.length - i)).length ≤ ps.flatten.length := by
          rw [List.length_drop]
          omega
        rw [hmin] at hmore hfirst
        obtain ⟨ps', htake, hflatten, hlens⟩ := exists_pbufTake hne hrest
        refine ⟨.ok, splice d i (data.take (d.length - i)) :: ps', ?_, ?_, hok, ?_,
          fun herr ↦ absurd rfl herr⟩
        · simp only [chain, takeFrom, List.flatten_cons, List.length_append, if_pos hlen,
            lwipAssert, if_pos hi, hmin, if_pos hmore, htake, Option.bind_eq_bind, Option.bind_some,
            Option.pure_def, hfirst, length_flatten_congr hlens]
        · rw [List.map_cons, List.map_cons, hlens, hfirst]
        · intro _
          rw [List.flatten_cons, List.flatten_cons, hflatten,
            splice_append hi.le (by omega)]
      · have hmin : min (d.length - i) data.length = data.length := by omega
        rw [hmin, List.take_length] at hfirst
        rw [hmin] at hmore
        refine ⟨.ok, splice d i data :: ps, ?_, ?_, hok, ?_, fun herr ↦ absurd rfl herr⟩
        · simp only [chain, takeFrom, List.flatten_cons, List.length_append, if_pos hlen,
            lwipAssert, if_pos hi, hmin, if_neg hmore, List.take_length, Option.bind_eq_bind,
            Option.bind_some, Option.pure_def, hfirst]
        · rw [List.map_cons, List.map_cons, hfirst]
        · intro _
          rw [List.flatten_cons, List.flatten_cons, splice_append_left (by omega)]
    · refine ⟨.mem, d :: ps, if_neg hfits, rfl, ⟨?_, fun h ↦ absurd h.2 hfits⟩, ?_, fun _ ↦ rfl⟩
      · rintro ⟨⟩
      · rintro ⟨⟩

/-- **What is stored at an offset of a packet is read there.** `pbuf_take_at` succeeds exactly if
the offset is inside the packet and the data fit behind it. Then they replace what was there,
however the packet is cut, nothing else changes, and `pbuf_copy_partial` returns them; otherwise
nothing changes. No assertion fails. -/
theorem exists_pbufTakeAt (ps : List (List UInt8)) (data : List UInt8) (offset : ℕ) :
    ∃ err ps', pbufTakeAt (chain ps) data offset = some (err, chain ps') ∧
      ps'.map List.length = ps.map List.length ∧
      (err = .ok ↔ offset < ps.flatten.length ∧ offset + data.length ≤ ps.flatten.length) ∧
      (err = .ok → ps'.flatten = splice ps.flatten offset data ∧
        pbufCopyPartial (chain ps') data.length offset = data) ∧
      (err ≠ .ok → ps' = ps) := by
  obtain ⟨pre, qs, i, rfl, hskip, rfl, hhead⟩ := exists_pbufSkip ps offset
  obtain ⟨err, qs', htake, hlens, hok, hflatten, hfailed⟩ := exists_takeFrom hhead data
  have hpre : (pre ++ qs).flatten.length = pre.flatten.length + qs.flatten.length := by
    rw [List.flatten_append, List.length_append]
  have hok' : err = .ok ↔ pre.flatten.length + i < (pre ++ qs).flatten.length ∧
      pre.flatten.length + i + data.length ≤ (pre ++ qs).flatten.length := by
    rw [hok, hpre]
    rcases qs with _ | ⟨q, rest⟩
    · simp
    · have hi := hhead q rest rfl
      rw [List.flatten_cons, List.length_append]
      simp only [ne_eq, reduceCtorEq, not_false_eq_true, true_and]
      omega
  have hsplice : err = .ok →
      (pre ++ qs').flatten = splice (pre ++ qs).flatten (pre.flatten.length + i) data := by
    intro herr
    rw [List.flatten_append, List.flatten_append, splice_append_right, hflatten herr]
  refine ⟨err, pre ++ qs', ?_, by rw [List.map_append, List.map_append, hlens], hok', ?_, ?_⟩
  · have hcount : (chain (pre ++ qs)).length - (chain qs).length = pre.length := by
      rw [length_chain, length_chain, List.length_append, Nat.add_sub_cancel]
    rw [pbufTakeAt, hskip]
    simp only [htake, Option.map_some, hcount]
    rw [← chain_append (length_flatten_congr hlens)]
  · intro herr
    rw [pbufCopyPartial_chain, hsplice herr]
    exact ⟨rfl, slice_splice (hok'.mp herr).2⟩
  · intro herr
    rw [hfailed herr]

/-! ## Comparing and searching -/

theorem compareLoop_eq_zero_iff {qs : List (List UInt8)} (hqs : qs.flatten.length ≤ 65535)
    {start i : ℕ} {s2 : List UInt8} (h : start + i + s2.length ≤ qs.flatten.length) :
    compareLoop (chain qs) start s2 i = 0 ↔ slice qs.flatten (start + i) s2.length = s2 := by
  induction s2 generalizing i with
  | nil => simp [compareLoop, slice]
  | cons b s2 ih =>
    rw [List.length_cons] at h
    have hget : qs.flatten[start + i]? = some (qs.flatten.getD (start + i) 0) := by
      rw [List.getD_eq_getElem?_getD, List.getElem?_eq_getElem (by omega)]
      rfl
    rw [compareLoop, Nat.mod_eq_of_lt (by omega), pbufGetAt, pbufTryGetAt_chain, hget,
      Option.getD_some, List.length_cons, slice_succ hget]
    split_ifs with hne
    · refine iff_of_false (by omega) fun heq ↦ hne (List.cons.inj heq).1
    · rw [not_not.mp hne, ih (by omega), Nat.add_assoc, List.cons.injEq]
      simp only [true_and]

theorem exists_pbufMemcmp {ps : List (List UInt8)} (hne : ps ≠ [])
    (hps : ps.flatten.length ≤ 65535) {offset : ℕ} {s2 : List UInt8}
    (h : offset + s2.length ≤ ps.flatten.length) :
    ∃ r, pbufMemcmp (chain ps) offset s2 = some r ∧
      (r = 0 ↔ slice ps.flatten offset s2.length = s2) := by
  obtain ⟨pre, qs, i, hcut, hskip, rfl, -⟩ := exists_pbufSkip ps offset
  have hflat : ps.flatten = pre.flatten ++ qs.flatten := by rw [hcut, List.flatten_append]
  refine ⟨compareLoop (chain qs) i s2 0, ?_, ?_⟩
  · rcases ps with _ | ⟨d, ps⟩
    · exact absurd rfl hne
    · rw [chain] at hskip ⊢
      rw [pbufMemcmp, if_neg (not_lt.mpr h), hskip]
  · rw [hflat, List.length_append] at h hps
    rw [compareLoop_eq_zero_iff (by omega) (by omega), hflat, slice_append_right, Nat.add_zero]

/-- The text `mem` stands in `f` from `i` on. -/
def Occurs (mem f : List UInt8) (i : ℕ) : Prop :=
  i + mem.length ≤ f.length ∧ slice f i mem.length = mem

/-- The loop of `pbuf_memfind`, entered at `i` with nothing found before. -/
theorem exists_findLoop {ps : List (List UInt8)} (hne : ps ≠ []) {mem : List UInt8}
    (hps : ps.flatten.length ≤ 65534) (hmem : mem.length ≤ ps.flatten.length) {fuel i : ℕ}
    (hfuel : 65536 ≤ fuel + i) (hi : i ≤ ps.flatten.length - mem.length + 1) :
    ∃ r, findLoop (chain ps) mem (ps.flatten.length - mem.length) fuel i = some r ∧
      (r = 0xFFFF ∧ (∀ j, i ≤ j → ¬ Occurs mem ps.flatten j) ∨
        i ≤ r ∧ Occurs mem ps.flatten r ∧ ∀ j, i ≤ j → j < r → ¬ Occurs mem ps.flatten j) := by
  induction fuel generalizing i with
  | zero => omega
  | succ fuel ih =>
    rw [findLoop]
    split_ifs with hle
    · obtain ⟨plus, hcmp, hplus⟩ := exists_pbufMemcmp hne (by omega)
        (show i + mem.length ≤ ps.flatten.length by omega)
      rw [hcmp]
      simp only [Option.bind_eq_bind, Option.bind_some]
      split_ifs with hzero
      · refine ⟨i, rfl, .inr ⟨le_refl i, ⟨by omega, hplus.mp hzero⟩, fun j hj hlt ↦ ?_⟩⟩
        exact absurd hj (not_le.mpr hlt)
      · have hnot : ¬ Occurs mem ps.flatten i := fun hocc ↦ hzero (hplus.mpr hocc.2)
        rw [Nat.mod_eq_of_lt (by omega)]
        obtain ⟨r, hfind, hcases⟩ := ih (i := i + 1) (by omega) (by omega)
        -- from here on as from the next index, and not at this one
        have hfrom : ∀ {j}, i ≤ j → i + 1 ≤ j ∨ j = i := fun {j} hj ↦ by omega
        refine ⟨r, hfind, ?_⟩
        rcases hcases with ⟨hr, hnone⟩ | ⟨hr, hocc, hfirst⟩
        · refine .inl ⟨hr, fun j hj ↦ ?_⟩
          rcases hfrom hj with hj' | rfl
          · exact hnone j hj'
          · exact hnot
        · refine .inr ⟨by omega, hocc, fun j hj hlt ↦ ?_⟩
          rcases hfrom hj with hj' | rfl
          · exact hfirst j hj' hlt
          · exact hnot
    · refine ⟨0xFFFF, rfl, .inl ⟨rfl, fun j hj hocc ↦ ?_⟩⟩
      have hlen := hocc.1
      omega

/-- **`pbuf_memfind` finds the first occurrence**, across any cuts: from the given offset on it
returns the least place where the text stands, and `0xFFFF` exactly if there is none. -/
theorem exists_pbufMemfind {ps : List (List UInt8)} (hne : ps ≠ [])
    (hps : ps.flatten.length ≤ 65534) (mem : List UInt8) (startOffset : ℕ) :
    ∃ r, pbufMemfind (chain ps) mem startOffset = some r ∧
      (r = 0xFFFF ↔ ∀ j, startOffset ≤ j → ¬ Occurs mem ps.flatten j) ∧
      (r ≠ 0xFFFF → startOffset ≤ r ∧ Occurs mem ps.flatten r ∧
        ∀ j, startOffset ≤ j → j < r → ¬ Occurs mem ps.flatten j) := by
  by_cases hfits : mem.length + startOffset ≤ ps.flatten.length
  · obtain ⟨r, hfind, hcases⟩ := exists_findLoop hne hps (show mem.length ≤ _ by omega)
      (show 65536 ≤ 2 ^ 16 + startOffset by omega) (show startOffset ≤ _ by omega)
    have hmax : usub ps.flatten.length mem.length % 2 ^ 16 = ps.flatten.length - mem.length := by
      rw [usub, if_pos (by omega)]
      omega
    have hstart : pbufMemfind (chain ps) mem startOffset = some r := by
      rw [← hfind, ← hmax]
      rcases ps with _ | ⟨d, ps⟩
      · exact absurd rfl hne
      · exact if_pos hfits
    refine ⟨r, hstart, ?_⟩
    rcases hcases with ⟨rfl, hnone⟩ | ⟨hr, hocc, hfirst⟩
    · exact ⟨iff_of_true rfl hnone, fun h ↦ absurd rfl h⟩
    · have hlen := hocc.1
      exact ⟨iff_of_false (by omega) fun hnone ↦ hnone r hr hocc, fun _ ↦ ⟨hr, hocc, hfirst⟩⟩
  · have hnone : ∀ j, startOffset ≤ j → ¬ Occurs mem ps.flatten j := fun j hj hocc ↦ by
      have hlen := hocc.1
      omega
    refine ⟨0xFFFF, ?_, iff_of_true rfl hnone, fun h ↦ absurd rfl h⟩
    rcases ps with _ | ⟨d, ps⟩
    · exact absurd rfl hne
    · exact if_neg hfits

/-- Across a cut. -/
theorem exists_pbufMemfind_cut :
    ∃ r, pbufMemfind (chain [[1, 2], [3, 2, 3]]) [2, 3] 0 = some r ∧
      (r = 0xFFFF ↔ ∀ j, 0 ≤ j → ¬ Occurs [2, 3] [1, 2, 3, 2, 3] j) := by
  obtain ⟨r, hfind, hnone, -⟩ := exists_pbufMemfind
    (List.cons_ne_nil [1, 2] [[3, 2, 3]]) (by simp) [2, 3] 0
  exact ⟨r, hfind, hnone⟩

end ZanOS.Lwip
