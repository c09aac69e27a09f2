import Mathlib.Algebra.BigOperators.Group.List.Basic
import Mathlib.Algebra.Order.Ring.Nat
import ZanOS.Http.Client

/-!
# Who owns received data

lwIP hands a chain of buffers to `http_recv_cb` and goes by what the callback returns: on `ERR_OK`
the chain is the callback's, which has freed it; on `ERR_ABRT` the connection is gone; on anything
else lwIP keeps the chain as `refused_data` and delivers it again before it delivers anything new.
`recvMachine` is that side of lwIP, with the callback inside. Chains are numbered in the order in
which they arrive, so that two with the same bytes are told apart.

The accounts that have to balance are the bytes printed against the bytes credited to the window,
and one `pbuf_free` for each chain (`Owned`). They do as long as the callback is called with
`ERR_OK` or `ERR_ABRT`: called with another error it frees the chain and returns that error, and
lwIP keeps a chain that is not there any more.
-/

namespace ZanOS

open Foundation

/-! ## lwIP's side of a delivery -/

/-- The value a callback returned. -/
def returned (out : List Action) : Option Err :=
  out.findSome? fun
    | .returns err => some err
    | _ => none

/-- The bytes credited to the receive window. -/
def credited (out : List Action) : ℕ :=
  (out.map fun
    | .tcpRecved _ len => len
    | _ => 0).sum

/-- One call of `http_recv_cb`: the number of the chain, the chain, and what the callback did. -/
structure Delivered where
  number : ℕ
  chain : List (List UInt8)
  actions : List Action

/-- How often the callback freed the chain. -/
def Delivered.frees (d : Delivered) : ℕ := d.actions.count (.pbufFree d.chain)

/-- What lwIP keeps of a connection's input: the chain that was refused, the number of chains that
have arrived, and whether the connection was aborted. -/
structure RecvQueue where
  refused : Option (ℕ × List (List UInt8))
  count : ℕ
  aborted : Bool

/-- A new chain, or the refused one again, with the `err` argument of the callback. -/
inductive Delivery
  | fresh (chain : List (List UInt8)) (err : Err)
  | again (err : Err)

def Delivery.err : Delivery → Err
  | .fresh _ err => err
  | .again err => err

/-- A call of the callback, and what `tcp_input` makes of its value. -/
def RecvQueue.handOver (s : HttpClient) (tpcb : ℕ) (q : RecvQueue) (n : ℕ)
    (chain : List (List UInt8)) (err : Err) : RecvQueue × Delivered :=
  let out := (httpRecvCb s tpcb (some chain) err).2
  match returned out with
  | some .ok => ({ q with refused := none }, ⟨n, chain, out⟩)
  | some .abrt => ({ q with refused := none, aborted := true }, ⟨n, chain, out⟩)
  | _ => ({ q with refused := some (n, chain) }, ⟨n, chain, out⟩)

/-- The deliveries on one connection; a chain that was refused comes before new ones. -/
def recvMachine (s : HttpClient) (tpcb : ℕ) : Machine RecvQueue Delivery Delivered where
  next q e :=
    if q.aborted then none
    else
      match e, q.refused with
      | .fresh chain err, none =>
          some (RecvQueue.handOver s tpcb { q with count := q.count + 1 } q.count chain err)
      | .again err, some (n, chain) => some (RecvQueue.handOver s tpcb q n chain err)
      | _, _ => none

/-- A connection on which nothing has arrived. -/
def RecvQueue.start : RecvQueue := ⟨none, 0, false⟩

abbrev RecvStep := Transition RecvQueue Delivery Delivered

/-! ## The accounts -/

/-- What lwIP relies on in one call. -/
structure Delivered.Conforms (d : Delivered) : Prop where
  accepted : returned d.actions = some .ok → sentBytes d.actions = d.chain.flatten ∧
    credited d.actions = d.chain.flatten.length ∧ d.frees = 1
  refused : ∀ err, returned d.actions = some err → err ≠ .ok → err ≠ .abrt →
    sentBytes d.actions = [] ∧ credited d.actions = 0 ∧ d.frees = 0

/-- How often the chain `n` has been freed. -/
def freesOf (n : ℕ) (tr : List RecvStep) : ℕ :=
  (tr.map fun t ↦ if t.output.number = n then t.output.frees else 0).sum

/-- Every call keeps to the contract; every chain that has arrived has been freed once, unless lwIP
still has it; and the window was credited with what was printed. -/
structure Owned (tr : List RecvStep) (q : RecvQueue) : Prop where
  conforms : ∀ t ∈ tr, t.output.Conforms
  freed : ∀ n < q.count, freesOf n tr = if q.refused.map Prod.fst = some n then 0 else 1
  balance : (tr.map fun t ↦ credited t.output.actions).sum
    = (tr.map fun t ↦ (sentBytes t.output.actions).length).sum

theorem freesOf_append_singleton (n : ℕ) (tr : List RecvStep) (t : RecvStep) :
    freesOf n (tr ++ [t]) = freesOf n tr + if t.output.number = n then t.output.frees else 0 := by
  rw [freesOf, List.map_append, List.sum_append, List.map_singleton, List.sum_singleton]
  rfl

/-! ## What the callback does with a chain -/

section Callback

variable (s : HttpClient) (tpcb : ℕ) (chain : List (List UInt8)) (err : Err)

theorem returned_append_of_putc (data : List UInt8) (out : List Action) :
    returned (data.map .putc ++ out) = returned out := by
  rw [returned, List.findSome?_append, List.findSome?_map, List.findSome?_eq_none_iff.mpr]
  · rfl
  · exact fun _ _ ↦ rfl

theorem sentBytes_append_of_putc (data : List UInt8) (out : List Action) :
    sentBytes (data.map .putc ++ out) = data ++ sentBytes out := by
  rw [sentBytes, List.flatMap_append, List.flatMap_map]
  exact congrArg (· ++ _) (List.flatMap_singleton' data)

theorem credited_append_of_putc (data : List UInt8) (out : List Action) :
    credited (data.map .putc ++ out) = credited out := by
  rw [credited, List.map_append, List.sum_append, List.map_map]
  have hzero : (data.map fun _ ↦ 0).sum = 0 := by simp
  exact (congrArg (· + _) hzero).trans (Nat.zero_add _)

theorem count_append_of_putc (data : List UInt8) (out : List Action) :
    (data.map Action.putc ++ out).count (.pbufFree chain) = out.count (.pbufFree chain) := by
  rw [List.count_append, List.count_eq_zero_of_not_mem, Nat.zero_add]
  intro hmem
  obtain ⟨c, -, hc⟩ := List.mem_map.mp hmem
  exact Action.noConfusion hc

/-- **The callback on a chain.** It returns its `err` argument, it frees the chain whatever that is,
and it credits what it prints, which is the chain if there was no error. -/
theorem httpRecvCb_spec :
    let out := (httpRecvCb s tpcb (some chain) err).2
    returned out = some err ∧ out.count (.pbufFree chain) = 1 ∧
      credited out = (sentBytes out).length ∧ (err = .ok → sentBytes out = chain.flatten) := by
  simp only [httpRecvCb]
  by_cases herr : err = .ok
  · subst herr
    rw [if_neg (not_not.mpr rfl)]
    simp only
    rw [returned_append_of_putc, count_append_of_putc, credited_append_of_putc,
      sentBytes_append_of_putc]
    refine ⟨rfl, by simp, ?_, fun _ ↦ ?_⟩
    · simp [credited, sentBytes]
    · simp [sentBytes]
  · rw [if_pos herr]
    exact ⟨rfl, by simp, rfl, fun h ↦ absurd h herr⟩

end Callback

/-! ## Runs -/

theorem RecvQueue.handOver_spec (s : HttpClient) (tpcb : ℕ) (q : RecvQueue) (n : ℕ)
    (chain : List (List UInt8)) (err : Err) :
    let r := RecvQueue.handOver s tpcb q n chain err
    r.2 = ⟨n, chain, (httpRecvCb s tpcb (some chain) err).2⟩ ∧ r.1.count = q.count ∧
      (err = .ok ∨ err = .abrt → r.1.refused = none) := by
  simp only [handOver]
  rw [(httpRecvCb_spec s tpcb chain err).1]
  split
  · exact ⟨rfl, rfl, fun _ ↦ rfl⟩
  · exact ⟨rfl, rfl, fun _ ↦ rfl⟩
  · rename_i hok habrt
    refine ⟨rfl, rfl, ?_⟩
    rintro (rfl | rfl)
    · exact absurd rfl hok
    · exact absurd rfl habrt

/-- **One delivery.** -/
theorem recvMachine_next {s : HttpClient} {tpcb : ℕ} {q q' : RecvQueue} {e : Delivery}
    {d : Delivered} (h : (recvMachine s tpcb).next q e = some (q', d)) :
    d.actions = (httpRecvCb s tpcb (some d.chain) e.err).2 ∧
      (e.err = .ok ∨ e.err = .abrt → q'.refused = none) ∧
      (q.refused = none → d.number = q.count ∧ q'.count = q.count + 1) := by
  rw [recvMachine] at h
  simp only at h
  split_ifs at h
  split at h
  · rename_i chain err hrefused
    obtain ⟨hd, hcount, hnone⟩ :=
      RecvQueue.handOver_spec s tpcb { q with count := q.count + 1 } q.count chain err
    rw [Option.some.inj h] at hd hcount hnone
    rw [show d = _ from hd]
    exact ⟨rfl, hnone, fun _ ↦ ⟨rfl, hcount⟩⟩
  · rename_i err n chain hrefused
    obtain ⟨hd, -, hnone⟩ := RecvQueue.handOver_spec s tpcb q n chain err
    rw [Option.some.inj h] at hd hnone
    rw [show d = _ from hd]
    refine ⟨rfl, hnone, fun hq ↦ ?_⟩
    rw [hrefused] at hq
    exact absurd hq (Option.some_ne_none _)
  · exact absurd h.symm (Option.some_ne_none _)

theorem Delivered.frees_eq_one {s : HttpClient} {tpcb : ℕ} {err : Err} {d : Delivered}
    (h : d.actions = (httpRecvCb s tpcb (some d.chain) err).2) : d.frees = 1 := by
  rw [frees, h]
  exact (httpRecvCb_spec s tpcb d.chain err).2.1

/-- A call keeps to the contract exactly if lwIP does not keep the chain after it. -/
theorem Delivered.conforms_iff {s : HttpClient} {tpcb : ℕ} {err : Err} {d : Delivered}
    (h : d.actions = (httpRecvCb s tpcb (some d.chain) err).2) :
    d.Conforms ↔ err = .ok ∨ err = .abrt := by
  obtain ⟨hret, -, hcredit, hprint⟩ := httpRecvCb_spec s tpcb d.chain err
  rw [← h] at hret hcredit hprint
  constructor
  · intro hconf
    by_contra hne
    rw [not_or] at hne
    have hzero := (hconf.refused err hret hne.1 hne.2).2.2
    rw [Delivered.frees_eq_one h] at hzero
    exact absurd hzero Nat.one_ne_zero
  · intro herr
    refine ⟨fun hok ↦ ?_, fun e he hok habrt ↦ ?_⟩
    · have hsent := hprint (Option.some.inj (hret.symm.trans hok))
      exact ⟨hsent, by rw [hcredit, hsent], Delivered.frees_eq_one h⟩
    · rw [Option.some.inj (hret.symm.trans he)] at herr
      exact absurd herr (not_or.mpr ⟨hok, habrt⟩)

/-- As long as lwIP never keeps a chain, the chains that have arrived have been freed once each. -/
theorem freesOf_of_accepted {s : HttpClient} {tpcb : ℕ} {tr : List RecvStep} {q : RecvQueue}
    (hrun : (recvMachine s tpcb).Run .start tr q)
    (hall : ∀ t ∈ tr, t.event.err = .ok ∨ t.event.err = .abrt) :
    q.refused = none ∧ ∀ n, freesOf n tr = if n < q.count then 1 else 0 := by
  induction hrun with
  | nil => exact ⟨rfl, fun _ ↦ rfl⟩
  | snoc _ hnext ih =>
    obtain ⟨hnone, hfrees⟩ := ih fun t ht ↦ hall t (List.mem_append_left _ ht)
    obtain ⟨hact, hrefused, hfresh⟩ := recvMachine_next hnext
    obtain ⟨hnumber, hcount⟩ := hfresh hnone
    refine ⟨hrefused (hall _ List.mem_concat_self), fun n ↦ ?_⟩
    rw [freesOf_append_singleton, hfrees, hcount]
    simp only [hnumber, Delivered.frees_eq_one hact]
    split_ifs <;> omega

theorem sum_credited_eq {s : HttpClient} {tpcb : ℕ} {tr : List RecvStep} {q : RecvQueue}
    (hrun : (recvMachine s tpcb).Run .start tr q) :
    (tr.map fun t ↦ credited t.output.actions).sum
      = (tr.map fun t ↦ (sentBytes t.output.actions).length).sum := by
  congr 1
  refine List.map_congr_left fun t ht ↦ ?_
  rw [(recvMachine_next (hrun.next_of_mem ht)).1]
  exact (httpRecvCb_spec s tpcb t.output.chain t.event.err).2.2.1

/-- **The accounts balance exactly if the callback is called with `ERR_OK` or `ERR_ABRT`.** -/
theorem owned_iff {s : HttpClient} {tpcb : ℕ} {tr : List RecvStep} {q : RecvQueue}
    (hrun : (recvMachine s tpcb).Run .start tr q) :
    Owned tr q ↔ ∀ t ∈ tr, t.event.err = .ok ∨ t.event.err = .abrt := by
  have hconf : ∀ t ∈ tr, (t.output.Conforms ↔ t.event.err = .ok ∨ t.event.err = .abrt) :=
    fun t ht ↦ Delivered.conforms_iff (recvMachine_next (hrun.next_of_mem ht)).1
  constructor
  · exact fun howned t ht ↦ (hconf t ht).mp (howned.conforms t ht)
  · intro hall
    obtain ⟨hnone, hfrees⟩ := freesOf_of_accepted hrun hall
    refine ⟨fun t ht ↦ (hconf t ht).mpr (hall t ht), fun n hn ↦ ?_, sum_credited_eq hrun⟩
    rw [hfrees, if_pos hn, hnone, Option.map_none, if_neg (Option.some_ne_none n).symm]

/-- A chain of two segments, delivered without an error. -/
theorem owned_two_segments : ∃ tr q,
    (recvMachine .boot 0).Run .start tr q ∧ q.count = 1 ∧ Owned tr q := by
  have hnext : (recvMachine .boot 0).next .start (.fresh [[72], [105]] .ok)
      = some (⟨none, 1, false⟩, ⟨0, [[72], [105]],
        [.putc 72, .putc 105, .tcpRecved 0 2, .pbufFree [[72], [105]], .returns .ok]⟩) := rfl
  have hrun := Machine.Run.single hnext
  refine ⟨_, _, hrun, rfl, (owned_iff hrun).mpr fun t ht ↦ ?_⟩
  rw [List.mem_singleton.mp ht]
  exact .inl rfl

/-- A chain that comes with `ERR_MEM` is freed and refused; when lwIP delivers it again it is
printed, credited and freed a second time. -/
theorem not_owned_refused : ∃ tr q,
    (recvMachine .boot 0).Run .start tr q ∧ q.count = 1 ∧ freesOf 0 tr = 2 ∧ ¬ Owned tr q := by
  have hmem : (recvMachine .boot 0).next .start (.fresh [[72]] .mem)
      = some (⟨some (0, [[72]]), 1, false⟩, ⟨0, [[72]], [.pbufFree [[72]], .returns .mem]⟩) := rfl
  have hagain : (recvMachine .boot 0).next ⟨some (0, [[72]]), 1, false⟩ (.again .ok)
      = some (⟨none, 1, false⟩, ⟨0, [[72]],
        [.putc 72, .tcpRecved 0 1, .pbufFree [[72]], .returns .ok]⟩) := rfl
  have hrun := (Machine.Run.single hmem).snoc hagain
  have htwice : ∀ tr : List RecvStep, freesOf 0 tr = 2 → ¬ Owned tr ⟨none, 1, false⟩ := by
    intro tr htr howned
    have hone := howned.freed 0 Nat.zero_lt_one
    rw [htr] at hone
    exact absurd hone (by decide)
  exact ⟨_, _, hrun, rfl, by decide, htwice _ (by decide)⟩

end ZanOS
