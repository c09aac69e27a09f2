import ZanOS.Ethernet.Send
import ZanOS.Http.Client

/-!
# What the stack is told about a frame

lwIP hands a chain of segments to `low_level_output` and takes its `err_t` for the fate of the
frame. The copying loop stops at the first segment that would go past the 1518 bytes of the local
array, and the function goes on as if it had reached the end: what has been copied is sent, and
`ERR_OK` is returned. So a chain that is too long leaves as a frame cut between two segments, and
the stack is told that it was sent (`exists_linkOutput`).
-/

namespace ZanOS

open Foundation

/-- `low_level_output` as lwIP calls it: besides the accesses to the controller, the frame that the
loop has put together for `eth_send`, and the value returned. -/
def linkOutput (ris : ℕ → UInt32) (chain : List (List UInt8)) :
    Option (List (Option UInt8) × List MacAccess × Err) := do
  let (buffer, len) ← copyChain uninitialised 0 chain
  let accesses ← lowLevelOutput ris chain
  return (buffer.toList.take len, accesses, .ok)

/-- The segments in front of the first one that does not fit behind `len` bytes. -/
def fitting (len : ℕ) : List (List UInt8) → List (List UInt8)
  | [] => []
  | payload :: chain =>
      if 1518 < len + payload.length then []
      else payload :: fitting (len + payload.length) chain

theorem copyChain_fitting (buffer : Vector (Option UInt8) 1518) (len : ℕ)
    (chain : List (List UInt8)) :
    copyChain buffer len (fitting len chain) = copyChain buffer len chain := by
  induction chain generalizing buffer len with
  | nil => rfl
  | cons payload chain ih =>
    rw [fitting]
    by_cases hfit : 1518 < len + payload.length
    · rw [if_pos hfit, copyChain, copyChain, if_pos hfit]
    · rw [if_neg hfit, copyChain, copyChain, if_neg hfit, if_neg hfit]
      rcases storeAll buffer len (payload.map some) with _ | buffer'
      · rfl
      · exact ih buffer' (len + payload.length)

theorem length_fitting_le {len : ℕ} (hlen : len ≤ 1518) (chain : List (List UInt8)) :
    len + (fitting len chain).flatten.length ≤ 1518 := by
  induction chain generalizing len with
  | nil => simpa [fitting] using hlen
  | cons payload chain ih =>
    rw [fitting]
    by_cases hfit : 1518 < len + payload.length
    · rw [if_pos hfit]
      simpa using hlen
    · rw [if_neg hfit, List.flatten_cons, List.length_append, ← Nat.add_assoc]
      exact ih (not_lt.mp hfit)

theorem fitting_eq_self {len : ℕ} {chain : List (List UInt8)}
    (h : len + chain.flatten.length ≤ 1518) : fitting len chain = chain := by
  induction chain generalizing len with
  | nil => rfl
  | cons payload chain ih =>
    rw [List.flatten_cons, List.length_append, ← Nat.add_assoc] at h
    rw [fitting, if_neg (not_lt.mpr ((Nat.le_add_right _ _).trans h)), ih h]

/-- **Every chain is reported as sent**, and what is sent of it are the segments in front of the
first one that does not fit. -/
theorem exists_linkOutput (ris : ℕ → UInt32) (chain : List (List UInt8)) :
    ∃ accesses, linkOutput ris chain
      = some ((fitting 0 chain).flatten.map some, accesses, .ok) := by
  have hle : (fitting 0 chain).flatten.length ≤ 1518 := by
    simpa using length_fitting_le (Nat.zero_le 1518) chain
  obtain ⟨buffer, hcopy, hbuffer, hload⟩ := exists_copyChain_uninitialised hle
  obtain ⟨accesses, hsend, -⟩ := exists_ethSend ris hload
  refine ⟨accesses, ?_⟩
  have htake : buffer.toList.take (fitting 0 chain).flatten.length
      = (fitting 0 chain).flatten.map some := by
    rw [hbuffer, List.take_left' (List.length_map _)]
  rw [copyChain_fitting] at hcopy
  simp only [linkOutput, lowLevelOutput, hcopy, hsend, htake, Option.bind_eq_bind,
    Option.bind_some, Option.pure_def]

/-- A chain is sent as a whole if `ERR_OK` is returned, and one that does not fit is refused without
anything being transmitted. -/
def ReportsFate (ris : ℕ → UInt32) (chain : List (List UInt8)) : Prop :=
  ∃ frame accesses err, linkOutput ris chain = some (frame, accesses, err) ∧
    (err = .ok → frame = chain.flatten.map some) ∧
    (1518 < chain.flatten.length → MacAccess.write .tr 1 ∉ accesses ∧ err ≠ .ok)

/-- **The value returned is right exactly for the chains that fit.** -/
theorem reportsFate_iff (ris : ℕ → UInt32) (chain : List (List UInt8)) :
    ReportsFate ris chain ↔ chain.flatten.length ≤ 1518 := by
  obtain ⟨accesses, hout⟩ := exists_linkOutput ris chain
  constructor
  · rintro ⟨frame, accesses', err, hout', -, hcut⟩
    rw [hout, Option.some.injEq, Prod.mk.injEq, Prod.mk.injEq] at hout'
    by_contra hlong
    exact (hcut (not_le.mp hlong)).2 hout'.2.2.symm
  · intro hle
    refine ⟨_, _, _, hout, fun _ ↦ ?_, fun hlong ↦ absurd hle (not_le.mpr hlong)⟩
    rw [fitting_eq_self ((Nat.zero_add _).trans_le hle)]

/-- Of 1500 bytes and 100 bytes the first segment is sent alone. -/
theorem not_reportsFate_two_segments :
    (∃ accesses, linkOutput (fun _ ↦ 0) [List.replicate 1500 1, List.replicate 100 2]
        = some ((List.replicate 1500 1).map some, accesses, .ok)) ∧
      ¬ ReportsFate (fun _ ↦ 0) [List.replicate 1500 1, List.replicate 100 2] := by
  have hfit : fitting 0 [List.replicate 1500 1, List.replicate 100 2]
      = [List.replicate 1500 (1 : UInt8)] := by
    rw [fitting, if_neg (by rw [List.length_replicate]; decide), fitting,
      if_pos (by rw [List.length_replicate, List.length_replicate]; decide)]
  have hout := exists_linkOutput (fun _ ↦ 0) [List.replicate 1500 1, List.replicate 100 2]
  rw [hfit, List.flatten_cons, List.flatten_nil, List.append_nil] at hout
  refine ⟨hout, ?_⟩
  obtain ⟨accesses, hout⟩ := hout
  rintro ⟨frame, accesses', err, hout', -, hcut⟩
  rw [hout, Option.some.injEq, Prod.mk.injEq, Prod.mk.injEq] at hout'
  have hlong : 1518 < [List.replicate 1500 (1 : UInt8), List.replicate 100 2].flatten.length := by
    rw [List.flatten_cons, List.flatten_singleton, List.length_append, List.length_replicate,
      List.length_replicate]
    decide
  exact (hcut hlong).2 hout'.2.2.symm

end ZanOS
