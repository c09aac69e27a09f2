import ZanOS.Net.Arp
import ZanOS.Net.Ping

/-!
# How long a packet has to be

The handler is given the length of the packet, and compares it with the size of the Ethernet header
before it looks at the type. No other access is guarded: the ARP header, the IP header and the ICMP
header are read as far as the tests on their contents go, whether or not the packet is long enough,
and the checksum of an echo request runs over as many bytes as the request says it has.

An access outside the packet has no result in the model, so the handler stays inside the packet
exactly if it has one. What that asks of the packet is `ArpFits` in one branch and `IpFits` in the
other.
-/

namespace ZanOS

open Foundation

variable {packet : List UInt8}

/-! ## ARP -/

/-- The ARP header is in the packet as far as it is looked at, which is up to the operation, or all
of it for a request. -/
def ArpFits (packet : List UInt8) : Prop :=
  22 ≤ packet.length ∧ (load16 packet 20 = some arpOpRequest → 42 ≤ packet.length)

theorem isSome_handleArp_iff (ris : ℕ → UInt32) (packet : List UInt8) :
    (handleArp ris packet).isSome ↔ ArpFits packet := by
  by_cases hlong : 42 ≤ packet.length
  · obtain ⟨f, rfl⟩ := ArpFrame.exists_bytes_eq hlong
    obtain ⟨actions, hhandle, -⟩ := f.exists_handleArp ris
    rw [hhandle, ArpFits]
    exact iff_of_true rfl ⟨by omega, fun _ ↦ hlong⟩
  by_cases hopcode : 22 ≤ packet.length
  · obtain ⟨opcode, hload⟩ := exists_load16 hopcode
    rw [ArpFits, handleArp, hload, Option.bind_eq_bind, Option.bind_some, Option.some.injEq]
    by_cases hreq : opcode = arpOpRequest
    · rw [if_neg (not_not.mpr hreq), load32_eq_none (by omega)]
      exact iff_of_false (by rintro ⟨⟩) fun h ↦ hlong (h.2 hreq)
    · rw [if_pos hreq]
      exact iff_of_true rfl ⟨hopcode, fun h ↦ absurd h hreq⟩
  · rw [handleArp, load16_eq_none (by omega)]
    exact iff_of_false (by rintro ⟨⟩) fun h ↦ hopcode h.1

/-! ## IP -/

/-- The IP and ICMP headers are in the packet as far as they are looked at; if they are those of an
echo request to this host, so is the datagram, by the length it gives in network order. -/
def IpFits (packet : List UInt8) : Prop :=
  34 ≤ packet.length ∧
  (load32 packet 30 = some zanosIp ∧ packet[23]? = some 1 → 35 ≤ packet.length ∧
    (packet[34]? = some 8 → 38 ≤ packet.length ∧ ∀ l, load16 packet 16 = some l →
      20 ≤ (swapHalf l).toNat ∧ 14 + (swapHalf l).toNat ≤ packet.length))

theorem length_of_prepareIp {packet' : List UInt8} (h : prepareIp packet = some packet') :
    packet'.length = packet.length := by
  simp only [prepareIp, Option.bind_eq_bind, Option.bind_eq_some_iff] at h
  obtain ⟨_, -, _, h₁, _, h₂, _, h₃, _, -, h₄⟩ := h
  rw [(length_of_poke h₄).2, (length_of_poke h₃).2, (length_of_poke h₂).2, (length_of_poke h₁).2]

theorem prepareIcmp_eq_none (h : packet.length < 38) : prepareIcmp packet = none := by
  rw [prepareIcmp, Option.bind_eq_bind, Option.bind_eq_none_iff]
  intro packet' htype
  rw [poke_eq_none, Option.bind_eq_bind, Option.bind_none]
  rw [(length_of_poke htype).2]
  exact h

/-- A request that ends before the checksum in the ICMP header cannot be answered. -/
theorem bind_prepareIcmp_eq_none (hshort : packet.length < 38) :
    (prepareIp packet).bind prepareIcmp = none := by
  rw [Option.bind_eq_none_iff]
  intro packet' hip
  apply prepareIcmp_eq_none
  rw [length_of_prepareIp hip]
  exact hshort

theorem isSome_handleIp_iff_of_lt (ris : ℕ → UInt32) (len : UInt32) (hshort : packet.length < 38) :
    (handleIp ris packet len).isSome ↔ IpFits packet := by
  by_cases hip : 34 ≤ packet.length
  · obtain ⟨destIp, hdestIp⟩ := exists_load32 hip
    obtain ⟨proto, hproto⟩ : ∃ proto, packet[23]? = some proto :=
      ⟨_, List.getElem?_eq_getElem (show 23 < packet.length by omega)⟩
    rw [IpFits, handleIp, hdestIp, hproto]
    simp only [Option.bind_eq_bind, Option.bind_some, Option.some.injEq, hip, true_and]
    split_ifs with hdest hicmp
    · exact iff_of_true rfl fun h ↦ absurd h.1 hdest
    · exact iff_of_true rfl fun h ↦ absurd h.2 hicmp
    · rw [not_not] at hdest hicmp
      rcases htype : packet[34]? with _ | type
      · -- the packet ends before the type
        have hend := List.getElem?_eq_none_iff.mp htype
        refine iff_of_false (by rintro ⟨⟩) fun h ↦ ?_
        have := (h ⟨hdest, hicmp⟩).1
        omega
      have hlong := (List.getElem?_eq_some_iff.mp htype).1
      rw [Option.bind_some]
      split_ifs with hne
      · exact iff_of_true rfl fun _ ↦ ⟨hlong, fun h ↦ absurd (Option.some.inj h) hne⟩
      · -- a request, but the checksum it is to be given is outside
        rw [← Option.bind_assoc, bind_prepareIcmp_eq_none hshort]
        refine iff_of_false (by rintro ⟨⟩) fun h ↦ ?_
        rw [not_not] at hne
        have := ((h ⟨hdest, hicmp⟩).2 (congrArg some hne)).1
        omega
  · rw [handleIp, load32_eq_none (by omega)]
    exact iff_of_false (by rintro ⟨⟩) fun h ↦ hip h.1

theorem EchoFrame.isSome_iff_of_isRequest {f : EchoFrame} (ris : ℕ → UInt32) {len : UInt32}
    (hlen : f.bytes.length = len.toNat) (h : f.IsRequest) :
    (netHandlePacket ris f.bytes len).isSome ↔
      20 ≤ f.ip.totalLen ∧ 14 + f.ip.totalLen ≤ f.bytes.length := by
  have hsum : (checksum f.message f.ip.icmpLen).isSome ↔
      20 ≤ f.ip.totalLen ∧ 14 + f.ip.totalLen ≤ f.bytes.length := by
    have hmax := UInt32.toNat_lt len
    rw [isSome_checksum_iff, IpHdr.toNat_icmpLen, length_message, length_bytes]
    rw [← hlen, length_bytes] at hmax
    -- a length that wraps around is more than any packet has
    split_ifs <;> omega
  rw [← hsum, netHandlePacket_of_isRequest ris hlen h]
  rcases checksum f.message f.ip.icmpLen with _ | c
  · rfl
  · obtain ⟨accesses, hsend⟩ := exists_sendFrame ris ((f.length_reply c).trans hlen)
    rw [Option.bind_some, hsend]
    rfl

theorem isSome_iff_ipFits (ris : ℕ → UInt32) {len : UInt32} (hlen : packet.length = len.toNat)
    (htype : load16 packet 12 = some ethtypeIp) :
    (netHandlePacket ris packet len).isSome ↔ IpFits packet := by
  by_cases hshort : packet.length < 38
  · rw [netHandlePacket_eq ris hlen htype, if_neg (by decide), if_pos rfl]
    exact isSome_handleIp_iff_of_lt ris len hshort
  obtain ⟨f, rfl⟩ := EchoFrame.exists_bytes_eq (Nat.not_lt.mp hshort)
  rw [f.load_type, Option.some.injEq] at htype
  rw [IpFits, f.load_destIp, f.load_proto, f.load_icmpType, f.load_len]
  simp only [Option.some.injEq, forall_eq']
  by_cases hreq : f.IsRequest
  · rw [EchoFrame.isSome_iff_of_isRequest ris hlen hreq]
    refine ⟨fun h ↦ ⟨by omega, fun _ ↦ ⟨by omega, fun _ ↦ ⟨by omega, h⟩⟩⟩, fun h ↦ ?_⟩
    exact ((h.2 ⟨hreq.2.1, hreq.2.2.1⟩).2 hreq.2.2.2).2
  · rw [EchoFrame.netHandlePacket_of_not_isRequest ris hlen htype hreq]
    refine iff_of_true rfl ⟨by omega, fun h ↦ ⟨by omega, fun h₈ ↦ ?_⟩⟩
    exact absurd ⟨htype, h.1, h.2, h₈⟩ hreq

/-! ## The handler -/

/-- **The handler stays inside the packet** exactly if the packet is as long as the headers it
starts with take it to be. -/
theorem isSome_netHandlePacket_iff (ris : ℕ → UInt32) (packet : List UInt8) (len : UInt32)
    (hlen : packet.length = len.toNat) :
    (netHandlePacket ris packet len).isSome ↔
      (load16 packet 12 = some ethtypeArp → ArpFits packet) ∧
      (load16 packet 12 = some ethtypeIp → IpFits packet) := by
  by_cases hshort : packet.length < 14
  · have hlt : len < 14 := by
      rw [UInt32.lt_iff_toNat_lt, ← hlen]
      exact hshort
    rw [netHandlePacket, if_pos hlt, load16_eq_none hshort]
    exact iff_of_true rfl ⟨by rintro ⟨⟩, by rintro ⟨⟩⟩
  obtain ⟨type, htype⟩ := exists_load16 (Nat.not_lt.mp hshort)
  by_cases harp : type = ethtypeArp
  · rw [netHandlePacket_eq ris hlen htype, if_pos harp, isSome_handleArp_iff, htype, harp]
    exact ⟨fun h ↦ ⟨fun _ ↦ h, fun hip ↦ absurd hip (by decide)⟩, fun h ↦ h.1 rfl⟩
  by_cases hip : type = ethtypeIp
  · rw [isSome_iff_ipFits ris hlen (htype.trans (congrArg some hip)), htype, hip]
    exact ⟨fun h ↦ ⟨fun harp ↦ absurd harp (by decide), fun _ ↦ h⟩, fun h ↦ h.2 rfl⟩
  · rw [netHandlePacket_eq ris hlen htype, if_neg harp, if_neg hip, htype]
    exact iff_of_true rfl
      ⟨fun h ↦ absurd (Option.some.inj h) harp, fun h ↦ absurd (Option.some.inj h) hip⟩

theorem isSome_netHandlePacket_whoHas :
    (netHandlePacket (fun _ ↦ 0) ArpFrame.whoHas.bytes 42).isSome := by
  rw [isSome_netHandlePacket_iff (fun _ ↦ 0) ArpFrame.whoHas.bytes 42 rfl]
  exact ⟨fun _ ↦ ⟨by decide, fun _ ↦ by decide⟩, fun h ↦ absurd h (by decide)⟩

/-- The Ethernet header of an ARP packet, and nothing behind it. -/
def runt : List UInt8 := ArpFrame.whoHas.eth.fields.flatten

theorem not_isSome_netHandlePacket_runt :
    runt.length = 14 ∧ ¬ (netHandlePacket (fun _ ↦ 0) runt 14).isSome := by
  decide

end ZanOS
