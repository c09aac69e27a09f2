import ZanOS.Ethernet.Send
import ZanOS.Foundation.Memory
import ZanOS.Net.Checksum

/-!
# The packet handler

`net_handle_packet` answers two kinds of packets: ARP requests for the address of this host, for
which it builds a reply of its own, and ICMP echo requests, which it turns into the reply in place.
It looks at a packet through pointers to packed structures, at fixed offsets; the only length it
tests is that of the Ethernet header.

The structures are modelled twice. The handler sees memory: loads and stores at the offsets of the
fields, which have no result outside the packet. The records below are what the memory means, and
`fields` lays them out. A processor with the lowest byte first reads the numbers of the network the
wrong way round, which is why the constants of `net.h` have their bytes exchanged.
-/

namespace ZanOS

open Foundation

/-! ## Headers -/

/-- `struct eth_hdr`. -/
structure EthHdr where
  dest : Vector UInt8 6
  src : Vector UInt8 6
  type : UInt16

/-- `struct arp_hdr`. -/
structure ArpHdr where
  hwType : UInt16
  protoType : UInt16
  hwLen : UInt8
  protoLen : UInt8
  opcode : UInt16
  senderMac : Vector UInt8 6
  senderIp : UInt32
  targetMac : Vector UInt8 6
  targetIp : UInt32

/-- `struct ip_hdr`. -/
structure IpHdr where
  verIhl : UInt8
  tos : UInt8
  len : UInt16
  id : UInt16
  flagsOffset : UInt16
  ttl : UInt8
  proto : UInt8
  chksum : UInt16
  srcIp : UInt32
  destIp : UInt32

/-- `struct icmp_hdr`, as far as the handler looks at it. -/
structure IcmpHdr where
  type : UInt8
  code : UInt8
  chksum : UInt16

def EthHdr.fields (h : EthHdr) : List (List UInt8) :=
  [h.dest.toList, h.src.toList, halfBytes h.type]

def ArpHdr.fields (h : ArpHdr) : List (List UInt8) :=
  [halfBytes h.hwType, halfBytes h.protoType, [h.hwLen], [h.protoLen], halfBytes h.opcode,
    h.senderMac.toList, wordBytes h.senderIp, h.targetMac.toList, wordBytes h.targetIp]

def IpHdr.fields (h : IpHdr) : List (List UInt8) :=
  [[h.verIhl], [h.tos], halfBytes h.len, halfBytes h.id, halfBytes h.flagsOffset, [h.ttl],
    [h.proto], halfBytes h.chksum, wordBytes h.srcIp, wordBytes h.destIp]

def IcmpHdr.fields (h : IcmpHdr) : List (List UInt8) := [[h.type], [h.code], halfBytes h.chksum]

/-- `ETHTYPE_ARP`. -/
def ethtypeArp : UInt16 := 0x0608

/-- `ETHTYPE_IP`. -/
def ethtypeIp : UInt16 := 0x0008

/-- `ARP_OP_REQUEST`. -/
def arpOpRequest : UInt16 := 0x0100

/-- `ARP_OP_REPLY`. -/
def arpOpReply : UInt16 := 0x0200

/-- `zanos_mac`. -/
def zanosMac : Vector UInt8 6 := #v[0xDE, 0xAD, 0xBE, 0xEF, 0x01, 0x02]

/-- `zanos_ip`. -/
def zanosIp : UInt32 := 0x0201A8C0

/-! ## The handler -/

/-- What the handler does to the outside: a line on the console, or a call of `eth_send` with the
frame and the accesses it makes to the controller. -/
inductive NetAction
  | println (text : List UInt8)
  | ethSend (frame : List UInt8) (accesses : List MacAccess)
  deriving DecidableEq

/-- A call `eth_send(p, len)`. -/
def sendFrame (ris : ℕ → UInt32) (p : List UInt8) (len : ℕ) : Option NetAction :=
  (ethSend ris (p[·]?) len).map (.ethSend (p.take len))

/-- `eth_reply` and `arp_reply` for the packet. -/
def arpReply (packet : List UInt8) : Option (EthHdr × ArpHdr) := do
  let src ← loadVector packet 6 6
  let hwType ← load16 packet 14
  let protoType ← load16 packet 16
  let senderIp ← load32 packet 28
  some (⟨src, zanosMac, ethtypeArp⟩,
    { hwType := hwType
      protoType := protoType
      hwLen := 6
      protoLen := 4
      opcode := arpOpReply
      senderMac := zanosMac
      senderIp := zanosIp
      targetMac := src
      targetIp := senderIp })

/-- The ARP branch. -/
def handleArp (ris : ℕ → UInt32) (packet : List UInt8) : Option (List UInt8 × List NetAction) := do
  let opcode ← load16 packet 20
  if opcode ≠ arpOpRequest then some (packet, [])
  else
    let targetIp ← load32 packet 38
    if targetIp ≠ zanosIp then some (packet, [])
    else
      let reply ← arpReply packet
      let sent ← sendFrame ris (reply.1.fields ++ reply.2.fields).flatten 42
      some (packet, [.println (ascii "[NET] Received ARP Request. Sending Reply..."), sent])

/-- The IP header of the reply. -/
def prepareIp (packet : List UInt8) : Option (List UInt8) := do
  let srcIp ← load32 packet 26
  let packet ← poke packet 30 (wordBytes srcIp)
  let packet ← poke packet 26 (wordBytes zanosIp)
  let packet ← poke packet 24 (halfBytes 0)
  let sum ← checksum (packet.drop 14) 20
  poke packet 24 (halfBytes sum)

/-- The ICMP header of the reply. -/
def prepareIcmp (packet : List UInt8) : Option (List UInt8) := do
  let packet ← poke packet 34 [0]
  let packet ← poke packet 36 (halfBytes 0)
  let len ← load16 packet 16
  let icmpLen := (ntons len).toUInt32 - 20
  let sum ← checksum (packet.drop 34) icmpLen
  poke packet 36 (halfBytes sum)

/-- The Ethernet header of the reply. -/
def swapEth (packet : List UInt8) : Option (List UInt8) := do
  let src ← loadVector packet 6 6
  let packet ← poke packet 0 src.toList
  poke packet 6 zanosMac.toList

/-- The IP branch. -/
def handleIp (ris : ℕ → UInt32) (packet : List UInt8) (len : UInt32) :
    Option (List UInt8 × List NetAction) := do
  let destIp ← load32 packet 30
  if destIp ≠ zanosIp then some (packet, [])
  else
    let proto ← packet[23]?
    if proto ≠ 1 then some (packet, [])
    else
      let type ← packet[34]?
      if type ≠ 8 then some (packet, [])
      else
        let packet ← prepareIp packet
        let packet ← prepareIcmp packet
        let packet ← swapEth packet
        let sent ← sendFrame ris packet len.toNat
        some (packet, [.println (ascii "[NET] Received Ping (ICMP Echo). Sending Reply..."), sent])

/-- `net_handle_packet`: the packet afterwards, and what is done to the outside. -/
def netHandlePacket (ris : ℕ → UInt32) (packet : List UInt8) (len : UInt32) :
    Option (List UInt8 × List NetAction) := do
  if len < 14 then some (packet, [])
  else
    let type ← load16 packet 12
    if type = ethtypeArp then handleArp ris packet
    else if type = ethtypeIp then handleIp ris packet len
    else some (packet, [])

theorem netHandlePacket_eq (ris : ℕ → UInt32) {packet : List UInt8} {len : UInt32} {type : UInt16}
    (hlen : packet.length = len.toNat) (htype : load16 packet 12 = some type) :
    netHandlePacket ris packet len =
      if type = ethtypeArp then handleArp ris packet
      else if type = ethtypeIp then handleIp ris packet len
      else some (packet, []) := by
  have hlong : ¬ len < 14 := by
    intro hshort
    rw [UInt32.lt_iff_toNat_lt, ← hlen] at hshort
    rw [load16_eq_none hshort] at htype
    exact absurd htype (by rintro ⟨⟩)
  rw [netHandlePacket, if_neg hlong, htype]
  rfl

theorem exists_sendFrame (ris : ℕ → UInt32) {p : List UInt8} {len : ℕ} (hlen : p.length = len) :
    ∃ accesses, sendFrame ris p len = some (.ethSend p accesses) := by
  obtain ⟨accesses, hsend, -⟩ := exists_ethSend ris (fun i _ ↦ (rfl : p[i]? = p[i]?))
  rw [hlen] at hsend
  exact ⟨accesses, by rw [sendFrame, hsend, ← hlen, List.take_length]; rfl⟩

/-! ## Memory as headers -/

theorem exists_ethHdr {m : List UInt8} {k : ℕ} (h : k + 14 ≤ m.length) :
    ∃ (e : EthHdr) (r : List UInt8), m = e.fields.flatten ++ r ∧ k ≤ r.length := by
  obtain ⟨dest, m, rfl, h₁⟩ := exists_vector 6 (show k + 8 + 6 ≤ m.length from h)
  obtain ⟨src, m, rfl, h₂⟩ := exists_vector 6 (show k + 2 + 6 ≤ m.length from h₁)
  obtain ⟨type, m, rfl, h₃⟩ := exists_half h₂
  exact ⟨⟨dest, src, type⟩, m, by simp [EthHdr.fields], h₃⟩

theorem exists_arpHdr {m : List UInt8} {k : ℕ} (h : k + 28 ≤ m.length) :
    ∃ (a : ArpHdr) (r : List UInt8), m = a.fields.flatten ++ r ∧ k ≤ r.length := by
  obtain ⟨hwType, m, rfl, h₁⟩ := exists_half (show k + 26 + 2 ≤ m.length from h)
  obtain ⟨protoType, m, rfl, h₂⟩ := exists_half (show k + 24 + 2 ≤ m.length from h₁)
  obtain ⟨hwLen, m, rfl, h₃⟩ := exists_byte (show k + 23 + 1 ≤ m.length from h₂)
  obtain ⟨protoLen, m, rfl, h₄⟩ := exists_byte (show k + 22 + 1 ≤ m.length from h₃)
  obtain ⟨opcode, m, rfl, h₅⟩ := exists_half (show k + 20 + 2 ≤ m.length from h₄)
  obtain ⟨senderMac, m, rfl, h₆⟩ := exists_vector 6 (show k + 14 + 6 ≤ m.length from h₅)
  obtain ⟨senderIp, m, rfl, h₇⟩ := exists_word (show k + 10 + 4 ≤ m.length from h₆)
  obtain ⟨targetMac, m, rfl, h₈⟩ := exists_vector 6 (show k + 4 + 6 ≤ m.length from h₇)
  obtain ⟨targetIp, m, rfl, h₉⟩ := exists_word h₈
  exact ⟨⟨hwType, protoType, hwLen, protoLen, opcode, senderMac, senderIp, targetMac, targetIp⟩, m,
    by simp [ArpHdr.fields], h₉⟩

theorem exists_ipHdr {m : List UInt8} {k : ℕ} (h : k + 20 ≤ m.length) :
    ∃ (p : IpHdr) (r : List UInt8), m = p.fields.flatten ++ r ∧ k ≤ r.length := by
  obtain ⟨verIhl, m, rfl, h₁⟩ := exists_byte (show k + 19 + 1 ≤ m.length from h)
  obtain ⟨tos, m, rfl, h₂⟩ := exists_byte (show k + 18 + 1 ≤ m.length from h₁)
  obtain ⟨len, m, rfl, h₃⟩ := exists_half (show k + 16 + 2 ≤ m.length from h₂)
  obtain ⟨id, m, rfl, h₄⟩ := exists_half (show k + 14 + 2 ≤ m.length from h₃)
  obtain ⟨flagsOffset, m, rfl, h₅⟩ := exists_half (show k + 12 + 2 ≤ m.length from h₄)
  obtain ⟨ttl, m, rfl, h₆⟩ := exists_byte (show k + 11 + 1 ≤ m.length from h₅)
  obtain ⟨proto, m, rfl, h₇⟩ := exists_byte (show k + 10 + 1 ≤ m.length from h₆)
  obtain ⟨chksum, m, rfl, h₈⟩ := exists_half (show k + 8 + 2 ≤ m.length from h₇)
  obtain ⟨srcIp, m, rfl, h₉⟩ := exists_word (show k + 4 + 4 ≤ m.length from h₈)
  obtain ⟨destIp, m, rfl, h₁₀⟩ := exists_word h₉
  exact ⟨⟨verIhl, tos, len, id, flagsOffset, ttl, proto, chksum, srcIp, destIp⟩, m,
    by simp [IpHdr.fields], h₁₀⟩

theorem exists_icmpHdr {m : List UInt8} {k : ℕ} (h : k + 4 ≤ m.length) :
    ∃ (i : IcmpHdr) (r : List UInt8), m = i.fields.flatten ++ r ∧ k ≤ r.length := by
  obtain ⟨type, m, rfl, h₁⟩ := exists_byte (show k + 3 + 1 ≤ m.length from h)
  obtain ⟨code, m, rfl, h₂⟩ := exists_byte (show k + 2 + 1 ≤ m.length from h₁)
  obtain ⟨chksum, m, rfl, h₃⟩ := exists_half h₂
  exact ⟨⟨type, code, chksum⟩, m, by simp [IcmpHdr.fields], h₃⟩

/-- The frames sent. -/
def sentFrames (actions : List NetAction) : List (List UInt8) :=
  actions.filterMap fun
    | .ethSend frame _ => some frame
    | .println _ => none

end ZanOS
