import ZanOS.Net.Packet

/-!
# Answers to ARP requests

A request for the address of this host is answered with a frame of its own, made from two headers of
the request: the Ethernet header says where the frame came from, and the ARP header who asks. The
two need not be the same. A reply has to name the one who asks, with both addresses from the ARP
header, but the handler takes the hardware address from the Ethernet header.
-/

namespace ZanOS

open Foundation

/-- A packet with room for an ARP header. -/
structure ArpFrame where
  eth : EthHdr
  arp : ArpHdr
  rest : List UInt8

namespace ArpFrame

variable (f : ArpFrame)

def fields : List (List UInt8) := f.eth.fields ++ f.arp.fields ++ [f.rest]

/-- The packet in memory. -/
def bytes : List UInt8 := f.fields.flatten

theorem exists_bytes_eq {packet : List UInt8} (h : 42 ≤ packet.length) :
    ∃ f : ArpFrame, f.bytes = packet := by
  obtain ⟨e, m, rfl, h₁⟩ := exists_ethHdr (show 28 + 14 ≤ packet.length from h)
  obtain ⟨a, m, rfl, -⟩ := exists_arpHdr (show 0 + 28 ≤ m.length from h₁)
  exact ⟨⟨e, a, m⟩, by simp [bytes, fields]⟩

theorem sizes : f.fields.map List.length
    = [6, 6, 2, 2, 2, 1, 1, 2, 6, 4, 6, 4, f.rest.length] := by
  simp [fields, EthHdr.fields, ArpHdr.fields]

theorem length_bytes : f.bytes.length = 42 + f.rest.length := by
  rw [bytes, List.length_flatten, f.sizes]
  simp only [List.sum_cons, List.sum_nil]
  omega

/-! ## The accesses of the handler -/

theorem load_src : loadVector f.bytes 6 6 = some f.eth.src :=
  loadVector_of_drop (drop_flatten f.sizes (k := 1) rfl (by simp [fieldOffset]))
    (by rw [length_bytes]; omega)

theorem load_type : load16 f.bytes 12 = some f.eth.type :=
  load16_of_drop (drop_flatten f.sizes (k := 2) rfl (by simp [fieldOffset]))

theorem load_hwType : load16 f.bytes 14 = some f.arp.hwType :=
  load16_of_drop (drop_flatten f.sizes (k := 3) rfl (by simp [fieldOffset]))

theorem load_protoType : load16 f.bytes 16 = some f.arp.protoType :=
  load16_of_drop (drop_flatten f.sizes (k := 4) rfl (by simp [fieldOffset]))

theorem load_opcode : load16 f.bytes 20 = some f.arp.opcode :=
  load16_of_drop (drop_flatten f.sizes (k := 7) rfl (by simp [fieldOffset]))

theorem load_senderIp : load32 f.bytes 28 = some f.arp.senderIp :=
  load32_of_drop (drop_flatten f.sizes (k := 9) rfl (by simp [fieldOffset]))

theorem load_targetMac : loadVector f.bytes 32 6 = some f.arp.targetMac :=
  loadVector_of_drop (drop_flatten f.sizes (k := 10) rfl (by simp [fieldOffset]))
    (by rw [length_bytes]; omega)

theorem load_targetIp : load32 f.bytes 38 = some f.arp.targetIp :=
  load32_of_drop (drop_flatten f.sizes (k := 11) rfl (by simp [fieldOffset]))

/-! ## The reply -/

/-- The frame that is sent. -/
def reply : ArpFrame where
  eth := ⟨f.eth.src, zanosMac, ethtypeArp⟩
  arp :=
    { hwType := f.arp.hwType
      protoType := f.arp.protoType
      hwLen := 6
      protoLen := 4
      opcode := arpOpReply
      senderMac := zanosMac
      senderIp := zanosIp
      targetMac := f.eth.src
      targetIp := f.arp.senderIp }
  rest := []

theorem arpReply_bytes : arpReply f.bytes = some (f.reply.eth, f.reply.arp) := by
  simp only [arpReply, Option.bind_eq_bind, load_src, load_hwType, load_protoType, load_senderIp,
    Option.bind_some]
  rfl

theorem bytes_reply : (f.reply.eth.fields ++ f.reply.arp.fields).flatten = f.reply.bytes := by
  have hrest : f.reply.rest = [] := rfl
  simp [bytes, fields, hrest]

/-- The packet asks for the hardware address of this host. -/
def IsRequest : Prop := f.arp.opcode = arpOpRequest ∧ f.arp.targetIp = zanosIp

instance : Decidable f.IsRequest := inferInstanceAs (Decidable (_ ∧ _))

/-- **What becomes of an ARP packet.** It stays as it is, and a request is answered. -/
theorem exists_handleArp (ris : ℕ → UInt32) :
    ∃ actions, handleArp ris f.bytes = some (f.bytes, actions) ∧
      sentFrames actions = if f.IsRequest then [f.reply.bytes] else [] := by
  obtain ⟨accesses, hsend⟩ := exists_sendFrame ris f.reply.length_bytes
  rw [handleArp, load_opcode, Option.bind_eq_bind, Option.bind_some]
  by_cases hopcode : f.arp.opcode = arpOpRequest
  · rw [if_neg (not_not.mpr hopcode), load_targetIp, Option.bind_eq_bind, Option.bind_some]
    by_cases htarget : f.arp.targetIp = zanosIp
    · refine ⟨[.println (ascii "[NET] Received ARP Request. Sending Reply..."),
        .ethSend f.reply.bytes accesses], ?_, ?_⟩
      · rw [if_neg (not_not.mpr htarget), arpReply_bytes, Option.bind_eq_bind, Option.bind_some,
          bytes_reply]
        exact congrArg (Option.bind · _) hsend
      · rw [if_pos ⟨hopcode, htarget⟩]
        rfl
    · exact ⟨[], by rw [if_pos htarget], by rw [if_neg fun h ↦ htarget h.2]; rfl⟩
  · exact ⟨[], by rw [if_pos hopcode], by rw [if_neg fun h ↦ hopcode h.1]; rfl⟩

variable {f} in
theorem exists_handled (ris : ℕ → UInt32) {len : UInt32} (hlen : f.bytes.length = len.toNat)
    (htype : f.eth.type = ethtypeArp) :
    ∃ actions, netHandlePacket ris f.bytes len = some (f.bytes, actions) ∧
      sentFrames actions = if f.IsRequest then [f.reply.bytes] else [] := by
  rw [netHandlePacket_eq ris hlen f.load_type, htype, if_pos rfl]
  exact f.exists_handleArp ris

end ArpFrame

/-! ## Whom the reply names -/

/-- The header `a` answers the request `r`: its sender is this host, and its target is the sender
of the request. -/
structure ArpHdr.AnsweredBy (r a : ArpHdr) : Prop where
  hwType_eq : a.hwType = r.hwType
  protoType_eq : a.protoType = r.protoType
  opcode_eq : a.opcode = arpOpReply
  senderMac_eq : a.senderMac = zanosMac
  senderIp_eq : a.senderIp = zanosIp
  targetMac_eq : a.targetMac = r.senderMac
  targetIp_eq : a.targetIp = r.senderIp

namespace ArpFrame

variable (f : ArpFrame)

/-- The packet is left alone. If it is a request, one frame is sent, of 42 bytes, from this host and
with the answer in it; otherwise none is. -/
def Answered (ris : ℕ → UInt32) (len : UInt32) : Prop :=
  ∃ actions, netHandlePacket ris f.bytes len = some (f.bytes, actions) ∧
    (f.IsRequest → ∃ g : ArpFrame, sentFrames actions = [g.bytes] ∧ g.bytes.length = 42 ∧
      g.eth.src = zanosMac ∧ f.arp.AnsweredBy g.arp) ∧
    (¬ f.IsRequest → sentFrames actions = [])

variable {f} in
/-- The bytes of the frame determine the address it names, which is that of the Ethernet header. -/
theorem src_eq_of_answered {ris : ℕ → UInt32} {len : UInt32} (hlen : f.bytes.length = len.toNat)
    (htype : f.eth.type = ethtypeArp) (hreq : f.IsRequest) (h : f.Answered ris len) :
    f.eth.src = f.arp.senderMac := by
  obtain ⟨actions, hhandle, hsent⟩ := exists_handled ris hlen htype
  obtain ⟨actions', hhandle', hall, -⟩ := h
  rw [hhandle, Option.some.injEq, Prod.mk.injEq] at hhandle'
  obtain ⟨g, hbytes, -, -, hanswer⟩ := hall hreq
  rw [← hhandle'.2, hsent, if_pos hreq, List.singleton_inj] at hbytes
  have htarget : f.reply.arp.targetMac = g.arp.targetMac := by
    rw [← Option.some.injEq, ← load_targetMac, ← load_targetMac, hbytes]
  exact htarget.trans hanswer.targetMac_eq

/-- **Replies to the right host.** Requests are answered as they should be exactly if their Ethernet
header has the hardware address of the one who asks. -/
theorem answered_iff (ris : ℕ → UInt32) (f : ArpFrame) (len : UInt32)
    (hlen : f.bytes.length = len.toNat) (htype : f.eth.type = ethtypeArp) :
    f.Answered ris len ↔ (f.IsRequest → f.eth.src = f.arp.senderMac) := by
  constructor
  · intro h hreq
    exact src_eq_of_answered hlen htype hreq h
  · intro hsrc
    obtain ⟨actions, hhandle, hsent⟩ := exists_handled ris hlen htype
    refine ⟨actions, hhandle, ?_, ?_⟩
    · intro hreq
      refine ⟨f.reply, ?_, f.reply.length_bytes, rfl, ?_⟩
      · rw [hsent, if_pos hreq]
      · exact ⟨rfl, rfl, rfl, rfl, rfl, hsrc hreq, rfl⟩
    · intro hreq
      rw [hsent, if_neg hreq]

/-- A host asks who has the address of this one. -/
def whoHas : ArpFrame where
  eth := ⟨#v[0xFF, 0xFF, 0xFF, 0xFF, 0xFF, 0xFF], #v[0x02, 0, 0, 0, 0, 0x01], ethtypeArp⟩
  arp :=
    { hwType := 0x0100, protoType := 0x0008, hwLen := 6, protoLen := 4, opcode := arpOpRequest
      senderMac := #v[0x02, 0, 0, 0, 0, 0x01], senderIp := 0x0101A8C0
      targetMac := #v[0, 0, 0, 0, 0, 0], targetIp := zanosIp }
  rest := []

theorem answered_whoHas : whoHas.Answered (fun _ ↦ 0) 42 :=
  (answered_iff (fun _ ↦ 0) whoHas 42 rfl rfl).mpr fun _ ↦ rfl

/-- The same request from a relay, which has its own address in the Ethernet header. -/
def whoHasRelayed : ArpFrame :=
  { whoHas with eth := { whoHas.eth with src := #v[0x02, 0, 0, 0, 0, 0x99] } }

/-- The reply names the relay. -/
theorem not_answered_relayed : ¬ whoHasRelayed.Answered (fun _ ↦ 0) 42 := by
  intro h
  have hsrc := src_eq_of_answered rfl rfl ⟨rfl, rfl⟩ h
  exact absurd hsrc (by decide)

end ArpFrame

end ZanOS
