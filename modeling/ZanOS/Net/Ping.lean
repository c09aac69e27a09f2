import ZanOS.Net.Packet

/-!
# Answers to pings

An echo request is answered in place: the handler exchanges the addresses, sets the type of the
message and computes both checksums anew, in a sequence of stores at fixed offsets. An `EchoFrame`
is a packet read as these stores see it, and each store replaces one of its fields, so that the
sequence as a whole is a function `reply` from frames to frames.

Requests are answered as they should be (`RepliesTo`) as long as the IP header is without options.
The length of the header is in its first byte, which the handler never looks at. The last section
says for which packets with options that makes no difference.
-/

namespace ZanOS

open Foundation

/-- A packet long enough for the handler to look at the ICMP header. -/
structure EchoFrame where
  eth : EthHdr
  ip : IpHdr
  icmp : IcmpHdr
  rest : List UInt8

namespace EchoFrame

variable (f : EchoFrame)

def fields : List (List UInt8) := f.eth.fields ++ f.ip.fields ++ f.icmp.fields ++ [f.rest]

/-- The packet in memory. -/
def bytes : List UInt8 := f.fields.flatten

theorem exists_bytes_eq {packet : List UInt8} (h : 38 ≤ packet.length) :
    ∃ f : EchoFrame, f.bytes = packet := by
  obtain ⟨e, m, rfl, h₁⟩ := exists_ethHdr (show 24 + 14 ≤ packet.length from h)
  obtain ⟨p, m, rfl, h₂⟩ := exists_ipHdr (show 4 + 20 ≤ m.length from h₁)
  obtain ⟨i, m, rfl, -⟩ := exists_icmpHdr (show 0 + 4 ≤ m.length from h₂)
  exact ⟨⟨e, p, i, m⟩, by simp [bytes, fields]⟩

theorem sizes : f.fields.map List.length
    = [6, 6, 2, 1, 1, 2, 2, 2, 1, 1, 2, 4, 4, 1, 1, 2, f.rest.length] := by
  simp [fields, EthHdr.fields, IpHdr.fields, IcmpHdr.fields]

theorem length_bytes : f.bytes.length = 38 + f.rest.length := by
  rw [bytes, List.length_flatten, f.sizes]
  simp only [List.sum_cons, List.sum_nil]
  omega

theorem drop_fourteen :
    f.bytes.drop 14 = f.ip.fields.flatten ++ (f.icmp.fields.flatten ++ f.rest) := by
  rw [bytes, drop_flatten f.sizes (k := 3) (i := 14) rfl (by simp [fieldOffset])]
  simp [fields, EthHdr.fields, IpHdr.fields, IcmpHdr.fields]

theorem drop_thirtyFour : f.bytes.drop 34 = f.icmp.fields.flatten ++ f.rest := by
  rw [bytes, drop_flatten f.sizes (k := 13) (i := 34) rfl (by simp [fieldOffset])]
  simp [fields, EthHdr.fields, IpHdr.fields, IcmpHdr.fields]

/-! ## The accesses of the handler -/

theorem load_type : load16 f.bytes 12 = some f.eth.type :=
  load16_of_drop (drop_flatten f.sizes (k := 2) rfl (by simp [fieldOffset]))

theorem load_len : load16 f.bytes 16 = some f.ip.len :=
  load16_of_drop (drop_flatten f.sizes (k := 5) rfl (by simp [fieldOffset]))

theorem load_proto : f.bytes[23]? = some f.ip.proto :=
  getElem?_of_drop (drop_flatten f.sizes (k := 9) rfl (by simp [fieldOffset]))

theorem load_srcIp : load32 f.bytes 26 = some f.ip.srcIp :=
  load32_of_drop (drop_flatten f.sizes (k := 11) rfl (by simp [fieldOffset]))

theorem load_destIp : load32 f.bytes 30 = some f.ip.destIp :=
  load32_of_drop (drop_flatten f.sizes (k := 12) rfl (by simp [fieldOffset]))

theorem load_icmpType : f.bytes[34]? = some f.icmp.type :=
  getElem?_of_drop (drop_flatten f.sizes (k := 13) rfl (by simp [fieldOffset]))

theorem load_src : loadVector f.bytes 6 6 = some f.eth.src :=
  loadVector_of_drop (drop_flatten f.sizes (k := 1) rfl (by simp [fieldOffset]))
    (by rw [length_bytes]; omega)

theorem poke_dest (v : Vector UInt8 6) :
    poke f.bytes 0 v.toList = some { f with eth := { f.eth with dest := v } }.bytes :=
  poke_flatten f.sizes (k := 0) (x := f.eth.dest.toList) rfl (by simp [fieldOffset]) (by simp)

theorem poke_src (v : Vector UInt8 6) :
    poke f.bytes 6 v.toList = some { f with eth := { f.eth with src := v } }.bytes :=
  poke_flatten f.sizes (k := 1) (x := f.eth.src.toList) rfl (by simp [fieldOffset]) (by simp)

theorem poke_chksum (v : UInt16) :
    poke f.bytes 24 (halfBytes v) = some { f with ip := { f.ip with chksum := v } }.bytes :=
  poke_flatten f.sizes (k := 10) (x := halfBytes f.ip.chksum) rfl (by simp [fieldOffset]) rfl

theorem poke_srcIp (v : UInt32) :
    poke f.bytes 26 (wordBytes v) = some { f with ip := { f.ip with srcIp := v } }.bytes :=
  poke_flatten f.sizes (k := 11) (x := wordBytes f.ip.srcIp) rfl (by simp [fieldOffset]) rfl

theorem poke_destIp (v : UInt32) :
    poke f.bytes 30 (wordBytes v) = some { f with ip := { f.ip with destIp := v } }.bytes :=
  poke_flatten f.sizes (k := 12) (x := wordBytes f.ip.destIp) rfl (by simp [fieldOffset]) rfl

theorem poke_icmpType (v : UInt8) :
    poke f.bytes 34 [v] = some { f with icmp := { f.icmp with type := v } }.bytes :=
  poke_flatten f.sizes (k := 13) (x := [f.icmp.type]) rfl (by simp [fieldOffset]) rfl

theorem poke_icmpChksum (v : UInt16) :
    poke f.bytes 36 (halfBytes v) = some { f with icmp := { f.icmp with chksum := v } }.bytes :=
  poke_flatten f.sizes (k := 15) (x := halfBytes f.icmp.chksum) rfl (by simp [fieldOffset]) rfl

end EchoFrame

/-! ## The reply -/

/-- The IP header of a reply: the addresses exchanged, and a new checksum. -/
def IpHdr.reply (p : IpHdr) : IpHdr :=
  { p with
    srcIp := zanosIp
    destIp := p.srcIp
    chksum := ~~~onesSum (leHalves
      { p with srcIp := zanosIp, destIp := p.srcIp, chksum := 0 }.fields.flatten) }

/-- The length of the ICMP message by the IP header, as the handler computes it. -/
def IpHdr.icmpLen (p : IpHdr) : UInt32 := (ntons p.len).toUInt32 - 20

theorem IpHdr.icmpLen_reply (p : IpHdr) : p.reply.icmpLen = p.icmpLen := by
  obtain ⟨c, hc⟩ : ∃ c, p.reply = { p with srcIp := zanosIp, destIp := p.srcIp, chksum := c } :=
    ⟨_, rfl⟩
  rw [hc]
  rfl

/-- The total length of the datagram, which the header has in network order. -/
def IpHdr.totalLen (p : IpHdr) : ℕ := (swapHalf p.len).toNat

theorem IpHdr.totalLen_le (p : IpHdr) : p.totalLen ≤ 65535 := Nat.le_of_lt_succ (UInt16.toNat_lt _)

/-- A datagram too short for its header makes the length wrap around. -/
theorem IpHdr.toNat_icmpLen (p : IpHdr) :
    p.icmpLen.toNat = if 20 ≤ p.totalLen then p.totalLen - 20 else 2 ^ 32 + p.totalLen - 20 := by
  have hle := p.totalLen_le
  rw [IpHdr.icmpLen, UInt32.toNat_sub, UInt16.toNat_toUInt32, ntons_eq_swapHalf, ← IpHdr.totalLen,
    show (20 : UInt32).toNat = 20 from rfl]
  split_ifs <;> omega

theorem IpHdr.length_flatten (p : IpHdr) : p.fields.flatten.length = 20 := by
  simp [IpHdr.fields]

theorem IpHdr.flatten_fields (p : IpHdr) (h : UInt16) :
    { p with chksum := h }.fields.flatten
      = (p.fields.take 7).flatten ++ halfBytes h ++ (p.fields.drop 8).flatten := by
  simp [IpHdr.fields]

theorem IpHdr.onesSum_reply (p : IpHdr) : onesSum (beHalves p.reply.fields.flatten) = 0xFFFF := by
  set q : IpHdr := { p with srcIp := zanosIp, destIp := p.srcIp } with hq
  have heven : (q.fields.take 7).flatten.length % 2 = 0 := by simp [IpHdr.fields]
  have hzero : { q with chksum := 0 }.fields.flatten
      = (q.fields.take 7).flatten ++ 0 :: 0 :: (q.fields.drop 8).flatten := by
    rw [q.flatten_fields, List.append_assoc]
    rfl
  have hreply : p.reply = { q with chksum := ~~~onesSum (leHalves
      ((q.fields.take 7).flatten ++ 0 :: 0 :: (q.fields.drop 8).flatten)) } := by
    rw [← hzero]
    rfl
  rw [hreply, q.flatten_fields]
  exact onesSum_with_complement heven _

namespace EchoFrame

variable (f : EchoFrame)

/-- The ICMP message of a reply before its checksum is put in. -/
def message : List UInt8 := (IcmpHdr.mk 0 f.icmp.code 0).fields.flatten ++ f.rest

theorem prepareIp_bytes : prepareIp f.bytes = some { f with ip := f.ip.reply }.bytes := by
  have hsum : ∀ p : IpHdr, checksum ({ f with ip := p }.bytes.drop 14) 20
      = some (~~~onesSum (leHalves p.fields.flatten)) := by
    intro p
    rw [drop_fourteen, checksum_eq, show (20 : UInt32).toNat = 20 from rfl,
      List.take_left' p.length_flatten]
    · rw [List.length_append, p.length_flatten]
      exact Nat.le_add_right _ _
    · decide
  -- every store replaces a field, and what they leave is the header `reply` describes
  simp only [prepareIp, Option.bind_eq_bind, load_srcIp, poke_destIp, poke_srcIp, poke_chksum, hsum,
    Option.bind_some]
  rfl

theorem prepareIcmp_bytes : prepareIcmp f.bytes = (checksum f.message f.ip.icmpLen).map fun c ↦
    { f with icmp := ⟨0, f.icmp.code, c⟩ }.bytes := by
  simp only [prepareIcmp, Option.bind_eq_bind, poke_icmpType, poke_icmpChksum, load_len,
    drop_thirtyFour, Option.bind_some]
  rw [← message, ← IpHdr.icmpLen]
  cases checksum f.message f.ip.icmpLen with
  | none => rfl
  | some c => rfl

theorem swapEth_bytes :
    swapEth f.bytes = some { f with eth := ⟨f.eth.src, zanosMac, f.eth.type⟩ }.bytes := by
  simp only [swapEth, Option.bind_eq_bind, load_src, poke_dest, poke_src, Option.bind_some]

/-- The reply, with the checksum of its message. -/
def reply (c : UInt16) : EchoFrame :=
  ⟨⟨f.eth.src, zanosMac, f.eth.type⟩, f.ip.reply, ⟨0, f.icmp.code, c⟩, f.rest⟩

theorem length_message : f.message.length = 4 + f.rest.length := by
  rw [message, List.length_append]
  rfl

theorem length_reply (c : UInt16) : (f.reply c).bytes.length = f.bytes.length := by
  rw [length_bytes, length_bytes]
  rfl

/-- The handler takes the packet for an echo request to this host. -/
def IsRequest : Prop :=
  f.eth.type = ethtypeIp ∧ f.ip.destIp = zanosIp ∧ f.ip.proto = 1 ∧ f.icmp.type = 8

section Handler

variable {f : EchoFrame} (ris : ℕ → UInt32) {len : UInt32} (hlen : f.bytes.length = len.toNat)
include hlen

theorem netHandlePacket_of_ip (htype : f.eth.type = ethtypeIp) :
    netHandlePacket ris f.bytes len = handleIp ris f.bytes len := by
  rw [netHandlePacket_eq ris hlen f.load_type, htype, if_neg (by decide), if_pos rfl]

theorem netHandlePacket_of_isRequest (h : f.IsRequest) :
    netHandlePacket ris f.bytes len = (checksum f.message f.ip.icmpLen).bind fun c ↦
      (sendFrame ris (f.reply c).bytes len.toNat).map fun sent ↦ ((f.reply c).bytes,
        [.println (ascii "[NET] Received Ping (ICMP Echo). Sending Reply..."), sent]) := by
  obtain ⟨htype, hdest, hproto, hicmp⟩ := h
  -- for any header, since the one of the reply is costly to look into
  have hmessage : ∀ q : IpHdr, prepareIcmp { f with ip := q }.bytes
      = (checksum f.message q.icmpLen).map fun c ↦
        EchoFrame.bytes ⟨f.eth, q, ⟨0, f.icmp.code, c⟩, f.rest⟩ :=
    fun q ↦ prepareIcmp_bytes { f with ip := q }
  have hswap : ∀ (q : IpHdr) (i : IcmpHdr), swapEth (EchoFrame.bytes ⟨f.eth, q, i, f.rest⟩)
      = some (EchoFrame.bytes ⟨⟨f.eth.src, zanosMac, f.eth.type⟩, q, i, f.rest⟩) :=
    fun q i ↦ swapEth_bytes ⟨f.eth, q, i, f.rest⟩
  rw [netHandlePacket_of_ip ris hlen htype, handleIp, load_destIp, hdest, load_proto, hproto,
    load_icmpType, hicmp, prepareIp_bytes]
  simp only [Option.bind_eq_bind, Option.bind_some, ne_eq, not_true_eq_false, if_false]
  rw [hmessage, IpHdr.icmpLen_reply]
  cases checksum f.message f.ip.icmpLen with
  | none => rfl
  | some c =>
    simp only [Option.map_some, Option.bind_some]
    rw [hswap, Option.bind_some, Option.map_eq_bind, reply]
    rfl

theorem netHandlePacket_of_not_isRequest (htype : f.eth.type = ethtypeIp) (h : ¬ f.IsRequest) :
    netHandlePacket ris f.bytes len = some (f.bytes, []) := by
  rw [netHandlePacket_of_ip ris hlen htype, handleIp, load_destIp, load_proto, load_icmpType]
  simp only [Option.bind_eq_bind, Option.bind_some]
  split_ifs with hdest hproto hicmp
  · rfl
  · rfl
  · rfl
  · rw [not_not] at hdest hproto hicmp
    exact absurd ⟨htype, hdest, hproto, hicmp⟩ h

theorem checksum_message (h₂₀ : 20 ≤ f.ip.totalLen) (hfit : 14 + f.ip.totalLen ≤ len.toNat) :
    checksum f.message f.ip.icmpLen
      = some (~~~onesSum (leHalves (f.message.take (f.ip.totalLen - 20)))) := by
  have hicmp : f.ip.icmpLen.toNat = f.ip.totalLen - 20 := by rw [IpHdr.toNat_icmpLen, if_pos h₂₀]
  have hbytes := f.length_bytes
  have hle := f.ip.totalLen_le
  rw [checksum_eq, hicmp]
  · rw [hicmp, length_message]
    omega
  · omega

end Handler

theorem onesSum_message {n : ℕ} (hn : 4 ≤ n) :
    onesSum (beHalves (slice (f.reply (~~~onesSum (leHalves (f.message.take n)))).bytes 34 n))
      = 0xFFFF := by
  obtain ⟨m, rfl⟩ : ∃ m, n = m + 4 := ⟨n - 4, by omega⟩
  have hflat : f.message = 0 :: f.icmp.code :: 0 :: 0 :: f.rest := by
    rw [message, IcmpHdr.fields, show halfBytes 0 = [0, 0] by decide]
    rfl
  have hzero : f.message.take (m + 4) = [0, f.icmp.code] ++ 0 :: 0 :: f.rest.take m := by
    rw [hflat]
    rfl
  have hslice : ∀ c, slice (f.reply c).bytes 34 (m + 4)
      = [0, f.icmp.code] ++ halfBytes c ++ f.rest.take m := by
    intro c
    rw [slice, drop_thirtyFour]
    rfl
  rw [hslice, hzero]
  exact onesSum_with_complement (by simp) _

/-- **What becomes of a request.** If the datagram has its header and is inside the packet, the
packet is turned into the reply and sent. -/
theorem exists_reply {f : EchoFrame} (ris : ℕ → UInt32) {len : UInt32}
    (hlen : f.bytes.length = len.toNat) (h : f.IsRequest) (h₂₀ : 20 ≤ f.ip.totalLen)
    (hfit : 14 + f.ip.totalLen ≤ len.toNat) :
    ∃ g actions, g = f.reply (~~~onesSum (leHalves (f.message.take (f.ip.totalLen - 20)))) ∧
      netHandlePacket ris f.bytes len = some (g.bytes, actions) ∧
      sentFrames actions = [g.bytes] := by
  set g := f.reply (~~~onesSum (leHalves (f.message.take (f.ip.totalLen - 20)))) with hg
  obtain ⟨accesses, hsend⟩ := exists_sendFrame ris ((f.length_reply _).trans hlen)
  refine ⟨g, [.println (ascii "[NET] Received Ping (ICMP Echo). Sending Reply..."),
    .ethSend g.bytes accesses], rfl, ?_, rfl⟩
  rw [netHandlePacket_of_isRequest ris hlen h, checksum_message hlen h₂₀ hfit, Option.bind_some,
    ← hg, hsend, Option.map_some]

/-- The frame `g` is the reply to `f`: the addresses are exchanged, the other fields of the headers
kept, and both checksums are in order. -/
structure RepliesTo (g : EchoFrame) : Prop where
  length_eq : g.bytes.length = f.bytes.length
  dest_eq : g.eth.dest = f.eth.src
  src_eq : g.eth.src = zanosMac
  type_eq : g.eth.type = f.eth.type
  srcIp_eq : g.ip.srcIp = zanosIp
  destIp_eq : g.ip.destIp = f.ip.srcIp
  ip_eq : g.ip = { f.ip with srcIp := g.ip.srcIp, destIp := g.ip.destIp, chksum := g.ip.chksum }
  ip_sum : onesSum (beHalves (slice g.bytes 14 20)) = 0xFFFF
  icmpType_eq : g.icmp.type = 0
  code_eq : g.icmp.code = f.icmp.code
  rest_eq : g.rest = f.rest
  icmp_sum : onesSum (beHalves (slice g.bytes 34 (f.ip.totalLen - 20))) = 0xFFFF

theorem slice_ip : slice f.bytes 14 20 = f.ip.fields.flatten := by
  rw [slice, drop_fourteen]
  exact List.take_left' f.ip.length_flatten

/-- **Echo requests are answered.** -/
theorem exists_repliesTo (ris : ℕ → UInt32) (f : EchoFrame) (len : UInt32)
    (hlen : f.bytes.length = len.toNat) (htype : f.eth.type = ethtypeIp)
    (hproto : f.ip.proto = 1) (hdest : f.ip.destIp = zanosIp) (hicmp : f.icmp.type = 8)
    (h₂₈ : 28 ≤ f.ip.totalLen) (hfit : f.ip.totalLen ≤ len.toNat - 14) :
    ∃ g actions, netHandlePacket ris f.bytes len = some (g.bytes, actions) ∧
      sentFrames actions = [g.bytes] ∧ f.RepliesTo g := by
  obtain ⟨g, actions, rfl, hhandle, hsent⟩ := exists_reply ris hlen ⟨htype, hdest, hproto, hicmp⟩
    (by omega) (show 14 + f.ip.totalLen ≤ len.toNat by omega)
  refine ⟨_, actions, hhandle, hsent, ?_⟩
  constructor
  · exact f.length_reply _
  · rfl
  · rfl
  · rfl
  · rfl
  · rfl
  · rfl
  · rw [slice_ip]
    exact f.ip.onesSum_reply
  · rfl
  · rfl
  · rfl
  · exact f.onesSum_message (by omega)

/-- A request with one byte of payload, and some padding behind it. -/
def ping : EchoFrame where
  eth := ⟨zanosMac, #v[0x02, 0x00, 0x00, 0x00, 0x00, 0x05], ethtypeIp⟩
  ip :=
    { verIhl := 0x45, tos := 0, len := 0x1D00, id := 0x3412, flagsOffset := 0, ttl := 64
      proto := 1, chksum := 0, srcIp := 0x0101A8C0, destIp := zanosIp }
  icmp := ⟨8, 0, 0⟩
  rest := [0x00, 0x07, 0x00, 0x01, 0x61, 0x00, 0x00, 0x00]

theorem exists_repliesTo_ping :
    ∃ g actions, netHandlePacket (fun _ ↦ 0) ping.bytes 46 = some (g.bytes, actions) ∧
      sentFrames actions = [g.bytes] ∧ ping.RepliesTo g :=
  exists_repliesTo (fun _ ↦ 0) ping 46 rfl rfl rfl rfl rfl (by decide) (by decide)

end EchoFrame

/-! ## Headers with options -/

/-- The version in the first byte of the header. -/
def IpHdr.version (p : IpHdr) : ℕ := p.verIhl.toNat / 16

/-- The length of the header, in words. -/
def IpHdr.ihl (p : IpHdr) : ℕ := p.verIhl.toNat % 16

namespace EchoFrame

variable (f : EchoFrame)

/-- The packet has a well-formed IPv4 datagram in it, with an ICMP message to this host. -/
structure CarriesIcmp (len : UInt32) : Prop where
  length_eq : f.bytes.length = len.toNat
  type_eq : f.eth.type = ethtypeIp
  version_eq : f.ip.version = 4
  ihl_ge : 5 ≤ f.ip.ihl
  proto_eq : f.ip.proto = 1
  destIp_eq : f.ip.destIp = zanosIp
  header_le : 4 * f.ip.ihl + 8 ≤ f.ip.totalLen
  totalLen_le : f.ip.totalLen ≤ len.toNat - 14

/-- The type of the ICMP message, which is behind the whole header. -/
def messageType : Option UInt8 := f.bytes[14 + 4 * f.ip.ihl]?

/-- The frame is in order as an answer to `f`: the sums over the whole header and over the message
are right, and the options are those of `f`. -/
structure AnsweredBy (frame : List UInt8) : Prop where
  header_sum : onesSum (beHalves (slice frame 14 (4 * f.ip.ihl))) = 0xFFFF
  options_eq : slice frame 34 (4 * f.ip.ihl - 20) = slice f.bytes 34 (4 * f.ip.ihl - 20)
  message_sum :
    onesSum (beHalves (slice frame (14 + 4 * f.ip.ihl) (f.ip.totalLen - 4 * f.ip.ihl))) = 0xFFFF

/-- The handler follows the length of the header: it sends something exactly if the message is an
echo request, and only frames that are in order. -/
def FollowsHeader (ris : ℕ → UInt32) (len : UInt32) : Prop :=
  ∃ packet actions, netHandlePacket ris f.bytes len = some (packet, actions) ∧
    (sentFrames actions ≠ [] ↔ f.messageType = some 8) ∧
    ∀ frame ∈ sentFrames actions, f.AnsweredBy frame

section Handler

variable {f : EchoFrame} {ris : ℕ → UInt32} {len : UInt32}

theorem followsHeader_iff_of_handled {packet : List UInt8} {actions : List NetAction}
    (h : netHandlePacket ris f.bytes len = some (packet, actions)) :
    f.FollowsHeader ris len ↔ (sentFrames actions ≠ [] ↔ f.messageType = some 8) ∧
      ∀ frame ∈ sentFrames actions, f.AnsweredBy frame := by
  refine ⟨?_, fun hall ↦ ⟨packet, actions, h, hall⟩⟩
  rintro ⟨packet', actions', h', hall⟩
  rw [h, Option.some.injEq, Prod.mk.injEq] at h'
  rwa [h'.2]

/-- A packet with something else than 8 where a header without options would end is ignored. -/
theorem followsHeader_iff_of_type_ne (h : f.CarriesIcmp len) (htype : f.icmp.type ≠ 8) :
    f.FollowsHeader ris len ↔ f.messageType ≠ some 8 := by
  have hignored : ¬ f.IsRequest := fun hreq ↦ htype hreq.2.2.2
  rw [followsHeader_iff_of_handled
    (netHandlePacket_of_not_isRequest ris h.length_eq h.type_eq hignored)]
  simp [sentFrames]

/-- The type of the reply is stored over the first option, if there is one. -/
theorem answeredBy_reply_iff (h : f.CarriesIcmp len) (htype : f.icmp.type = 8) :
    f.AnsweredBy (f.reply (~~~onesSum (leHalves (f.message.take (f.ip.totalLen - 20))))).bytes
      ↔ f.ip.ihl = 5 := by
  have hheader := h.header_le
  constructor
  · intro hanswer
    by_contra hne
    have hpos : 0 < 4 * f.ip.ihl - 20 := by
      have := h.ihl_ge
      omega
    -- the first option is 8 in the request, and 0 in the reply
    have hfirst := congrArg (fun l ↦ l[0]?) hanswer.options_eq
    simp only [getElem?_slice_zero hpos, load_icmpType, htype] at hfirst
    exact absurd hfirst (by rintro ⟨⟩)
  · intro hihl
    rw [hihl] at hheader
    constructor
    · rw [hihl, slice_ip]
      exact f.ip.onesSum_reply
    · rw [hihl, slice, slice, show 4 * 5 - 20 = 0 from rfl, List.take_zero, List.take_zero]
    · rw [hihl]
      exact f.onesSum_message (by omega)

end Handler

/-- **Options are not understood.** The handler follows the length of the header if there are no
options, or else if neither the first option nor the message is taken for a request. -/
theorem followsHeader_iff (ris : ℕ → UInt32) (f : EchoFrame) (len : UInt32)
    (h : f.CarriesIcmp len) :
    f.FollowsHeader ris len ↔
      f.ip.ihl = 5 ∨ f.bytes[34]? ≠ some 8 ∧ f.bytes[14 + 4 * f.ip.ihl]? ≠ some 8 := by
  have hmessage : f.ip.ihl = 5 → f.messageType = some f.icmp.type := by
    intro hihl
    rw [messageType, hihl]
    exact f.load_icmpType
  rw [← messageType, load_icmpType, ne_eq, Option.some.injEq]
  by_cases htype : f.icmp.type = 8
  · have hheader := h.header_le
    have htotal := h.totalLen_le
    have hihl := h.ihl_ge
    obtain ⟨g, actions, hg, hhandle, hsent⟩ := exists_reply ris h.length_eq
      ⟨h.type_eq, h.destIp_eq, h.proto_eq, htype⟩ (by omega) (by omega)
    rw [followsHeader_iff_of_handled hhandle, hsent, List.forall_mem_singleton, hg,
      answeredBy_reply_iff h htype]
    rw [htype] at hmessage ⊢
    simp only [not_true_eq_false, false_and, or_false, and_iff_right_iff_imp]
    intro hfive
    exact iff_of_true (List.cons_ne_nil _ _) (hmessage hfive)
  · rw [followsHeader_iff_of_type_ne h htype]
    refine ⟨fun hne ↦ .inr ⟨htype, hne⟩, ?_⟩
    rintro (hihl | ⟨-, hne⟩)
    · rw [hmessage hihl, ne_eq, Option.some.injEq]
      exact htype
    · exact hne

theorem followsHeader_ping : ping.CarriesIcmp 46 ∧ ping.FollowsHeader (fun _ ↦ 0) 46 := by
  have h : ping.CarriesIcmp 46 := by
    constructor <;> decide
  exact ⟨h, (followsHeader_iff (fun _ ↦ 0) ping 46 h).mpr (.inl rfl)⟩

/-- A request with options: three times "no operation", and the end of the list. -/
def pingWithOptions : EchoFrame :=
  { ping with
    ip := { ping.ip with verIhl := 0x46, len := 0x2000 }
    icmp := ⟨1, 1, 0x0001⟩
    rest := [8, 0, 0, 0, 0x00, 0x07, 0x00, 0x01] }

/-- The request is not answered. -/
theorem not_followsHeader_options :
    pingWithOptions.CarriesIcmp 46 ∧ ¬ pingWithOptions.FollowsHeader (fun _ ↦ 0) 46 := by
  have h : pingWithOptions.CarriesIcmp 46 := by
    constructor <;> decide
  refine ⟨h, ?_⟩
  rw [followsHeader_iff_of_type_ne h (by decide), not_not]
  decide

end EchoFrame

end ZanOS
