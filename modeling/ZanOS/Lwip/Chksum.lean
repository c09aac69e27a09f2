import ZanOS.Foundation.ByteSum
import ZanOS.Net.Checksum

/-!
# The checksums of lwIP

`inet_chksum.c` computes the Internet checksum of what lies in memory in pieces: a packet is a chain
of buffers, each at an address and with a length of its own. Three tricks make the sum of the pieces
that of the whole:

* at an odd address the halfwords are loaded one byte off, and the bytes of the sum exchanged in
  the end (`lwip_standard_chksum`);
* a piece of odd length shifts the pieces behind it by one byte, so the bytes of the running sum
  are exchanged after it, and once more at the end if they are still exchanged then
  (`inet_chksum_pbuf`);
* the header of which TCP and UDP sum the fields is never put together: its halfwords are added as
  numbers (`inet_chksum_pseudo`).

With sums as numbers modulo 65535 (`Foundation.Alike`) each exchange is a factor 256, and two of
them cancel. `chainLoop_spec` is the invariant of the loop over the chain.
-/

namespace ZanOS.Lwip

open Foundation

/-- `FOLD_U32T`. -/
def foldU32 (u : UInt32) : UInt32 := (u >>> 16) + (u &&& 0x0000ffff)

/-- `SWAP_BYTES_IN_WORD`. -/
def swapBytesInWord (w : UInt32) : UInt32 := ((w &&& 0xff) <<< 8) ||| ((w &&& 0xff00) >>> 8)

/-- `lwip_htons`. -/
def htons (n : UInt16) : UInt16 := ((n &&& 0x00ff) <<< 8) ||| ((n &&& 0xff00) >>> 8)

/-- The loop of `lwip_standard_chksum` over the halfwords, and the byte left over. -/
def sumBulk : List UInt8 → UInt32 → UInt32 × Option UInt8
  | a :: b :: data, sum => sumBulk data (sum + (leHalf a b).toUInt32)
  | data, sum => (sum, data.head?)

/-- `lwip_standard_chksum` of some bytes, the first at an odd address or not. The end bytes are in
`t`, the first one high and the last one low. -/
def lwipStandardChksum (odd : Bool) (data : List UInt8) : UInt16 :=
  let first := if odd then data.head? else none
  let (sum, last) := sumBulk (if odd then data.tail else data) 0
  let t := leHalf (last.getD 0) (first.getD 0)
  let sum := sum + t.toUInt32
  let sum := foldU32 sum
  let sum := foldU32 sum
  let sum := if odd then swapBytesInWord sum else sum
  sum.toUInt16

/-- A buffer of a chain: whether its payload is at an odd address, and the payload. -/
structure Segment where
  odd : Bool
  data : List UInt8

/-- The bytes of a chain. -/
def flat (p : List Segment) : List UInt8 := p.flatMap Segment.data

/-- The loop over a chain in `inet_chksum_pbuf` and `inet_cksum_pseudo_base`: the running sum, and
whether its bytes are exchanged. -/
def chainLoop : List Segment → Bool → UInt32 → Bool × UInt32
  | [], swapped, acc => (swapped, acc)
  | q :: p, swapped, acc =>
      let acc := acc + (lwipStandardChksum q.odd q.data).toUInt32
      let acc := foldU32 acc
      if q.data.length % 2 ≠ 0 then chainLoop p (!swapped) (swapBytesInWord acc)
      else chainLoop p swapped acc

/-- `inet_chksum`. -/
def inetChksum (odd : Bool) (data : List UInt8) : UInt16 :=
  (~~~(lwipStandardChksum odd data).toUInt32).toUInt16

/-- `inet_chksum_pbuf`. -/
def inetChksumPbuf (p : List Segment) : UInt16 :=
  let (swapped, acc) := chainLoop p false 0
  let acc := if swapped then swapBytesInWord acc else acc
  (~~~(acc &&& 0xffff)).toUInt16

/-- `inet_cksum_pseudo_base`. -/
def inetCksumPseudoBase (p : List Segment) (proto : UInt8) (protoLen : UInt16) (acc : UInt32) :
    UInt16 :=
  let (swapped, acc) := chainLoop p false acc
  let acc := if swapped then swapBytesInWord acc else acc
  let acc := acc + (htons proto.toUInt16).toUInt32
  let acc := acc + (htons protoLen).toUInt32
  let acc := foldU32 acc
  let acc := foldU32 acc
  (~~~(acc &&& 0xffff)).toUInt16

/-- The sum of the addresses in `inet_chksum_pseudo`. -/
def addressSum (src dest : UInt32) : UInt32 :=
  let acc := src &&& 0xffff
  let acc := acc + ((src >>> 16) &&& 0xffff)
  let acc := acc + (dest &&& 0xffff)
  let acc := acc + ((dest >>> 16) &&& 0xffff)
  let acc := foldU32 acc
  foldU32 acc

/-- `inet_chksum_pseudo`. -/
def inetChksumPseudo (p : List Segment) (proto : UInt8) (protoLen : UInt16) (src dest : UInt32) :
    UInt16 :=
  inetCksumPseudoBase p proto protoLen (addressSum src dest)

/-- `tot_len` of a chain. -/
def totLen (p : List Segment) : UInt16 := UInt16.ofNat (flat p).length

/-- The checksum that `udp_sendto_if_src` stores in the header of a datagram. Zero would say that
there is none. -/
def udpChksum (q : List Segment) (src dest : UInt32) : UInt16 :=
  let udpchksum := inetChksumPseudo q 17 (totLen q) src dest
  if udpchksum = 0x0000 then 0xffff else udpchksum

/-- `udp_input` does not drop the datagram for its checksum, `chksum` in the header. -/
def udpInputCheck (chksum : UInt16) (p : List Segment) (src dest : UInt32) : Bool :=
  chksum == 0 || inetChksumPseudo p 17 (totLen p) src dest == 0

/-- `tcp_input` does not drop the segment for its checksum. -/
def tcpInputCheck (p : List Segment) (src dest : UInt32) : Bool :=
  inetChksumPseudo p 6 (totLen p) src dest == 0

/-! ## Folding and exchanging -/

theorem toNat_foldU32 (u : UInt32) :
    (foldU32 u).toNat = u.toNat % 2 ^ 16 + u.toNat / 2 ^ 16 := by
  rw [foldU32, UInt32.add_comm]
  exact toNat_foldStep u

theorem alike_foldU32 (u : UInt32) : Alike (foldU32 u).toNat u.toNat := by
  rw [toNat_foldU32]
  exact alike_iff_residue.mpr (residue_carry u.toNat)

/-- Two rounds are enough for any word. -/
theorem toNat_foldU32_foldU32 (u : UInt32) :
    (foldU32 (foldU32 u)).toNat = residue u.toNat := by
  have hlt := u.toNat_lt
  have hfirst := toNat_foldU32 u
  have hsecond := toNat_foldU32 (foldU32 u)
  have hle : (foldU32 (foldU32 u)).toNat ≤ 65535 := by omega
  rw [← residue_eq_self hle]
  exact alike_iff_residue.mp ((alike_foldU32 _).trans (alike_foldU32 u))

theorem toNat_swapBytesInWord {w : UInt32} (h : w.toNat ≤ 65535) :
    (swapBytesInWord w).toNat ≤ 65535 ∧ Alike (swapBytesInWord w).toNat (256 * w.toNat) := by
  have hlow : (w &&& 0xff).toNat = w.toNat % 2 ^ 8 := by
    rw [UInt32.toNat_and, show (0xff : UInt32).toNat = 2 ^ 8 - 1 from rfl,
      Nat.and_two_pow_sub_one_eq_mod]
  have hhigh : ((w &&& 0xff00) >>> 8).toNat = w.toNat / 2 ^ 8 := by
    rw [UInt32.toNat_shiftRight, UInt32.toNat_and, show (8 : UInt32).toNat % 32 = 8 from rfl,
      Nat.shiftRight_and_distrib, show (0xff00 : UInt32).toNat >>> 8 = 2 ^ 8 - 1 from rfl,
      Nat.and_two_pow_sub_one_eq_mod, Nat.shiftRight_eq_div_pow]
    omega
  have hshift : ((w &&& 0xff) <<< 8).toNat = (w.toNat % 2 ^ 8) <<< 8 := by
    rw [UInt32.toNat_shiftLeft, hlow, show (8 : UInt32).toNat % 32 = 8 from rfl, Nat.shiftLeft_eq]
    omega
  have hswap : (swapBytesInWord w).toNat = w.toNat / 2 ^ 8 + 2 ^ 8 * (w.toNat % 2 ^ 8) := by
    rw [swapBytesInWord, UInt32.toNat_or, hshift, hhigh, Nat.or_comm,
      or_shiftLeft_of_lt (show w.toNat / 2 ^ 8 < 2 ^ 8 by omega)]
  rw [hswap]
  refine ⟨by omega, ?_, ?_⟩ <;> omega

/-! ## One block -/

/-- The loop adds up the halfwords; with the byte left over the sum is that of all of them. -/
theorem sumBulk_spec (data : List UInt8) (sum : UInt32) :
    ((sumBulk data sum).1.toNat + ((sumBulk data sum).2.getD 0).toNat) % 2 ^ 32
      = (sum.toNat + halvesSum data) % 2 ^ 32 := by
  fun_induction sumBulk data sum with
  | case1 sum a b data ih =>
    rw [ih, UInt32.toNat_add, UInt16.toNat_toUInt32, Nat.mod_add_mod, Nat.add_assoc]
    rfl
  | case2 data sum hshort =>
    match data with
    | [] => rfl
    | [a] =>
      simp [halvesSum, leHalves, toNat_leHalf]
    | a :: b :: data => exact absurd rfl (hshort a b data)

/-- The sum before the carries are taken in: the halfwords, and above them the first byte if it is
at an odd address. -/
theorem toNat_sumBulk_add {data : List UInt8} (h : data.length ≤ 0x20000) (first : UInt8) :
    ((sumBulk data 0).1 + (leHalf ((sumBulk data 0).2.getD 0) first).toUInt32).toNat
      = halvesSum data + 2 ^ 8 * first.toNat := by
  have hsum := sumBulk_spec data 0
  have hle := sum_toNat_le (leHalves data)
  have hfirst := first.toNat_lt
  rw [length_leHalves] at hle
  rw [UInt32.toNat_zero, Nat.zero_add, halvesSum] at hsum
  rw [UInt32.toNat_add, UInt16.toNat_toUInt32, toNat_leHalf, halvesSum]
  omega

/-- **`lwip_standard_chksum` does not depend on the address.** Of up to `0x20000` bytes it is the
ones' complement sum. -/
theorem toNat_lwipStandardChksum (odd : Bool) {data : List UInt8} (h : data.length ≤ 0x20000) :
    (lwipStandardChksum odd data).toNat = residue (byteNumber data) := by
  have hcut : ∀ {u : UInt32}, u.toNat ≤ 65535 → u.toUInt16.toNat = u.toNat := fun {u} hu ↦ by
    rw [UInt32.toNat_toUInt16]
    omega
  cases odd with
  | false =>
    have hsum := toNat_sumBulk_add h 0
    rw [UInt8.toNat_zero, Nat.mul_zero, Nat.add_zero] at hsum
    have hfold := toNat_foldU32_foldU32
      ((sumBulk data 0).1 + (leHalf ((sumBulk data 0).2.getD 0) 0).toUInt32)
    rw [hsum, halvesSum, alike_iff_residue.mp (alike_sum_leHalves data)] at hfold
    exact (hcut (hfold ▸ residue_le _)).trans hfold
  | true =>
    -- the halfwords are those behind the first byte, which counts as the high byte of one
    have htail : data.tail.length ≤ 0x20000 := by
      rw [List.length_tail]
      omega
    have hsum := toNat_sumBulk_add htail (data.head?.getD 0)
    have hfold := toNat_foldU32_foldU32 ((sumBulk data.tail 0).1
      + (leHalf ((sumBulk data.tail 0).2.getD 0) (data.head?.getD 0)).toUInt32)
    rw [hsum] at hfold
    obtain ⟨hle, hswap⟩ := toNat_swapBytesInWord (hfold ▸ residue_le _)
    have hdata : Alike (256 * (halvesSum data.tail + 2 ^ 8 * (data.head?.getD 0).toNat))
        (byteNumber data) := by
      rcases data with _ | ⟨b, data⟩
      · exact Alike.refl 0
      · rw [byteNumber_cons, Nat.mul_add, Nat.add_comm]
        exact (alike_mul_mul b.toNat).add ((alike_sum_leHalves data).mul 256)
    rw [hfold] at hswap
    exact (hcut hle).trans (((hswap.trans ((alike_residue _).mul 256)).trans hdata).eq_residue hle)

/-! ## A chain -/

/-- A number with its bytes exchanged or not. -/
def exchanged (swapped : Bool) (x : ℕ) : ℕ := if swapped then 256 * x else x

theorem alike_exchanged {x y : ℕ} (h : Alike x y) (swapped : Bool) :
    Alike (exchanged swapped x) (exchanged swapped y) := by
  cases swapped with
  | false => exact h
  | true => exact h.mul 256

theorem exchanged_add (swapped : Bool) (x y : ℕ) :
    exchanged swapped (x + y) = exchanged swapped x + exchanged swapped y := by
  cases swapped with
  | false => rfl
  | true => exact Nat.mul_add 256 x y

theorem alike_exchanged_exchanged (swapped : Bool) (x : ℕ) :
    Alike (exchanged swapped (exchanged swapped x)) x := by
  cases swapped with
  | false => exact Alike.refl x
  | true => exact alike_mul_mul x

theorem alike_mul_exchanged (swapped : Bool) (x : ℕ) :
    Alike (256 * exchanged swapped x) (exchanged (!swapped) x) := by
  cases swapped with
  | false => exact Alike.refl _
  | true => exact alike_mul_mul x

/-- What a piece behind a piece of `n` bytes counts. -/
theorem alike_exchanged_pow (swapped : Bool) (n x : ℕ) :
    Alike (exchanged swapped (256 ^ n * x))
      (exchanged (if n % 2 ≠ 0 then !swapped else swapped) x) := by
  refine (alike_exchanged (alike_pow_mul n x) swapped).trans ?_
  by_cases hn : n % 2 = 0
  · rw [if_pos hn, if_neg (not_not.mpr hn)]
    exact Alike.refl _
  · rw [if_neg hn, if_pos hn]
    cases swapped with
    | false => exact Alike.refl _
    | true => exact alike_mul_mul x

theorem flat_cons (q : Segment) (p : List Segment) : flat (q :: p) = q.data ++ flat p :=
  List.flatMap_cons

/-- **The loop over a chain.** If the running sum is that of `x`, with its bytes exchanged or not,
it ends up that of `x` and all the bytes of the chain. -/
theorem chainLoop_spec {p : List Segment} (hp : ∀ q ∈ p, q.data.length ≤ 65535) {swapped : Bool}
    {acc : UInt32} {x : ℕ} (hle : acc.toNat ≤ 65535)
    (hacc : Alike acc.toNat (exchanged swapped x)) :
    (chainLoop p swapped acc).2.toNat ≤ 65535 ∧
      Alike (chainLoop p swapped acc).2.toNat (exchanged (chainLoop p swapped acc).1
        (x + exchanged swapped (byteNumber (flat p)))) := by
  induction p generalizing swapped acc x with
  | nil =>
    have hnil : exchanged swapped (byteNumber (flat [])) = 0 := by cases swapped <;> rfl
    rw [hnil]
    exact ⟨hle, hacc⟩
  | cons q p ih =>
    have hchk := toNat_lwipStandardChksum q.odd ((hp q List.mem_cons_self).trans (by decide))
    have hchkle := residue_le (byteNumber q.data)
    let acc₁ := foldU32 (acc + (lwipStandardChksum q.odd q.data).toUInt32)
    have hadd : (acc + (lwipStandardChksum q.odd q.data).toUInt32).toNat
        = acc.toNat + residue (byteNumber q.data) := by
      rw [UInt32.toNat_add, UInt16.toNat_toUInt32, hchk]
      omega
    have hle₁ : acc₁.toNat ≤ 65535 := by
      rw [toNat_foldU32, hadd]
      omega
    -- the piece counts as it stands; seen from the front it may be exchanged
    have hacc₁ : Alike acc₁.toNat
        (exchanged swapped (x + exchanged swapped (byteNumber q.data))) := by
      refine (alike_foldU32 _).trans ?_
      rw [hadd, exchanged_add]
      exact hacc.add ((alike_residue _).trans (alike_exchanged_exchanged _ _).symm)
    have hrest : ∀ swapped' : Bool,
        swapped' = (if q.data.length % 2 ≠ 0 then !swapped else swapped) →
        Alike (x + exchanged swapped (byteNumber q.data) + exchanged swapped' (byteNumber (flat p)))
          (x + exchanged swapped (byteNumber (flat (q :: p)))) := by
      rintro swapped' rfl
      rw [flat_cons, byteNumber_append, exchanged_add, ← Nat.add_assoc]
      exact (Alike.refl _).add (alike_exchanged_pow swapped q.data.length _).symm
    have hp' : ∀ q ∈ p, q.data.length ≤ 65535 := fun q hq ↦ hp q (List.mem_cons_of_mem _ hq)
    rw [chainLoop]
    split_ifs with hodd
    · obtain ⟨hle₂, hswap⟩ := toNat_swapBytesInWord hle₁
      have hacc₂ := hswap.trans ((hacc₁.mul 256).trans (alike_mul_exchanged swapped _))
      obtain ⟨hle', halike⟩ := ih hp' hle₂ hacc₂
      exact ⟨hle', halike.trans (alike_exchanged (hrest _ (if_pos hodd).symm) _)⟩
    · obtain ⟨hle', halike⟩ := ih hp' hle₁ hacc₁
      exact ⟨hle', halike.trans (alike_exchanged (hrest _ (if_neg hodd).symm) _)⟩

theorem toNat_chainLoop {p : List Segment} (hp : ∀ q ∈ p, q.data.length ≤ 65535) (acc : UInt32)
    (hle : acc.toNat ≤ 65535) :
    (if (chainLoop p false acc).1 then swapBytesInWord (chainLoop p false acc).2
      else (chainLoop p false acc).2).toNat = residue (acc.toNat + byteNumber (flat p)) := by
  have hacc : Alike acc.toNat (exchanged false acc.toNat) := Alike.refl _
  obtain ⟨hle', halike⟩ := chainLoop_spec hp hle hacc
  split_ifs with hswapped
  · obtain ⟨hle₂, hswap⟩ := toNat_swapBytesInWord hle'
    rw [hswapped] at halike
    exact ((hswap.trans (halike.mul 256)).trans (alike_mul_mul _)).eq_residue hle₂
  · rw [Bool.eq_false_iff.mpr hswapped] at halike
    exact halike.eq_residue hle'

/-! ## The checksums -/

theorem length_le_of_flat {p : List Segment} (hlen : (flat p).length ≤ 65535) :
    ∀ q ∈ p, q.data.length ≤ 65535 := fun _ hq ↦
  (List.sublist_flatten_of_mem (List.mem_map_of_mem hq)).length_le.trans hlen

theorem toNat_complement_and {acc : UInt32} (h : acc.toNat ≤ 65535) :
    (~~~(acc &&& 0xffff)).toUInt16.toNat = 65535 - acc.toNat := by
  have hand : (acc &&& 0xffff).toNat = acc.toNat := by
    rw [UInt32.toNat_and, show (0xffff : UInt32).toNat = 2 ^ 16 - 1 from rfl,
      Nat.and_two_pow_sub_one_of_lt_two_pow (by omega)]
  rw [toNat_complement_toUInt16 (hand.trans_le h), hand]

theorem toNat_complement_onesSum (l : List UInt8) :
    (~~~onesSum (leHalves l)).toNat = 65535 - residue (byteNumber l) := by
  rw [toNat_complement, toNat_onesSum_leHalves]

theorem inetChksumPbuf_eq {p : List Segment} (hlen : (flat p).length ≤ 65535) :
    inetChksumPbuf p = ~~~onesSum (leHalves (flat p)) := by
  have hchain := toNat_chainLoop (length_le_of_flat hlen) 0 (Nat.zero_le _)
  rw [UInt32.toNat_zero, Nat.zero_add] at hchain
  apply UInt16.toNat_inj.mp
  rw [toNat_complement_onesSum, ← hchain]
  exact toNat_complement_and (hchain ▸ residue_le _)

theorem inetChksum_eq (odd : Bool) {data : List UInt8} (hlen : data.length ≤ 65535) :
    inetChksum odd data = ~~~onesSum (leHalves data) := by
  have hchk := toNat_lwipStandardChksum odd (hlen.trans (by decide))
  apply UInt16.toNat_inj.mp
  rw [toNat_complement_onesSum, inetChksum, toNat_complement_toUInt16, UInt16.toNat_toUInt32, hchk]
  rw [UInt16.toNat_toUInt32, hchk]
  exact residue_le _

/-- **The two stacks agree.** However a packet is cut into buffers, and wherever they lie, lwIP's
checksum of the chain is the one `net.c` computes of the packet in one piece; so is lwIP's checksum
of the packet in one piece. -/
theorem checksum_eq_inetChksumPbuf {p : List Segment} (hlen : (flat p).length ≤ 65535) :
    checksum (flat p) (UInt32.ofNat (flat p).length) = some (inetChksumPbuf p) ∧
      ∀ odd, inetChksum odd (flat p) = inetChksumPbuf p := by
  have hnat : (UInt32.ofNat (flat p).length).toNat = (flat p).length :=
    UInt32.toNat_ofNat_of_lt' (by simp only [UInt32.size]; omega)
  constructor
  · rw [checksum_eq hnat.le (hnat.trans_le hlen), hnat, List.take_length, inetChksumPbuf_eq hlen]
  · intro odd
    rw [inetChksum_eq odd hlen, inetChksumPbuf_eq hlen]

theorem checksum_eq_inetChksumPbuf_three :
    checksum [1, 2, 3] 3 = some (inetChksumPbuf [⟨true, [1]⟩, ⟨false, [2, 3]⟩]) :=
  (checksum_eq_inetChksumPbuf (p := [⟨true, [1]⟩, ⟨false, [2, 3]⟩]) (by decide)).1

/-! ## The header that is not there -/

/-- The header before a TCP or UDP packet that the checksum covers: the addresses, the protocol and
the length. -/
def pseudoHeader (proto : UInt8) (protoLen : UInt16) (src dest : UInt32) : List UInt8 :=
  wordBytes src ++ wordBytes dest ++ [0, proto] ++ (halfBytes protoLen).reverse

theorem halfBytes_htons (h : UInt16) : halfBytes (htons h) = (halfBytes h).reverse := by
  rw [← halfBytes_swapHalf, ← ntons_eq_swapHalf]
  rfl

theorem alike_pseudoHeader (proto : UInt8) (protoLen : UInt16) (src dest : UInt32) :
    Alike (src.toNat + dest.toNat + (htons proto.toUInt16).toNat + (htons protoLen).toNat)
      (byteNumber (pseudoHeader proto protoLen src dest)) := by
  have hproto : [0, proto] = halfBytes (htons proto.toUInt16) := by
    have hhalf : proto.toUInt16 = leHalf proto 0 := by
      apply UInt16.toNat_inj.mp
      rw [toNat_leHalf, UInt8.toNat_toUInt16]
      rfl
    rw [halfBytes_htons, hhalf, halfBytes_leHalf]
    rfl
  rw [pseudoHeader, hproto, ← halfBytes_htons, ← byteNumber_wordBytes src,
    ← byteNumber_wordBytes dest, ← byteNumber_halfBytes (htons proto.toUInt16),
    ← byteNumber_halfBytes (htons protoLen)]
  have hsrc : (wordBytes src).length % 2 = 0 := by simp [wordBytes]
  have haddrs : (wordBytes src ++ wordBytes dest).length % 2 = 0 := by simp [wordBytes]
  have hfields : (wordBytes src ++ wordBytes dest ++ halfBytes (htons proto.toUInt16)).length % 2
      = 0 := by simp [wordBytes, halfBytes]
  refine Alike.trans ?_ (alike_byteNumber_append hfields _).symm
  refine Alike.add ?_ (Alike.refl _)
  refine Alike.trans ?_ (alike_byteNumber_append haddrs _).symm
  exact Alike.add (alike_byteNumber_append hsrc _).symm (Alike.refl _)

theorem alike_address (w : UInt32) :
    Alike ((w &&& 0xffff).toNat + ((w >>> 16) &&& 0xffff).toNat) w.toNat := by
  have hlow : (w &&& 0xffff).toNat = w.toNat % 2 ^ 16 := by
    rw [UInt32.toNat_and, show (0xffff : UInt32).toNat = 2 ^ 16 - 1 from rfl,
      Nat.and_two_pow_sub_one_eq_mod]
  have hhigh : ((w >>> 16) &&& 0xffff).toNat = w.toNat / 2 ^ 16 := by
    have hw := w.toNat_lt
    rw [UInt32.toNat_and, UInt32.toNat_shiftRight, show (16 : UInt32).toNat % 32 = 16 from rfl,
      show (0xffff : UInt32).toNat = 2 ^ 16 - 1 from rfl, Nat.and_two_pow_sub_one_eq_mod,
      Nat.shiftRight_eq_div_pow]
    omega
  rw [hlow, hhigh]
  exact alike_iff_residue.mpr (residue_carry _)

theorem toNat_and_le (w : UInt32) : (w &&& 0xffff).toNat ≤ 65535 := by
  rw [UInt32.toNat_and]
  exact Nat.and_le_right

theorem toNat_addressSum (src dest : UInt32) :
    (addressSum src dest).toNat = residue (src.toNat + dest.toNat) := by
  have h₁ := toNat_and_le src
  have h₂ := toNat_and_le (src >>> 16)
  have h₃ := toNat_and_le dest
  have h₄ := toNat_and_le (dest >>> 16)
  rw [addressSum, toNat_foldU32_foldU32, ← alike_iff_residue.mp
    ((alike_address src).add (alike_address dest)), UInt32.toNat_add, UInt32.toNat_add,
    UInt32.toNat_add]
  congr 1
  omega

/-- **`inet_chksum_pseudo`** is the checksum of the header and the bytes of the chain. -/
theorem toNat_inetChksumPseudo {p : List Segment} (hlen : (flat p).length ≤ 65535) (proto : UInt8)
    (protoLen : UInt16) (src dest : UInt32) :
    (inetChksumPseudo p proto protoLen src dest).toNat
      = 65535 - residue (byteNumber (pseudoHeader proto protoLen src dest ++ flat p)) := by
  have haddr := toNat_addressSum src dest
  have hchain := toNat_chainLoop (length_le_of_flat hlen) _ (haddr ▸ residue_le _)
  rw [haddr] at hchain
  set acc := addressSum src dest
  set sum := if (chainLoop p false acc).1 then swapBytesInWord (chainLoop p false acc).2
      else (chainLoop p false acc).2
  have hproto := (htons proto.toUInt16).toNat_lt
  have hprotoLen := (htons protoLen).toNat_lt
  have hsum := residue_le (residue (src.toNat + dest.toNat) + byteNumber (flat p))
  have hadd : (sum + (htons proto.toUInt16).toUInt32 + (htons protoLen).toUInt32).toNat
      = residue (residue (src.toNat + dest.toNat) + byteNumber (flat p))
        + (htons proto.toUInt16).toNat + (htons protoLen).toNat := by
    rw [UInt32.toNat_add, UInt32.toNat_add, UInt16.toNat_toUInt32, UInt16.toNat_toUInt32, hchain]
    omega
  have hheader : (pseudoHeader proto protoLen src dest).length % 2 = 0 := by
    simp [pseudoHeader, wordBytes, halfBytes]
  have halike : Alike (residue (residue (src.toNat + dest.toNat) + byteNumber (flat p))
        + (htons proto.toUInt16).toNat + (htons protoLen).toNat)
      (byteNumber (pseudoHeader proto protoLen src dest ++ flat p)) := by
    refine Alike.trans ?_ (alike_byteNumber_append hheader _).symm
    refine Alike.trans ?_ ((alike_pseudoHeader proto protoLen src dest).add (Alike.refl _))
    rw [show ∀ a b c d : ℕ, a + b + c + d = a + d + b + c by intros; omega]
    exact (((alike_residue _).trans ((alike_residue _).add (Alike.refl _))).add
      (Alike.refl _)).add (Alike.refl _)
  have hfold := toNat_foldU32_foldU32
    (sum + (htons proto.toUInt16).toUInt32 + (htons protoLen).toUInt32)
  rw [hadd, alike_iff_residue.mp halike] at hfold
  rw [← hfold]
  exact toNat_complement_and (hfold ▸ residue_le _)

theorem inetChksumPseudo_eq_zero_iff {p : List Segment} (hlen : (flat p).length ≤ 65535)
    (proto : UInt8) (protoLen : UInt16) (src dest : UInt32) :
    inetChksumPseudo p proto protoLen src dest = 0 ↔
      residue (byteNumber (pseudoHeader proto protoLen src dest ++ flat p)) = 65535 := by
  have hle := residue_le (byteNumber (pseudoHeader proto protoLen src dest ++ flat p))
  rw [← UInt16.toNat_inj, toNat_inetChksumPseudo hlen, UInt16.toNat_zero]
  omega

/-! ## Sender and receiver -/

/-- With the checksum where there were zeros the sum is `0xFFFF`; so it is with `0xFFFF` there, if
the checksum is zero. -/
theorem residue_filled {proto : UInt8} {protoLen : UInt16} {src dest : UInt32} {a c : List UInt8}
    (ha : a.length % 2 = 0) {p : List Segment} (hp : flat p = a ++ 0 :: 0 :: c)
    (hlen : (flat p).length ≤ 65535) {h : UInt16}
    (hh : h = inetChksumPseudo p proto protoLen src dest ∨
      inetChksumPseudo p proto protoLen src dest = 0 ∧ h = 0xffff) :
    residue (byteNumber (pseudoHeader proto protoLen src dest ++ (a ++ halfBytes h ++ c)))
      = 65535 := by
  have heven : (pseudoHeader proto protoLen src dest ++ a).length % 2 = 0 := by
    simp only [pseudoHeader, wordBytes, halfBytes, List.length_append, List.length_cons,
      List.length_nil, List.length_reverse]
    omega
  have hplace : ∀ h : UInt16,
      residue (byteNumber (pseudoHeader proto protoLen src dest ++ (a ++ halfBytes h ++ c)))
        = residue (byteNumber (pseudoHeader proto protoLen src dest ++ a) + byteNumber c
          + h.toNat) := fun h ↦ by
    rw [← List.append_assoc, ← List.append_assoc]
    exact alike_iff_residue.mp (alike_halfBytes_between heven h c)
  have hzero : a ++ 0 :: 0 :: c = a ++ halfBytes 0 ++ c := by
    rw [List.append_assoc]
    rfl
  have hsum := toNat_inetChksumPseudo hlen proto protoLen src dest
  rw [hp, hzero, hplace, UInt16.toNat_zero, Nat.add_zero] at hsum
  rw [hplace]
  rcases hh with rfl | ⟨hchk, rfl⟩
  · rw [hsum]
    exact residue_add_sub_residue _
  · have hle := residue_le (byteNumber (pseudoHeader proto protoLen src dest ++ a) + byteNumber c)
    rw [hchk, UInt16.toNat_zero] at hsum
    exact residue_add_of_eq (by omega)

/-- **What is sent is accepted.** The sender computes the checksum with zeros in its place and
stores it there; the receiver, with the packet cut into buffers in any other way, does not drop it.
The checksum of a datagram is never zero, so that it is checked. -/
theorem inputCheck_of_filled {a c : List UInt8} (ha : a.length % 2 = 0) {p q : List Segment}
    (hp : flat p = a ++ 0 :: 0 :: c) (hlen : (flat p).length ≤ 65535) (src dest : UInt32) :
    (flat q = a ++ halfBytes (inetChksumPseudo p 6 (totLen p) src dest) ++ c →
      tcpInputCheck q src dest) ∧
    (flat q = a ++ halfBytes (udpChksum p src dest) ++ c →
      udpChksum p src dest ≠ 0 ∧ udpInputCheck (udpChksum p src dest) q src dest) := by
  have hlength : ∀ h : UInt16, (a ++ halfBytes h ++ c).length = (flat p).length := fun h ↦ by
    rw [hp, List.append_assoc, List.length_append, List.length_append, halfBytes,
      List.length_append, Nat.add_right_inj, Nat.add_comm]
    rfl
  constructor
  · intro hq
    have hlen' : (flat q).length = (flat p).length := hq ▸ hlength _
    have hfull := residue_filled ha hp hlen
      (Or.inl (Eq.refl (inetChksumPseudo p 6 (totLen p) src dest)))
    rw [← hq] at hfull
    rw [tcpInputCheck, beq_iff_eq, totLen, hlen']
    exact (inetChksumPseudo_eq_zero_iff (hlen'.trans_le hlen) 6 _ src dest).mpr hfull
  · intro hq
    have hlen' : (flat q).length = (flat p).length := hq ▸ hlength _
    have hcases : udpChksum p src dest = inetChksumPseudo p 17 (totLen p) src dest ∨
        inetChksumPseudo p 17 (totLen p) src dest = 0 ∧ udpChksum p src dest = 0xffff := by
      rw [udpChksum]
      split_ifs with hzero
      · exact Or.inr ⟨hzero, rfl⟩
      · exact Or.inl rfl
    have hne : udpChksum p src dest ≠ 0 := by
      rw [udpChksum]
      split_ifs with hzero
      · decide
      · exact hzero
    have hfull := residue_filled ha hp hlen hcases
    rw [← hq] at hfull
    refine ⟨hne, ?_⟩
    rw [udpInputCheck, Bool.or_eq_true, beq_iff_eq, beq_iff_eq, totLen, hlen']
    exact Or.inr ((inetChksumPseudo_eq_zero_iff (hlen'.trans_le hlen) 17 _ src dest).mpr hfull)

theorem inputCheck_of_filled_eight :
    udpInputCheck (udpChksum [⟨false, [1, 2, 3, 4, 0, 8, 0, 0]⟩] 0x0100007f 0x0100007f)
      [⟨true, [1, 2, 3]⟩, ⟨false, [4, 0, 8] ++
        halfBytes (udpChksum [⟨false, [1, 2, 3, 4, 0, 8, 0, 0]⟩] 0x0100007f 0x0100007f)⟩]
      0x0100007f 0x0100007f :=
  ((inputCheck_of_filled (a := [1, 2, 3, 4, 0, 8]) (c := [])
    (p := [⟨false, [1, 2, 3, 4, 0, 8, 0, 0]⟩]) (by decide) rfl (by decide) 0x0100007f
    0x0100007f).2 rfl).2

/-- **A damaged byte is found.** Of two packets that differ in one byte, of the packet or of the
addresses, the protocol or the length it comes with, at most one passes. -/
theorem inetChksumPseudo_ne_zero_of_damaged {a c : List UInt8} {b b' : UInt8} (hne : b ≠ b')
    {p q : List Segment} {proto proto' : UInt8} {protoLen protoLen' : UInt16}
    {src src' dest dest' : UInt32} (hlen : (flat p).length ≤ 65535)
    (hp : pseudoHeader proto protoLen src dest ++ flat p = a ++ b :: c)
    (hq : pseudoHeader proto' protoLen' src' dest' ++ flat q = a ++ b' :: c)
    (hpass : inetChksumPseudo p proto protoLen src dest = 0) :
    inetChksumPseudo q proto' protoLen' src' dest' ≠ 0 := by
  have hlen' : (flat q).length ≤ 65535 := by
    have hpl := congrArg List.length hp
    have hql := congrArg List.length hq
    simp only [pseudoHeader, wordBytes, halfBytes, List.length_append, List.length_cons,
      List.length_nil, List.length_reverse] at hpl hql
    omega
  intro hpass'
  rw [inetChksumPseudo_eq_zero_iff hlen, hp] at hpass
  rw [inetChksumPseudo_eq_zero_iff hlen', hq] at hpass'
  exact hne (byte_eq_of_residue hpass hpass')

theorem inetChksumPseudo_ne_zero_of_damaged_two :
    inetChksumPseudo [⟨false, [0xfd, 0xf7]⟩] 6 2 0x1 0x1 = 0 ∧
      inetChksumPseudo [⟨true, [0xfd]⟩, ⟨true, [0xf8]⟩] 6 2 0x1 0x1 ≠ 0 :=
  have hpass : inetChksumPseudo [⟨false, [0xfd, 0xf7]⟩] 6 2 0x1 0x1 = 0 := by decide
  ⟨hpass, inetChksumPseudo_ne_zero_of_damaged (a := pseudoHeader 6 2 1 1 ++ [0xfd]) (c := [])
    (by decide : (0xf7 : UInt8) ≠ 0xf8) (by decide) (by decide) (by decide) hpass⟩

end ZanOS.Lwip
