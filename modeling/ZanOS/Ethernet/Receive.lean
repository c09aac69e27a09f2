import ZanOS.Foundation.Buffer
import ZanOS.Foundation.Word

/-!
# Receiving a frame

`eth_receive` takes one frame out of the controller's receive FIFO through the data register
`MACDATA`, a word at a time. The first word holds the length in its low half and the first two
bytes of the frame in its high half; by the driver's own account the length counts its own two
bytes, so that a length of 64 means 62 bytes of data, two of them in the first word and 60 in the
15 words after it.

The loop does not follow that account. It takes `len - 2`, the number of data bytes in all, for
the number still to be read, and so goes on for two bytes more than the frame has. What it stores
starts with the right bytes (`exists_ethReceive_encodeFrame`), but the number it returns is two too
large for every frame, and for half of the lengths it reads one word of the next frame. No
queue of frames but the empty one is decoded as it was encoded (`Decodes`).

The stores are sound none the less, whatever the FIFO holds: they fill the front of the buffer and
stop at its end (`Fills`), and the number of words read does not depend on the room there is.
-/

namespace ZanOS

open Foundation

/-! ## The controller -/

/-- The receive side of the MAC: the packet count register, the words waiting in the FIFO, what the
data register reads as when there are none, the receive control register, and how often the data
register has been read. -/
structure Mac where
  npv : UInt32
  rxFifo : List UInt32
  idle : UInt32
  rctl : UInt32
  dataReads : ℕ

namespace Mac

/-- A read of `MACDATA`. -/
def readData (mac : Mac) : UInt32 × Mac :=
  match mac.rxFifo with
  | [] => (mac.idle, { mac with dataReads := mac.dataReads + 1 })
  | w :: ws => (w, { mac with rxFifo := ws, dataReads := mac.dataReads + 1 })

/-- A write to `MACRCTL`: `MAC_RCTL_RSTFIFO` empties the FIFO. -/
def writeRctl (mac : Mac) (v : UInt32) : Mac :=
  if v &&& 0x10 ≠ 0 then { mac with rctl := v, rxFifo := [], npv := 0 } else { mac with rctl := v }

/-- The answer to a corrupted FIFO: receiver off, FIFO reset, receiver on. -/
def resetReceiver (mac : Mac) : Mac :=
  let mac := mac.writeRctl (mac.rctl &&& ~~~0x1)
  let mac := mac.writeRctl (mac.rctl ||| 0x10)
  mac.writeRctl (mac.rctl ||| 0x1)

/-- The next `n` words that reads of the data register return. -/
def upcoming (mac : Mac) (n : ℕ) : List UInt32 :=
  mac.rxFifo.take n ++ List.replicate (n - mac.rxFifo.length) mac.idle

/-- The controller after `n` reads of the data register. -/
def drain (mac : Mac) (n : ℕ) : Mac :=
  { mac with rxFifo := mac.rxFifo.drop n, dataReads := mac.dataReads + n }

end Mac

/-! ## The driver -/

section Receive

variable {k : ℕ}

/-- The byte loop over one word: a byte is kept while fewer than `bytesToRead + 2` and fewer than
`maxLen` are stored, and dropped otherwise. -/
def receiveBytes (bytesToRead maxLen : ℕ) (p : Vector UInt8 k) (storedLen : ℕ) :
    List UInt8 → Option (Vector UInt8 k × ℕ)
  | [] => some (p, storedLen)
  | b :: bs =>
      if storedLen < bytesToRead + 2 ∧ storedLen < maxLen then
        match store p storedLen b with
        | none => none
        | some p' => receiveBytes bytesToRead maxLen p' (storedLen + 1) bs
      else receiveBytes bytesToRead maxLen p storedLen bs

/-- The word loop, with `n` words to go. -/
def receiveWords (bytesToRead maxLen : ℕ) (mac : Mac) (p : Vector UInt8 k) (storedLen : ℕ) :
    ℕ → Option (Mac × Vector UInt8 k × ℕ)
  | 0 => some (mac, p, storedLen)
  | n + 1 =>
      match receiveBytes bytesToRead maxLen p storedLen (wordBytes mac.readData.1) with
      | none => none
      | some (p', storedLen') => receiveWords bytesToRead maxLen mac.readData.2 p' storedLen' n

/-- The two bytes of the first word that belong to the frame. -/
def receiveFirst (lenWord : UInt32) (maxLen : ℕ) (p : Vector UInt8 k) :
    Option (Vector UInt8 k × ℕ) :=
  if 2 ≤ maxLen then (storeAll p 0 [wordByte lenWord 2, wordByte lenWord 3]).map fun p' ↦ (p', 2)
  else some (p, 0)

/-- `eth_receive`: the controller and the buffer afterwards, and the number of bytes stored. -/
def ethReceive (mac : Mac) (buffer : Vector UInt8 k) (maxLen : ℕ) :
    Option (Mac × Vector UInt8 k × ℕ) :=
  if mac.npv &&& 0xFF = 0 then some (mac, buffer, 0)
  else
    let lenWord := mac.readData.1
    let len := (lenWord &&& 0xFFFF).toNat
    if len = 0 ∨ 1522 < len then some (mac.readData.2.resetReceiver, buffer, 0)
    else
      match receiveFirst lenWord maxLen buffer with
      | none => none
      | some (p, storedLen) =>
          let bytesToRead := if 2 < len then len - 2 else 0
          let wordsToRead := (bytesToRead + 3) / 4
          receiveWords bytesToRead maxLen mac.readData.2 p storedLen wordsToRead

/-! ## The loops -/

theorem Mac.upcoming_succ (mac : Mac) (n : ℕ) :
    mac.upcoming (n + 1) = mac.readData.1 :: mac.readData.2.upcoming n := by
  rw [Mac.upcoming, Mac.upcoming, Mac.readData]
  cases mac.rxFifo with
  | nil => simp [List.replicate_succ]
  | cons w ws => simp

theorem Mac.drain_succ (mac : Mac) (n : ℕ) : mac.drain (n + 1) = mac.readData.2.drain n := by
  rw [Mac.drain, Mac.drain, Mac.readData]
  cases mac.rxFifo with
  | nil => simp [Nat.add_assoc, Nat.add_comm 1 n]
  | cons w ws => simp [Nat.add_assoc, Nat.add_comm 1 n]

theorem Mac.length_upcoming (mac : Mac) (n : ℕ) : (mac.upcoming n).length = n := by
  rw [Mac.upcoming, List.length_append, List.length_take, List.length_replicate]
  omega

theorem receiveBytes_append (bytesToRead maxLen : ℕ) (p : Vector UInt8 k) (storedLen : ℕ)
    (bs cs : List UInt8) :
    receiveBytes bytesToRead maxLen p storedLen (bs ++ cs)
      = (receiveBytes bytesToRead maxLen p storedLen bs).bind fun r ↦
          receiveBytes bytesToRead maxLen r.1 r.2 cs := by
  induction bs generalizing p storedLen with
  | nil => rfl
  | cons b bs ih =>
    rw [List.cons_append, receiveBytes, receiveBytes]
    split_ifs with h
    · cases store p storedLen b with
      | none => rfl
      | some p' => exact ih p' (storedLen + 1)
    · exact ih p storedLen

/-- The byte loop keeps a first part of the bytes: as many as the smaller bound has room for. -/
theorem receiveBytes_eq_storeAll (bytesToRead maxLen : ℕ) (p : Vector UInt8 k) (storedLen : ℕ)
    (bs : List UInt8) :
    receiveBytes bytesToRead maxLen p storedLen bs
      = (storeAll p storedLen (bs.take (min (bytesToRead + 2) maxLen - storedLen))).map fun p' ↦
          (p', storedLen + min (min (bytesToRead + 2) maxLen - storedLen) bs.length) := by
  induction bs generalizing p storedLen with
  | nil => simp [receiveBytes]
  | cons b bs ih =>
    rw [receiveBytes]
    split_ifs with h
    · obtain ⟨m, hm⟩ : ∃ m, min (bytesToRead + 2) maxLen - storedLen = m + 1 :=
        ⟨min (bytesToRead + 2) maxLen - (storedLen + 1), by omega⟩
      have hm' : min (bytesToRead + 2) maxLen - (storedLen + 1) = m := by omega
      rw [hm, List.take_succ_cons, storeAll, List.length_cons, Nat.add_min_add_right]
      cases store p storedLen b with
      | none => rfl
      | some p' =>
        simp only
        rw [ih, hm']
        congr 1
        funext p''
        rw [Nat.add_right_comm, Nat.add_assoc]
    · -- the bound is reached: nothing of the rest is kept either
      have hm : min (bytesToRead + 2) maxLen - storedLen = 0 := by omega
      rw [ih, hm]
      simp

theorem receiveWords_eq_receiveBytes (bytesToRead maxLen n : ℕ) (mac : Mac) (p : Vector UInt8 k)
    (storedLen : ℕ) :
    receiveWords bytesToRead maxLen mac p storedLen n
      = (receiveBytes bytesToRead maxLen p storedLen ((mac.upcoming n).flatMap wordBytes)).map
          fun r ↦ (mac.drain n, r.1, r.2) := by
  induction n generalizing mac p storedLen with
  | zero => simp [receiveWords, Mac.upcoming, Mac.drain, receiveBytes]
  | succ n ih =>
    rw [receiveWords, Mac.upcoming_succ, List.flatMap_cons, receiveBytes_append, Mac.drain_succ]
    cases receiveBytes bytesToRead maxLen p storedLen (wordBytes mac.readData.1) with
    | none => rfl
    | some r => exact ih mac.readData.2 r.1 r.2

/-- How many bytes of a frame of length `len` are stored. -/
def storedCount (len maxLen : ℕ) : ℕ := min (len - 2 + 2) maxLen

/-- How many words of a frame of length `len` are read. -/
def wordCount (len : ℕ) : ℕ := (len - 2 + 3) / 4 + 1

/-- **What `eth_receive` takes and stores.** With a packet waiting and a length it accepts, it
reads `wordCount len` words whatever room there is, and fills the front of the buffer with their
bytes from the third on. -/
theorem exists_ethReceive (mac : Mac) (buffer : Vector UInt8 k) {maxLen len : ℕ} (hk : maxLen ≤ k)
    (h₂ : 2 ≤ maxLen) (hnpv : mac.npv &&& 0xFF ≠ 0)
    (hlen : (mac.readData.1 &&& 0xFFFF).toNat = len) (hpos : len ≠ 0) (hle : len ≤ 1522) :
    ∃ buffer', ethReceive mac buffer maxLen
        = some (mac.drain (wordCount len), buffer', storedCount len maxLen) ∧
      buffer'.toList = splice buffer.toList 0
        ((((mac.upcoming (wordCount len)).flatMap wordBytes).drop 2).take
          (storedCount len maxLen)) := by
  have hbytes : (if 2 < len then len - 2 else 0) = len - 2 := by
    split_ifs <;> omega
  obtain ⟨p, hfirst, hp⟩ := exists_storeAll buffer
    (show 0 + [wordByte mac.readData.1 2, wordByte mac.readData.1 3].length ≤ k from h₂.trans hk)
  set bs := (mac.readData.2.upcoming ((len - 2 + 3) / 4)).flatMap wordBytes with hbs
  have hcount : storedCount len maxLen - 2 ≤ bs.length := by
    rw [storedCount, hbs, length_flatMap_wordBytes, Mac.length_upcoming]
    omega
  have htwo : 2 ≤ storedCount len maxLen := le_min (by omega) h₂
  have hkept : (bs.take (storedCount len maxLen - 2)).length = storedCount len maxLen - 2 :=
    List.length_take_of_le hcount
  have hroom : storedCount len maxLen ≤ k := (min_le_right _ _).trans hk
  obtain ⟨buffer', hrest, hbuffer'⟩ := exists_storeAll p
    (show 2 + (bs.take (storedCount len maxLen - 2)).length ≤ k by omega)
  refine ⟨buffer', ?_, ?_⟩
  · rw [ethReceive, if_neg hnpv]
    simp only
    rw [hlen, if_neg (by omega), receiveFirst, if_pos h₂, hfirst]
    simp only [Option.map_some]
    rw [hbytes, receiveWords_eq_receiveBytes, receiveBytes_eq_storeAll, ← hbs, ← storedCount, hrest,
      min_eq_left hcount, wordCount, Mac.drain_succ]
    simp only [Option.map_some]
    rw [Nat.add_sub_cancel' htwo]
  · have hsplit : (((mac.upcoming (wordCount len)).flatMap wordBytes).drop 2).take
        (storedCount len maxLen)
        = [wordByte mac.readData.1 2, wordByte mac.readData.1 3]
          ++ bs.take (storedCount len maxLen - 2) := by
      rw [wordCount, Mac.upcoming_succ, List.flatMap_cons, wordBytes, ← hbs]
      obtain ⟨m, hm⟩ : ∃ m, storedCount len maxLen = m + 2 :=
        ⟨storedCount len maxLen - 2, by omega⟩
      rw [hm]
      rfl
    rw [hsplit, hbuffer', hp]
    exact splice_splice (show 0 + 2 ≤ buffer.toList.length by simpa using h₂.trans hk)

/-! ## Any contents of the FIFO -/

/-- A buffer with room for one byte at most: the two bytes of the first word are skipped, and the
words are read all the same. -/
theorem exists_ethReceive_of_lt_two (mac : Mac) (buffer : Vector UInt8 k) {maxLen len : ℕ}
    (hk : maxLen ≤ k) (h₂ : maxLen < 2) (hnpv : mac.npv &&& 0xFF ≠ 0)
    (hlen : (mac.readData.1 &&& 0xFFFF).toNat = len) (hpos : len ≠ 0) (hle : len ≤ 1522) :
    ∃ buffer', ethReceive mac buffer maxLen
        = some (mac.drain (wordCount len), buffer',
          ((((mac.upcoming (wordCount len)).flatMap wordBytes).drop 4).take maxLen).length) ∧
      buffer'.toList = splice buffer.toList 0
        ((((mac.upcoming (wordCount len)).flatMap wordBytes).drop 4).take maxLen) := by
  have hbytes : (if 2 < len then len - 2 else 0) = len - 2 := by
    split_ifs <;> omega
  have hmin : min (len - 2 + 2) maxLen - 0 = maxLen := by omega
  have hdrop : ((mac.upcoming (wordCount len)).flatMap wordBytes).drop 4
      = (mac.readData.2.upcoming ((len - 2 + 3) / 4)).flatMap wordBytes := by
    rw [wordCount, Mac.upcoming_succ, List.flatMap_cons, wordBytes]
    rfl
  rw [hdrop]
  set bs := (mac.readData.2.upcoming ((len - 2 + 3) / 4)).flatMap wordBytes with hbs
  obtain ⟨buffer', hstore, hbuffer'⟩ := exists_storeAll buffer
    (show 0 + (bs.take maxLen).length ≤ k by rw [List.length_take]; omega)
  refine ⟨buffer', ?_, hbuffer'⟩
  rw [ethReceive, if_neg hnpv]
  simp only
  rw [hlen, if_neg (by omega), receiveFirst, if_neg (by omega)]
  simp only
  rw [hbytes, receiveWords_eq_receiveBytes, receiveBytes_eq_storeAll, ← hbs, hmin, hstore,
    wordCount, Mac.drain_succ, List.length_take, Nat.zero_add]
  rfl

/-- Whatever array of at least `maxLen` cells the call is given, it puts `bytes` in front, leaves
the rest as it is, and returns their number. -/
def Fills (mac : Mac) (maxLen : ℕ) (mac' : Mac) (bytes : List UInt8) : Prop :=
  ∀ (k : ℕ) (buffer : Vector UInt8 k), maxLen ≤ k → ∃ buffer',
    ethReceive mac buffer maxLen = some (mac', buffer', bytes.length) ∧
      buffer'.toList = splice buffer.toList 0 bytes

/-- The length in the low half of the first word. -/
def Mac.frameLength (mac : Mac) : ℕ := (mac.readData.1 &&& 0xFFFF).toNat

theorem exists_ethReceive_refused (mac : Mac) (maxLen : ℕ)
    (h : mac.npv &&& 0xFF = 0 ∨ mac.frameLength = 0 ∨ 1522 < mac.frameLength) :
    ∃ mac', ∀ (k : ℕ) (buffer : Vector UInt8 k),
      ethReceive mac buffer maxLen = some (mac', buffer, 0) := by
  by_cases hnpv : mac.npv &&& 0xFF = 0
  · exact ⟨mac, fun k buffer ↦ by rw [ethReceive, if_pos hnpv]⟩
  · refine ⟨mac.readData.2.resetReceiver, fun k buffer ↦ ?_⟩
    rw [ethReceive, if_neg hnpv]
    exact if_pos (h.resolve_left hnpv)

/-- A call that takes a packet reads as many words as its length asks for, and fills the buffer as
far as it goes. -/
theorem exists_fills (mac : Mac) (maxLen : ℕ) (hnpv : mac.npv &&& 0xFF ≠ 0)
    (hpos : mac.frameLength ≠ 0) (hle : mac.frameLength ≤ 1522) :
    ∃ bytes, bytes.length ≤ maxLen ∧
      Fills mac maxLen (mac.drain (wordCount mac.frameLength)) bytes ∧
      (2 ≤ maxLen → bytes.length = storedCount mac.frameLength maxLen) := by
  set bs := (mac.upcoming (wordCount mac.frameLength)).flatMap wordBytes with hbs
  by_cases h₂ : 2 ≤ maxLen
  · have hcount : ((bs.drop 2).take (storedCount mac.frameLength maxLen)).length
        = storedCount mac.frameLength maxLen := by
      apply List.length_take_of_le
      rw [hbs, List.length_drop, length_flatMap_wordBytes, Mac.length_upcoming, wordCount,
        storedCount]
      omega
    refine ⟨_, hcount.trans_le (min_le_right _ _), fun k buffer hk ↦ ?_, fun _ ↦ hcount⟩
    rw [hcount]
    exact exists_ethReceive mac buffer hk h₂ hnpv rfl hpos hle
  · refine ⟨(bs.drop 4).take maxLen, List.length_take_le _ _, fun k buffer hk ↦ ?_,
      fun h ↦ absurd h h₂⟩
    exact exists_ethReceive_of_lt_two mac buffer hk (Nat.lt_of_not_le h₂) hnpv rfl hpos hle

/-- **`eth_receive` is safe on any contents of the FIFO.** It fills the front of the buffer and
stays below `maxLen`. With no packet pending, or a length of zero or above 1522, it stores nothing;
otherwise the words it reads are those the length asks for, so that a buffer that is too small
cuts the frame off and leaves no part of it in the FIFO. -/
theorem ethReceive_safe (mac : Mac) (maxLen : ℕ) :
    ∃ mac' bytes, bytes.length ≤ maxLen ∧ Fills mac maxLen mac' bytes ∧
      (mac.npv &&& 0xFF = 0 ∨ mac.frameLength = 0 ∨ 1522 < mac.frameLength →
        ∀ (k : ℕ) (buffer : Vector UInt8 k),
          ethReceive mac buffer maxLen = some (mac', buffer, 0)) ∧
      (mac.npv &&& 0xFF ≠ 0 → mac.frameLength ≠ 0 → mac.frameLength ≤ 1522 →
        (2 ≤ maxLen → bytes.length = min maxLen (max mac.frameLength 2)) ∧
          mac'.dataReads = mac.dataReads + (1 + (mac.frameLength - 2 + 3) / 4)) := by
  by_cases h : mac.npv &&& 0xFF = 0 ∨ mac.frameLength = 0 ∨ 1522 < mac.frameLength
  · obtain ⟨mac', hmac'⟩ := exists_ethReceive_refused mac maxLen h
    refine ⟨mac', [], Nat.zero_le _, fun k buffer _ ↦ ?_, fun _ ↦ hmac', fun hnpv hpos hle ↦ ?_⟩
    · exact ⟨buffer, hmac' k buffer, (splice_nil _ _).symm⟩
    · rcases h with h | h | h
      · exact absurd h hnpv
      · exact absurd h hpos
      · exact absurd hle (Nat.not_le_of_lt h)
  · obtain ⟨hnpv, hpos, hle⟩ : mac.npv &&& 0xFF ≠ 0 ∧ mac.frameLength ≠ 0 ∧
        mac.frameLength ≤ 1522 := by
      rwa [not_or, not_or, not_lt] at h
    obtain ⟨bytes, hbytes, hfills, hcount⟩ := exists_fills mac maxLen hnpv hpos hle
    refine ⟨_, bytes, hbytes, hfills, fun h' ↦ absurd h' h, fun _ _ _ ↦ ⟨fun h₂ ↦ ?_, ?_⟩⟩
    · rw [hcount h₂, storedCount]
      omega
    · rw [Mac.drain, wordCount, Nat.add_comm 1]

/-! ## Frames as the driver describes them -/

/-- The bytes of a frame in the FIFO: the length, which counts itself, low byte first, and the
data. -/
def frameBytes (d : List UInt8) : List UInt8 :=
  UInt8.ofNat (d.length + 2) :: UInt8.ofNat ((d.length + 2) / 2 ^ 8) :: d

/-- The words of a frame in the FIFO. -/
def encodeFrame (d : List UInt8) : List UInt32 := leWords (frameBytes d)

theorem length_encodeFrame (d : List UInt8) : (encodeFrame d).length = (d.length + 5) / 4 := by
  rw [encodeFrame, length_leWords, frameBytes, List.length_cons, List.length_cons]

theorem exists_encodeFrame_cons (d : List UInt8) (h : d.length ≤ 1520) :
    ∃ w ws, encodeFrame d = w :: ws ∧ (w &&& 0xFFFF).toNat = d.length + 2 := by
  have hlow : ∀ c e : UInt8, (leWord (UInt8.ofNat (d.length + 2))
      (UInt8.ofNat ((d.length + 2) / 2 ^ 8)) c e &&& 0xFFFF).toNat = d.length + 2 := by
    intro c e
    rw [toNat_leWord_and, UInt8.toNat_ofNat', UInt8.toNat_ofNat']
    omega
  rw [encodeFrame, frameBytes]
  match d with
  | [] => exact ⟨_, _, rfl, hlow 0 0⟩
  | [a] => exact ⟨_, _, rfl, hlow a 0⟩
  | a :: b :: d => exact ⟨_, _, rfl, hlow a b⟩

/-- **A frame as it is received.** The data arrives in front, followed by two bytes that are not
the frame's, and the two are counted. -/
theorem exists_ethReceive_encodeFrame (mac : Mac) (buffer : Vector UInt8 k) {maxLen : ℕ}
    {d : List UInt8} {rest : List UInt32} (hfifo : mac.rxFifo = encodeFrame d ++ rest)
    (hnpv : mac.npv &&& 0xFF ≠ 0) (hd : d.length ≤ 1520) (hmax : d.length + 2 ≤ maxLen)
    (hk : maxLen ≤ k) :
    ∃ buffer', ethReceive mac buffer maxLen
        = some (mac.drain ((d.length + 3) / 4 + 1), buffer', d.length + 2) ∧
      buffer'.toList.take d.length = d := by
  obtain ⟨w, ws, hw, hlen⟩ := exists_encodeFrame_cons d hd
  have hread : mac.readData.1 = w := by
    rw [Mac.readData, hfifo, hw]
    rfl
  obtain ⟨buffer', hreceive, hbuffer'⟩ := exists_ethReceive mac buffer hk (by omega) hnpv
    (by rw [hread, hlen]) (by omega) (by omega)
  have hwords : wordCount (d.length + 2) = (d.length + 3) / 4 + 1 := rfl
  have hstored : storedCount (d.length + 2) maxLen = d.length + 2 := min_eq_left hmax
  rw [hwords, hstored] at hreceive hbuffer'
  refine ⟨buffer', hreceive, ?_⟩
  -- the words of the frame come first, so the bytes stored start with the data
  have htake : (mac.upcoming ((d.length + 3) / 4 + 1)).take (encodeFrame d).length
      = encodeFrame d := by
    have hlt : (encodeFrame d).length ≤ (d.length + 3) / 4 + 1 := by
      rw [length_encodeFrame]
      omega
    rw [Mac.upcoming, hfifo, List.take_append_of_le_length, List.take_take, min_eq_left hlt,
      List.take_left]
    rw [List.length_take, List.length_append]
    omega
  obtain ⟨n, hn⟩ := bytes_leWords (frameBytes d)
  have hstart : ∃ more, ((mac.upcoming ((d.length + 3) / 4 + 1)).flatMap wordBytes).drop 2
      = d ++ more := by
    rw [← List.take_append_drop (encodeFrame d).length (mac.upcoming ((d.length + 3) / 4 + 1)),
      htake, List.flatMap_append, encodeFrame, hn, frameBytes]
    exact ⟨_, by simp [List.append_assoc]; rfl⟩
  obtain ⟨more, hmore⟩ := hstart
  rw [hbuffer', hmore, splice_zero, List.take_append_of_le_length, List.take_take,
    min_eq_left (by omega), List.take_left]
  rw [List.length_take]
  have hbytes := congrArg List.length hmore
  rw [List.length_drop, length_flatMap_wordBytes, Mac.length_upcoming, List.length_append] at hbytes
  rw [List.length_append]
  omega

/-! ## A queue of frames -/

/-- What is expected of successive calls: each, given with what the packet count register reads at
its time, returns the size of its frame and the frame, and takes the words of that frame from the
FIFO and no others; after the last the FIFO is empty. -/
def Decodes (maxLen : ℕ) : Mac → Vector UInt8 k → List (UInt32 × List UInt8) → Prop
  | mac, _, [] => mac.rxFifo = []
  | mac, buffer, (npv, d) :: calls => ∃ mac' buffer',
      ethReceive { mac with npv := npv } buffer maxLen = some (mac', buffer', d.length) ∧
      buffer'.toList.take d.length = d ∧
      mac'.dataReads = mac.dataReads + (encodeFrame d).length ∧
      mac'.rxFifo = mac.rxFifo.drop (encodeFrame d).length ∧
      Decodes maxLen mac' buffer' calls

/-- **No frame is received as it was queued.** Whatever the packet count register reads, and with
room for every frame, the calls return what the FIFO was filled with only if that was nothing. -/
theorem decodes_iff_eq_nil (mac : Mac) (buffer : Vector UInt8 k) {maxLen : ℕ}
    (calls : List (UInt32 × List UInt8)) (hk : maxLen ≤ k)
    (hfifo : mac.rxFifo = calls.flatMap fun c ↦ encodeFrame c.2)
    (hsize : ∀ c ∈ calls, 1 ≤ c.2.length ∧ c.2.length ≤ 1520)
    (hmax : ∀ c ∈ calls, c.2.length + 2 ≤ maxLen) :
    Decodes maxLen mac buffer calls ↔ calls = [] := by
  constructor
  · intro hdecodes
    match calls with
    | [] => rfl
    | (npv, d) :: calls =>
      obtain ⟨mac', buffer', hreceive, -⟩ := hdecodes
      obtain ⟨hpos, hle⟩ : 1 ≤ d.length ∧ d.length ≤ 1520 := hsize (npv, d) List.mem_cons_self
      by_cases hnpv : npv &&& 0xFF = 0
      · rw [ethReceive, if_pos hnpv] at hreceive
        have hlen : 0 = d.length := congrArg (fun r ↦ r.2.2) (Option.some.inj hreceive)
        omega
      · obtain ⟨buffer'', hreceive', -⟩ :=
          exists_ethReceive_encodeFrame { mac with npv := npv } buffer hfifo hnpv hle
            (hmax (npv, d) List.mem_cons_self) hk
        rw [hreceive'] at hreceive
        have hlen : d.length + 2 = d.length :=
          congrArg (fun r ↦ r.2.2) (Option.some.inj hreceive)
        omega
  · rintro rfl
    exact hfifo

/-- Three bytes of data in a FIFO of their own: even where the word count comes out right, the
number returned does not. -/
theorem not_decodes_three_bytes :
    ¬ Decodes 1518 ⟨1, encodeFrame [1, 2, 3], 0, 1, 0⟩ (Vector.replicate 1518 0)
      [(1, [1, 2, 3])] := by
  rw [decodes_iff_eq_nil _ _ _ le_rfl (by simp) (by simp) (by simp)]
  exact List.cons_ne_nil _ _

/-- The driver's own example, a frame of length 64 in front of another: 64 bytes are returned for
62 bytes of data, and 17 words are taken where 16 belong to the frame. -/
theorem not_decodes_length_64 :
    (ethReceive ⟨1, encodeFrame (List.replicate 62 170) ++ encodeFrame [1, 2, 3], 0, 1, 0⟩
        (Vector.replicate 1518 0) 1518).map (fun r ↦ (r.2.2, r.1.dataReads)) = some (64, 17) ∧
      ¬ Decodes 1518 ⟨1, encodeFrame (List.replicate 62 170) ++ encodeFrame [1, 2, 3], 0, 1, 0⟩
        (Vector.replicate 1518 0) [(1, List.replicate 62 170), (1, [1, 2, 3])] := by
  have hout : (ethReceive ⟨1, encodeFrame (List.replicate 62 170) ++ encodeFrame [1, 2, 3], 0, 1, 0⟩
      (Vector.replicate 1518 0) 1518).map (fun r ↦ (r.2.2, r.1.dataReads)) = some (64, 17) := by
    decide +kernel
  refine ⟨hout, ?_⟩
  rintro ⟨mac', buffer', hreceive, -⟩
  have hreceive' : ethReceive
      ⟨1, encodeFrame (List.replicate 62 170) ++ encodeFrame [1, 2, 3], 0, 1, 0⟩
      (Vector.replicate 1518 0) 1518 = some (mac', buffer', 62) := hreceive
  rw [hreceive'] at hout
  exact absurd (show 62 = 64 from congrArg Prod.fst (Option.some.inj hout)) (by decide)

end Receive

end ZanOS
