import Mathlib.Algebra.BigOperators.Group.List.Basic
import ZanOS.Ethernet.Receive

/-!
# Sending a frame

`eth_send` writes the length to the data register `MACDATA`, then the frame four bytes a word, and
starts the transmission. The last word may be only partly covered by the frame; the bytes behind
the end are left zero, and are not read. `low_level_output` puts a chain of segments together in a
local array for it, which nothing has initialised: what it has not stored it must not send.

Memory is read here through a function `load` of the index, which has no result outside the object,
or where nothing has been stored yet. So a call that has a result has read nothing else.

The last section puts the two sides of the driver together. `eth_receive` takes the first two bytes
of the frame from the high half of the length word; `eth_send` leaves that half empty. What one
side sends the other does not receive, unless there is nothing but zeros in it (`Agrees`).
-/

namespace ZanOS

open Foundation

/-! ## The driver -/

/-- The registers `eth_send` uses. -/
inductive MacReg
  | data
  | tr
  | ris
  | iack
  deriving DecidableEq

/-- An access to one of them, with the value written or read. -/
inductive MacAccess
  | write (reg : MacReg) (v : UInt32)
  | read (reg : MacReg) (v : UInt32)
  deriving DecidableEq

/-- `if (i < len) word |= p[i] << shift`. -/
def sendByte (load : ℕ → Option UInt8) (len i : ℕ) (shift word : UInt32) : Option UInt32 :=
  if i < len then (load i).map fun b ↦ word ||| b.toUInt32 <<< shift else some word

/-- The word at index `i` of the frame. -/
def sendWord (load : ℕ → Option UInt8) (len i : ℕ) : Option UInt32 := do
  let word := (← load i).toUInt32
  let word ← sendByte load len (i + 1) 8 word
  let word ← sendByte load len (i + 2) 16 word
  sendByte load len (i + 3) 24 word

/-- The values of the loop variable: `0`, `4`, `8` and so on below `len`. -/
def sendIndices (len : ℕ) : List ℕ := (List.range ((len + 3) / 4)).map (4 * ·)

/-- The word with the length. -/
def lengthWord (len : UInt32) : UInt32 :=
  (len &&& (0xFF : UInt32)) ||| (((len >>> 8) &&& 0xFF) <<< 8)

/-- The wait for `MAC_INT_TXEMP`, with `n` tests left; `ris` is what the register reads as, test by
test. -/
def waitTxEmpty (ris : ℕ → UInt32) (i : ℕ) : ℕ → List MacAccess
  | 0 => []
  | n + 1 =>
      .read .ris (ris i) :: if ris i &&& 0x40 ≠ 0 then [] else waitTxEmpty ris (i + 1) n

/-- `eth_send`: the accesses to the controller. -/
def ethSend (ris : ℕ → UInt32) (load : ℕ → Option UInt8) (len : ℕ) : Option (List MacAccess) :=
  ((sendIndices len).mapM (sendWord load len)).map fun words ↦
    .write .data (lengthWord (UInt32.ofNat len)) :: words.map (.write .data) ++ [.write .tr 1]
      ++ waitTxEmpty ris 0 1000 ++ [.write .iack 0x40]

/-- The words written to `MACDATA`. -/
def dataWords (accesses : List MacAccess) : List UInt32 :=
  accesses.filterMap fun
    | .write .data v => some v
    | _ => none

/-! ## The words -/

theorem sendIndices_add_four (len : ℕ) :
    sendIndices (len + 4) = 0 :: (sendIndices len).map (· + 4) := by
  have hcount : (len + 4 + 3) / 4 = (len + 3) / 4 + 1 := by omega
  rw [sendIndices, sendIndices, hcount, List.range_succ_eq_map, List.map_cons, List.map_map,
    List.map_map]
  rfl

theorem sendIndices_of_le_four {len : ℕ} (hpos : 0 < len) (hle : len ≤ 4) :
    sendIndices len = [0] := by
  rw [sendIndices, show (len + 3) / 4 = 1 by omega]
  rfl

theorem sendWord_add (load : ℕ → Option UInt8) (len i j : ℕ) :
    sendWord load (len + j) (i + j) = sendWord (fun k ↦ load (k + j)) len i := by
  simp only [sendWord, sendByte, Nat.add_right_comm _ j, Nat.add_lt_add_iff_right]

section Frame

variable {load : ℕ → Option UInt8} {f : List UInt8}

theorem sendByte_eq (hload : ∀ i < f.length, load i = f[i]?) (i : ℕ) (shift word : UInt32) :
    sendByte load f.length i shift word
      = some (word ||| (f.getD i 0).toUInt32 <<< shift) := by
  rw [sendByte, List.getD_eq_getElem?_getD]
  split_ifs with hi
  · rw [hload i hi, List.getElem?_eq_getElem hi]
    rfl
  · rw [List.getElem?_eq_none (by omega)]
    simp

theorem sendWord_zero (hload : ∀ i < f.length, load i = f[i]?) (hf : f ≠ []) :
    sendWord load f.length 0
      = some (leWord (f.getD 0 0) (f.getD 1 0) (f.getD 2 0) (f.getD 3 0)) := by
  obtain ⟨a, l, rfl⟩ := List.exists_cons_of_ne_nil hf
  have h₀ : load 0 = some a := hload 0 (by simp)
  rw [leWord_eq_or, sendWord, h₀, ← sendByte_eq hload 3]
  simp only [Option.bind_eq_bind, Option.bind_some, Nat.zero_add]
  rw [sendByte_eq hload, Option.bind_some, sendByte_eq hload, Option.bind_some]
  rfl

theorem mapM_sendWord_of_le_four (hload : ∀ i < f.length, load i = f[i]?) (hf : f ≠ [])
    (hle : f.length ≤ 4) :
    (sendIndices f.length).mapM (sendWord load f.length)
      = some [leWord (f.getD 0 0) (f.getD 1 0) (f.getD 2 0) (f.getD 3 0)] := by
  rw [sendIndices_of_le_four (List.length_pos_iff.mpr hf) hle, List.mapM_cons,
    sendWord_zero hload hf]
  rfl

/-- **The loop of `eth_send`**: the frame, cut into words. -/
theorem mapM_sendWord (hload : ∀ i < f.length, load i = f[i]?) :
    (sendIndices f.length).mapM (sendWord load f.length) = some (leWords f) := by
  fun_induction leWords f generalizing load with
  | case1 => rfl
  | case2 a => exact mapM_sendWord_of_le_four hload (by simp) (by simp)
  | case3 a b => exact mapM_sendWord_of_le_four hload (by simp) (by simp)
  | case4 a b c => exact mapM_sendWord_of_le_four hload (by simp) (by simp)
  | case5 a b c d f ih =>
    -- behind the first word, the loop is that for the rest of the frame, read four places on
    have hrest : (sendIndices f.length).mapM (fun i ↦ sendWord load (f.length + 4) (i + 4))
        = some (leWords f) := by
      simp only [sendWord_add]
      exact ih fun i hi ↦ hload (i + 4) (by simpa using hi)
    have hfirst := sendWord_zero hload (by simp)
    have hlen : (a :: b :: c :: d :: f).length = f.length + 4 := rfl
    rw [hlen] at hfirst ⊢
    rw [sendIndices_add_four, List.mapM_cons, hfirst, List.mapM_map]
    simp only [Function.comp_def]
    rw [hrest]
    rfl

theorem dataWords_map_write (ws : List UInt32) :
    dataWords (ws.map (.write .data)) = ws := by
  simp [dataWords, List.filterMap_map]

theorem dataWords_waitTxEmpty (ris : ℕ → UInt32) (i n : ℕ) :
    dataWords (waitTxEmpty ris i n) = [] := by
  induction n generalizing i with
  | zero => rfl
  | succ n ih =>
    rw [waitTxEmpty, dataWords, List.filterMap_cons_none rfl]
    split_ifs with h
    · rfl
    · exact ih (i + 1)

theorem dataWords_append (as bs : List MacAccess) :
    dataWords (as ++ bs) = dataWords as ++ dataWords bs := List.filterMap_append

/-- **What `eth_send` writes to the data register**: the length, and the frame in words. -/
theorem exists_ethSend (ris : ℕ → UInt32) (hload : ∀ i < f.length, load i = f[i]?) :
    ∃ accesses, ethSend ris load f.length = some accesses ∧
      dataWords accesses = lengthWord (UInt32.ofNat f.length) :: leWords f := by
  rw [ethSend, mapM_sendWord hload]
  refine ⟨_, rfl, ?_⟩
  rw [dataWords_append, dataWords_append, dataWords_append, dataWords_waitTxEmpty,
    ← List.singleton_append, dataWords_append, dataWords_map_write]
  simp [dataWords]

end Frame

theorem lengthWord_ofNat {n : ℕ} (h : n < 2 ^ 16) :
    lengthWord (UInt32.ofNat n) = UInt32.ofNat n := by
  have hn : (UInt32.ofNat n).toNat = n :=
    UInt32.toNat_ofNat_of_lt' (by simp only [UInt32.size]; omega)
  have hlow : n % 2 ^ 8 < 2 ^ 8 := Nat.mod_lt _ (by decide)
  apply UInt32.toNat_inj.mp
  rw [lengthWord, UInt32.toNat_or, UInt32.toNat_and, UInt32.toNat_shiftLeft, UInt32.toNat_and,
    UInt32.toNat_shiftRight, hn, show (0xFF : UInt32).toNat = 2 ^ 8 - 1 from rfl,
    show (8 : UInt32).toNat % 32 = 8 from rfl, Nat.and_two_pow_sub_one_eq_mod,
    Nat.and_two_pow_sub_one_eq_mod, Nat.shiftRight_eq_div_pow]
  have hfit : (n / 2 ^ 8 % 2 ^ 8) <<< 8 % 2 ^ 32 = (n / 2 ^ 8 % 2 ^ 8) <<< 8 := by
    rw [Nat.shiftLeft_eq]
    omega
  rw [hfit, or_shiftLeft_of_lt hlow]
  omega

/-! ## A chain of segments -/

/-- The copying loop of `low_level_output`: the array and the number of bytes in it. A segment that
does not fit ends the loop. -/
def copyChain (buffer : Vector (Option UInt8) 1518) (len : ℕ) :
    List (List UInt8) → Option (Vector (Option UInt8) 1518 × ℕ)
  | [] => some (buffer, len)
  | payload :: chain =>
      if 1518 < len + payload.length then some (buffer, len)
      else
        match storeAll buffer len (payload.map some) with
        | none => none
        | some buffer' => copyChain buffer' (len + payload.length) chain

/-- A local array before anything is stored in it. -/
def uninitialised : Vector (Option UInt8) 1518 := Vector.replicate 1518 none

/-- `low_level_output`, on the payloads of a chain: the accesses to the controller. -/
def lowLevelOutput (ris : ℕ → UInt32) (chain : List (List UInt8)) : Option (List MacAccess) :=
  match copyChain uninitialised 0 chain with
  | none => none
  | some (buffer, len) => ethSend ris (fun i ↦ buffer[i]?.join) len

/-- The chain is copied as a whole where it fits: behind what is there, and with nothing else
changed. -/
theorem exists_copyChain (buffer : Vector (Option UInt8) 1518) (len : ℕ) (chain : List (List UInt8))
    (h : len + chain.flatten.length ≤ 1518) :
    ∃ buffer', copyChain buffer len chain = some (buffer', len + chain.flatten.length) ∧
      buffer'.toList = splice buffer.toList len (chain.flatten.map some) := by
  induction chain generalizing buffer len with
  | nil => exact ⟨buffer, rfl, (splice_nil _ _).symm⟩
  | cons payload chain ih =>
    rw [List.flatten_cons, List.length_append] at h
    obtain ⟨mid, hmid, hsplice⟩ := exists_storeAll buffer
      (show len + (payload.map some).length ≤ 1518 by rw [List.length_map]; omega)
    obtain ⟨buffer', hcopy, hbuffer'⟩ := ih mid (len + payload.length) (by omega)
    refine ⟨buffer', ?_, ?_⟩
    · rw [copyChain, if_neg (by omega), hmid, List.flatten_cons, List.length_append,
        ← Nat.add_assoc]
      exact hcopy
    · have hlen : len + payload.length = len + (payload.map some).length := by
        rw [List.length_map]
      rw [hbuffer', hsplice, hlen, splice_splice, List.flatten_cons, List.map_append]
      rw [Vector.length_toList, List.length_map]
      omega

theorem exists_copyChain_uninitialised {chain : List (List UInt8)}
    (h : chain.flatten.length ≤ 1518) :
    ∃ buffer, copyChain uninitialised 0 chain = some (buffer, chain.flatten.length) ∧
      buffer.toList = chain.flatten.map some
        ++ List.replicate (1518 - chain.flatten.length) none ∧
      ∀ i < chain.flatten.length, buffer[i]?.join = chain.flatten[i]? := by
  obtain ⟨buffer, hcopy, hsplice⟩ :=
    exists_copyChain uninitialised 0 chain ((Nat.zero_add _).trans_le h)
  have hbuffer : buffer.toList = chain.flatten.map some
      ++ List.replicate (1518 - chain.flatten.length) none := by
    rw [hsplice, splice_zero, uninitialised, Vector.toList_replicate, List.drop_replicate,
      List.length_map]
  rw [Nat.zero_add] at hcopy
  refine ⟨buffer, hcopy, hbuffer, fun i hi ↦ ?_⟩
  rw [← Vector.getElem?_toList, hbuffer, List.getElem?_append_left (by rwa [List.length_map]),
    List.getElem?_map, List.getElem?_eq_getElem hi]
  rfl

/-- **The whole chain is sent.** The payloads are copied into the array one behind the other, which
leaves the rest of it as it was, and what `eth_send` writes to the data register is their number of
bytes, and then the bytes, with as many zeros behind them as the last word has room for. -/
theorem lowLevelOutput_packs (ris : ℕ → UInt32) (chain : List (List UInt8)) {n : ℕ}
    (hn : (chain.map List.length).sum = n) (hle : n ≤ 1518) :
    (∃ buffer, copyChain uninitialised 0 chain = some (buffer, n) ∧
      buffer.toList = chain.flatten.map some ++ List.replicate (1518 - n) none) ∧
    ∃ accesses ws, lowLevelOutput ris chain = some accesses ∧
      dataWords accesses = UInt32.ofNat n :: ws ∧ ws.length = (n + 3) / 4 ∧
      ws.flatMap wordBytes = chain.flatten ++ List.replicate (4 * ((n + 3) / 4) - n) 0 := by
  have hlen : chain.flatten.length = n := by rw [List.length_flatten, hn]
  obtain ⟨buffer, hcopy, hbuffer, hload⟩ := exists_copyChain_uninitialised (hlen.trans_le hle)
  obtain ⟨accesses, hsend, hdata⟩ := exists_ethSend ris hload
  rw [hlen] at hcopy hbuffer hsend hdata
  refine ⟨⟨buffer, hcopy, hbuffer⟩, accesses, leWords chain.flatten, ?_, ?_, ?_, ?_⟩
  · rw [lowLevelOutput, hcopy]
    exact hsend
  · rw [hdata, lengthWord_ofNat (hle.trans_lt (by decide))]
  · rw [length_leWords, hlen]
  · rw [flatMap_wordBytes_leWords, hlen]

/-- Three segments, one of them empty, of five bytes: the length word and two words. -/
theorem lowLevelOutput_three_segments :
    ∃ accesses ws, lowLevelOutput (fun _ ↦ 0) [[1, 2, 3], [], [4, 5]] = some accesses ∧
      dataWords accesses = 5 :: ws ∧ ws.length = 2 ∧
      ws.flatMap wordBytes = [1, 2, 3, 4, 5, 0, 0, 0] :=
  (lowLevelOutput_packs (fun _ ↦ 0) [[1, 2, 3], [], [4, 5]] rfl (by decide)).2

/-! ## The two sides of the driver -/

/-- A frame is received as it was sent: with the words `eth_send` writes in front of the FIFO,
`eth_receive` returns the length, or up to two less if it counts the length field, and the buffer
starts with so many bytes of the frame. -/
def Agrees (ris : ℕ → UInt32) (mac : Mac) (buffer : Vector UInt8 1518) (f : List UInt8) : Prop :=
  ∃ accesses mac' buffer' r, ethSend ris (f[·]?) f.length = some accesses ∧
    ethReceive { mac with rxFifo := dataWords accesses ++ mac.rxFifo } buffer 1518
      = some (mac', buffer', r) ∧
    f.length - 2 ≤ r ∧ r ≤ f.length ∧ ∀ k < r, buffer'[k]? = f[k]?

theorem wordBytes_drop_two_ofNat {n : ℕ} (h : n < 2 ^ 16) :
    (wordBytes (UInt32.ofNat n)).drop 2 = [0, 0] := by
  have hzero : ∀ {j : ℕ}, j < 4 → n < 2 ^ (j * 8) → wordByte (UInt32.ofNat n) j = 0 := by
    intro j hj hlt
    apply UInt8.toNat_inj.mp
    rw [toNat_wordByte _ hj, UInt32.toNat_ofNat_of_lt' (by simp only [UInt32.size]; omega),
      Nat.div_eq_of_lt hlt]
    rfl
  rw [wordBytes, hzero (show 2 < 4 by decide) h, hzero (show 3 < 4 by decide) (by omega)]
  rfl

/-- **A frame sent and received.** `eth_send` puts nothing of the frame into the first word, where
`eth_receive` takes two bytes from: the frame arrives two places late, with its end cut off. -/
theorem exists_ethReceive_sent (mac : Mac) (buffer : Vector UInt8 1518) {f : List UInt8}
    {rest : List UInt32} (h₄ : 4 ≤ f.length) (hle : f.length ≤ 1518) (hnpv : mac.npv &&& 0xFF ≠ 0)
    (hfifo : mac.rxFifo = UInt32.ofNat f.length :: leWords f ++ rest) :
    ∃ mac' buffer', ethReceive mac buffer 1518 = some (mac', buffer', f.length) ∧
      buffer'.toList.take f.length = 0 :: 0 :: f.take (f.length - 2) := by
  have hread : mac.readData.1 = UInt32.ofNat f.length := by
    rw [Mac.readData, hfifo]
    rfl
  have hlen : (mac.readData.1 &&& 0xFFFF).toNat = f.length := by
    rw [hread, UInt32.toNat_and, UInt32.toNat_ofNat_of_lt' (by simp only [UInt32.size]; omega),
      show (0xFFFF : UInt32).toNat = 2 ^ 16 - 1 from rfl, Nat.and_two_pow_sub_one_eq_mod]
    omega
  obtain ⟨buffer', hreceive, hbuffer'⟩ := exists_ethReceive mac buffer le_rfl (by decide) hnpv hlen
    (by omega) (by omega)
  have hstored : storedCount f.length 1518 = f.length := by
    rw [storedCount]
    omega
  rw [hstored] at hreceive hbuffer'
  refine ⟨_, buffer', hreceive, ?_⟩
  -- the words read are the length word and words of the frame, none behind them
  set m := (f.length - 2 + 3) / 4 with hm
  have hwords : mac.upcoming (wordCount f.length)
      = UInt32.ofNat f.length :: (leWords f).take m := by
    have hm' : m ≤ (leWords f).length := by
      rw [length_leWords]
      omega
    rw [wordCount, ← hm, Mac.upcoming, hfifo, List.cons_append, List.take_succ_cons,
      List.take_append_of_le_length hm', List.length_cons, List.length_append,
      show m + 1 - ((leWords f).length + rest.length + 1) = 0 by omega, List.replicate_zero,
      List.append_nil]
  set bs := ((leWords f).take m).flatMap wordBytes with hbs
  have hlong : f.length - 2 ≤ bs.length := by
    rw [hbs, length_flatMap_wordBytes, List.length_take, length_leWords]
    omega
  have hsplit : bs ++ ((leWords f).drop m).flatMap wordBytes
      = f ++ List.replicate (4 * ((f.length + 3) / 4) - f.length) 0 := by
    rw [hbs, ← List.flatMap_append, List.take_append_drop, flatMap_wordBytes_leWords]
  have htake : bs.take (f.length - 2) = f.take (f.length - 2) := by
    have heq := congrArg (List.take (f.length - 2)) hsplit
    rwa [List.take_append_of_le_length hlong,
      List.take_append_of_le_length (Nat.sub_le f.length 2)] at heq
  have hbytes : (((mac.upcoming (wordCount f.length)).flatMap wordBytes).drop 2).take f.length
      = 0 :: 0 :: f.take (f.length - 2) := by
    obtain ⟨n, hn⟩ : ∃ n, f.length = n + 2 := ⟨f.length - 2, by omega⟩
    rw [hwords, List.flatMap_cons, ← hbs, List.drop_append_of_le_length (by simp [wordBytes]),
      wordBytes_drop_two_ofNat (by omega), ← htake, hn]
    rfl
  rw [hbuffer', hbytes, splice_zero]
  have hcount : (0 :: 0 :: f.take (f.length - 2)).length = f.length := by
    rw [List.length_cons, List.length_cons, List.length_take]
    omega
  exact List.take_left' hcount

/-- A frame that does not change when it is moved two places on holds zeros only. -/
theorem eq_zero_of_shifted {f : List UInt8} (h : f = 0 :: 0 :: f.take (f.length - 2)) :
    ∀ b ∈ f, b = 0 := by
  have hget : ∀ i < f.length, f[i]? = some 0 := by
    intro i
    induction i using Nat.twoStepInduction with
    | zero =>
      intro _
      rw [h]
      rfl
    | one =>
      intro _
      rw [h]
      rfl
    | more i ih _ =>
      intro hi
      have hshift : f[i + 2]? = (f.take (f.length - 2))[i]? := congrArg (fun l ↦ l[i + 2]?) h
      rw [hshift, List.getElem?_take_of_lt (by omega), ih (by omega)]
  intro b hb
  obtain ⟨i, hi, rfl⟩ := List.getElem_of_mem hb
  exact Option.some.inj ((List.getElem?_eq_getElem hi).symm.trans (hget i hi))

/-- **The two sides do not agree on the first word.** The only frames received as they were sent
are those that hold nothing but zeros. -/
theorem agrees_iff_forall_eq_zero (ris : ℕ → UInt32) (mac : Mac) (buffer : Vector UInt8 1518)
    (f : List UInt8) (h₄ : 4 ≤ f.length) (hle : f.length ≤ 1518) (hnpv : mac.npv &&& 0xFF ≠ 0) :
    Agrees ris mac buffer f ↔ ∀ b ∈ f, b = 0 := by
  obtain ⟨accesses, hsend, hdata⟩ := exists_ethSend ris (fun i _ ↦ (rfl : f[i]? = f[i]?))
  rw [lengthWord_ofNat (hle.trans_lt (by decide))] at hdata
  obtain ⟨mac', buffer', hreceive, htake⟩ := exists_ethReceive_sent
    { mac with rxFifo := dataWords accesses ++ mac.rxFifo } buffer h₄ hle hnpv
    (congrArg (· ++ mac.rxFifo) hdata)
  have hstarts : (∀ k < f.length, buffer'[k]? = f[k]?) ↔ f = buffer'.toList.take f.length := by
    rw [← List.prefix_iff_eq_take, List.prefix_iff_getElem?]
    refine forall₂_congr fun k hk ↦ ?_
    rw [Vector.getElem?_toList, List.getElem?_eq_getElem hk]
  rw [htake] at hstarts
  constructor
  · rintro ⟨accesses', mac'', buffer'', r, hsend', hreceive', -, -, hget⟩
    obtain rfl := Option.some.inj (hsend.symm.trans hsend')
    obtain ⟨rfl, rfl, rfl⟩ : mac' = mac'' ∧ buffer' = buffer'' ∧ f.length = r := by
      simpa using hreceive.symm.trans hreceive'
    exact eq_zero_of_shifted (hstarts.mp hget)
  · intro hzero
    refine ⟨accesses, mac', buffer', f.length, hsend, hreceive, Nat.sub_le _ _, le_rfl, ?_⟩
    apply hstarts.mpr
    obtain ⟨n, hn⟩ : ∃ n, f.length = n + 2 := ⟨f.length - 2, by omega⟩
    have hf : f = List.replicate (n + 2) 0 := List.eq_replicate_iff.mpr ⟨hn, hzero⟩
    rw [hf, List.length_replicate, List.take_replicate, Nat.add_sub_cancel,
      min_eq_left (Nat.le_add_right n 2)]
    rfl

/-- Four zeros arrive as four zeros. -/
theorem agrees_four_zeros :
    Agrees (fun _ ↦ 0) ⟨1, [], 0, 1, 0⟩ (Vector.replicate 1518 7) [0, 0, 0, 0] :=
  (agrees_iff_forall_eq_zero _ _ _ [0, 0, 0, 0] (by decide) (by decide) (by decide)).mpr (by simp)

/-- The frame `1, 2, 3, 4` is received as `0, 0, 1, 2`. -/
theorem not_agrees_counting :
    ((ethSend (fun _ ↦ 0) ([1, 2, 3, 4][·]?) 4).bind fun accesses ↦
        (ethReceive ⟨1, dataWords accesses, 0, 1, 0⟩ (Vector.replicate 1518 7) 1518).map
          fun r ↦ (r.2.2, r.2.1.toList.take 4)) = some (4, [0, 0, 1, 2]) ∧
      ¬ Agrees (fun _ ↦ 0) ⟨1, [], 0, 1, 0⟩ (Vector.replicate 1518 7) [1, 2, 3, 4] := by
  have hout : ((ethSend (fun _ ↦ 0) ([1, 2, 3, 4][·]?) 4).bind fun accesses ↦
      (ethReceive ⟨1, dataWords accesses, 0, 1, 0⟩ (Vector.replicate 1518 7) 1518).map
        fun r ↦ (r.2.2, r.2.1.toList.take 4)) = some (4, [0, 0, 1, 2]) := by
    decide +kernel
  refine ⟨hout, ?_⟩
  rintro ⟨accesses, mac', buffer', r, hsend, hreceive, -, -, hget⟩
  have hsend' : ethSend (fun _ ↦ 0) ([1, 2, 3, 4][·]?) 4 = some accesses := hsend
  rw [List.append_nil] at hreceive
  rw [hsend', Option.bind_some, hreceive] at hout
  obtain ⟨rfl, htake⟩ : r = 4 ∧ buffer'.toList.take 4 = [0, 0, 1, 2] :=
    Prod.mk.inj (Option.some.inj hout)
  have hfirst : buffer'[0]? = some 0 := by
    rw [← Vector.getElem?_toList, ← List.getElem?_take_of_lt (show 0 < 4 by decide), htake]
    rfl
  rw [hget 0 (by decide)] at hfirst
  exact absurd hfirst (by decide)

end ZanOS
