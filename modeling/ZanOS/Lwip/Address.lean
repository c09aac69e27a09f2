import ZanOS.Foundation.Buffer
import ZanOS.Foundation.Radix
import ZanOS.Foundation.Word

/-!
# Addresses as text

`ip4_addr.c` writes an address as four decimal numbers with dots between them, and reads one in the
forms that programs have long accepted: each number decimal, octal or hexadecimal as in C, and one
to four numbers, of which the last fills all the bytes the others leave.

**Reading.** `ip4addr_aton` collects the numbers in 32-bit words and looks at their size at the
end. A number too large for a word has lost its upper part by then, so the texts accepted are those
of `IsAddress`, where each number counts modulo `2 ^ 32`; and `0x` is a number without a digit
behind it, which is zero. Within that it is exact.

**Writing.** `ip4addr_ntoa_r` stores byte by byte and gives up when the buffer is full. It puts a
dot behind each number, the last one too, and then overwrites that one by the NUL.
-/

namespace ZanOS.Lwip

open Foundation

/-- `lwip_htonl`. -/
def htonl (n : UInt32) : UInt32 :=
  ((n &&& 0x000000ff) <<< 24) ||| ((n &&& 0x0000ff00) <<< 8) ||| ((n &&& 0x00ff0000) >>> 8)
    ||| ((n &&& 0xff000000) >>> 24)

/-! ## The classes of characters -/

/-- `lwip_in_range`. -/
def inRange (c lo up : UInt8) : Bool := lo ≤ c && c ≤ up

/-- `lwip_isdigit`. -/
def isdigit (c : UInt8) : Bool := inRange c 48 57

/-- `lwip_isxdigit`. -/
def isxdigit (c : UInt8) : Bool := isdigit c || inRange c 97 102 || inRange c 65 70

/-- `lwip_islower`. -/
def islower (c : UInt8) : Bool := inRange c 97 122

/-- `lwip_isspace`. -/
def isspace (c : UInt8) : Bool :=
  c == 32 || c == 12 || c == 10 || c == 13 || c == 9 || c == 11

/-! ## `ip4addr_aton` -/

/-- The inner loop of `ip4addr_aton`: the digits from `cp` on, in `base`, onto `val`. With the
number it leaves the rest of the text; a text without an end is read past its end. -/
def collect (base : UInt8) (val : UInt32) : List UInt8 → Option (UInt32 × List UInt8)
  | [] => none
  | c :: cp =>
      if isdigit c then
        if base = 8 ∧ c.toUInt32 - 48 ≥ 8 then some (val, c :: cp)
        else collect base (val * base.toUInt32 + (c.toUInt32 - 48)) cp
      else if base = 16 ∧ isxdigit c then
        collect base ((val <<< 4) ||| (c.toUInt32 + 10 - if islower c then 97 else 65)) cp
      else some (val, c :: cp)

/-- A number of `ip4addr_aton` from behind the zero it starts with. -/
def collectZero : List UInt8 → Option (UInt32 × List UInt8)
  | [] => none
  | c :: cp => if c = 120 ∨ c = 88 then collect 16 0 cp else collect 8 0 (c :: cp)

/-- One number of `ip4addr_aton`, from its first byte on. Inside, `none` is `return 0`. -/
def atonNumber : List UInt8 → Option (Option (UInt32 × List UInt8))
  | [] => none
  | c :: cp =>
      if isdigit c = false then some none
      else (if c = 48 then collectZero cp else collect 10 0 (c :: cp)).map some

/-- The outer loop of `ip4addr_aton`: the numbers before the last, the last one, and the text
behind it. The first argument says how many more numbers a dot may follow. -/
def atonLoop (free : ℕ) (parts : List UInt32) (cp : List UInt8) :
    Option (Option (List UInt32 × UInt32 × List UInt8)) :=
  match atonNumber cp with
  | none => none
  | some none => some none
  | some (some (_, [])) => none
  | some (some (val, c :: cp')) =>
      if c = 46 then
        match free with
        | 0 => some none
        | free + 1 => atonLoop free (parts ++ [val]) cp'
      else some (some (parts, val, c :: cp'))

/-- The `switch` of `ip4addr_aton` over the number of parts; its `default` is a failed assertion. -/
def concoct : List UInt32 → UInt32 → Option (Option UInt32)
  | [], val => some (some val)
  | [a], val =>
      if val > 0xffffff then some none
      else if a > 0xff then some none
      else some (some (val ||| (a <<< 24)))
  | [a, b], val =>
      if val > 0xffff then some none
      else if a > 0xff ∨ b > 0xff then some none
      else some (some (val ||| ((a <<< 24) ||| (b <<< 16))))
  | [a, b, c], val =>
      if val > 0xff then some none
      else if a > 0xff ∨ b > 0xff ∨ c > 0xff then some none
      else some (some (val ||| ((a <<< 24) ||| (b <<< 16) ||| (c <<< 8))))
  | _, _ => none

/-- `ip4addr_aton`: the address if the text is one. -/
def ip4addrAton (cp : List UInt8) : Option (Option UInt32) :=
  match atonLoop 3 [] cp with
  | none => none
  | some none => some none
  | some (some (_, _, [])) => none
  | some (some (parts, val, c :: _)) =>
      if c ≠ 0 ∧ isspace c = false then some none
      else (concoct parts val).map fun r ↦ r.map htonl

/-! ## `ip4addr_ntoa_r` -/

/-- The first inner loop of `ip4addr_ntoa_r`: the digits of `ap` into `inv`, the lowest first. The
first argument is the number of cells `inv` has left. -/
def invLoop : ℕ → UInt8 → List UInt8 → Option (List UInt8)
  | 0, _, _ => none
  | room + 1, ap, inv =>
      let rem := ap % 10
      let ap := ap / 10
      let inv := inv ++ [48 + rem]
      if ap ≠ 0 then invLoop room ap inv else some inv

/-- Store bytes from `len` on, each after a look at `buflen`. Inside, `none` is `return NULL`. -/
def putLoop {k : ℕ} (buflen : ℕ) (buf : Vector UInt8 k) (len : ℕ) :
    List UInt8 → Option (Option (Vector UInt8 k))
  | [] => some (some buf)
  | c :: cs =>
      if buflen ≤ len then some none
      else
        match store buf len c with
        | none => none
        | some buf => putLoop buflen buf (len + 1) cs

/-- The outer loop of `ip4addr_ntoa_r` over the bytes of the address: the digits in the other
order, then a dot. -/
def ntoaLoop {k : ℕ} (buflen : ℕ) (buf : Vector UInt8 k) (len : ℕ) :
    List UInt8 → Option (Option (Vector UInt8 k × ℕ))
  | [] => some (some (buf, len))
  | ap :: bytes =>
      match invLoop 3 ap [] with
      | none => none
      | some inv =>
          match putLoop buflen buf len (inv.reverse ++ [46]) with
          | none => none
          | some none => some none
          | some (some buf) => ntoaLoop buflen buf (len + (inv.reverse ++ [46]).length) bytes

/-- `ip4addr_ntoa_r`. -/
def ip4addrNtoaR {k : ℕ} (addr : UInt32) (buf : Vector UInt8 k) (buflen : ℕ) :
    Option (Option (Vector UInt8 k)) :=
  match ntoaLoop buflen buf 0 (wordBytes addr) with
  | none => none
  | some none => some none
  | some (some (buf, len)) => (store buf (len - 1) 0).map some

/-- `ip4addr_ntoa`, with its static buffer. -/
def ip4addrNtoa (addr : UInt32) (str : Vector UInt8 16) : Option (Option (Vector UInt8 16)) :=
  ip4addrNtoaR addr str 16

/-! ## What the texts mean -/

/-- Numbers with dots between them. -/
inductive Dotted : List UInt8 → List ℕ → Prop
  | last {w : List UInt8} {n : ℕ} (h : CNumber w n) : Dotted w [n]
  | dot {w t : List UInt8} {n : ℕ} {ns : List ℕ} (h : CNumber w n) (ht : Dotted t ns) :
      Dotted (w ++ 46 :: t) (n :: ns)

/-- `room` bytes filled by numbers, the highest first: one byte each, and for the last number all
the bytes that are left. -/
inductive Packs : ℕ → List ℕ → ℕ → Prop
  | last {room n : ℕ} (h : n < 256 ^ (room + 1)) : Packs (room + 1) [n] n
  | byte {room n x : ℕ} {ns : List ℕ} (hn : n < 256) (h : Packs room ns x) :
      Packs (room + 1) (n :: ns) (n * 256 ^ room + x)

/-- What may stand behind an address. -/
def Ends (c : UInt8) : Prop := c = 0 ∨ isspace c = true

instance (c : UInt8) : Decidable (Ends c) := inferInstanceAs (Decidable (_ ∨ _))

/-- The texts of an address: up to four numbers, taken modulo `2 ^ 32`, that fill its four bytes,
and behind them a space or the end. -/
def IsAddress (m : List UInt8) (addr : UInt32) : Prop :=
  ∃ t c r ns x, m = t ++ c :: r ∧ Ends c ∧ Dotted t ns ∧ Packs 4 (ns.map (· % 2 ^ 32)) x ∧
    addr = htonl (UInt32.ofNat x)

/-- The form in which addresses are written. -/
def dotted (addr : UInt32) : List UInt8 :=
  [46].intercalate ((wordBytes addr).map fun b ↦ decimal b.toNat)

/-! ## Reading a number -/

theorem isdigit_iff {c : UInt8} : isdigit c = true ↔ 48 ≤ c ∧ c ≤ 57 := by
  rw [isdigit, inRange, Bool.and_eq_true, decide_eq_true_iff, decide_eq_true_iff]

theorem isxdigit_iff {c : UInt8} : isxdigit c = true ↔ radixDigit c < 16 := by
  simp only [isxdigit, isdigit, inRange, Bool.or_eq_true, Bool.and_eq_true, decide_eq_true_iff,
    radixDigit, UInt8.le_iff_toNat_le, UInt8.reduceToNat]
  split_ifs <;> omega

theorem toNat_sub_of_isdigit {c : UInt8} (h : isdigit c = true) :
    (c.toUInt32 - 48).toNat = radixDigit c := by
  obtain ⟨hlo, hup⟩ := isdigit_iff.mp h
  have hle : (48 : UInt32) ≤ c.toUInt32 := by
    rw [UInt32.le_iff_toNat_le, UInt8.toNat_toUInt32]
    exact UInt8.le_iff_toNat_le.mp hlo
  rw [radixDigit, if_pos ⟨hlo, hup⟩, UInt32.toNat_sub_of_le _ _ hle, UInt8.toNat_toUInt32]
  rfl

theorem toNat_letter {c : UInt8} (hdigit : isdigit c = false) (hx : radixDigit c < 16) :
    (c.toUInt32 + 10 - if islower c then 97 else 65).toNat = radixDigit c := by
  have hc := c.toNat_lt
  have hnot : ¬(48 ≤ c ∧ c ≤ 57) := fun h ↦ by simp [isdigit_iff.mpr h] at hdigit
  rw [radixDigit, if_neg hnot] at hx ⊢
  simp only [islower, inRange, Bool.and_eq_true, decide_eq_true_iff, UInt8.le_iff_toNat_le,
    UInt8.reduceToNat] at hx ⊢
  split_ifs at hx ⊢ <;>
    simp only [UInt32.toNat_sub, UInt32.toNat_add, UInt8.toNat_toUInt32, UInt32.reduceToNat] <;>
    omega

theorem toNat_shiftLeft_or {v d : UInt32} (hd : d.toNat < 16) :
    ((v <<< 4) ||| d).toNat = (v.toNat * 16 + d.toNat) % 2 ^ 32 := by
  have hv := v.toNat_lt
  have hshift : (v <<< 4).toNat = (v.toNat % 2 ^ 28) <<< 4 := by
    simp only [UInt32.toNat_shiftLeft, UInt32.reduceToNat, Nat.shiftLeft_eq, Nat.reduceMod]
    omega
  rw [UInt32.toNat_or, hshift, Nat.or_comm, or_shiftLeft_of_lt hd]
  omega

/-- The bases of a number. -/
def IsBase (base : UInt8) : Prop := base = 8 ∨ base = 10 ∨ base = 16

/-- One round of the inner loop: a digit of the base is read, anything else ends the number. -/
theorem collect_cons {base : UInt8} (hbase : IsBase base) (val : UInt32) (c : UInt8)
    (cp : List UInt8) :
    collect base val (c :: cp) = if radixDigit c < base.toNat then
        collect base (UInt32.ofNat (val.toNat * base.toNat + radixDigit c)) cp
      else some (val, c :: cp) := by
  have hadd : ∀ d : UInt32, val * base.toUInt32 + d
      = UInt32.ofNat (val.toNat * base.toNat + d.toNat) := by
    intro d
    apply UInt32.toNat_inj.mp
    rw [UInt32.toNat_add, UInt32.toNat_mul, UInt8.toNat_toUInt32, UInt32.toNat_ofNat',
      Nat.mod_add_mod]
  rw [collect]
  by_cases hdigit : isdigit c = true
  · have hsub := toNat_sub_of_isdigit hdigit
    have hten := radixDigit_lt_ten_iff.mpr (isdigit_iff.mp hdigit)
    have hge : c.toUInt32 - 48 ≥ 8 ↔ ¬radixDigit c < UInt8.toNat 8 := by
      rw [ge_iff_le, UInt32.le_iff_toNat_le, hsub, not_lt]
      rfl
    rw [if_pos hdigit, hadd, hsub]
    rcases hbase with rfl | rfl | rfl
    · by_cases h8 : radixDigit c < UInt8.toNat 8
      · rw [if_neg fun h ↦ hge.mp h.2 h8, if_pos h8]
      · rw [if_pos ⟨rfl, hge.mpr h8⟩, if_neg h8]
    · rw [if_neg (by simp), if_pos (show radixDigit c < UInt8.toNat 10 from hten)]
    · rw [if_neg (by simp), if_pos (show radixDigit c < UInt8.toNat 16 from hten.trans (by decide))]
  · have hten : ¬radixDigit c < 10 := fun h ↦
      hdigit (isdigit_iff.mpr (radixDigit_lt_ten_iff.mp h))
    rw [if_neg hdigit]
    rcases hbase with rfl | rfl | rfl
    · rw [if_neg (by simp), if_neg fun h : radixDigit c < UInt8.toNat 8 ↦
        hten (h.trans (by decide))]
    · rw [if_neg (by simp), if_neg (show ¬radixDigit c < UInt8.toNat 10 from hten)]
    · by_cases hx : radixDigit c < UInt8.toNat 16
      · have hletter := toNat_letter (Bool.eq_false_iff.mpr hdigit) hx
        rw [if_pos ⟨rfl, isxdigit_iff.mpr hx⟩, if_pos hx]
        congr 1
        apply UInt32.toNat_inj.mp
        rw [toNat_shiftLeft_or (by rwa [hletter]), hletter, UInt32.toNat_ofNat']
        rfl
      · rw [if_neg fun h ↦ hx (isxdigit_iff.mp h.2), if_neg hx]

theorem radixDigit_zero_not_lt {base : UInt8} (hbase : IsBase base) :
    ¬radixDigit 0 < base.toNat := by
  rcases hbase with rfl | rfl | rfl <;> decide

/-- **The inner loop reads the digits that are there.** The word has the value they have in the
base, modulo `2 ^ 32`. -/
theorem collect_append {base : UInt8} (hbase : IsBase base) (val : UInt32) {l : List UInt8}
    (hl : ∀ d ∈ l, radixDigit d < base.toNat) {c : UInt8} (hc : ¬radixDigit c < base.toNat)
    (r : List UInt8) :
    collect base val (l ++ c :: r)
      = some (UInt32.ofNat (radixFold base.toNat val.toNat l), c :: r) := by
  induction l generalizing val with
  | nil => rw [List.nil_append, collect_cons hbase, if_neg hc, radixFold_nil, UInt32.ofNat_toNat]
  | cons d l ih =>
    have hword : ∀ v, UInt32.ofNat (radixFold base.toNat (UInt32.ofNat v).toNat l)
        = UInt32.ofNat (radixFold base.toNat v l) := by
      intro v
      apply UInt32.toNat_inj.mp
      rw [UInt32.toNat_ofNat', UInt32.toNat_ofNat', UInt32.toNat_ofNat', radixFold_mod]
    rw [List.cons_append, collect_cons hbase, if_pos (hl d List.mem_cons_self),
      ih _ fun x hx ↦ hl x (List.mem_cons_of_mem d hx), hword, radixFold_cons]

theorem exists_digits_append {base : UInt8} (hbase : IsBase base) {m : List UInt8}
    (hm : (0 : UInt8) ∈ m) : ∃ l c r, m = l ++ c :: r ∧ (∀ d ∈ l, radixDigit d < base.toNat) ∧
      ¬radixDigit c < base.toNat ∧ (0 : UInt8) ∈ c :: r := by
  obtain ⟨c, r, hdrop, hc, hzero⟩ := exists_dropWhile_eq_cons
    (p := fun d ↦ decide (radixDigit d < base.toNat)) hm
    (decide_eq_false (radixDigit_zero_not_lt hbase))
  refine ⟨m.takeWhile fun d ↦ decide (radixDigit d < base.toNat), c, r, ?_, ?_, ?_, ?_⟩
  · rw [← hdrop, List.takeWhile_append_dropWhile]
  · intro d hd
    have htrue := List.mem_takeWhile_imp hd
    exact of_decide_eq_true htrue
  · exact of_decide_eq_false hc
  · exact List.mem_cons.mpr hzero

/-- What cannot continue a number: neither a digit nor the mark of a hexadecimal number. -/
def Stops (c : UInt8) : Prop := radixDigit c = 16 ∧ c ≠ 120 ∧ c ≠ 88

theorem Stops.not_lt {c base : UInt8} (h : Stops c) (hbase : IsBase base) :
    ¬radixDigit c < base.toNat := by
  rw [h.1]
  rcases hbase with rfl | rfl | rfl <;> decide

theorem stops_dot : Stops 46 := ⟨rfl, by decide, by decide⟩

theorem Ends.stops {c : UInt8} (h : Ends c) : Stops c ∧ c ≠ 46 := by
  simp only [Ends, isspace, Bool.or_eq_true, beq_iff_eq] at h
  rcases h with rfl | ((((rfl | rfl) | rfl) | rfl) | rfl) | rfl <;>
    exact ⟨⟨rfl, by decide, by decide⟩, by decide⟩

theorem atonNumber_append {w : List UInt8} {n : ℕ} (h : CNumber w n) {c : UInt8} (hc : Stops c)
    (r : List UInt8) : atonNumber (w ++ c :: r) = some (some (UInt32.ofNat n, c :: r)) := by
  rcases h with @⟨d, l, hd, hdigits⟩ | @⟨l, hdigits⟩ | @⟨x, l, hx, hdigits⟩
  · have hdigit := isdigit_iff.mpr (radixDigit_lt_ten_iff.mp (hdigits d List.mem_cons_self))
    have hbase : IsBase 10 := .inr (.inl rfl)
    rw [List.cons_append, atonNumber, if_neg (by simp [hdigit]), if_neg hd, ← List.cons_append,
      collect_append hbase 0 hdigits (hc.not_lt hbase)]
    rfl
  · have hbase : IsBase 8 := .inl rfl
    have hcollect := collect_append hbase 0 hdigits (hc.not_lt hbase) r
    rw [List.cons_append, atonNumber, if_neg (by decide), if_pos rfl]
    rcases l with _ | ⟨x, l⟩
    · rw [List.nil_append] at hcollect ⊢
      rw [collectZero, if_neg (not_or.mpr hc.2), hcollect]
      rfl
    · have hx : ¬(x = 120 ∨ x = 88) := by
        rintro (rfl | rfl) <;> exact absurd (hdigits _ List.mem_cons_self) (by decide)
      rw [List.cons_append] at hcollect ⊢
      rw [collectZero, if_neg hx, hcollect]
      rfl
  · have hbase : IsBase 16 := .inr (.inr rfl)
    rw [List.cons_append, List.cons_append, atonNumber, if_neg (by decide), if_pos rfl,
      collectZero, if_pos hx, collect_append hbase 0 hdigits (hc.not_lt hbase)]
    rfl

theorem atonNumber_cases {m : List UInt8} (hm : (0 : UInt8) ∈ m) :
    atonNumber m = some none ∨ ∃ w n c r, m = w ++ c :: r ∧ CNumber w n ∧
      (0 : UInt8) ∈ c :: r ∧ atonNumber m = some (some (UInt32.ofNat n, c :: r)) := by
  obtain ⟨d, m, rfl⟩ := List.exists_cons_of_ne_nil (List.ne_nil_of_mem hm)
  rw [atonNumber]
  by_cases hdigit : isdigit d = true
  swap
  · exact .inl (if_pos (Bool.eq_false_iff.mpr hdigit))
  rw [if_neg (by simp [hdigit])]
  right
  by_cases hd : d = 48
  · have htail : (0 : UInt8) ∈ m := (List.mem_cons.mp hm).resolve_left (by rw [hd]; decide)
    rw [if_pos hd, hd]
    obtain ⟨x, m, rfl⟩ := List.exists_cons_of_ne_nil (List.ne_nil_of_mem htail)
    by_cases hx : x = 120 ∨ x = 88
    · have htail' : (0 : UInt8) ∈ m := (List.mem_cons.mp htail).resolve_left (by
        rcases hx with rfl | rfl <;> decide)
      have hbase : IsBase 16 := .inr (.inr rfl)
      obtain ⟨l, c, r, rfl, hdigits, hc, hzero⟩ := exists_digits_append hbase htail'
      refine ⟨48 :: x :: l, _, c, r, rfl, .hex hx hdigits, hzero, ?_⟩
      rw [collectZero, if_pos hx, collect_append hbase 0 hdigits hc]
      rfl
    · have hbase : IsBase 8 := .inl rfl
      obtain ⟨l, c, r, heq, hdigits, hc, hzero⟩ := exists_digits_append hbase htail
      refine ⟨48 :: l, _, c, r, by rw [heq]; rfl, .octal hdigits, hzero, ?_⟩
      rw [collectZero, if_neg hx, heq, collect_append hbase 0 hdigits hc]
      rfl
  · have hbase : IsBase 10 := .inr (.inl rfl)
    obtain ⟨l, c, r, heq, hdigits, hc, hzero⟩ := exists_digits_append hbase hm
    rw [if_neg hd, heq, collect_append hbase 0 hdigits hc]
    -- the first byte is a digit, so it is among those read
    rcases l with _ | ⟨x, l⟩
    · obtain ⟨rfl, -⟩ := List.cons.inj heq
      exact absurd (radixDigit_lt_ten_iff.mpr (isdigit_iff.mp hdigit)) hc
    · obtain ⟨rfl, -⟩ := List.cons.inj heq
      exact ⟨d :: l, _, c, r, rfl, .decimal hd hdigits, hzero, rfl⟩

/-! ## Reading an address -/

theorem atonLoop_of_number {free : ℕ} {parts : List UInt32} {m : List UInt8} {val : UInt32}
    {c : UInt8} {r : List UInt8} (h : atonNumber m = some (some (val, c :: r))) (hc : c ≠ 46) :
    atonLoop free parts m = some (some (parts, val, c :: r)) := by
  rw [atonLoop.eq_def, h]
  simp only [hc, if_false]

theorem atonLoop_of_dot {free : ℕ} {parts : List UInt32} {m : List UInt8} {val : UInt32}
    {r : List UInt8} (h : atonNumber m = some (some (val, 46 :: r))) :
    atonLoop (free + 1) parts m = atonLoop free (parts ++ [val]) r := by
  rw [atonLoop.eq_def, h]
  simp only [if_true]

/-- **The outer loop reads numbers with dots between them**, as long as there are not too many. -/
theorem exists_atonLoop {t : List UInt8} {ns : List ℕ} (ht : Dotted t ns) {free : ℕ}
    (hfree : ns.length ≤ free + 1) (parts : List UInt32) {c : UInt8} (hc : Ends c)
    (r : List UInt8) : ∃ ps v, atonLoop free parts (t ++ c :: r) = some (some (ps, v, c :: r)) ∧
      ps ++ [v] = parts ++ ns.map UInt32.ofNat := by
  induction ht generalizing free parts with
  | last h =>
    exact ⟨parts, _, atonLoop_of_number (atonNumber_append h hc.stops.1 r) hc.stops.2, rfl⟩
  | @dot w t n ns h ht ih =>
    rw [List.length_cons] at hfree
    obtain ⟨free, rfl⟩ : ∃ k, free = k + 1 := by
      refine Nat.exists_eq_succ_of_ne_zero ?_
      rintro rfl
      rcases ht with _ | _ <;> simp at hfree
    obtain ⟨ps, v, hloop, hparts⟩ := ih (Nat.le_of_succ_le_succ hfree) (parts ++ [UInt32.ofNat n])
    refine ⟨ps, v, ?_, ?_⟩
    · rw [List.append_assoc, List.cons_append,
        atonLoop_of_dot (atonNumber_append h stops_dot _), hloop]
    · rw [hparts, List.append_assoc, List.singleton_append, List.map_cons]

/-- What the outer loop reads are numbers with dots between them, and it never leaves the text. -/
theorem atonLoop_cases {m : List UInt8} (hm : (0 : UInt8) ∈ m) (free : ℕ) (parts : List UInt32) :
    atonLoop free parts m = some none ∨ ∃ t ns c r ps v, m = t ++ c :: r ∧ Dotted t ns ∧
      ns.length ≤ free + 1 ∧ ps ++ [v] = parts ++ ns.map UInt32.ofNat ∧
      atonLoop free parts m = some (some (ps, v, c :: r)) := by
  induction free generalizing m parts with
  | zero =>
    rcases atonNumber_cases hm with hnone | ⟨w, n, c, r, rfl, hnumber, -, haton⟩
    · exact .inl (by rw [atonLoop.eq_def, hnone])
    by_cases hdot : c = 46
    · left
      rw [atonLoop.eq_def, haton]
      simp only [hdot, if_true]
    · exact .inr ⟨w, [n], c, r, parts, _, rfl, .last hnumber, le_rfl, rfl,
        atonLoop_of_number haton hdot⟩
  | succ free ih =>
    rcases atonNumber_cases hm with hnone | ⟨w, n, c, r, rfl, hnumber, hzero, haton⟩
    · exact .inl (by rw [atonLoop.eq_def, hnone])
    by_cases hdot : c = 46
    · subst hdot
      have htail : (0 : UInt8) ∈ r := (List.mem_cons.mp hzero).resolve_left (by decide)
      rw [atonLoop_of_dot haton]
      rcases ih htail (parts ++ [UInt32.ofNat n]) with hnone |
        ⟨t, ns, c, r, ps, v, rfl, hdotted, hlen, hparts, hloop⟩
      · exact .inl hnone
      · refine .inr ⟨w ++ 46 :: t, n :: ns, c, r, ps, v, ?_, .dot hnumber hdotted,
          Nat.succ_le_succ hlen, ?_, hloop⟩
        · rw [List.append_assoc, List.cons_append]
        · rw [hparts, List.append_assoc, List.singleton_append, List.map_cons]
    · exact .inr ⟨w, [n], c, r, parts, _, rfl, .last hnumber, Nat.le_add_left 1 _, rfl,
        atonLoop_of_number haton hdot⟩

theorem packs_last_iff {room n x : ℕ} :
    Packs (room + 1) [n] x ↔ n < 256 ^ (room + 1) ∧ x = n := by
  constructor
  · rintro (h | ⟨_, ⟨⟩⟩)
    exact ⟨h, rfl⟩
  · rintro ⟨h, rfl⟩
    exact .last h

theorem packs_byte_iff {room n k x : ℕ} {ns : List ℕ} :
    Packs (room + 1) (n :: k :: ns) x
      ↔ n < 256 ∧ ∃ y, Packs room (k :: ns) y ∧ x = n * 256 ^ room + y := by
  constructor
  · rintro (_ | ⟨hn, h⟩)
    exact ⟨hn, _, h, rfl⟩
  · rintro ⟨hn, y, h, rfl⟩
    exact .byte hn h

theorem Packs.length_le {room x : ℕ} {ns : List ℕ} (h : Packs room ns x) : ns.length ≤ room := by
  induction h with
  | last h => exact Nat.le_add_left 1 _
  | byte hn h ih => exact Nat.succ_le_succ ih

theorem toNat_or_shiftLeft {x y s : UInt32} {i : ℕ} (hs : s.toNat = i) (hi : i < 32)
    (hx : x.toNat < 2 ^ i) (hy : y.toNat * 2 ^ i < 2 ^ 32) :
    (x ||| y <<< s).toNat = y.toNat * 2 ^ i + x.toNat := by
  have hshift : (y <<< s).toNat = y.toNat <<< i := by
    rw [UInt32.toNat_shiftLeft, hs, Nat.mod_eq_of_lt hi, Nat.shiftLeft_eq, Nat.mod_eq_of_lt hy]
  rw [UInt32.toNat_or, hshift, or_shiftLeft_of_lt hx, Nat.add_comm, Nat.mul_comm]

theorem ite_not_ite_not {α : Type*} {p q : Prop} [Decidable p] [Decidable q] (x : α) :
    (if ¬p then some none else if ¬q then some none else some (some x))
      = some (if p ∧ q then some x else none) := by
  by_cases hp : p
  · by_cases hq : q <;> simp [hp, hq]
  · simp [hp]

/-- The `switch` packs the numbers that fit, and refuses those that do not. -/
theorem concoct_cases {ps : List UInt32} (hlen : ps.length ≤ 3) (v : UInt32) :
    (∃ y, concoct ps v = some (some y) ∧ Packs 4 ((ps ++ [v]).map UInt32.toNat) y.toNat) ∨
      concoct ps v = some none ∧ ∀ x, ¬Packs 4 ((ps ++ [v]).map UInt32.toNat) x := by
  have hgt : ∀ w z : UInt32, w > z ↔ ¬w.toNat < z.toNat + 1 := fun w z ↦ by
    rw [gt_iff_lt, UInt32.lt_iff_toNat_lt, Nat.lt_succ_iff, not_le]
  rcases ps with _ | ⟨a, _ | ⟨b, _ | ⟨c, _ | ⟨d, ps⟩⟩⟩⟩
  · exact .inl ⟨v, rfl, .last v.toNat_lt⟩
  · simp only [List.cons_append, List.nil_append, List.map_cons, List.map_nil, packs_byte_iff,
      packs_last_iff, concoct, hgt, UInt32.reduceToNat, Nat.reduceAdd, Nat.reducePow,
      ite_not_ite_not]
    by_cases hfit : v.toNat < 16777216 ∧ a.toNat < 256
    · left
      refine ⟨_, by rw [if_pos hfit], hfit.2, v.toNat,
        ⟨hfit.1, rfl⟩, ?_⟩
      exact toNat_or_shiftLeft (i := 24) rfl (by decide) hfit.1 (by omega)
    · refine .inr ⟨by rw [if_neg hfit], ?_⟩
      rintro x ⟨ha, y, ⟨hv, -⟩, -⟩
      exact hfit ⟨hv, ha⟩
  · simp only [List.cons_append, List.nil_append, List.map_cons, List.map_nil, packs_byte_iff,
      packs_last_iff, concoct, hgt, UInt32.reduceToNat, Nat.reduceAdd, Nat.reducePow, ← not_and_or,
      ite_not_ite_not]
    by_cases hfit : v.toNat < 65536 ∧ a.toNat < 256 ∧ b.toNat < 256
    · obtain ⟨hv, ha, hb⟩ := hfit
      left
      refine ⟨_, by rw [if_pos ⟨hv, ha, hb⟩], ha, _,
        ⟨hb, v.toNat, ⟨hv, rfl⟩, rfl⟩, ?_⟩
      have hlow := toNat_or_shiftLeft (x := v) (y := b) (s := 16) (i := 16) rfl (by decide) hv
        (by omega)
      rw [UInt32.or_comm (a <<< 24), ← UInt32.or_assoc,
        toNat_or_shiftLeft (i := 24) rfl (by decide) (by omega) (by omega), hlow]
      rfl
    · refine .inr ⟨by rw [if_neg hfit], ?_⟩
      rintro x ⟨ha, y, ⟨hb, z, ⟨hv, -⟩, -⟩, -⟩
      exact hfit ⟨hv, ha, hb⟩
  · simp only [List.cons_append, List.nil_append, List.map_cons, List.map_nil, packs_byte_iff,
      packs_last_iff, concoct, hgt, UInt32.reduceToNat, Nat.reduceAdd, Nat.reducePow, ← not_and_or,
      ite_not_ite_not]
    by_cases hfit : v.toNat < 256 ∧ a.toNat < 256 ∧ b.toNat < 256 ∧ c.toNat < 256
    · obtain ⟨hv, ha, hb, hc⟩ := hfit
      left
      refine ⟨_, by rw [if_pos ⟨hv, ha, hb, hc⟩], ha, _,
        ⟨hb, _, ⟨hc, v.toNat, ⟨hv, rfl⟩, rfl⟩, rfl⟩, ?_⟩
      have hlow := toNat_or_shiftLeft (x := v) (y := c) (s := 8) (i := 8) rfl (by decide) hv
        (by omega)
      have hmid := toNat_or_shiftLeft (x := v ||| c <<< 8) (y := b) (s := 16) (i := 16) rfl
        (by decide) (by omega) (by omega)
      rw [UInt32.or_assoc, UInt32.or_comm (a <<< 24), UInt32.or_comm (b <<< 16),
        ← UInt32.or_assoc, ← UInt32.or_assoc,
        toNat_or_shiftLeft (i := 24) rfl (by decide) (by omega) (by omega), hmid, hlow]
      rfl
    · refine .inr ⟨by rw [if_neg hfit], ?_⟩
      rintro x ⟨ha, y, ⟨hb, z, ⟨hc, u, ⟨hv, -⟩, -⟩, -⟩, -⟩
      exact hfit ⟨hv, ha, hb, hc⟩
  · simp only [List.length_cons] at hlen
    omega

theorem Packs.unique {room x y : ℕ} {ns : List ℕ} (hx : Packs room ns x) (hy : Packs room ns y) :
    x = y := by
  induction hx generalizing y with
  | last h => exact (packs_last_iff.mp hy).2.symm
  | byte hn h ih =>
    rcases hy with _ | ⟨-, hy⟩
    · cases h
    · rw [ih hy]

theorem map_toNat_ofNat (ns : List ℕ) :
    (ns.map UInt32.ofNat).map UInt32.toNat = ns.map (· % 2 ^ 32) := by
  rw [List.map_map]
  exact List.map_congr_left fun n _ ↦ UInt32.toNat_ofNat'

theorem ip4addrAton_of_atonLoop {m r : List UInt8} {c : UInt8} {ps : List UInt32} {v : UInt32}
    (h : atonLoop 3 [] m = some (some (ps, v, c :: r))) :
    ip4addrAton m = if Ends c then (concoct ps v).map fun r ↦ r.map htonl else some none := by
  rw [ip4addrAton, h]
  have hends : c ≠ 0 ∧ isspace c = false ↔ ¬Ends c := by
    rw [Ends, not_or, Bool.not_eq_true]
  by_cases hc : Ends c
  · rw [if_pos hc]
    exact if_neg fun h ↦ hends.mp h hc
  · rw [if_neg hc]
    exact if_pos (hends.mpr hc)

theorem IsAddress.ip4addrAton_eq {m : List UInt8} {addr : UInt32} (h : IsAddress m addr) :
    ip4addrAton m = some (some addr) := by
  obtain ⟨t, c, r, ns, x, rfl, hc, ht, hpacks, rfl⟩ := h
  have hlen : ns.length ≤ 4 := by
    rw [← List.length_map (f := (· % 2 ^ 32))]
    exact hpacks.length_le
  obtain ⟨ps, v, hloop, hparts⟩ := exists_atonLoop ht hlen [] hc r
  rw [List.nil_append] at hparts
  have hps : ps.length ≤ 3 := by
    have hlength := congrArg List.length hparts
    rw [List.length_append, List.length_singleton, List.length_map] at hlength
    omega
  rw [← map_toNat_ofNat, ← hparts] at hpacks
  rw [ip4addrAton_of_atonLoop hloop, if_pos hc]
  rcases concoct_cases hps v with ⟨y, hy, hpacks'⟩ | ⟨-, hnone⟩
  · rw [hy, hpacks.unique hpacks', UInt32.ofNat_toNat]
    rfl
  · exact absurd hpacks (hnone x)

theorem ip4addrAton_cases {m : List UInt8} (hm : (0 : UInt8) ∈ m) :
    ip4addrAton m = some none ∨ ∃ addr, ip4addrAton m = some (some addr) ∧ IsAddress m addr := by
  rcases atonLoop_cases hm 3 [] with hnone | ⟨t, ns, c, r, ps, v, rfl, ht, hlen, hparts, hloop⟩
  · exact .inl (by rw [ip4addrAton, hnone])
  rw [List.nil_append] at hparts
  rw [ip4addrAton_of_atonLoop hloop]
  by_cases hc : Ends c
  swap
  · exact .inl (if_neg hc)
  have hps : ps.length ≤ 3 := by
    have hlength := congrArg List.length hparts
    rw [List.length_append, List.length_singleton, List.length_map] at hlength
    omega
  rw [if_pos hc]
  rcases concoct_cases hps v with ⟨y, hy, hpacks⟩ | ⟨hnone, -⟩
  · rw [hparts, map_toNat_ofNat] at hpacks
    refine .inr ⟨htonl y, by rw [hy]; rfl, t, c, r, ns, _, rfl, hc, ht, hpacks, ?_⟩
    rw [UInt32.ofNat_toNat]
  · exact .inl (by rw [hnone]; rfl)

/-- **`ip4addr_aton` accepts the texts of addresses and nothing else**, and it reads each as the
address it is the text of. It never reads past the end of the string. -/
theorem exists_ip4addrAton (cp : CStr) :
    ∃ r, ip4addrAton cp.mem = some r ∧ ∀ addr, r = some addr ↔ IsAddress cp.mem addr := by
  rcases ip4addrAton_cases cp.zero_mem_mem with hnone | ⟨addr, haddr, hm⟩
  · refine ⟨none, hnone, fun addr ↦ ⟨?_, fun h ↦ ?_⟩⟩
    · rintro ⟨⟩
    · rw [h.ip4addrAton_eq] at hnone
      exact (Option.some.inj hnone).symm
  · refine ⟨some addr, haddr, fun addr' ↦ ⟨?_, fun h ↦ ?_⟩⟩
    · rintro ⟨⟩
      exact hm
    · rw [h.ip4addrAton_eq] at haddr
      exact (Option.some.inj haddr).symm

/-! ## Writing an address -/

/-- The first inner loop leaves the decimal numeral, the wrong way round. -/
theorem invLoop_eq {room : ℕ} {ap : UInt8} (hroom : (decimal ap.toNat).length ≤ room)
    (inv : List UInt8) : invLoop room ap inv = some (inv ++ (decimal ap.toNat).reverse) := by
  induction room generalizing ap inv with
  | zero => exact absurd (List.length_eq_zero_iff.mp (Nat.le_zero.mp hroom)) (decimal_ne_nil _)
  | succ room ih =>
    have hdigit : (48 + ap % 10 : UInt8) = decimalDigit (ap.toNat % 10) := by
      apply UInt8.toNat_inj.mp
      rw [toNat_decimalDigit (Nat.mod_lt _ (by decide)), UInt8.toNat_add, UInt8.toNat_mod]
      simp only [UInt8.reduceToNat]
      omega
    have hdiv : (ap / 10).toNat = ap.toNat / 10 := UInt8.toNat_div ap 10
    have hzero : ap / 10 ≠ 0 ↔ 10 ≤ ap.toNat := by
      rw [← UInt8.toNat_inj.ne, hdiv, UInt8.toNat_zero]
      omega
    simp only [invLoop, hdigit]
    by_cases hten : 10 ≤ ap.toNat
    · rw [decimal_of_ge hten] at hroom ⊢
      rw [List.length_append, List.length_singleton, Nat.succ_le_succ_iff, ← hdiv] at hroom
      rw [if_pos (hzero.mpr hten), ih hroom, List.append_assoc, hdiv, List.reverse_append]
      rfl
    · rw [if_neg (hzero.not.mpr hten), decimal_of_lt (not_le.mp hten),
        Nat.mod_eq_of_lt (not_le.mp hten)]
      rfl

theorem length_decimal_le (b : UInt8) : (decimal b.toNat).length ≤ 3 := by
  rcases Nat.eq_zero_or_pos b.toNat with hzero | hpos
  · rw [hzero]
    decide
  · rw [decimal_of_ne_zero hpos.ne', List.length_reverse, List.length_map,
      Nat.digits_length_le_iff (by decide)]
    exact b.toNat_lt.trans (by decide)

theorem exists_putLoop {k buflen : ℕ} (hk : buflen ≤ k) (buf : Vector UInt8 k) {len : ℕ}
    {l : List UInt8} (h : len + l.length ≤ buflen) :
    ∃ buf', putLoop buflen buf len l = some (some buf') ∧
      buf'.toList = splice buf.toList len l := by
  induction l generalizing buf len with
  | nil => exact ⟨buf, rfl, (splice_nil _ _).symm⟩
  | cons c l ih =>
    rw [List.length_cons] at h
    have hlen : len < k := by omega
    obtain ⟨buf', hput, hlist⟩ := ih (buf.set len c) (show len + 1 + l.length ≤ buflen by omega)
    refine ⟨buf', ?_, ?_⟩
    · rw [putLoop, if_neg (by omega), store_eq_some hlen]
      exact hput
    · rw [hlist, toList_set_eq_splice hlen, splice_cons (by simpa using hlen)]

theorem putLoop_eq_null {k buflen : ℕ} (hk : buflen ≤ k) (buf : Vector UInt8 k) {len : ℕ}
    {l : List UInt8} (hlen : len ≤ buflen) (h : buflen < len + l.length) :
    putLoop buflen buf len l = some none := by
  induction l generalizing buf len with
  | nil => exact absurd h (not_lt.mpr hlen)
  | cons c l ih =>
    rw [List.length_cons] at h
    rw [putLoop]
    by_cases hfull : buflen ≤ len
    · rw [if_pos hfull]
    · rw [if_neg hfull, store_eq_some (by omega)]
      exact ih _ (by omega) (by omega)

theorem putLoop_append {k : ℕ} (buflen : ℕ) (buf : Vector UInt8 k) (len : ℕ) (l l' : List UInt8) :
    putLoop buflen buf len (l ++ l') = match putLoop buflen buf len l with
      | some (some buf) => putLoop buflen buf (len + l.length) l'
      | r => r := by
  induction l generalizing buf len with
  | nil => rfl
  | cons c l ih =>
    rw [List.cons_append, putLoop, putLoop]
    split_ifs
    · rfl
    · cases store buf len c with
      | none => rfl
      | some buf =>
        simp only [ih]
        rw [List.length_cons, Nat.add_comm l.length, Nat.add_assoc]

/-- What is stored for a byte of the address. -/
def octet (b : UInt8) : List UInt8 := decimal b.toNat ++ [46]

/-- The outer loop stores the numbers with a dot behind each. -/
theorem ntoaLoop_eq {k : ℕ} (buflen : ℕ) (buf : Vector UInt8 k) (len : ℕ) (bytes : List UInt8) :
    ntoaLoop buflen buf len bytes = (putLoop buflen buf len (bytes.flatMap octet)).map fun r ↦
      r.map fun buf ↦ (buf, len + (bytes.flatMap octet).length) := by
  induction bytes generalizing buf len with
  | nil => rfl
  | cons b bytes ih =>
    rw [ntoaLoop, invLoop_eq (length_decimal_le b), List.flatMap_cons, putLoop_append]
    simp only [List.nil_append, List.reverse_reverse]
    rw [← octet]
    rcases putLoop buflen buf len (octet b) with _ | _ | buf'
    · rfl
    · rfl
    · simp only [ih, List.length_append, Nat.add_assoc]

theorem flatMap_octet (addr : UInt32) : (wordBytes addr).flatMap octet = dotted addr ++ [46] := by
  simp [wordBytes, octet, dotted, List.intercalate]

/-- Four numbers of up to three digits, three dots and the NUL make 16 bytes. -/
theorem length_dotted_lt (addr : UInt32) : (dotted addr).length < 16 := by
  have hlen := congrArg List.length (flatMap_octet addr)
  have hle : ∀ i, (octet (wordByte addr i)).length ≤ 4 := fun i ↦ by
    rw [octet, List.length_append]
    exact Nat.succ_le_succ (length_decimal_le _)
  rw [List.length_append, List.length_singleton] at hlen
  simp only [wordBytes, List.flatMap_cons, List.flatMap_nil, List.length_append, List.length_nil]
    at hlen
  have h₀ := hle 0
  have h₁ := hle 1
  have h₂ := hle 2
  have h₃ := hle 3
  omega

theorem splice_zero_concat (m l : List UInt8) (a b : UInt8) :
    splice (splice m 0 (l ++ [a])) l.length [b] = splice m 0 (l ++ [b]) := by
  have hlen : l.length < (l ++ [a] ++ m.drop (l ++ [a]).length).length := by simp
  rw [splice_zero m, splice_singleton hlen, List.append_assoc, List.set_append_right _ _ le_rfl,
    Nat.sub_self, splice_zero, List.append_assoc, List.length_append, List.length_append]
  rfl

theorem exists_ip4addrNtoaR {k buflen : ℕ} (hk : buflen ≤ k) (addr : UInt32)
    (buf : Vector UInt8 k) (h : (dotted addr).length < buflen) :
    ∃ buf', ip4addrNtoaR addr buf buflen = some (some buf') ∧
      buf'.toList = splice buf.toList 0 (dotted addr ++ [0]) := by
  have hfit : 0 + ((wordBytes addr).flatMap octet).length ≤ buflen := by
    rw [flatMap_octet, List.length_append, List.length_singleton]
    omega
  obtain ⟨buf₁, hput, hlist⟩ := exists_putLoop hk buf hfit
  have hcell : (dotted addr).length < k := h.trans_le hk
  refine ⟨buf₁.set (dotted addr).length 0, ?_, ?_⟩
  · rw [ip4addrNtoaR, ntoaLoop_eq, hput, Option.map_some, Option.map_some, flatMap_octet]
    simp only [Nat.zero_add, List.length_append, List.length_singleton, Nat.add_sub_cancel]
    rw [store_eq_some hcell]
    rfl
  · rw [toList_set_eq_splice hcell, hlist, flatMap_octet, splice_zero_concat]

theorem ip4addrNtoaR_eq_null {k buflen : ℕ} (hk : buflen ≤ k) (addr : UInt32)
    (buf : Vector UInt8 k) (h : buflen ≤ (dotted addr).length) :
    ip4addrNtoaR addr buf buflen = some none := by
  have hlong : buflen < 0 + ((wordBytes addr).flatMap octet).length := by
    rw [flatMap_octet, List.length_append, List.length_singleton]
    omega
  rw [ip4addrNtoaR, ntoaLoop_eq, putLoop_eq_null hk buf (Nat.zero_le _) hlong]
  rfl

/-- **`ip4addr_ntoa_r` stays inside the buffer it is given.** It returns `NULL` exactly if the text
and its NUL do not fit, and otherwise stores them at the front and leaves the rest alone. -/
theorem ip4addrNtoaR_spec {k buflen : ℕ} (hk : buflen ≤ k) (addr : UInt32) (buf : Vector UInt8 k) :
    ∃ r, ip4addrNtoaR addr buf buflen = some r ∧ (r = none ↔ buflen ≤ (dotted addr).length) ∧
      ∀ buf', r = some buf' → buf'.toList = splice buf.toList 0 (dotted addr ++ [0]) := by
  rcases lt_or_ge (dotted addr).length buflen with hfit | hlong
  · obtain ⟨buf', hntoa, hlist⟩ := exists_ip4addrNtoaR hk addr buf hfit
    refine ⟨some buf', hntoa, iff_of_false (by simp) (not_le.mpr hfit), ?_⟩
    rintro _ ⟨⟩
    exact hlist
  · refine ⟨none, ip4addrNtoaR_eq_null hk addr buf hlong, iff_of_true rfl hlong, ?_⟩
    rintro _ ⟨⟩

/-- Nine bytes are one too few for `10.0.2.15`. -/
theorem ip4addrNtoaR_nine :
    ∃ r, ip4addrNtoaR 0x0F02000A (Vector.replicate 9 0) 9 = some r ∧ r = none := by
  obtain ⟨r, hr, hnull, -⟩ := ip4addrNtoaR_spec (le_refl 9) 0x0F02000A (Vector.replicate 9 0)
  exact ⟨r, hr, hnull.mpr (by decide)⟩

/-! ## There and back -/

theorem htonl_eq (n : UInt32) :
    htonl n = leWord (wordByte n 3) (wordByte n 2) (wordByte n 1) (wordByte n 0) :=
  or_mask_eq_leWord n

theorem htonl_leWord (a b c d : UInt8) : htonl (leWord a b c d) = leWord d c b a := by
  have hbytes := wordBytes_leWord a b c d
  simp only [wordBytes, List.cons.injEq] at hbytes
  obtain ⟨ha, hb, hc, hd, -⟩ := hbytes
  rw [htonl_eq, ha, hb, hc, hd]

theorem isAddress_dotted (addr : UInt32) (r : List UInt8) :
    IsAddress (dotted addr ++ 0 :: r) addr := by
  have hnumber : ∀ b : UInt8, CNumber (decimal b.toNat) b.toNat := fun b ↦
    (isDecimal_decimal b.toNat).cNumber
  have hlt : ∀ b : UInt8, b.toNat % 2 ^ 32 = b.toNat := fun b ↦
    Nat.mod_eq_of_lt (b.toNat_lt.trans (by decide))
  have hdotted : dotted addr = decimal (wordByte addr 0).toNat ++ 46 ::
      (decimal (wordByte addr 1).toNat ++ 46 :: (decimal (wordByte addr 2).toNat ++ 46 ::
        decimal (wordByte addr 3).toNat)) := by
    simp [dotted, wordBytes, List.intercalate]
  have htext : Dotted (dotted addr) ((wordBytes addr).map UInt8.toNat) := by
    rw [hdotted]
    exact .dot (hnumber _) (.dot (hnumber _) (.dot (hnumber _) (.last (hnumber _))))
  have hpacks : Packs 4 ((wordBytes addr).map UInt8.toNat) _ :=
    .byte (UInt8.toNat_lt _) (.byte (UInt8.toNat_lt _) (.byte (UInt8.toNat_lt _)
      (.last (UInt8.toNat_lt _))))
  have hmod : ((wordBytes addr).map UInt8.toNat).map (· % 2 ^ 32)
      = (wordBytes addr).map UInt8.toNat := by
    rw [List.map_map]
    exact List.map_congr_left fun b _ ↦ hlt b
  refine ⟨_, 0, r, _, _, rfl, .inl rfl, htext, hmod ▸ hpacks, ?_⟩
  calc addr = leWord (wordByte addr 0) (wordByte addr 1) (wordByte addr 2) (wordByte addr 3) :=
        (leWord_of_wordBytes addr).symm
    _ = htonl (leWord (wordByte addr 3) (wordByte addr 2) (wordByte addr 1) (wordByte addr 0)) :=
        (htonl_leWord _ _ _ _).symm
    _ = _ := congrArg htonl (congrArg UInt32.ofNat (by omega))

/-- **An address that is written and read again is the same address**, whatever the static buffer
held: its 16 bytes are enough for every address. -/
theorem ip4addrAton_ip4addrNtoa (addr : UInt32) (str : Vector UInt8 16) :
    ∃ str', ip4addrNtoa addr str = some (some str') ∧
      ip4addrAton str'.toList = some (some addr) := by
  obtain ⟨str', hntoa, hlist⟩ := exists_ip4addrNtoaR (le_refl 16) addr str (length_dotted_lt addr)
  refine ⟨str', hntoa, IsAddress.ip4addrAton_eq ?_⟩
  rw [hlist, splice_zero, List.append_assoc, List.singleton_append]
  exact isAddress_dotted addr _

end ZanOS.Lwip
