import Mathlib.Data.List.Pairwise
import ZanOS.Uart.Numbers

/-!
# `uart_printf`

`uart_printf` walks its format with one pointer and its variable arguments with another. A byte
other than `%` is sent; after a `%` the next byte alone decides: `s`, `d`, `x`, `X` and `p` render
the next argument, `%` sends itself, and anything else is skipped without touching the arguments.

The loop is modelled on the memory from the format's first byte to the end of its object, and
yields the calls it makes with the number of the argument each of them takes (`printfLoop`), so that
what is read of the format can be said without the arguments. `uartPrintf` performs the calls.

Formats that use only what the driver renders come out as they should. Two things go wrong on
others. A conversion the driver does not know takes no argument, so those behind it are rendered
from arguments that are not theirs (`InStep`). And a `%` at the end of the format makes the loop
step over the terminator (`StaysInside`).
-/

namespace ZanOS

open Foundation

/-! ## The model -/

/-- A call that `uart_printf` makes, with the number of the variable argument it takes. -/
inductive PrintCall
  | putc (c : UInt8)
  | print (arg : ℕ)
  | printInt (arg : ℕ)
  | printHex (arg : ℕ)
  deriving DecidableEq

/-- The branches behind a `%`: the calls for the byte `d` when `k` arguments have been taken, and
how many have been taken then. -/
def conversion (d : UInt8) (k : ℕ) : List PrintCall × ℕ :=
  if d = 115 then ([.print k], k + 1) -- `s`
  else if d = 100 then ([.printInt k], k + 1) -- `d`
  else if d = 120 ∨ d = 112 ∨ d = 88 then ([.printHex k], k + 1) -- `x`, `p`, `X`
  else if d = 37 then ([.putc 37], k) -- `%`
  else ([], k)

/-- The loop of `uart_printf`: the calls made, and the format pointer where it stops. -/
def printfLoop : List UInt8 → ℕ → Option (List PrintCall × List UInt8)
  | [], _ => none
  | c :: fmt, k =>
      if c = 0 then some ([], c :: fmt)
      else if c = 37 then
        match fmt with
        | [] => none
        | d :: fmt =>
            (printfLoop fmt (conversion d k).2).map fun r ↦ ((conversion d k).1 ++ r.1, r.2)
      else (printfLoop fmt k).map fun r ↦ (.putc c :: r.1, r.2)

/-- A variable argument: a pointer to memory, or a 32-bit word. -/
inductive Arg
  | ptr (mem : List UInt8)
  | word (w : UInt32)

/-- The bytes a call sends. An argument that is missing or of the wrong kind has no result. -/
def PrintCall.bytes (args : List Arg) : PrintCall → Option (List UInt8)
  | .putc c => some [c]
  | .print k =>
      match args[k]? with
      | some (.ptr mem) => uartPrint mem
      | _ => none
  | .printInt k =>
      match args[k]? with
      | some (.word w) => uartPrintInt w.toInt32.toInt
      | _ => none
  | .printHex k =>
      match args[k]? with
      | some (.word w) => some (uartPrintHex w)
      | _ => none

/-- `uart_printf`. -/
def uartPrintf (fmt : List UInt8) (args : List Arg) : Option (List UInt8) :=
  match printfLoop fmt 0 with
  | none => none
  | some (calls, _) => (calls.mapM (PrintCall.bytes args)).map List.flatten

theorem printfLoop_zero (r : List UInt8) (k : ℕ) : printfLoop (0 :: r) k = some ([], 0 :: r) := by
  rw [printfLoop.eq_def]
  exact if_pos rfl

theorem printfLoop_literal {c : UInt8} (hzero : c ≠ 0) (hpercent : c ≠ 37) (fmt : List UInt8)
    (k : ℕ) : printfLoop (c :: fmt) k = (printfLoop fmt k).map fun r ↦ (.putc c :: r.1, r.2) := by
  rw [printfLoop.eq_def]
  simp only [if_neg hzero, if_neg hpercent]

theorem printfLoop_percent (d : UInt8) (fmt : List UInt8) (k : ℕ) :
    printfLoop (37 :: d :: fmt) k = (printfLoop fmt (conversion d k).2).map
      fun r ↦ ((conversion d k).1 ++ r.1, r.2) := by
  rw [printfLoop, if_neg (by decide), if_pos rfl]

/-! ## The end of the format -/

/-- What a format ends in for the loop: a `%` with nothing to go with it. -/
def lonePercent : List UInt8 → Bool
  | [] => false
  | [c] => c = 37
  | c :: d :: s => if c = 37 then lonePercent s else lonePercent (d :: s)

/-- `uart_printf` stops at the terminator of its format, whatever lies behind it in memory. -/
def StaysInside (fmt : CStr) : Prop :=
  ∀ r, ∃ calls, printfLoop (fmt.bytes ++ 0 :: r) 0 = some (calls, 0 :: r)

theorem exists_printfLoop {s : List UInt8} (hs : (0 : UInt8) ∉ s) (hlone : lonePercent s = false)
    (r : List UInt8) (k : ℕ) : ∃ calls, printfLoop (s ++ 0 :: r) k = some (calls, 0 :: r) := by
  fun_induction lonePercent s generalizing k with
  | case1 => exact ⟨[], printfLoop_zero r k⟩
  | case2 c =>
    rw [List.mem_singleton] at hs
    refine ⟨[.putc c], ?_⟩
    rw [List.singleton_append, printfLoop_literal (Ne.symm hs) (of_decide_eq_false hlone),
      printfLoop_zero, Option.map_some]
  | case3 d s ih =>
    rw [List.mem_cons, List.mem_cons, not_or, not_or] at hs
    obtain ⟨calls, hcalls⟩ := ih hs.2.2 hlone (conversion d k).2
    refine ⟨(conversion d k).1 ++ calls, ?_⟩
    rw [List.cons_append, List.cons_append, printfLoop_percent, hcalls, Option.map_some]
  | case4 c d s hc ih =>
    rw [List.mem_cons, not_or] at hs
    obtain ⟨calls, hcalls⟩ := ih hs.2 hlone k
    refine ⟨.putc c :: calls, ?_⟩
    rw [List.cons_append, printfLoop_literal (Ne.symm hs.1) hc, hcalls, Option.map_some]

/-- Behind a lone `%` the terminator is taken for a conversion, and the loop reads on. -/
theorem printfLoop_eq_none {s : List UInt8} (hs : (0 : UInt8) ∉ s) (hlone : lonePercent s = true)
    (k : ℕ) : printfLoop (s ++ [0]) k = none := by
  fun_induction lonePercent s generalizing k with
  | case1 => exact absurd hlone Bool.false_ne_true
  | case2 c =>
    rw [of_decide_eq_true hlone, List.singleton_append, printfLoop_percent, printfLoop,
      Option.map_none]
  | case3 d s ih =>
    rw [List.mem_cons, List.mem_cons, not_or, not_or] at hs
    rw [List.cons_append, List.cons_append, printfLoop_percent, ih hs.2.2 hlone, Option.map_none]
  | case4 c d s hc ih =>
    rw [List.mem_cons, not_or] at hs
    rw [List.cons_append, printfLoop_literal (Ne.symm hs.1) hc, ih hs.2 hlone, Option.map_none]

/-- The length of the run of `%` that a format ends in. -/
def trailingPercents (s : List UInt8) : ℕ := (s.reverse.takeWhile (· = 37)).length

/-- A byte in front of the format counts if it belongs to the run, that is, if nothing but `%`
follows it. -/
theorem trailingPercents_cons (c : UInt8) (s : List UInt8) :
    trailingPercents (c :: s) = trailingPercents s +
      if c = 37 ∧ trailingPercents s = s.length then 1 else 0 := by
  rw [trailingPercents, List.reverse_cons, List.takeWhile_append, List.length_reverse,
    ← trailingPercents]
  by_cases hall : trailingPercents s = s.length
  · rw [if_pos hall, hall]
    by_cases hc : c = 37
    · simp [hc]
    · simp [hc]
  · rw [if_neg hall, if_neg fun h ↦ hall h.2]
    rfl

theorem trailingPercents_pair (d : UInt8) (s : List UInt8) :
    trailingPercents (37 :: d :: s) % 2 = trailingPercents s % 2 := by
  have hle : trailingPercents s ≤ s.length := by
    have hlen := (List.takeWhile_sublist (l := s.reverse) fun c ↦ decide (c = 37)).length_le
    rwa [List.length_reverse] at hlen
  rw [trailingPercents_cons, trailingPercents_cons, List.length_cons]
  by_cases hd : d = 37 ∧ trailingPercents s = s.length
  · -- the pair and everything behind it is `%`
    rw [if_pos hd, if_pos ⟨rfl, by rw [hd.2]⟩, Nat.add_assoc, Nat.add_mod_right]
  · rw [if_neg hd, Nat.add_zero, if_neg (by omega), Nat.add_zero]

/-- **A `%` stands alone at the end exactly if the run there is odd**: whatever precedes the run
ends in a byte that is no `%`, so the loop is between two conversions where the run starts. -/
theorem lonePercent_eq_true_iff (s : List UInt8) :
    lonePercent s = true ↔ trailingPercents s % 2 = 1 := by
  fun_induction lonePercent s with
  | case1 => simp [trailingPercents]
  | case2 c => by_cases hc : c = 37 <;> simp [trailingPercents, hc]
  | case3 d s ih => rw [ih, trailingPercents_pair]
  | case4 c d s hc ih => rw [ih, trailingPercents_cons c, if_neg fun h ↦ hc h.1, Nat.add_zero]

/-- **`uart_printf` stays inside its format exactly if the format ends in an even number of
`%`.** -/
theorem staysInside_iff (fmt : CStr) :
    StaysInside fmt ↔ trailingPercents fmt.bytes % 2 = 0 := by
  have hodd := lonePercent_eq_true_iff fmt.bytes
  constructor
  · intro h
    obtain ⟨calls, hcalls⟩ := h []
    by_contra hne
    rw [printfLoop_eq_none fmt.zero_notMem (hodd.mpr (by omega))] at hcalls
    exact absurd hcalls (by simp)
  · intro heven r
    refine exists_printfLoop fmt.zero_notMem ?_ r 0
    rw [← Bool.not_eq_true, hodd]
    omega

/-- The format `50%`: the loop goes on behind the terminator, and sends what it finds there. -/
theorem not_staysInside_lone_percent :
    printfLoop (literal "50%") 0 = none ∧
      printfLoop (literal "50%" ++ literal "secret") 0
        = some ((ascii "50secret").map PrintCall.putc, [0]) ∧
      ¬ StaysInside ⟨ascii "50%", by decide⟩ := by
  refine ⟨by decide +kernel, by decide +kernel, ?_⟩
  intro h
  obtain ⟨calls, hcalls⟩ := h []
  have hnone : printfLoop (ascii "50%" ++ [0]) 0 = none := by decide
  rw [hnone] at hcalls
  exact absurd hcalls (by simp)

/-! ## Conversions and arguments

A format as a C caller writes it: literal bytes, `%%`, and conversions with their flags, width,
precision and length modifiers, each of which takes one argument. -/

/-- The bytes that may stand between the `%` and the letter of a conversion. A `*` is not among
them: it takes an argument of its own. -/
def modifiers : List UInt8 := ascii "-+ #0123456789.hlLqjzt"

/-- The letters of the C conversions. -/
def convLetters : List UInt8 := ascii "diouxXeEfFgGaAcspn"

/-- The letters `uart_printf` knows. -/
def knownLetters : List UInt8 := ascii "sdxXp"

/-- A directive of a C format. -/
inductive Directive
  | lit (c : UInt8) (hzero : c ≠ 0) (hpercent : c ≠ 37)
  | percent
  | conv (mods : List UInt8) (letter : UInt8) (hmods : ∀ m ∈ mods, m ∈ modifiers)
      (hletter : letter ∈ convLetters)

namespace Directive

/-- The directive as it stands in the format. -/
def bytes : Directive → List UInt8
  | lit c _ _ => [c]
  | percent => [37, 37]
  | conv mods letter _ _ => 37 :: mods ++ [letter]

/-- The directive takes an argument and `uart_printf` renders it. -/
def Supported : Directive → Prop
  | conv mods letter _ _ => mods = [] ∧ letter ∈ knownLetters
  | _ => False

instance : DecidablePred Supported
  | lit _ _ _ => .isFalse id
  | percent => .isFalse id
  | conv mods letter _ _ => inferInstanceAs (Decidable (mods = [] ∧ letter ∈ knownLetters))

/-- How many arguments belong to the directive. -/
def arity : Directive → ℕ
  | conv _ _ _ _ => 1
  | _ => 0

/-- How many arguments `uart_printf` takes for it. -/
def taken (d : Directive) : ℕ := if d.Supported then 1 else 0

/-- The call that renders a supported directive from the argument `k`. -/
def call (k : ℕ) : Directive → PrintCall
  | conv _ letter _ _ =>
      if letter = 115 then .print k else if letter = 100 then .printInt k else .printHex k
  | lit c _ _ => .putc c
  | percent => .putc 37

end Directive

/-- The format string of a list of directives. -/
def formatBytes (ds : List Directive) : List UInt8 := ds.flatMap Directive.bytes

/-- The calls that render the supported directives of a format, when each directive moves the
argument pointer as `step` says. -/
def callsFrom (step : Directive → ℕ) : List Directive → ℕ → List PrintCall
  | [], _ => []
  | d :: ds, k =>
      if d.Supported then d.call k :: callsFrom step ds (k + step d)
      else callsFrom step ds (k + step d)

/-- A call takes an argument. -/
def PrintCall.takesArg : PrintCall → Bool
  | .putc _ => false
  | _ => true

/-- `uart_printf` renders every directive it supports from that directive's own argument: the one
behind those of the directives before it. -/
def InStep (ds : List Directive) : Prop :=
  ∃ calls, printfLoop (formatBytes ds ++ [0]) 0 = some (calls, [0]) ∧
    calls.filter PrintCall.takesArg = callsFrom Directive.arity ds 0

theorem conversion_of_unknown {d : UInt8} (hknown : d ∉ knownLetters) (hpercent : d ≠ 37) (k : ℕ) :
    conversion d k = ([], k) := by
  have hne : ∀ x ∈ knownLetters, d ≠ x := fun x hx heq ↦ hknown (heq ▸ hx)
  rw [conversion, if_neg (hne 115 (by decide)), if_neg (hne 100 (by decide)), if_neg ?_,
    if_neg hpercent]
  rintro (rfl | rfl | rfl)
  · exact hne 120 (by decide) rfl
  · exact hne 112 (by decide) rfl
  · exact hne 88 (by decide) rfl

theorem conversion_of_known {d : UInt8} (hknown : d ∈ knownLetters) (k : ℕ) :
    conversion d k = ([if d = 115 then .print k else if d = 100 then .printInt k else .printHex k],
      k + 1) := by
  have hcases : d = 115 ∨ d = 100 ∨ d = 120 ∨ d = 88 ∨ d = 112 := by
    simpa [knownLetters, ascii] using hknown
  rcases hcases with rfl | rfl | rfl | rfl | rfl <;> rfl

theorem printfLoop_literals {s : List UInt8} (hs : ∀ c ∈ s, c ≠ 0 ∧ c ≠ 37) (fmt : List UInt8)
    (k : ℕ) : printfLoop (s ++ fmt) k
      = (printfLoop fmt k).map fun r ↦ (s.map PrintCall.putc ++ r.1, r.2) := by
  induction s with
  | nil => simp
  | cons c s ih =>
    obtain ⟨hc, hs⟩ := List.forall_mem_cons.mp hs
    rw [List.cons_append, printfLoop_literal hc.1 hc.2, ih hs, Option.map_map]
    rfl

theorem modifier_spec : ∀ m ∈ modifiers, (m ≠ 0 ∧ m ≠ 37) ∧ m ∉ knownLetters := by
  decide +kernel

theorem convLetter_spec : ∀ c ∈ convLetters, c ≠ 0 ∧ c ≠ 37 := by decide +kernel

/-- **What the loop makes of one directive.** Of a conversion it does not support it skips the byte
behind the `%` and sends the rest as it stands. -/
theorem exists_printfLoop_directive (d : Directive) (k : ℕ) :
    ∃ calls, (∀ fmt, printfLoop (d.bytes ++ fmt) k
        = (printfLoop fmt (k + d.taken)).map fun r ↦ (calls ++ r.1, r.2)) ∧
      calls.filter PrintCall.takesArg = if d.Supported then [d.call k] else [] := by
  rcases d with ⟨c, hzero, hpercent⟩ | _ | ⟨_ | ⟨m, mods⟩, letter, hmods, hletter⟩
  · exact ⟨[.putc c], fun fmt ↦ printfLoop_literal hzero hpercent fmt k, rfl⟩
  · exact ⟨[.putc 37], fun fmt ↦ printfLoop_percent 37 fmt k, rfl⟩
  · by_cases hknown : letter ∈ knownLetters
    · have hsupp : (Directive.conv [] letter hmods hletter).Supported := ⟨rfl, hknown⟩
      refine ⟨[Directive.call k (.conv [] letter hmods hletter)], fun fmt ↦ ?_, ?_⟩
      · rw [Directive.taken, if_pos hsupp]
        exact (printfLoop_percent letter fmt k).trans (by rw [conversion_of_known hknown]; rfl)
      · rw [if_pos hsupp, Directive.call]
        split_ifs <;> rfl
    · have hsupp : ¬ (Directive.conv [] letter hmods hletter).Supported := fun h ↦ hknown h.2
      refine ⟨[], fun fmt ↦ ?_, (if_neg hsupp).symm⟩
      rw [Directive.taken, if_neg hsupp]
      exact (printfLoop_percent letter fmt k).trans
        (by rw [conversion_of_unknown hknown (convLetter_spec letter hletter).2]; rfl)
  · obtain ⟨hm, hmods'⟩ := List.forall_mem_cons.mp hmods
    have hsupp : ¬ (Directive.conv (m :: mods) letter hmods hletter).Supported :=
      fun h ↦ List.cons_ne_nil m mods h.1
    have hplain : ∀ c ∈ mods ++ [letter], c ≠ 0 ∧ c ≠ 37 := by
      intro c hc
      rcases List.mem_append.mp hc with hc | hc
      · exact (modifier_spec c (hmods' c hc)).1
      · rw [List.mem_singleton.mp hc]
        exact convLetter_spec letter hletter
    refine ⟨(mods ++ [letter]).map PrintCall.putc, fun fmt ↦ ?_, ?_⟩
    · have hbytes : (Directive.conv (m :: mods) letter hmods hletter).bytes ++ fmt
          = 37 :: m :: ((mods ++ [letter]) ++ fmt) := rfl
      obtain ⟨⟨-, hpercent⟩, hknown⟩ := modifier_spec m hm
      rw [hbytes, printfLoop_percent, conversion_of_unknown hknown hpercent,
        printfLoop_literals hplain, Directive.taken, if_neg hsupp, Option.map_map]
      rfl
    · rw [if_neg hsupp, List.filter_eq_nil_iff]
      intro call hcall
      obtain ⟨c, -, rfl⟩ := List.mem_map.mp hcall
      exact Bool.false_ne_true

theorem exists_printfLoop_formatBytes (ds : List Directive) (r : List UInt8) (k : ℕ) :
    ∃ calls, printfLoop (formatBytes ds ++ 0 :: r) k = some (calls, 0 :: r) ∧
      calls.filter PrintCall.takesArg = callsFrom Directive.taken ds k := by
  induction ds generalizing k with
  | nil => exact ⟨[], printfLoop_zero r k, rfl⟩
  | cons d ds ih =>
    obtain ⟨front, hfront, hfilter⟩ := exists_printfLoop_directive d k
    obtain ⟨calls, hcalls, hrest⟩ := ih (k + d.taken)
    refine ⟨front ++ calls, ?_, ?_⟩
    · rw [formatBytes, List.flatMap_cons, List.append_assoc, hfront, ← formatBytes, hcalls,
        Option.map_some]
    · rw [List.filter_append, hfilter, hrest, callsFrom]
      split_ifs <;> rfl

namespace Directive

theorem taken_le_arity (d : Directive) : d.taken ≤ d.arity := by
  rw [taken]
  split_ifs with h
  · rcases d with _ | _ | _
    · exact h.elim
    · exact h.elim
    · exact le_refl 1
  · exact Nat.zero_le _

theorem arity_eq (d : Directive) : d.arity = 0 ∨ d.arity = 1 := by
  rcases d with _ | _ | _
  · exact .inl rfl
  · exact .inl rfl
  · exact .inr rfl

theorem call_inj {d : Directive} (hd : d.Supported) {k m : ℕ} (h : d.call k = d.call m) :
    k = m := by
  rcases d with _ | _ | ⟨mods, letter, _, _⟩
  · exact hd.elim
  · exact hd.elim
  · rw [call, call] at h
    split_ifs at h
    · exact PrintCall.print.inj h
    · exact PrintCall.printInt.inj h
    · exact PrintCall.printHex.inj h

end Directive

/-- Once the driver has fallen behind it never catches up: nothing it renders from there on gets its
own argument. -/
theorem callsFrom_eq_iff_of_lt {ds : List Directive} {k m : ℕ} (h : k < m) :
    callsFrom Directive.taken ds k = callsFrom Directive.arity ds m ↔
      ∀ d ∈ ds, ¬ d.Supported := by
  induction ds generalizing k m with
  | nil => simp [callsFrom]
  | cons d ds ih =>
    have hlt : k + d.taken < m + d.arity := Nat.add_lt_add_of_lt_of_le h d.taken_le_arity
    rw [callsFrom, callsFrom, List.forall_mem_cons]
    by_cases hd : d.Supported
    · rw [if_pos hd, if_pos hd, List.cons.injEq]
      exact iff_of_false (fun heq ↦ h.ne (Directive.call_inj hd heq.1)) fun hall ↦ hall.1 hd
    · rw [if_neg hd, if_neg hd, ih hlt]
      exact (and_iff_right hd).symm

/-- No conversion that the driver supports comes after one that it does not. -/
def SupportedFirst (ds : List Directive) : Prop :=
  ds.Pairwise fun d e ↦ d.arity = 1 → ¬ d.Supported → ¬ e.Supported

theorem callsFrom_eq_iff {ds : List Directive} (k : ℕ) :
    callsFrom Directive.taken ds k = callsFrom Directive.arity ds k ↔ SupportedFirst ds := by
  induction ds generalizing k with
  | nil => simp [callsFrom, SupportedFirst]
  | cons d ds ih =>
    rw [callsFrom, callsFrom, SupportedFirst, List.pairwise_cons, ← SupportedFirst]
    by_cases hd : d.Supported
    · have htaken : d.taken = d.arity := by
        rcases d with _ | _ | _
        · exact hd.elim
        · exact hd.elim
        · exact if_pos hd
      rw [if_pos hd, if_pos hd, htaken, List.cons.injEq, and_iff_right rfl, ih]
      exact (and_iff_right fun e _ _ hnot ↦ absurd hd hnot).symm
    · rw [if_neg hd, if_neg hd, Directive.taken, if_neg hd, Nat.add_zero]
      rcases d.arity_eq with hzero | hone
      · rw [hzero, Nat.add_zero, ih]
        exact (and_iff_right fun e _ h ↦ absurd h Nat.zero_ne_one).symm
      · rw [hone, callsFrom_eq_iff_of_lt (Nat.lt_succ_self k)]
        refine ⟨fun hall ↦ ⟨fun e he _ _ ↦ hall e he, ?_⟩, fun h e he ↦ h.1 e he rfl hd⟩
        exact List.pairwise_of_forall_mem_list fun _ _ e he _ _ ↦ hall e he

/-- **Conversions and arguments are in step exactly if the supported conversions come first.** -/
theorem inStep_iff (ds : List Directive) : InStep ds ↔ SupportedFirst ds := by
  obtain ⟨calls, hcalls, htaken⟩ := exists_printfLoop_formatBytes ds [] 0
  rw [← callsFrom_eq_iff 0, ← htaken]
  constructor
  · rintro ⟨calls', hcalls', hown⟩
    rw [hcalls, Option.some.injEq, Prod.mk.injEq] at hcalls'
    rw [hcalls'.1, hown]
  · exact fun hown ↦ ⟨calls, hcalls, hown⟩

/-- `%c%c: %d`, the shape of the messages of the network interface module: the two letters of the
interface's name, then a number. -/
def interfaceFormat : List Directive :=
  [.conv [] 99 (by simp) (by decide), .conv [] 99 (by simp) (by decide),
    .lit 58 (by decide) (by decide), .lit 32 (by decide) (by decide),
    .conv [] 100 (by simp) (by decide)]

/-- With the name `en` and the number 7, `uart_printf` prints the code of the letter `e` for the
number. -/
theorem not_inStep_interfaceFormat :
    uartPrintf (formatBytes interfaceFormat ++ [0]) [.word 101, .word 110, .word 7]
        = some (ascii ": 101") ∧
      ¬ InStep interfaceFormat := by
  have hloop : printfLoop (formatBytes interfaceFormat ++ [0]) 0
      = some ([.putc 58, .putc 32, .printInt 0], [0]) := by decide
  refine ⟨by decide, ?_⟩
  rintro ⟨calls, hcalls, hown⟩
  rw [hloop, Option.some.injEq, Prod.mk.injEq] at hcalls
  rw [← hcalls.1] at hown
  exact absurd hown (by decide)

/-! ## Supported formats -/

/-- A piece of a format with the argument that goes with it. -/
inductive Piece
  | lit (c : UInt8) (hzero : c ≠ 0) (hpercent : c ≠ 37)
  | percent
  | str (mem : List UInt8) (hmem : (0 : UInt8) ∈ mem)
  | dec (n : ℕ) (hn : n < 2 ^ 31)
  | hex (letter : UInt8) (hletter : letter = 120 ∨ letter = 112 ∨ letter = 88) (w : UInt32)

namespace Piece

/-- The piece as it stands in the format. -/
def bytes : Piece → List UInt8
  | lit c _ _ => [c]
  | percent => [37, 37]
  | str _ _ => [37, 115]
  | dec _ _ => [37, 100]
  | hex letter _ _ => [37, letter]

/-- The argument that goes with the piece. -/
def arg : Piece → Option Arg
  | lit _ _ _ => none
  | percent => none
  | str mem _ => some (.ptr mem)
  | dec n _ => some (.word (UInt32.ofNat n))
  | hex _ _ w => some (.word w)

/-- What the piece should come out as. -/
def Renders : Piece → List UInt8 → Prop
  | lit c _ _, out => out = [c]
  | percent, out => out = [37]
  | str mem _, out => out = cstr mem
  | dec n _, out => IsDecimal out n
  | hex _ _ w, out => IsHex out 8 w.toNat

end Piece

theorem toInt_toInt32_ofNat {n : ℕ} (hn : n < 2 ^ 31) : (UInt32.ofNat n).toInt32.toInt = n := by
  have hnat : (UInt32.ofNat n).toBitVec.toNat = n := by
    rw [UInt32.toNat_toBitVec]
    exact UInt32.toNat_ofNat_of_lt' (by rw [UInt32.size]; omega)
  rw [← Int32.toInt_toBitVec, UInt32.toBitVec_toInt32, BitVec.toInt_eq_toNat_of_lt, hnat]
  rw [hnat]
  omega

theorem getElem?_length_append (pre more : List Arg) (a : Arg) :
    (pre ++ [a] ++ more)[pre.length]? = some a := by
  rw [List.append_assoc, List.getElem?_append_right (le_refl _), Nat.sub_self,
    List.singleton_append, List.getElem?_cons_zero]

/-- **What the loop makes of one piece**: one call, which takes the piece's argument if it has one
and leaves the pointer behind it. -/
theorem Piece.exists_call (p : Piece) (pre : List Arg) :
    ∃ call out, (∀ fmt, printfLoop (p.bytes ++ fmt) pre.length
        = (printfLoop fmt (pre ++ p.arg.toList).length).map fun r ↦ (call :: r.1, r.2)) ∧
      (∀ more, PrintCall.bytes (pre ++ p.arg.toList ++ more) call = some out) ∧
      p.Renders out := by
  rcases p with ⟨c, hzero, hpercent⟩ | _ | ⟨mem, hmem⟩ | ⟨n, hn⟩ | ⟨letter, hletter, w⟩
  · refine ⟨.putc c, [c], fun fmt ↦ ?_, fun _ ↦ rfl, rfl⟩
    rw [arg, Option.toList_none, List.append_nil]
    exact printfLoop_literal hzero hpercent fmt _
  · refine ⟨.putc 37, [37], fun fmt ↦ ?_, fun _ ↦ rfl, rfl⟩
    rw [arg, Option.toList_none, List.append_nil]
    exact printfLoop_percent 37 fmt _
  · refine ⟨.print pre.length, cstr mem, fun fmt ↦ ?_, fun more ↦ ?_, rfl⟩
    · rw [arg, Option.toList_some, List.length_append, List.length_singleton]
      exact printfLoop_percent 115 fmt _
    · rw [arg, Option.toList_some, PrintCall.bytes, getElem?_length_append]
      exact uartPrint_of_zero_mem hmem
  · refine ⟨.printInt pre.length, decimal n, fun fmt ↦ ?_, fun more ↦ ?_, isDecimal_decimal n⟩
    · rw [arg, Option.toList_some, List.length_append, List.length_singleton]
      exact printfLoop_percent 100 fmt _
    · rw [arg, Option.toList_some, PrintCall.bytes, getElem?_length_append]
      simp only
      rw [toInt_toInt32_ofNat hn, uartPrintInt_natCast (by omega)]
  · refine ⟨.printHex pre.length, uartPrintHex w, fun fmt ↦ ?_, fun more ↦ ?_,
      isHex_uartPrintHex w⟩
    · rw [arg, Option.toList_some, List.length_append, List.length_singleton]
      have hloop := printfLoop_percent letter fmt pre.length
      rcases hletter with rfl | rfl | rfl <;> exact hloop
    · rw [arg, Option.toList_some, PrintCall.bytes, getElem?_length_append]

/-- The loop over a format of supported pieces, behind arguments already taken. -/
theorem exists_calls_of_pieces (ps : List Piece) (r : List UInt8) (pre : List Arg) :
    ∃ calls outs, printfLoop (ps.flatMap Piece.bytes ++ 0 :: r) pre.length
        = some (calls, 0 :: r) ∧
      calls.mapM (PrintCall.bytes (pre ++ ps.filterMap Piece.arg)) = some outs ∧
      List.Forall₂ Piece.Renders ps outs := by
  induction ps generalizing pre with
  | nil => exact ⟨[], [], printfLoop_zero r _, rfl, .nil⟩
  | cons p ps ih =>
    obtain ⟨call, out, hcall, hout, hrenders⟩ := p.exists_call pre
    obtain ⟨calls, outs, hcalls, houts, hall⟩ := ih (pre ++ p.arg.toList)
    refine ⟨call :: calls, out :: outs, ?_, ?_, .cons hrenders hall⟩
    · rw [List.flatMap_cons, List.append_assoc, hcall, hcalls, Option.map_some]
    · have hargs : (p :: ps).filterMap Piece.arg = p.arg.toList ++ ps.filterMap Piece.arg := by
        rcases harg : p.arg with _ | a <;> simp [harg]
      rw [hargs, ← List.append_assoc, List.mapM_cons, hout, houts]
      rfl

/-- **Supported formats are rendered exactly**: the output is the concatenation of what the pieces
stand for, in their order. -/
theorem exists_uartPrintf (ps : List Piece) (r : List UInt8) :
    ∃ outs, uartPrintf (ps.flatMap Piece.bytes ++ 0 :: r) (ps.filterMap Piece.arg)
        = some outs.flatten ∧
      List.Forall₂ Piece.Renders ps outs := by
  obtain ⟨calls, outs, hcalls, houts, hall⟩ := exists_calls_of_pieces ps r []
  refine ⟨outs, ?_, hall⟩
  rw [List.length_nil] at hcalls
  rw [List.nil_append] at houts
  rw [uartPrintf, hcalls]
  simp only
  rw [houts, Option.map_some]

end ZanOS
