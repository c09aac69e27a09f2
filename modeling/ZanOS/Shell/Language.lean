import Mathlib.Data.List.Pairwise
import ZanOS.Shell.Loop

/-!
# The command language

The shell is to understand eight words, and three words with an argument behind a space. The chain
of `main` decides which line is which by comparing with each word in turn. What a condition of the
chain compares with is its *key*, the bytes that every line which passes it starts with. No key is
the beginning of another one, so no two conditions hold for the same line and the order of the chain
makes no difference.

**The count of `diagnostic`.** Each of the three commands with an argument is compared in as many
bytes as its literal has. `diagnostic` is compared in four bytes, the count of the branch above it.
Its key is `diag`, and every line that starts so is run as `diagnostic`.
-/

namespace ZanOS

open Foundation

/-! ## The language -/

/-- The forms of a command: a word alone, or a word, a space and an argument. -/
inductive Form
  | word (text : String)
  | argument (text : String)

/-- The lines of a form. -/
def Form.Fits (line : List UInt8) : Form → Prop
  | .word text => line = ascii text
  | .argument text => ∃ rest, line = ascii text ++ 32 :: rest

/-- The commands and their forms. -/
def language : List (Form × Command) :=
  [(.word "help", .help),
    (.word "hello", .hello),
    (.argument "curl", .curl),
    (.word "info", .info),
    (.word "clear", .clear),
    (.word "ls", .ls),
    (.word "ifconfig", .ifconfig),
    (.argument "host", .host),
    (.argument "cat", .cat),
    (.word "diagnostic", .diagnostic),
    (.word "time", .time)]

/-- The command that `main` runs for a line: none for an empty line, which it skips before the
chain. -/
def lineCommand : List UInt8 → Option (Option Command)
  | [] => none
  | c :: cmd => if c = 0 then some none else (dispatch (c :: cmd)).map some

/-- It is the command that the model of the shell runs. -/
theorem Shell.lineCommand_of_runLine {s s' : Shell} {dns : DnsAnswer} {tcp : TcpAnswers}
    {out : List Action} {o : Output} (h : s.runLine dns tcp out = some (s', o)) :
    lineCommand s.cmd.toList = some o.command := by
  obtain ⟨c, r, hcmd⟩ : ∃ c r, s.cmd.toList = c :: r :=
    List.exists_cons_of_length_pos (by rw [Vector.length_toList]; exact Nat.succ_pos 63)
  have hget : s.cmd.get 0 = c := by
    have hhead : some (s.cmd.get 0) = s.cmd.toList[0]? := by
      rw [Vector.getElem?_toList]
      rfl
    rw [hcmd] at hhead
    exact Option.some.inj hhead
  rw [runLine, hget, hcmd] at h
  rw [hcmd, lineCommand]
  split_ifs at h ⊢ with hc
  · rw [← (Prod.mk.inj (Option.some.inj h)).2]
  · split at h
    · cases h
    · next c' hdispatch =>
      obtain ⟨r', -, heq⟩ := Option.map_eq_some_iff.mp h
      rw [hdispatch, ← (Prod.mk.inj heq).2, Option.map_some]

/-! ## Conditions and their keys -/

/-- What a line that passes a condition starts with. -/
def Guard.key : Guard → List UInt8
  | .equals word => cstr (literal word)
  | .agrees word n => (cstr (literal word)).take n

theorem Guard.key_prefix_of_holds {m : List UInt8} (h : (0 : UInt8) ∈ m) {g : Guard}
    (hholds : g.holds m = some true) : g.key <+: cstr m := by
  rcases g with word | ⟨word, n⟩
  · rw [holds_equals_iff h] at hholds
    exact ⟨[], by rw [List.append_nil, key, hholds]⟩
  · rw [holds_agrees_iff h] at hholds
    rw [key, ← hholds]
    exact List.take_prefix n _

/-! ## Exclusive conditions -/

/-- No two conditions of a chain hold for the line at `m`. -/
def Exclusive (m : List UInt8) (chain : List (Guard × Command)) : Prop :=
  chain.Pairwise fun x y ↦ ¬ (x.1.holds m = some true ∧ y.1.holds m = some true)

theorem Exclusive.perm {m : List UInt8} {chain chain' : List (Guard × Command)}
    (hex : Exclusive m chain) (hperm : chain.Perm chain') : Exclusive m chain' :=
  (hperm.pairwise_iff fun hxy hyx ↦ hxy hyx.symm).mp hex

section Chains

variable {m : List UInt8} (h : (0 : UInt8) ∈ m) {chain chain' : List (Guard × Command)}
include h

/-- Keys none of which is the beginning of another belong to exclusive conditions. -/
theorem exclusive_of_key
    (hkey : chain.Pairwise fun x y ↦ ¬ x.1.key <+: y.1.key ∧ ¬ y.1.key <+: x.1.key) :
    Exclusive m chain := by
  refine hkey.imp ?_
  rintro x y ⟨hxy, hyx⟩ ⟨hx, hy⟩
  have hor := List.prefix_or_prefix_of_prefix (Guard.key_prefix_of_holds h hx)
    (Guard.key_prefix_of_holds h hy)
  exact hor.elim hxy hyx

/-- In an exclusive chain, a condition that holds selects its command wherever it stands. -/
theorem select_eq_of_mem (hex : Exclusive m chain) {g : Guard} {c : Command}
    (hmem : (g, c) ∈ chain) (hholds : g.holds m = some true) : select m chain = some c := by
  induction chain with
  | nil => cases hmem
  | cons branch rest ih =>
    obtain ⟨g', c'⟩ := branch
    obtain ⟨hhead, hrest⟩ := List.pairwise_cons.mp hex
    obtain ⟨b, hb⟩ := g'.exists_holds h
    rw [select, hb]
    rcases List.mem_cons.mp hmem with heq | hmem
    · obtain ⟨rfl, rfl⟩ := Prod.mk.inj heq
      rw [hholds] at hb
      obtain rfl := Option.some.inj hb
      rfl
    · rcases b with _ | _
      · exact ih hrest hmem
      · exact absurd ⟨hb, hholds⟩ (hhead _ hmem)

/-- **The order of an exclusive chain makes no difference.** -/
theorem select_perm (hex : Exclusive m chain) (hperm : chain.Perm chain') :
    select m chain' = select m chain := by
  obtain ⟨c, hc⟩ := exists_select h chain
  obtain ⟨c', hc'⟩ := exists_select h chain'
  rcases exists_mem_of_select hc with rfl | ⟨g, hmem, hholds⟩
  · rcases exists_mem_of_select hc' with rfl | ⟨g, hmem, hholds⟩
    · rw [hc, hc']
    · rw [hc', select_eq_of_mem h hex (hperm.mem_iff.mpr hmem) hholds]
  · rw [hc, select_eq_of_mem h (hex.perm hperm) (hperm.mem_iff.mp hmem) hholds]

end Chains

theorem dispatchChain_key : dispatchChain.Pairwise fun x y ↦
    ¬ x.1.key <+: y.1.key ∧ ¬ y.1.key <+: x.1.key := by
  decide +kernel

theorem dispatch_eq_iff {m : List UInt8} (h : (0 : UInt8) ∈ m) {c : Command} (hc : c ≠ .unknown) :
    dispatch m = some c ↔ ∃ g, (g, c) ∈ dispatchChain ∧ g.holds m = some true := by
  refine ⟨fun hdispatch ↦ (exists_mem_of_select hdispatch).resolve_left hc, ?_⟩
  rintro ⟨g, hmem, hholds⟩
  exact select_eq_of_mem h (exclusive_of_key h dispatchChain_key) hmem hholds

/-! ## The chain against the language -/

/-- A condition is made for a form: it compares the whole word, or the word and the space. -/
def Guard.isFor : Guard → Form → Bool
  | .equals word, .word text => cstr (literal word) = ascii text
  | .agrees word n, .argument text =>
      (cstr (literal word)).take n = ascii text ++ [32] ∧ n = (ascii text).length + 1
  | _, _ => false

theorem Guard.holds_iff_fits {m : List UInt8} (h : (0 : UInt8) ∈ m) {g : Guard} {f : Form}
    (hfor : g.isFor f = true) : g.holds m = some true ↔ f.Fits (cstr m) := by
  rcases g with word | ⟨word, n⟩ <;> rcases f with text | text
  · rw [holds_equals_iff h, of_decide_eq_true hfor]
    rfl
  · cases hfor
  · cases hfor
  · obtain ⟨hkey, rfl⟩ := of_decide_eq_true hfor
    have hlen : (ascii text).length + 1 = (ascii text ++ [32]).length := by
      rw [List.length_append, List.length_singleton]
    rw [holds_agrees_iff h, hkey, hlen, eq_comm, ← List.prefix_iff_eq_take]
    refine exists_congr fun rest ↦ ?_
    rw [List.append_assoc, List.singleton_append, eq_comm]

/-- Except for `diagnostic`, every command has a condition made for its form. -/
theorem isFor_of_mem : ∀ x ∈ language, ∀ y ∈ dispatchChain, x.2 = y.2 → x.2 ≠ .diagnostic →
    y.1.isFor x.1 = true := by
  decide +kernel

theorem exists_mem_dispatchChain : ∀ x ∈ language, ∃ y ∈ dispatchChain, y.2 = x.2 := by
  decide

theorem exists_mem_language : ∀ y ∈ dispatchChain, ∃ x ∈ language, x.2 = y.2 := by
  decide

theorem ne_unknown_of_mem : ∀ x ∈ language, x.2 ≠ .unknown := by
  decide

theorem not_fits_nil : ∀ x ∈ language, ¬ x.1.Fits [] := by
  simp [language, Form.Fits, ascii]

theorem form_eq_of_mem {f : Form} (h : (f, Command.diagnostic) ∈ language) :
    f = .word "diagnostic" := by
  simpa [language] using h

theorem guard_eq_of_mem {g : Guard} (h : (g, Command.diagnostic) ∈ dispatchChain) :
    g = .agrees "diagnostic" 4 := by
  simpa [dispatchChain] using h

section Dispatch

variable {m : List UInt8} (h : (0 : UInt8) ∈ m)
include h

theorem holds_diagnostic_iff :
    (Guard.agrees "diagnostic" 4).holds m = some true ↔ ascii "diag" <+: cstr m := by
  have hkey : (cstr (literal "diagnostic")).take 4 = ascii "diag" := by decide
  have hlen : (ascii "diag").length = 4 := rfl
  rw [Guard.holds_agrees_iff h, hkey, List.prefix_iff_eq_take, hlen, eq_comm]

theorem dispatch_of_diag (hdiag : ascii "diag" <+: cstr m) : dispatch m = some .diagnostic := by
  refine (dispatch_eq_iff h (by decide)).mpr ⟨.agrees "diagnostic" 4, by simp [dispatchChain], ?_⟩
  rw [holds_diagnostic_iff h]
  exact hdiag

variable (hdiag : ascii "diag" <+: cstr m → cstr m = ascii "diagnostic")
include hdiag

/-- Of a line that does not start with `diag`, or is `diagnostic`, every condition says whether it
has the form of the command. -/
theorem holds_iff_fits_of_mem {f : Form} {g : Guard} {c : Command} (hf : (f, c) ∈ language)
    (hg : (g, c) ∈ dispatchChain) : g.holds m = some true ↔ f.Fits (cstr m) := by
  by_cases hc : c = .diagnostic
  · subst hc
    rw [form_eq_of_mem hf, guard_eq_of_mem hg, holds_diagnostic_iff h]
    refine ⟨hdiag, fun heq ↦ ?_⟩
    rw [heq]
    exact ⟨ascii "nostic", rfl⟩
  · exact Guard.holds_iff_fits h (isFor_of_mem _ hf _ hg rfl hc)

theorem dispatch_eq_iff_fits {f : Form} {c : Command} (hf : (f, c) ∈ language) :
    dispatch m = some c ↔ f.Fits (cstr m) := by
  rw [dispatch_eq_iff h (ne_unknown_of_mem _ hf)]
  constructor
  · rintro ⟨g, hg, hholds⟩
    exact (holds_iff_fits_of_mem h hdiag hf hg).mp hholds
  · intro hfits
    obtain ⟨⟨g, c'⟩, hg, rfl⟩ := exists_mem_dispatchChain _ hf
    exact ⟨g, hg, (holds_iff_fits_of_mem h hdiag hf hg).mpr hfits⟩

theorem dispatch_eq_unknown (hno : ∀ f c, (f, c) ∈ language → ¬ f.Fits (cstr m)) :
    dispatch m = some .unknown := by
  obtain ⟨c, hc⟩ := exists_select h dispatchChain
  rcases exists_mem_of_select hc with rfl | ⟨g, hg, hholds⟩
  · exact hc
  · obtain ⟨⟨f, c'⟩, hf, rfl⟩ := exists_mem_language _ hg
    exact absurd ((holds_iff_fits_of_mem h hdiag hf hg).mp hholds) (hno f c' hf)

end Dispatch

/-! ## Which lines are understood -/

/-- The shell and the language agree about a line, whatever follows its terminator in memory. -/
structure Understood (line : CStr) (rest : List UInt8) : Prop where
  /-- A command is run for the lines of its form and for no others. -/
  runs_iff : ∀ f c, (f, c) ∈ language →
    (lineCommand (line.mem ++ rest) = some (some c) ↔ f.Fits line.bytes)
  /-- Every other line is answered with `Unknown command`. -/
  unknown : (∀ f c, (f, c) ∈ language → ¬ f.Fits line.bytes) →
    lineCommand (line.mem ++ rest) = some (some .unknown)
  exclusive : Exclusive (line.mem ++ rest) dispatchChain
  /-- The outcome does not depend on the order of the chain. -/
  select_eq : ∀ chain, dispatchChain.Perm chain →
    select (line.mem ++ rest) chain = dispatch (line.mem ++ rest)

section Lines

variable (line : CStr) (rest : List UInt8)

theorem zero_mem_line : (0 : UInt8) ∈ line.mem ++ rest :=
  List.mem_append_left rest line.zero_mem_mem

theorem cstr_line : cstr (line.mem ++ rest) = line.bytes := by
  rw [CStr.mem, List.append_assoc, List.singleton_append]
  exact cstr_append_zero line.zero_notMem rest

theorem lineCommand_of_nil (hnil : line.bytes = []) :
    lineCommand (line.mem ++ rest) = some none := by
  rw [CStr.mem, hnil]
  rfl

theorem lineCommand_of_ne_nil (hne : line.bytes ≠ []) :
    lineCommand (line.mem ++ rest) = (dispatch (line.mem ++ rest)).map some := by
  obtain ⟨c, r, hcons⟩ := List.exists_cons_of_ne_nil hne
  have hc : c ≠ 0 := by
    rintro rfl
    exact line.zero_notMem (hcons ▸ List.mem_cons_self)
  have hmem : line.mem ++ rest = c :: (r ++ [0] ++ rest) := by
    rw [CStr.mem, hcons]
    rfl
  rw [hmem, lineCommand, if_neg hc]

theorem lineCommand_eq_iff {c : Command} (hne : line.bytes ≠ []) :
    lineCommand (line.mem ++ rest) = some (some c) ↔ dispatch (line.mem ++ rest) = some c := by
  rw [lineCommand_of_ne_nil line rest hne, Option.map_eq_some_iff]
  simp

/-- **The lines the shell understands** are those that are not empty and, if they start with `diag`,
are `diagnostic`. -/
theorem understood_iff : Understood line rest ↔
    line.bytes ≠ [] ∧ (ascii "diag" <+: line.bytes → line.bytes = ascii "diagnostic") := by
  have h := zero_mem_line line rest
  have hcstr := cstr_line line rest
  constructor
  · intro hline
    have hne : line.bytes ≠ [] := by
      intro hnil
      have hunknown := hline.unknown fun f c hf ↦ by
        rw [hnil]
        exact not_fits_nil _ hf
      rw [lineCommand_of_nil line rest hnil] at hunknown
      cases hunknown
    refine ⟨hne, fun hdiag ↦ ?_⟩
    have hdispatch := dispatch_of_diag h (by rw [hcstr]; exact hdiag)
    exact (hline.runs_iff (.word "diagnostic") .diagnostic (by simp [language])).mp
      ((lineCommand_eq_iff line rest hne).mpr hdispatch)
  · rintro ⟨hne, hdiag⟩
    have hex := exclusive_of_key h dispatchChain_key
    rw [← hcstr] at hdiag
    refine ⟨?_, ?_, hex, fun chain hperm ↦ select_perm h hex hperm⟩
    · intro f c hf
      rw [lineCommand_eq_iff line rest hne, dispatch_eq_iff_fits h hdiag hf, hcstr]
    · intro hno
      rw [← hcstr] at hno
      rw [lineCommand_eq_iff line rest hne]
      exact dispatch_eq_unknown h hdiag hno

end Lines

/-- A line that is no command is run as one. -/
theorem not_understood_diagram :
    lineCommand (literal "diagram") = some (some .diagnostic) ∧
      ¬ Understood ⟨ascii "diagram", by simp [ascii]⟩ [] := by
  have hrun : lineCommand (literal "diagram") = some (some .diagnostic) := by decide +kernel
  refine ⟨hrun, fun hline ↦ ?_⟩
  have hword : ascii "diagram" = ascii "diagnostic" :=
    (hline.runs_iff (.word "diagnostic") .diagnostic (by simp [language])).mp hrun
  exact absurd hword (by simp [ascii])

end ZanOS
