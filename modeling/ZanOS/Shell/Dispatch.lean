import ZanOS.Kernel.Strings

/-!
# The dispatch of a line

`main` compares the line with one word after the other, some with `strcmp` and some with `strncmp`
and a count written by hand, and runs the command of the first that fits. The chain is data here:
a guard and a command for each branch, in the order of the source.
-/

namespace ZanOS

open Foundation

/-- The condition of a branch: the line equals the word, or agrees with it in `n` bytes. -/
inductive Guard
  | equals (word : String)
  | agrees (word : String) (n : ℕ)

/-- The branches of the chain; `unknown` is the last `else`. -/
inductive Command
  | help | hello | curl | info | clear | ls | ifconfig | host | cat | diagnostic | time | unknown
  deriving DecidableEq

/-- Evaluate a condition. -/
def Guard.holds (cmd : List UInt8) : Guard → Option Bool
  | .equals word => (strcmp cmd (literal word)).map (· == 0)
  | .agrees word n => (strncmp cmd (literal word) n).map (· == 0)

/-- The chain of `main`. -/
def dispatchChain : List (Guard × Command) :=
  [(.equals "help", .help),
    (.equals "hello", .hello),
    (.agrees "curl " 5, .curl),
    (.equals "info", .info),
    (.equals "clear", .clear),
    (.equals "ls", .ls),
    (.equals "ifconfig", .ifconfig),
    (.agrees "host " 5, .host),
    (.agrees "cat " 4, .cat),
    (.agrees "diagnostic" 4, .diagnostic),
    (.equals "time", .time)]

/-- The first branch whose condition holds. -/
def select (cmd : List UInt8) : List (Guard × Command) → Option Command
  | [] => some .unknown
  | (guard, command) :: rest =>
      match guard.holds cmd with
      | none => none
      | some true => some command
      | some false => select cmd rest

/-- The branch `main` takes. -/
def dispatch (cmd : List UInt8) : Option Command := select cmd dispatchChain

theorem Guard.exists_holds {cmd : List UInt8} (h : (0 : UInt8) ∈ cmd) (g : Guard) :
    ∃ b, g.holds cmd = some b := by
  rcases g with word | ⟨word, n⟩
  · obtain ⟨x, hx⟩ := strcmp_isSome h (zero_mem_literal word)
    exact ⟨_, by rw [holds, hx]; rfl⟩
  · obtain ⟨x, hx⟩ := strncmp_isSome n h (zero_mem_literal word)
    exact ⟨_, by rw [holds, hx]; rfl⟩

theorem Guard.holds_equals_iff {cmd : List UInt8} (h : (0 : UInt8) ∈ cmd) (word : String) :
    (Guard.equals word).holds cmd = some true ↔ cstr cmd = cstr (literal word) := by
  rw [← strcmp_eq_zero_iff h (zero_mem_literal word), holds, Option.map_eq_some_iff]
  simp

theorem Guard.holds_agrees_iff {cmd : List UInt8} (h : (0 : UInt8) ∈ cmd) (word : String) (n : ℕ) :
    (Guard.agrees word n).holds cmd = some true
      ↔ (cstr cmd).take n = (cstr (literal word)).take n := by
  rw [← strncmp_eq_zero_iff n h (zero_mem_literal word), holds, Option.map_eq_some_iff]
  simp

/-- A terminated line is dispatched without a read past its end. -/
theorem exists_select {cmd : List UInt8} (h : (0 : UInt8) ∈ cmd) (l : List (Guard × Command)) :
    ∃ c, select cmd l = some c := by
  induction l with
  | nil => exact ⟨_, rfl⟩
  | cons branch rest ih =>
    obtain ⟨guard, command⟩ := branch
    obtain ⟨b, hb⟩ := guard.exists_holds h
    rw [select, hb]
    rcases b with _ | _
    · exact ih
    · exact ⟨_, rfl⟩

theorem exists_mem_of_select {cmd : List UInt8} {l : List (Guard × Command)} {c : Command}
    (h : select cmd l = some c) :
    c = .unknown ∨ ∃ guard, (guard, c) ∈ l ∧ guard.holds cmd = some true := by
  induction l with
  | nil => exact Or.inl (Option.some.inj h).symm
  | cons branch rest ih =>
    obtain ⟨guard, command⟩ := branch
    rw [select] at h
    split at h
    · cases h
    · next htrue =>
      obtain rfl := Option.some.inj h
      exact Or.inr ⟨guard, List.mem_cons_self, htrue⟩
    · refine (ih h).imp_right ?_
      rintro ⟨guard', hmem, hholds⟩
      exact ⟨guard', List.mem_cons_of_mem _ hmem, hholds⟩

theorem le_length_of_agrees {cmd : List UInt8} (h : (0 : UInt8) ∈ cmd) {word : String} {n : ℕ}
    (hword : n ≤ (cstr (literal word)).length)
    (hholds : (Guard.agrees word n).holds cmd = some true) : n ≤ (cstr cmd).length := by
  have htake := congrArg List.length ((Guard.holds_agrees_iff h word n).mp hholds)
  rw [List.length_take, List.length_take, Nat.min_eq_left hword] at htake
  exact htake ▸ Nat.min_le_right n _

/-- A line run as `curl` or `host` reaches the argument, which starts at its sixth byte. -/
theorem five_le_length_of_dispatch {cmd : List UInt8} (h : (0 : UInt8) ∈ cmd) {c : Command}
    (hc : c = .curl ∨ c = .host) (hdispatch : dispatch cmd = some c) : 5 ≤ (cstr cmd).length := by
  rcases exists_mem_of_select hdispatch with rfl | ⟨guard, hmem, hholds⟩
  · simp at hc
  have hguard : ∃ word, guard = .agrees word 5 ∧ 5 ≤ (cstr (literal word)).length := by
    rcases hc with rfl | rfl
    · exact ⟨"curl ", by simpa [dispatchChain] using hmem, by decide⟩
    · exact ⟨"host ", by simpa [dispatchChain] using hmem, by decide⟩
  obtain ⟨word, rfl, hword⟩ := hguard
  exact le_length_of_agrees h hword hholds

end ZanOS
