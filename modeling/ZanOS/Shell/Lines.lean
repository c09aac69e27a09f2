import ZanOS.Shell.Curl

/-!
# How lines end

Terminals end a line with CR, with LF, or with both. `getline` takes either byte for the end of a
line, so the pair ends two, the second of them empty, and the loop of `main` skips lines that start
with a NUL. That makes the three the same to the shell: whichever is used for which line, the
commands dispatched are the lines that were typed, edited, except those that come out empty or
start with a NUL (`commands`).

What a stream of bytes means is said by `scan`, without a buffer in it. The invariant `Scanned`
relates it to the shell: the bytes typed so far are in front of the buffer, and the lines scanned
are those dispatched.
-/

namespace ZanOS

open Foundation Machine

/-! ## Lines as they are edited -/

/-- One byte of a line: backspace and DEL take the last byte back, the others are kept as long as
there is room for the terminator. -/
def editByte (max : ℕ) (line : List UInt8) (c : UInt8) : List UInt8 :=
  if c = 127 ∨ c = 8 then line.dropLast
  else if line.length + 1 < max then line ++ [c] else line

/-- A line, edited. -/
def editLine (max : ℕ) (line : List UInt8) : List UInt8 := line.foldl (editByte max) []

/-- The ways to end a line. -/
inductive Terminator
  | cr
  | lf
  | crlf
  deriving DecidableEq

def Terminator.bytes : Terminator → List UInt8
  | .cr => [13]
  | .lf => [10]
  | .crlf => [13, 10]

/-- The bytes of some lines, each with its terminator. -/
def stream (lines : List (List UInt8)) (ts : List Terminator) : List UInt8 :=
  (lines.zipWith (fun line t ↦ line ++ t.bytes) ts).flatten

/-- The line is there and its first byte is not a NUL. -/
def startsNonzero (line : List UInt8) : Bool := line.head?.getD 0 ≠ 0

/-- The commands that lines stand for, as C strings. -/
def commands (edited : List (List UInt8)) : List (List UInt8) :=
  (edited.filter startsNonzero).map cstr

/-! ## What a stream of bytes means -/

/-- One byte of a stream: the lines ended so far and the line begun. -/
def scanByte (max : ℕ) (st : List (List UInt8) × List UInt8) (c : UInt8) :
    List (List UInt8) × List UInt8 :=
  if c = 13 ∨ c = 10 then (st.1 ++ [st.2], []) else (st.1, editByte max st.2 c)

def scan (max : ℕ) (bytes : List UInt8) : List (List UInt8) × List UInt8 :=
  bytes.foldl (scanByte max) ([], [])

theorem scan_append_singleton (max : ℕ) (bytes : List UInt8) (c : UInt8) :
    scan max (bytes ++ [c]) = scanByte max (scan max bytes) c := by
  rw [scan, List.foldl_append]
  rfl

theorem foldl_scanByte_of_noLineEnd {max : ℕ} {line : List UInt8} (h : NoLineEnd line)
    (done : List (List UInt8)) (cur : List UInt8) :
    line.foldl (scanByte max) (done, cur) = (done, line.foldl (editByte max) cur) := by
  induction line generalizing cur with
  | nil => rfl
  | cons c line ih =>
    obtain ⟨hc, hline⟩ := h.of_cons
    rw [List.foldl_cons, List.foldl_cons, scanByte, if_neg hc]
    exact ih hline _

/-- The pair ends an empty line more than a single byte does. -/
theorem foldl_scanByte_terminator (max : ℕ) (done : List (List UInt8)) (line : List UInt8)
    (t : Terminator) :
    ∃ more, t.bytes.foldl (scanByte max) (done, line) = (done ++ line :: more, []) ∧
      commands more = [] := by
  cases t with
  | cr => exact ⟨[], rfl, rfl⟩
  | lf => exact ⟨[], rfl, rfl⟩
  | crlf => exact ⟨[[]], by simp [Terminator.bytes, scanByte], rfl⟩

theorem commands_append (a b : List (List UInt8)) :
    commands (a ++ b) = commands a ++ commands b := by
  rw [commands, List.filter_append, List.map_append, commands, commands]

theorem commands_cons (line : List UInt8) (lines : List (List UInt8)) :
    commands (line :: lines) = commands [line] ++ commands lines := commands_append [line] lines

/-- **Every terminator is as good as another.** The lines scanned are those edited, and some empty
ones, and the last one is ended. -/
theorem foldl_scanByte_stream (max : ℕ) {lines : List (List UInt8)}
    (hlines : ∀ line ∈ lines, NoLineEnd line) {ts : List Terminator}
    (hts : ts.length = lines.length) (done : List (List UInt8)) :
    ∃ done', (stream lines ts).foldl (scanByte max) (done, []) = (done', []) ∧
      commands done' = commands done ++ commands (lines.map (editLine max)) := by
  induction lines generalizing ts done with
  | nil => exact ⟨done, rfl, by simp [commands]⟩
  | cons line lines ih =>
    match ts with
    | [] => cases hts
    | t :: ts =>
      obtain ⟨more, hmore, hempty⟩ :=
        foldl_scanByte_terminator max done (editLine max line) t
      obtain ⟨done', hdone', hcommands⟩ :=
        ih (fun l hl ↦ hlines l (List.mem_cons_of_mem _ hl)) (Nat.succ.inj hts)
          (done ++ editLine max line :: more)
      refine ⟨done', ?_, ?_⟩
      · -- first the line, then its terminator, then the other lines
        rw [stream, List.zipWith_cons_cons, List.flatten_cons, List.foldl_append, List.foldl_append,
          foldl_scanByte_of_noLineEnd (hlines line List.mem_cons_self)]
        rw [← editLine, hmore]
        exact hdone'
      · rw [hcommands, commands_append, commands_cons, hempty, List.append_nil, List.map_cons,
          commands_cons _ (lines.map _), List.append_assoc]

/-! ## The shell on a stream -/

/-- The bytes of input a run has taken. -/
def uartBytes (tr : List ShellStep) : List UInt8 :=
  tr.filterMap fun t ↦ match t.event with
    | .uart c _ _ => some c
    | _ => none

/-- The command strings a run has dispatched. -/
def dispatched (tr : List ShellStep) : List (List UInt8) :=
  tr.filterMap fun t ↦ t.output.command.map fun _ ↦ cstr t.post.cmd.toList

/-- The line typed so far is in front of the buffer. -/
def Begun (s : Shell) (cur : List UInt8) : Prop :=
  match s.pc with
  | .reading i => i = cur.length ∧ s.cmd.toList.take i = cur
  | _ => cur = []

/-- The shell has dispatched what the stream so far means, and has the line begun in its buffer. -/
structure Scanned (tr : List ShellStep) (s : Shell) : Prop where
  dispatched_eq : dispatched tr = commands (scan 64 (uartBytes tr)).1
  begun : Begun s (scan 64 (uartBytes tr)).2

theorem getlineByte_typing {k max : ℕ} {buf buf' : Vector UInt8 k} {i i' : ℕ} {c : UInt8}
    {out : List Action} {cur : List UInt8} (hi : i = cur.length) (htake : buf.toList.take i = cur)
    (h : getlineByte max buf i c = some (.typing buf' i', out)) :
    ¬ (c = 13 ∨ c = 10) ∧ i' = (editByte max cur c).length ∧
      buf'.toList.take i' = editByte max cur c := by
  rw [getlineByte] at h
  split_ifs at h with hend hback hpos hroom
  · obtain ⟨b, -, heq⟩ := Option.map_eq_some_iff.mp h
    cases heq
  · cases h
    rw [editByte, if_pos hback, List.length_dropLast, hi]
    refine ⟨hend, rfl, ?_⟩
    rw [List.dropLast_eq_take, ← htake, List.take_take, htake, ← hi,
      min_eq_left (Nat.sub_le _ _)]
  · -- a backspace with nothing to take back
    cases h
    have hnil : cur = [] := List.length_eq_zero_iff.mp (by omega)
    rw [editByte, if_pos hback]
    exact ⟨hend, by rw [hi, hnil]; rfl, by rw [htake, hnil]; rfl⟩
  · obtain ⟨b, hstore, heq⟩ := Option.map_eq_some_iff.mp h
    cases heq
    obtain ⟨hlt, hlist⟩ := toList_of_store hstore
    have hpush := take_splice buf.toList
      (show i + [c].length ≤ buf.toList.length by simpa using Nat.succ_le_of_lt hlt)
    rw [editByte, if_neg hback, if_pos (hi ▸ hroom), List.length_append, ← hi, hlist]
    exact ⟨hend, rfl, by rw [← htake]; exact hpush⟩
  · cases h
    -- no room: the byte is dropped
    rw [editByte, if_neg hback, if_neg (hi ▸ hroom)]
    exact ⟨hend, hi, htake⟩

theorem getlineByte_done {k max : ℕ} {buf buf' : Vector UInt8 k} {i : ℕ} {c : UInt8}
    {out : List Action} {cur : List UInt8} (htake : buf.toList.take i = cur)
    (h : getlineByte max buf i c = some (.done buf', out)) :
    (c = 13 ∨ c = 10) ∧ ∃ r, buf'.toList = cur ++ 0 :: r := by
  rw [getlineByte] at h
  split_ifs at h with hend
  · obtain ⟨b, hstore, heq⟩ := Option.map_eq_some_iff.mp h
    cases heq
    obtain ⟨-, hlist⟩ := toList_of_store hstore
    refine ⟨hend, buf.toList.drop (i + 1), ?_⟩
    rw [hlist, splice, htake, List.append_assoc]
    rfl
  · cases h
  · cases h
  · obtain ⟨b, -, heq⟩ := Option.map_eq_some_iff.mp h
    cases heq
  · cases h

theorem begun_prompt (s : Shell) (actions : List Action)
    (report : Option (List UInt8 × HostMessage)) : Begun (s.prompt actions report).1 [] :=
  ⟨rfl, List.take_zero⟩

/-- A command leaves the line where it is, and the loop starts over with an empty one. -/
theorem runCommand_spec {s : Shell} {dns : DnsAnswer} {tcp : TcpAnswers} {c : Command}
    {r : Shell × Output} (h : s.runCommand dns tcp c = some r) :
    r.1.cmd = s.cmd ∧ Begun r.1 [] := by
  cases c with
  | curl =>
    obtain ⟨client, -, rfl⟩ := Option.map_eq_some_iff.mp h
    split_ifs with hbusy
    · exact ⟨rfl, rfl⟩
    · exact ⟨rfl, begun_prompt _ _ _⟩
  | host =>
    obtain rfl := Option.some.inj h
    rcases dns with ip | _ | _
    · exact ⟨rfl, begun_prompt _ _ _⟩
    · exact ⟨rfl, rfl⟩
    · exact ⟨rfl, begun_prompt _ _ _⟩
  | help | hello | info | clear | ls | ifconfig | cat | diagnostic | time | unknown =>
    obtain rfl := Option.some.inj h
    exact ⟨rfl, begun_prompt _ _ _⟩

theorem runLine_spec {s s' : Shell} {dns : DnsAnswer} {tcp : TcpAnswers} {out : List Action}
    {o : Output} (h : s.runLine dns tcp out = some (s', o)) :
    s'.cmd = s.cmd ∧ (o.command = none ↔ s.cmd.get 0 = 0) ∧ Begun s' [] := by
  rw [Shell.runLine] at h
  split_ifs at h with hzero
  · obtain ⟨rfl, rfl⟩ := Prod.mk.inj (Option.some.inj h)
    exact ⟨rfl, ⟨fun _ ↦ hzero, fun _ ↦ rfl⟩, begun_prompt s out none⟩
  · split at h
    · cases h
    · rename_i c hc
      obtain ⟨r, hr, heq⟩ := Option.map_eq_some_iff.mp h
      obtain ⟨rfl, rfl⟩ := Prod.mk.inj heq
      obtain ⟨hcmd, hbegun⟩ := runCommand_spec hr
      exact ⟨hcmd, ⟨by rintro ⟨⟩, fun hz ↦ absurd hz hzero⟩, hbegun⟩

theorem get_zero_eq_zero_iff {buf : Vector UInt8 64} {cur r : List UInt8}
    (h : buf.toList = cur ++ 0 :: r) : buf.get 0 = 0 ↔ startsNonzero cur = false := by
  have hget : some (buf.get 0) = (cur ++ 0 :: r)[0]? := by
    rw [← h, Vector.getElem?_toList]
    rfl
  match cur with
  | [] =>
    rw [Option.some.inj hget]
    decide
  | c :: cur =>
    rw [Option.some.inj hget, startsNonzero, decide_eq_false_iff_not, not_not]
    exact Iff.rfl

/-- What the end of a line dispatches is what the line stands for. -/
theorem dispatched_line {s s' t : Shell} {e : ShellEvent} {dns : DnsAnswer} {tcp : TcpAnswers}
    {out : List Action} {o : Output} {cur r : List UInt8} (hlist : s.cmd.toList = cur ++ 0 :: r)
    (h : s.runLine dns tcp out = some (s', o)) : dispatched [⟨t, e, o, s'⟩] = commands [cur] := by
  obtain ⟨hcmd, hcommand, -⟩ := runLine_spec h
  rw [get_zero_eq_zero_iff hlist] at hcommand
  have hcstr : cstr s'.cmd.toList = cstr cur := by rw [hcmd, hlist, cstr_append_zero_cons]
  cases hstart : startsNonzero cur with
  | false => simp [dispatched, commands, hcommand.mpr hstart, hstart]
  | true =>
    have hne : o.command ≠ none := fun hnone ↦ by
      rw [hcommand.mp hnone] at hstart
      cases hstart
    obtain ⟨c, hc⟩ := Option.ne_none_iff_exists'.mp hne
    simp [dispatched, commands, hc, hstart, hcstr]

/-! ## Steps and runs -/

theorem uartBytes_append (tr tr' : List ShellStep) :
    uartBytes (tr ++ tr') = uartBytes tr ++ uartBytes tr' := List.filterMap_append

theorem dispatched_append (tr tr' : List ShellStep) :
    dispatched (tr ++ tr') = dispatched tr ++ dispatched tr' := List.filterMap_append

section Step

variable {tr : List ShellStep} {s s' : Shell} {e : ShellEvent} {o : Output}

/-- A step that takes no input, dispatches nothing and keeps the line begun. -/
theorem Scanned.quiet (h : Scanned tr s) (huart : uartBytes [⟨s, e, o, s'⟩] = [])
    (hcommand : o.command = none) (hbegun : ∀ {cur : List UInt8}, Begun s cur → Begun s' cur) :
    Scanned (tr ++ [⟨s, e, o, s'⟩]) s' := by
  have hnone : dispatched [⟨s, e, o, s'⟩] = [] := by simp [dispatched, hcommand]
  constructor
  · rw [dispatched_append, hnone, List.append_nil, uartBytes_append, huart, List.append_nil]
    exact h.dispatched_eq
  · rw [uartBytes_append, huart, List.append_nil]
    exact hbegun h.begun

theorem Scanned.step (h : Scanned tr s) (hnext : shellMachine.next s e = some (s', o)) :
    Scanned (tr ++ [⟨s, e, o, s'⟩]) s' := by
  have hbegun := h.begun
  cases shellTurn_of_next hnext with
  | @typing i i' c dns tcp cmd out hpc hbyte =>
    rw [Begun, hpc] at hbegun
    obtain ⟨hend, hi', htake⟩ := getlineByte_typing hbegun.1 hbegun.2 hbyte
    have huart : uartBytes [⟨s, .uart c dns tcp, ⟨out, none, none⟩,
        { s with cmd := cmd, pc := .reading i' }⟩] = [c] := rfl
    constructor
    · rw [dispatched_append, uartBytes_append, huart, scan_append_singleton, scanByte, if_neg hend,
        ← h.dispatched_eq]
      exact List.append_nil _
    · rw [uartBytes_append, huart, scan_append_singleton, scanByte, if_neg hend]
      exact ⟨hi', htake⟩
  | @line i c dns tcp cmd out _ _ hpc hbyte hline =>
    rw [Begun, hpc] at hbegun
    obtain ⟨hend, r, hlist⟩ := getlineByte_done hbegun.2 hbyte
    have huart : uartBytes [⟨s, .uart c dns tcp, o, s'⟩] = [c] := rfl
    constructor
    · rw [dispatched_append, uartBytes_append, huart, scan_append_singleton, scanByte, if_pos hend,
        commands_append, ← h.dispatched_eq, dispatched_line hlist hline]
    · rw [uartBytes_append, huart, scan_append_singleton, scanByte, if_pos hend]
      exact (runLine_spec hline).2.2
  | http he hr => exact h.quiet rfl rfl id
  | hostFound hj => exact h.quiet rfl rfl id
  | idle | curlWaits => exact h.quiet rfl rfl id
  | curlEnds hpc hbusy =>
    refine h.quiet rfl rfl fun {cur} hcur ↦ ?_
    rw [Begun, hpc] at hcur
    rw [hcur]
    exact begun_prompt s _ _
  | hostWaits hpc hres =>
    refine h.quiet rfl rfl fun {cur} hcur ↦ ?_
    rw [Begun, hpc] at hcur
    exact hcur
  | hostEnds hpc =>
    refine h.quiet rfl rfl fun {cur} hcur ↦ ?_
    rw [Begun, hpc] at hcur
    rw [hcur]
    exact begun_prompt s _ _

end Step

theorem scanned_of_run {cmd : Vector UInt8 64} {tr : List ShellStep} {s : Shell}
    (hrun : shellMachine.Run (Shell.boot cmd) tr s) : Scanned tr s := by
  induction hrun with
  | nil => exact ⟨rfl, rfl, List.take_zero⟩
  | snoc _ hnext ih => exact ih.step hnext

/-! ## A run for every stream -/

theorem runCommand_failed {s : Shell} {tcp : TcpAnswers} {c : Command} {r : Shell × Output}
    (hbusy : s.http.httpBusy = false) (h : s.runCommand .failed tcp c = some r) :
    r.1.pc = .reading 0 := by
  cases c with
  | curl =>
    obtain ⟨⟨client, out⟩, hget, rfl⟩ := Option.map_eq_some_iff.mp h
    have hidle : client.httpBusy = false := by
      rw [httpGet, if_neg (by simp [hbusy])] at hget
      split at hget
      · cases hget
      · exact congrArg (fun r ↦ r.1.httpBusy) (Option.some.inj hget).symm
    rw [if_neg (by simp [hidle])]
    rfl
  | host | help | hello | info | clear | ls | ifconfig | cat | diagnostic | time | unknown =>
    obtain rfl := Option.some.inj h
    rfl

theorem exists_uart_reading {s : Shell} {i : ℕ} (hsound : s.Sound) (hpc : s.pc = .reading i)
    (tcp : TcpAnswers) (c : UInt8) :
    ∃ s' o j, shellMachine.next s (.uart c .failed tcp) = some (s', o) ∧ s'.pc = .reading j := by
  obtain ⟨⟨s', o⟩, hnext, -⟩ := hsound.exists_uart hpc c .failed tcp
  refine ⟨s', o, ?_⟩
  cases shellTurn_of_next hnext with
  | typing hpc hbyte => exact ⟨_, hnext, rfl⟩
  | line hpc' hbyte hline =>
    refine ⟨0, hnext, ?_⟩
    rw [Shell.runLine] at hline
    split_ifs at hline with hzero
    · obtain ⟨rfl, -⟩ := Prod.mk.inj (Option.some.inj hline)
      rfl
    · split at hline
      · cases hline
      · obtain ⟨r, hr, heq⟩ := Option.map_eq_some_iff.mp hline
        obtain ⟨rfl, -⟩ := Prod.mk.inj heq
        refine runCommand_failed ?_ hr
        exact hsound.quiet (by simp [hpc])

theorem exists_run_uartBytes (cmd : Vector UInt8 64) (bytes : List UInt8) :
    ∃ tr s i, shellMachine.Run (Shell.boot cmd) tr s ∧ uartBytes tr = bytes ∧
      s.pc = .reading i := by
  induction bytes using List.reverseRecOn with
  | nil => exact ⟨[], Shell.boot cmd, 0, .nil, rfl, rfl⟩
  | append_singleton bytes c ih =>
    obtain ⟨tr, s, i, hrun, rfl, hpc⟩ := ih
    obtain ⟨s', o, j, hnext, hpc'⟩ :=
      exists_uart_reading (Shell.sound_of_run hrun) hpc ⟨false, .ok⟩ c
    exact ⟨_, s', j, hrun.snoc hnext, uartBytes_append _ _, hpc'⟩

/-- **Line endings make no difference.** Whatever terminators the lines are given in two streams,
there are runs that take them, and two runs that do dispatch the same command strings: those of the
lines, edited, that do not start with a NUL. -/
theorem dispatched_eq_of_terminators (lines : List (List UInt8)) (ts ts' : List Terminator)
    (hlines : ∀ line ∈ lines, NoLineEnd line)
    (hts : ts.length = lines.length) (hts' : ts'.length = lines.length)
    (cmd cmd' : Vector UInt8 64) :
    (∃ tr s, shellMachine.Run (Shell.boot cmd) tr s ∧ uartBytes tr = stream lines ts) ∧
      (∃ tr' s', shellMachine.Run (Shell.boot cmd') tr' s' ∧ uartBytes tr' = stream lines ts') ∧
      ∀ {tr tr' s s'}, shellMachine.Run (Shell.boot cmd) tr s → uartBytes tr = stream lines ts →
        shellMachine.Run (Shell.boot cmd') tr' s' → uartBytes tr' = stream lines ts' →
        dispatched tr = commands (lines.map (editLine 64)) ∧ dispatched tr' = dispatched tr := by
  have hruns : ∀ {ts : List Terminator} (cmd : Vector UInt8 64), ∃ tr s,
      shellMachine.Run (Shell.boot cmd) tr s ∧ uartBytes tr = stream lines ts := by
    intro ts cmd
    obtain ⟨tr, s, -, hrun, huart, -⟩ := exists_run_uartBytes cmd (stream lines ts)
    exact ⟨tr, s, hrun, huart⟩
  have heq : ∀ {ts : List Terminator} {cmd : Vector UInt8 64} {tr : List ShellStep} {s : Shell},
      ts.length = lines.length → shellMachine.Run (Shell.boot cmd) tr s →
      uartBytes tr = stream lines ts → dispatched tr = commands (lines.map (editLine 64)) := by
    intro ts cmd tr s hts hrun huart
    obtain ⟨done, hscan, hdone⟩ := foldl_scanByte_stream 64 hlines hts []
    rw [(scanned_of_run hrun).dispatched_eq, huart, scan, hscan, hdone]
    rfl
  refine ⟨hruns cmd, hruns cmd', fun hrun huart hrun' huart' ↦ ⟨heq hts hrun huart, ?_⟩⟩
  rw [heq hts hrun huart, heq hts' hrun' huart']

/-- A command, a line emptied by a backspace, and a command corrected, ended in two ways. -/
theorem dispatched_hello_info :
    ∃ tr s tr' s', shellMachine.Run (Shell.boot (Vector.replicate 64 0)) tr s ∧
      shellMachine.Run (Shell.boot (Vector.replicate 64 7)) tr' s' ∧
      uartBytes tr = ascii "hello" ++ [13, 120, 8, 10] ++ ascii "infx" ++ [127, 111, 13, 10] ∧
      uartBytes tr' = ascii "hello" ++ [13, 10, 120, 8, 13] ++ ascii "infx" ++ [127, 111, 10] ∧
      dispatched tr = [ascii "hello", ascii "info"] ∧ dispatched tr' = dispatched tr := by
  obtain ⟨⟨tr, s, hrun, huart⟩, ⟨tr', s', hrun', huart'⟩, heq⟩ := dispatched_eq_of_terminators
    [ascii "hello", [120, 8], ascii "infx" ++ [127, 111]] [.cr, .lf, .crlf] [.crlf, .cr, .lf]
    (by decide) rfl rfl (Vector.replicate 64 0) (Vector.replicate 64 7)
  obtain ⟨hedited, hsame⟩ := heq hrun huart hrun' huart'
  refine ⟨tr, s, tr', s', hrun, hrun', huart, huart', ?_, hsame⟩
  rw [hedited]
  decide

end ZanOS
