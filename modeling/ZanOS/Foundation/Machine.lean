import Mathlib.Data.List.Induction
import Mathlib.Tactic.Common

/-!
# Partial Mealy machines and their runs

A component that reacts to events is a function `next : σ → ε → Option (σ × ω)`: in state `s`,
event `e` is either impossible (`none`) or leads to one successor state and one output. All
nondeterminism — what the environment answers, which interrupt comes first — sits in the event, so
`next` stays executable while a statement about *every* run quantifies over all event lists.

A run is kept as the list of its transitions, each with the state before and after. That is what
the statements want: a condition on a step speaks of the state before it, an output is compared
with the event that caused it, and a property of the history is a property of the list.

The rules used throughout are `Machine.Run.invariant` (a state invariant, under a condition that
every step of the run meets), `Machine.Run.exists_split_cons` (each transition of a run is a step
from a state that an earlier run ends in) and `Machine.Simulation.run` (a forward simulation carries
runs of one machine to runs of another with the same events and outputs). `Since` is for histories:
the last transition of some kind, and what has happened since.
-/

namespace Foundation

/-- One step of a run, with the states on both sides of it. -/
structure Transition (σ ε ω : Type*) where
  pre : σ
  event : ε
  output : ω
  post : σ

/-- What an outside observer sees of a transition. -/
def Transition.visible {σ ε ω : Type*} (t : Transition σ ε ω) : ε × ω := (t.event, t.output)

section Since

variable {α : Type*} {P : α → Prop} {Q Q' : α → List α → Prop} {l : List α}

/-- The last element with `P` and what has come after it are related by `Q`. -/
def Since (P : α → Prop) (Q : α → List α → Prop) (l : List α) : Prop :=
  ∃ l₁ a l₂, l = l₁ ++ a :: l₂ ∧ P a ∧ (∀ b ∈ l₂, ¬ P b) ∧ Q a l₂

theorem Since.start {a : α} (hP : P a) (hQ : Q a []) : Since P Q (l ++ [a]) :=
  ⟨l, a, [], rfl, hP, by simp, hQ⟩

theorem Since.snoc {b : α} (h : Since P Q l) (hb : ¬ P b)
    (hQ : ∀ a l₂, Q a l₂ → Q' a (l₂ ++ [b])) : Since P Q' (l ++ [b]) := by
  obtain ⟨l₁, a, l₂, rfl, hP, hl₂, ha⟩ := h
  refine ⟨l₁, a, l₂ ++ [b], by simp, hP, fun c hc ↦ ?_, hQ a l₂ ha⟩
  rcases List.mem_append.mp hc with hc | hc
  · exact hl₂ c hc
  · rwa [List.mem_singleton.mp hc]

theorem Since.imp (h : Since P Q l) (hQ : ∀ a l₂, P a → Q a l₂ → Q' a l₂) : Since P Q' l := by
  obtain ⟨l₁, a, l₂, hl, hP, hl₂, ha⟩ := h
  exact ⟨l₁, a, l₂, hl, hP, hl₂, hQ a l₂ hP ha⟩

end Since

/-- A partial Mealy machine. -/
structure Machine (σ ε ω : Type*) where
  /-- `none` when the event cannot happen in the state. -/
  next : σ → ε → Option (σ × ω)

namespace Machine

variable {σ ε ω τ : Type*} {M : Machine σ ε ω}

/-- The runs from `s₀`: the transitions taken, oldest first, and the state reached. -/
inductive Run (M : Machine σ ε ω) (s₀ : σ) : List (Transition σ ε ω) → σ → Prop
  | nil : Run M s₀ [] s₀
  | snoc {tr : List (Transition σ ε ω)} {s s' : σ} {e : ε} {o : ω} :
      Run M s₀ tr s → M.next s e = some (s', o) → Run M s₀ (tr ++ [⟨s, e, o, s'⟩]) s'

/-- Execute a list of events, stopping with `none` at the first one that is impossible. -/
def exec (M : Machine σ ε ω) : σ → List ε → Option (List (Transition σ ε ω) × σ)
  | s, [] => some ([], s)
  | s, e :: es =>
      match M.next s e with
      | none => none
      | some (s', o) => (M.exec s' es).map fun r ↦ (⟨s, e, o, s'⟩ :: r.1, r.2)

/-! ## Composing and splitting runs -/

theorem Run.single {s s' : σ} {e : ε} {o : ω} (h : M.next s e = some (s', o)) :
    M.Run s [⟨s, e, o, s'⟩] s' :=
  .snoc .nil h

theorem Run.trans {s₀ s₁ s₂ : σ} {tr₁ tr₂ : List (Transition σ ε ω)}
    (h₁ : M.Run s₀ tr₁ s₁) (h₂ : M.Run s₁ tr₂ s₂) : M.Run s₀ (tr₁ ++ tr₂) s₂ := by
  induction h₂ with
  | nil => rwa [List.append_nil]
  | snoc _ hnext ih =>
    rw [← List.append_assoc]
    exact .snoc ih hnext

theorem Run.cons {s s' s₂ : σ} {e : ε} {o : ω} {tr : List (Transition σ ε ω)}
    (h : M.next s e = some (s', o)) (hrun : M.Run s' tr s₂) :
    M.Run s (⟨s, e, o, s'⟩ :: tr) s₂ :=
  (Run.single h).trans hrun

theorem Run.exists_split {s₀ s : σ} : ∀ {tr₁ tr₂ : List (Transition σ ε ω)},
    M.Run s₀ (tr₁ ++ tr₂) s → ∃ m, M.Run s₀ tr₁ m ∧ M.Run m tr₂ s := by
  intro tr₁ tr₂
  -- the run grows at its end, so the induction peels the second half from the right
  induction tr₂ using List.reverseRecOn generalizing s with
  | nil => intro h; exact ⟨s, by simpa using h, .nil⟩
  | append_singleton tr₂ t ih =>
    intro h
    rw [← List.append_assoc] at h
    generalize htr : tr₁ ++ tr₂ ++ [t] = tr at h
    cases h with
    | nil => simp at htr
    | snoc hrun hnext =>
      obtain ⟨htr', rfl⟩ := List.append_singleton_inj.mp htr
      rw [← htr'] at hrun
      obtain ⟨m, h₁, h₂⟩ := ih hrun
      exact ⟨m, h₁, .snoc h₂ hnext⟩

/-- A transition inside a run really is one: its state before it is where the earlier part of the
run ends, and its state after it is where the later part starts. -/
theorem Run.exists_split_cons {s₀ s : σ} {tr₁ tr₂ : List (Transition σ ε ω)}
    {t : Transition σ ε ω} (h : M.Run s₀ (tr₁ ++ t :: tr₂) s) :
    M.Run s₀ tr₁ t.pre ∧ M.next t.pre t.event = some (t.post, t.output) ∧
      M.Run t.post tr₂ s := by
  rw [← List.singleton_append, ← List.append_assoc] at h
  obtain ⟨m, h₁, h₂⟩ := h.exists_split
  generalize htr : tr₁ ++ [t] = tr at h₁
  cases h₁ with
  | nil => simp at htr
  | snoc hrun hnext =>
    obtain ⟨rfl, rfl⟩ := List.append_singleton_inj.mp htr
    exact ⟨hrun, hnext, h₂⟩

theorem Run.next_of_mem {s₀ s : σ} {tr : List (Transition σ ε ω)} {t : Transition σ ε ω}
    (h : M.Run s₀ tr s) (ht : t ∈ tr) : M.next t.pre t.event = some (t.post, t.output) := by
  obtain ⟨tr₁, tr₂, rfl⟩ := List.append_of_mem ht
  exact h.exists_split_cons.2.1

theorem exec_run {s s' : σ} {es : List ε} {tr : List (Transition σ ε ω)}
    (h : M.exec s es = some (tr, s')) : M.Run s tr s' := by
  induction es generalizing s tr with
  | nil =>
    rw [exec, Option.some.injEq, Prod.mk.injEq] at h
    obtain ⟨rfl, rfl⟩ := h
    exact .nil
  | cons e es ih =>
    rw [exec] at h
    split at h
    · cases h
    · rename_i s₁ o hnext
      rw [Option.map_eq_some_iff] at h
      obtain ⟨⟨tr', s''⟩, hexec, heq⟩ := h
      rw [Prod.mk.injEq] at heq
      obtain ⟨rfl, rfl⟩ := heq
      exact Run.cons hnext (ih hexec)

/-- A run from the events it takes and the outputs they are seen to have. -/
theorem exists_run_of_exec {s : σ} {es : List ε} {os : List ω}
    (h : (M.exec s es).map (fun r ↦ r.1.map Transition.output) = some os) :
    ∃ tr s', M.Run s tr s' ∧ tr.map Transition.visible = es.zip os := by
  induction es generalizing s os with
  | nil =>
    obtain rfl : [] = os := Option.some.inj h
    exact ⟨[], s, .nil, rfl⟩
  | cons e es ih =>
    rw [exec] at h
    split at h
    · cases h
    · rename_i s₁ o hnext
      rw [Option.map_map, Option.map_eq_some_iff] at h
      obtain ⟨r, hexec, rfl⟩ := h
      obtain ⟨tr, s', hrun, hvis⟩ := ih (Option.map_eq_some_iff.mpr ⟨r, hexec, rfl⟩)
      refine ⟨_, s', Run.cons hnext hrun, ?_⟩
      rw [List.map_cons, hvis]
      rfl

/-- A run from the events it takes, with what evaluation shows of it. -/
theorem exists_run_of_exec_any {s : σ} {es : List ε} {P : List (Transition σ ε ω) → σ → Prop}
    [∀ tr s, Decidable (P tr s)] (h : (M.exec s es).any (fun r ↦ P r.1 r.2) = true) :
    ∃ tr s', M.Run s tr s' ∧ P tr s' := by
  obtain ⟨⟨tr, s'⟩, hexec, hP⟩ := (Option.any_eq_true _ _).mp h
  exact ⟨tr, s', exec_run hexec, of_decide_eq_true hP⟩

/-- The same, from a state that is computed and may not be there. -/
theorem exists_run_of_start {ι : Type*} {start : Option ι} {f : ι → σ} (es : List ε)
    {P : List (Transition σ ε ω) → σ → Prop} [∀ tr s, Decidable (P tr s)]
    (h : (start.bind fun i ↦ M.exec (f i) es).any (fun r ↦ P r.1 r.2) = true) :
    ∃ i tr s, start = some i ∧ M.Run (f i) tr s ∧ P tr s := by
  rcases start with _ | i
  · cases h
  · obtain ⟨tr, s, hrun, hP⟩ := exists_run_of_exec_any h
    exact ⟨i, tr, s, rfl, hrun, hP⟩

/-! ## The induction rules -/

/-- **Invariance under a step condition.** `P` holds initially and survives every step that meets
`C`, so it holds at the end of every run all of whose steps meet `C`. -/
theorem Run.invariant {P : σ → Prop} {C : σ → ε → Prop} {s₀ s : σ}
    {tr : List (Transition σ ε ω)} (hrun : M.Run s₀ tr s) (h₀ : P s₀)
    (hstep : ∀ {s s' : σ} {e : ε} {o : ω}, P s → C s e → M.next s e = some (s', o) → P s')
    (hC : ∀ t ∈ tr, C t.pre t.event) : P s := by
  induction hrun with
  | nil => exact h₀
  | snoc _ hnext ih =>
    have hlast := hC _ List.mem_concat_self
    exact hstep (ih fun t ht ↦ hC t (List.mem_append_left _ ht)) hlast hnext

theorem Run.invariant' {P : σ → Prop} {s₀ s : σ} {tr : List (Transition σ ε ω)}
    (hrun : M.Run s₀ tr s) (h₀ : P s₀)
    (hstep : ∀ {s s' : σ} {e : ε} {o : ω}, P s → M.next s e = some (s', o) → P s') : P s :=
  hrun.invariant (C := fun _ _ ↦ True) h₀ (fun hP _ hnext ↦ hstep hP hnext) fun _ _ ↦ trivial

/-! ## Forward simulation -/

/-- `R` is a forward simulation of `M` by `A`: `A` can answer each step of `M` with the same
output, and stay related. -/
def Simulation (M : Machine σ ε ω) (A : Machine τ ε ω) (R : σ → τ → Prop) : Prop :=
  ∀ {s s' : σ} {a : τ} {e : ε} {o : ω}, R s a → M.next s e = some (s', o) →
    ∃ a', A.next a e = some (a', o) ∧ R s' a'

/-- **Simulation carries runs.** The abstract run has the same events and outputs. -/
theorem Simulation.run {A : Machine τ ε ω} {R : σ → τ → Prop} (hR : Simulation M A R)
    {s₀ s : σ} {a₀ : τ} {tr : List (Transition σ ε ω)} (hrun : M.Run s₀ tr s) (h₀ : R s₀ a₀) :
    ∃ tr' a, A.Run a₀ tr' a ∧ R s a ∧
      tr'.map Transition.visible = tr.map Transition.visible := by
  induction hrun with
  | nil => exact ⟨[], a₀, .nil, h₀, rfl⟩
  | snoc _ hnext ih =>
    obtain ⟨tr', a, hrun', ha, htr⟩ := ih
    obtain ⟨a', hnext', ha'⟩ := hR ha hnext
    refine ⟨_, a', .snoc hrun' hnext', ha', ?_⟩
    rw [List.map_append, List.map_append, htr]
    rfl

/-- Simulation under a step condition: as `Simulation.run`, for runs all of whose steps meet `C`. -/
theorem Run.exists_simulation {A : Machine τ ε ω} {R : σ → τ → Prop} {C : σ → ε → Prop}
    {s₀ s : σ} {a₀ : τ} {tr : List (Transition σ ε ω)} (hrun : M.Run s₀ tr s) (h₀ : R s₀ a₀)
    (hstep : ∀ {s s' : σ} {a : τ} {e : ε} {o : ω}, R s a → C s e → M.next s e = some (s', o) →
      ∃ a', A.next a e = some (a', o) ∧ R s' a')
    (hC : ∀ t ∈ tr, C t.pre t.event) :
    ∃ tr' a, A.Run a₀ tr' a ∧ R s a ∧
      tr'.map Transition.visible = tr.map Transition.visible := by
  induction hrun with
  | nil => exact ⟨[], a₀, .nil, h₀, rfl⟩
  | snoc _ hnext ih =>
    obtain ⟨tr', a, hrun', ha, htr⟩ := ih fun t ht ↦ hC t (List.mem_append_left _ ht)
    obtain ⟨a', hnext', ha'⟩ := hstep ha (hC _ List.mem_concat_self) hnext
    refine ⟨_, a', .snoc hrun' hnext', ha', ?_⟩
    rw [List.map_append, List.map_append, htr]
    rfl

end Machine

end Foundation
