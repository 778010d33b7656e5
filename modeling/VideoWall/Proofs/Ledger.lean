import Mathlib.Data.List.Forall2
import VideoWall.Vsync.Cycle

/-! The cycle of a vsync, told by its samples.

    A ledger keeps the samples of the cycle in progress one by one, where the cycle itself keeps a
    count, a sum and a flag. `cycle_eq_ledger` says that over every run of samples, changes of the
    outputs and restarts the two return the same, that the fields of the cycle are functions of the
    ledger, and that every sample taken in leaves exactly once: either averaged with the rest of its
    cycle, or dropped with it. -/

namespace VideoWall.Vsync

/-- What can happen to a cycle. -/
inductive Act where | observe (time : Int) | retarget (outputs : Nat) (flush : Bool) | restart
  deriving DecidableEq

/-- The state after a run of acts, and what each of them returned. -/
def runWith {σ : Type} (act : σ → Act → σ × Option Int) : σ → List Act → σ × List (Option Int)
  | s, [] => (s, [])
  | s, a :: rest =>
    let r := runWith act (act s a).1 rest
    (r.1, (act s a).2 :: r.2)

/-- One act on a cycle. -/
def Cycle.act (c : Cycle) : Act → Cycle × Option Int
  | .observe t => c.observe t
  | .retarget outputs flush => c.retarget outputs flush
  | .restart => (c.restart, none)

/-- The sum of some times from left to right, kept in range after every addition. -/
def saturatingSum (ts : List Int) : Int := ts.foldl (fun s t => Limits.time (s + t)) 0

/-- The outputs that take part, and the samples of the cycle in progress. -/
structure Ledger where
  outputs : Nat := 0
  samples : List Int := []
  deriving DecidableEq

namespace Ledger

/-- One act on a ledger. A sample that fills it, and a change to as many outputs as samples are
    missing, return the mean of what is in it. -/
def act (l : Ledger) : Act → Ledger × Option Int
  | .observe t =>
    if l.outputs = 0 then (l, none) else
      let samples := l.samples ++ [t]
      if samples.length = l.outputs then
        ({ l with samples := [] }, some ((saturatingSum samples).tdiv l.outputs))
      else ({ l with samples }, none)
  | .retarget outputs flush =>
    (⟨outputs, []⟩,
      if flush ∧ l.samples ≠ [] ∧ 0 < outputs ∧ l.outputs - l.samples.length = outputs then
        some ((saturatingSum l.samples).tdiv l.samples.length)
      else none)
  | .restart => ({ l with samples := [] }, none)

/-- The samples that an act takes in. -/
def taken (l : Ledger) : Act → List Int
  | .observe t => if l.outputs = 0 then [] else [t]
  | _ => []

/-- The samples that leave with an act. -/
def batch (l : Ledger) : Act → List Int
  | .observe t =>
    if l.outputs ≠ 0 ∧ l.samples.length + 1 = l.outputs then l.samples ++ [t] else []
  | _ => l.samples

/-- The samples taken in over a run. -/
def takenOver : Ledger → List Act → List Int
  | _, [] => []
  | l, a :: rest => l.taken a ++ takenOver (l.act a).1 rest

/-- The samples that leave with each act of a run. -/
def batches : Ledger → List Act → List (List Int)
  | _, [] => []
  | l, a :: rest => l.batch a :: batches (l.act a).1 rest

/-- The cycle that a ledger stands for. -/
def cycle (l : Ledger) : Cycle where
  awaited := l.outputs - l.samples.length
  divisor := l.outputs
  total := saturatingSum l.samples
  pending := !l.samples.isEmpty

/-- A cycle in progress has fewer samples than outputs. -/
def Open (l : Ledger) : Prop := l.samples = [] ∨ l.samples.length < l.outputs

/-- What an act returned is the mean of the samples that left with it. -/
def IsMean (returned : Option Int) (batch : List Int) : Prop :=
  ∀ m, returned = some m → batch ≠ [] ∧ m = (saturatingSum batch).tdiv batch.length

theorem saturatingSum_concat (ts : List Int) (t : Int) :
    saturatingSum (ts ++ [t]) = Limits.time (saturatingSum ts + t) := by
  rw [saturatingSum, List.foldl_append]; rfl

theorem act_observe_of_outputs_eq_zero {l : Ledger} (h : l.outputs = 0) (t : Int) :
    l.act (.observe t) = (l, none) := by rw [act, if_pos h]

/-- The sample that fills the ledger empties it and returns the mean. -/
theorem act_observe_last {l : Ledger} (h : l.samples.length + 1 = l.outputs) (t : Int) :
    l.act (.observe t) =
      (⟨l.outputs, []⟩, some ((saturatingSum (l.samples ++ [t])).tdiv l.outputs)) := by
  have h0 : l.outputs ≠ 0 := by omega
  have hl : (l.samples ++ [t]).length = l.outputs := by simpa using h
  rw [act, if_neg h0, if_pos hl]

/-- Any other sample is kept. -/
theorem act_observe_more {l : Ledger} (h0 : l.outputs ≠ 0)
    (h : l.samples.length + 1 ≠ l.outputs) (t : Int) :
    l.act (.observe t) = (⟨l.outputs, l.samples ++ [t]⟩, none) := by
  have hl : ¬ (l.samples ++ [t]).length = l.outputs := by simpa using h
  rw [act, if_neg h0, if_neg hl]

/-- An act keeps the ledger open: a sample that would fill it empties it. -/
theorem open_act {l : Ledger} (h : l.Open) (a : Act) : (l.act a).1.Open := by
  cases a with
  | observe t =>
    simp only [act]
    split
    · exact h
    · next h0 =>
      split
      · exact .inl rfl
      · next hl =>
        refine .inr ?_
        simp only [List.length_append, List.length_singleton] at hl ⊢
        rcases h with h | h
        · rw [h, List.length_nil] at hl ⊢; omega
        · omega
  | retarget outputs flush => exact .inl rfl
  | restart => exact .inl rfl

/-! ### The cycle and the ledger, act by act -/

/-- Fewer samples than outputs, whenever there are outputs. -/
theorem Open.length_lt {l : Ledger} (h : l.Open) (h0 : l.outputs ≠ 0) :
    l.samples.length < l.outputs := by
  rcases h with h | h
  · rw [h, List.length_nil]; omega
  · exact h

/-- The last missing sample is awaited exactly when one more would fill the ledger. -/
theorem awaited_sub_one_eq_zero {l : Ledger} (h : l.Open) (h0 : l.outputs ≠ 0) :
    l.outputs - l.samples.length - 1 = 0 ↔ l.samples.length + 1 = l.outputs := by
  have := h.length_lt h0
  omega

theorem cycle_observe {l : Ledger} (h : l.Open) (t : Int) :
    l.cycle.observe t = ((l.act (.observe t)).1.cycle, (l.act (.observe t)).2) := by
  by_cases h0 : l.outputs = 0
  · rw [act_observe_of_outputs_eq_zero h0, Cycle.observe, if_pos (show l.cycle.divisor = 0 from h0)]
  · have hn : ¬ l.cycle.divisor = 0 := h0
    have hw := awaited_sub_one_eq_zero h h0
    rw [Cycle.observe, if_neg hn]
    by_cases hl : l.samples.length + 1 = l.outputs
    · rw [act_observe_last hl, saturatingSum_concat]
      exact if_pos (hw.2 hl)
    · rw [act_observe_more h0 hl]
      refine (if_neg (hw.not.2 hl)).trans ?_
      simp [cycle, saturatingSum_concat, Nat.sub_sub]

/-- A cycle that has begun has collected as many samples as the ledger holds. -/
theorem collected_eq {l : Ledger} (h : l.Open) (hs : l.samples ≠ []) :
    l.outputs - (l.outputs - l.samples.length) = l.samples.length := by
  have := h.resolve_left hs
  omega

theorem cycle_retarget {l : Ledger} (h : l.Open) (outputs : Nat) (flush : Bool) :
    l.cycle.retarget outputs flush =
      ((l.act (.retarget outputs flush)).1.cycle, (l.act (.retarget outputs flush)).2) := by
  have hcut : l.cycle.cutShort outputs flush = (l.act (.retarget outputs flush)).2 := by
    by_cases hs : l.samples = []
    · simp [Cycle.cutShort, cycle, act, hs]
    · have hpos : 0 < l.samples.length := List.length_pos_iff.2 hs
      have hc := collected_eq h hs
      simp [Cycle.cutShort, cycle, act, hc, hs, and_assoc]
  rw [Cycle.retarget, hcut]
  rfl

/-- On an open ledger, the cycle it stands for acts as the ledger does. -/
theorem cycle_act {l : Ledger} (h : l.Open) (a : Act) :
    l.cycle.act a = ((l.act a).1.cycle, (l.act a).2) := by
  cases a with
  | observe t => exact cycle_observe h t
  | retarget outputs flush => exact cycle_retarget h outputs flush
  | restart => rfl

/-- Over a run, the cycle that an open ledger stands for follows the ledger. -/
theorem runWith_cycle {l : Ledger} (h : l.Open) (acts : List Act) :
    runWith Cycle.act l.cycle acts =
      ((runWith Ledger.act l acts).1.cycle, (runWith Ledger.act l acts).2) := by
  induction acts generalizing l with
  | nil => rfl
  | cons a rest ih => simp only [runWith, cycle_act h a, ih (open_act h a)]

theorem open_runWith {l : Ledger} (h : l.Open) (acts : List Act) :
    (runWith Ledger.act l acts).1.Open := by
  induction acts generalizing l with
  | nil => exact h
  | cons a rest ih => exact ih (open_act h a)

/-! ### Where samples go -/

/-- What is in the ledger and what an act takes in, leaves with the act or stays. -/
theorem samples_append_taken (l : Ledger) (a : Act) :
    l.samples ++ l.taken a = l.batch a ++ (l.act a).1.samples := by
  cases a with
  | observe t =>
    by_cases h0 : l.outputs = 0
    · simp [taken, batch, act, h0]
    · by_cases hl : l.samples.length + 1 = l.outputs
      · simp [taken, batch, act, h0, hl]
      · simp [taken, batch, act, h0, hl]
  | retarget outputs flush => simp [taken, batch, act]
  | restart => simp [taken, batch, act]

/-- Over a run, samples leave batch by batch in the order in which they came. -/
theorem samples_append_takenOver (l : Ledger) (acts : List Act) :
    l.samples ++ l.takenOver acts =
      (l.batches acts).flatten ++ (runWith Ledger.act l acts).1.samples := by
  induction acts generalizing l with
  | nil => simp [takenOver, batches, runWith]
  | cons a rest ih =>
    rw [takenOver, batches, List.flatten_cons, ← List.append_assoc, samples_append_taken,
      List.append_assoc, ih, ← List.append_assoc]
    rfl

theorem isMean_act (l : Ledger) (a : Act) : IsMean (l.act a).2 (l.batch a) := by
  intro m hm
  cases a with
  | observe t =>
    by_cases h0 : l.outputs = 0
    · simp [act, h0] at hm
    · by_cases hl : l.samples.length + 1 = l.outputs
      · rw [act_observe_last hl, Option.some.injEq] at hm
        rw [batch, if_pos ⟨h0, hl⟩, List.length_append, List.length_singleton, hl]
        exact ⟨by simp, hm.symm⟩
      · simp [act_observe_more h0 hl] at hm
  | retarget outputs flush =>
    simp only [act, Option.ite_none_right_eq_some, Option.some.injEq] at hm
    obtain ⟨⟨-, hs, -⟩, rfl⟩ := hm
    exact ⟨hs, rfl⟩
  | restart => simp [act] at hm

/-- What each act of a run returned is the mean of the samples that left with it. -/
theorem isMean_runWith (l : Ledger) (acts : List Act) :
    List.Forall₂ IsMean (runWith Ledger.act l acts).2 (l.batches acts) := by
  induction acts generalizing l with
  | nil => exact .nil
  | cons a rest ih => exact .cons (isMean_act l a) (ih _)

/-- A change to as many outputs as are awaited cuts a cycle short, and never anything else does;
    fewer outputs are left then than took part. -/
theorem isSome_retarget_iff {l : Ledger} (h : l.Open) (outputs : Nat) (flush : Bool) :
    ((l.cycle.retarget outputs flush).2.isSome ↔
      flush ∧ l.cycle.pending ∧ 0 < outputs ∧ l.cycle.awaited = outputs) ∧
    ((l.cycle.retarget outputs flush).2.isSome → outputs < l.cycle.divisor) := by
  rw [cycle_retarget h]
  constructor
  · simp [act, cycle]
  · intro hs
    simp only [act, Option.isSome_ite] at hs
    obtain ⟨-, hs, h0, ho⟩ := hs
    have hpos : 0 < l.samples.length := List.length_pos_iff.2 hs
    show outputs < l.outputs
    omega

end Ledger

/-- Over every run that begins with a new cycle, the cycle returns what the ledger returns, and its
    fields are those that the ledger stands for. A cycle is cut short only when outputs drop, and
    its division never fails. Every sample taken in leaves with exactly one batch or is still there,
    and whatever is returned is the mean of the batch that leaves with it. -/
theorem cycle_eq_ledger (acts : List Act) :
    let c := (runWith Cycle.act {} acts).1
    let returned := (runWith Cycle.act {} acts).2
    let l := (runWith Ledger.act {} acts).1
    returned = (runWith Ledger.act {} acts).2 ∧
    (c.awaited + l.samples.length = l.outputs ∧ c.divisor = l.outputs ∧
      c.total = saturatingSum l.samples ∧ (c.pending ↔ l.samples ≠ [])) ∧
    (∀ outputs flush,
      ((c.retarget outputs flush).2.isSome ↔
        flush ∧ c.pending ∧ 0 < outputs ∧ c.awaited = outputs) ∧
      ((c.retarget outputs flush).2.isSome → outputs < c.divisor)) ∧
    (Ledger.takenOver {} acts = (Ledger.batches {} acts).flatten ++ l.samples ∧
      List.Forall₂ Ledger.IsMean returned (Ledger.batches {} acts)) := by
  intro c returned l
  have h0 : Ledger.Open {} := .inl rfl
  have hrun := Ledger.runWith_cycle h0 acts
  have hopen := Ledger.open_runWith h0 acts
  have hc : c = l.cycle := congrArg (·.1) hrun
  have hr : returned = (runWith Ledger.act {} acts).2 := congrArg (·.2) hrun
  rw [hr, hc]
  refine ⟨rfl, ⟨?_, rfl, rfl, ?_⟩, Ledger.isSome_retarget_iff hopen, ?_,
    Ledger.isMean_runWith {} acts⟩
  · show l.outputs - l.samples.length + l.samples.length = l.outputs
    rcases hopen with hs | hlt
    · rw [show l.samples = [] from hs]; rfl
    · exact Nat.sub_add_cancel (Nat.le_of_lt hlt)
  · simp [Ledger.cycle]
  · exact Ledger.samples_append_takenOver {} acts

/-- Three outputs: a full cycle, and one that is cut short when an output drops. -/
example : (runWith Cycle.act {} [.retarget 3 false, .observe 100, .observe 200, .observe 301,
    .observe 900, .retarget 2 true]).2 = [none, none, none, some 200, none, some 900] := by
  decide

end VideoWall.Vsync
