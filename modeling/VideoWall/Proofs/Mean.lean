import Mathlib.Algebra.Order.BigOperators.Group.List
import Mathlib.Algebra.Ring.Int.Defs
import Mathlib.Data.List.Induction
import VideoWall.Proofs.Average
import VideoWall.Proofs.Flips
import VideoWall.Proofs.Ledger

/-! What a full cycle of page flips yields.

    Flips never happen before the clock's start, so adding their times one by one stops at most
    once, at the end of the range of times: `saturatingSum_of_nonneg`. So it does not matter in
    which order they come in, neither to a cycle that completes nor to one that is cut short:
    `arrivals_commute`. Up to the end of the range a full cycle yields the exact mean of its times,
    which lies between the earliest and the latest of them; beyond it the mean comes out too small,
    as `mean_below_all_flips` shows for three outputs. `full_cycle_of_flips` says both. -/

namespace VideoWall.Vsync

/-! ### Sums -/

/-- Times that are not negative stop at the end of the range once and for all. -/
theorem saturatingSum_of_nonneg {ts : List Int} (h : ∀ t ∈ ts, 0 ≤ t) :
    saturatingSum ts = min ts.sum Limits.maxTime := by
  induction ts using List.reverseRecOn with
  | nil => rfl
  | append_singleton ts t ih =>
    have hts : ∀ u ∈ ts, 0 ≤ u := fun u hu => h u (List.mem_append_left _ hu)
    have ht : 0 ≤ t := h t (by simp)
    have hsum : 0 ≤ ts.sum := List.sum_nonneg hts
    rw [Ledger.saturatingSum_concat, ih hts, List.sum_append, List.sum_singleton]
    simp only [Limits.time, Limits.minTime, Limits.maxTime]
    omega

/-! ### Full cycles -/

namespace Ledger

/-- Samples that do not fill the ledger are kept. -/
theorem runWith_observe_of_lt {l : Ledger} {ts : List Int}
    (h : l.samples.length + ts.length < l.outputs) :
    runWith Ledger.act l (ts.map .observe) =
      (⟨l.outputs, l.samples ++ ts⟩, List.replicate ts.length none) := by
  induction ts generalizing l with
  | nil => simp [runWith]
  | cons t ts ih =>
    rw [List.length_cons] at h
    have hact := act_observe_more (l := l) (by omega) (by omega) t
    rw [List.map_cons, runWith, hact, ih (by simp; omega)]
    simp [List.replicate_succ]

end Ledger

/-- A run of acts and then another one. -/
theorem runWith_append {σ : Type} (act : σ → Act → σ × Option Int) (s : σ) (xs ys : List Act) :
    runWith act s (xs ++ ys) =
      ((runWith act (runWith act s xs).1 ys).1,
        (runWith act s xs).2 ++ (runWith act (runWith act s xs).1 ys).2) := by
  induction xs generalizing s with
  | nil => rfl
  | cons x xs ih => simp [runWith, ih]

/-- As many timestamps as a fresh cycle awaits: the last one yields the mean, the others nothing. -/
theorem runWith_full_cycle (ts : List Int) (t : Int) :
    runWith Cycle.act (.fresh (ts.length + 1)) ((ts ++ [t]).map .observe) =
      (.fresh (ts.length + 1), List.replicate ts.length none ++
        [some ((saturatingSum (ts ++ [t])).tdiv (ts.length + 1 : Nat))]) := by
  have hfill : runWith Ledger.act ⟨ts.length + 1, []⟩ (ts.map .observe) =
      (⟨ts.length + 1, ts⟩, List.replicate ts.length none) :=
    Ledger.runWith_observe_of_lt (by simp)
  have hlast := Ledger.act_observe_last (l := ⟨ts.length + 1, ts⟩) rfl t
  have hledger : runWith Ledger.act ⟨ts.length + 1, []⟩ ((ts ++ [t]).map .observe) =
      (⟨ts.length + 1, []⟩, List.replicate ts.length none ++
        [some ((saturatingSum (ts ++ [t])).tdiv (ts.length + 1 : Nat))]) := by
    rw [List.map_append, runWith_append, hfill, List.map_singleton, runWith, hlast, runWith]
  have hrun := Ledger.runWith_cycle (l := ⟨ts.length + 1, []⟩) (.inl rfl)
    ((ts ++ [t]).map .observe)
  rw [hledger] at hrun
  exact hrun

/-! ### Arrival order -/

/-- The sum of times that are not negative does not depend on their order. -/
theorem saturatingSum_of_perm {ts us : List Int} (hperm : us.Perm ts) (h : ∀ t ∈ ts, 0 ≤ t) :
    saturatingSum us = min ts.sum Limits.maxTime := by
  rw [saturatingSum_of_nonneg fun u hu => h u (hperm.mem_iff.1 hu), hperm.sum_eq]

/-- Fewer timestamps than a fresh cycle awaits yield nothing, and the cycle keeps them. -/
theorem runWith_part_of_cycle {n : Nat} {ts : List Int} (h : ts.length < n) :
    runWith Cycle.act (.fresh n) (ts.map .observe) =
      (Ledger.cycle ⟨n, ts⟩, List.replicate ts.length none) := by
  have hlt : (Ledger.mk n []).samples.length + ts.length < (Ledger.mk n []).outputs := by simpa
  have hrun := Ledger.runWith_cycle (l := ⟨n, []⟩) (.inl rfl) (ts.map .observe)
  rw [Ledger.runWith_observe_of_lt hlt] at hrun
  exact hrun

/-- A cycle that is cut short yields what its ledger says. -/
theorem runWith_cut_cycle {n : Nat} {ts : List Int} (h : ts.length < n) (outputs : Nat)
    (flush : Bool) :
    runWith Cycle.act (.fresh n) (ts.map .observe ++ [.retarget outputs flush]) =
      (.fresh outputs, List.replicate ts.length none ++
        [(Ledger.act ⟨n, ts⟩ (.retarget outputs flush)).2]) := by
  rw [runWith_append, runWith_part_of_cycle h, runWith,
    Ledger.cycle_act (l := ⟨n, ts⟩) (.inr h) (.retarget outputs flush)]
  rfl

/-- Timestamps that are not negative may come in in any order. A fresh cycle that awaits as many of
    them yields nothing before the last one, then the sum, stopped at the end of the range, divided
    by their number, and starts over. One that awaits more of them yields nothing, is left in the
    same state, and yields the same mean of those that are there when it is cut short. -/
theorem arrivals_commute (n : Nat) (ts us : List Int) (hperm : us.Perm ts)
    (hnonneg : ∀ t ∈ ts, 0 ≤ t) :
    (ts.length = n → 1 ≤ n →
      runWith Cycle.act (.fresh n) (us.map .observe) =
        (.fresh n, List.replicate (n - 1) none ++
          [some ((min ts.sum Limits.maxTime).tdiv n)])) ∧
    (ts.length < n →
      runWith Cycle.act (.fresh n) (us.map .observe) =
        (⟨n - ts.length, n, min ts.sum Limits.maxTime, !ts.isEmpty⟩,
          List.replicate ts.length none) ∧
      ∀ (outputs : Nat) (flush : Bool),
        runWith Cycle.act (.fresh n) (us.map .observe ++ [.retarget outputs flush]) =
          (.fresh outputs, List.replicate ts.length none ++
            [if flush ∧ ts ≠ [] ∧ 0 < outputs ∧ n - ts.length = outputs then
              some ((min ts.sum Limits.maxTime).tdiv ts.length) else none])) := by
  have hsum := saturatingSum_of_perm hperm hnonneg
  have hlength := hperm.length_eq
  constructor
  · intro hn hpos
    have hne : us ≠ [] := List.length_pos_iff.1 (by omega)
    obtain ⟨vs, v, rfl⟩ := List.eq_nil_or_concat us |>.resolve_left hne
    rw [List.concat_eq_append] at hsum hlength ⊢
    rw [List.length_append, List.length_singleton, hn] at hlength
    have hrun := runWith_full_cycle vs v
    rw [hsum, hlength] at hrun
    rw [hrun, ← hlength, Nat.add_sub_cancel]
  · intro hlt
    have hult : us.length < n := hlength.trans_lt hlt
    constructor
    · rw [runWith_part_of_cycle hult, Ledger.cycle, hsum, hlength, hperm.isEmpty_eq]
    · intro outputs flush
      have hnil : us = [] ↔ ts = [] := by
        rw [← List.length_eq_zero_iff, hlength, List.length_eq_zero_iff]
      rw [runWith_cut_cycle hult, Ledger.act]
      simp only [hsum, hlength, ne_eq, hnil]

/-- The latest timestamp there can be comes in between two others: with three outputs it completes
    no cycle, and it is part of the mean of a cycle of five outputs that two of them leave. -/
theorem arrivals_commute_latest :
    [7, Limits.maxTime, 5].Perm [5, 7, Limits.maxTime] ∧
      (∀ t ∈ [5, 7, Limits.maxTime], 0 ≤ t) ∧
      runWith Cycle.act (.fresh 3) ([7, Limits.maxTime, 5].map .observe) =
        (.fresh 3, [none, none, some 3074457345618258602]) ∧
      runWith Cycle.act (.fresh 5) ([7, Limits.maxTime, 5].map .observe ++ [.retarget 2 true]) =
        (.fresh 2, [none, none, none, some 3074457345618258602]) := by
  have hperm : [7, Limits.maxTime, 5].Perm [5, 7, Limits.maxTime] := by decide
  have hnonneg : ∀ t ∈ [5, 7, Limits.maxTime], 0 ≤ t := by decide
  have hfull := (arrivals_commute 3 _ _ hperm hnonneg).1 rfl (by decide)
  have hcut := ((arrivals_commute 5 _ _ hperm hnonneg).2 (by decide)).2 2 true
  exact ⟨hperm, hnonneg, hfull, hcut⟩

/-! ### Flips -/

/-- The times of two flips can always be added. -/
theorem two_mul_flipTime_le (seconds micros : UInt32) :
    2 * flipTime seconds micros ≤ Limits.maxTime := by
  have hs := seconds.toNat_lt
  have hm := micros.toNat_lt
  rw [flipTime, Limits.maxTime]
  omega

/-- A full cycle of flips, of one per output, yields a single vsync when its last flip comes in: the
    sum of the times, stopped at the end of the range, divided by their number. When the sum is in
    range, as it is for up to two outputs, that is the exact mean, and it lies between two of the
    times. -/
theorem full_cycle_of_flips (first : UInt32 × UInt32) (others : List (UInt32 × UInt32)) :
    let times := (first :: others).map fun f => flipTime f.1 f.2
    let n := times.length
    let yielded := (min times.sum Limits.maxTime).tdiv n
    runWith Cycle.act (.fresh n) (times.map .observe) =
        (.fresh n, List.replicate others.length none ++ [some yielded]) ∧
      (times.sum ≤ Limits.maxTime →
        yielded = times.sum.tdiv n ∧ (∃ t ∈ times, t ≤ yielded) ∧ ∃ t ∈ times, yielded ≤ t) ∧
      (n ≤ 2 → times.sum ≤ Limits.maxTime) := by
  intro times n yielded
  have hnonneg : ∀ t ∈ times, 0 ≤ t := by
    intro t ht
    obtain ⟨f, -, rfl⟩ := List.mem_map.1 ht
    exact (flipTime_mem f.1 f.2).1
  have hne : times ≠ [] := List.cons_ne_nil _ _
  have hn : n = others.length + 1 := by simp [n, times]
  refine ⟨?_, ?_, ?_⟩
  · obtain ⟨ts, t, hts⟩ := List.eq_nil_or_concat times |>.resolve_left hne
    have hlen : ts.length = others.length := by
      have := congrArg List.length hts
      simp only [List.concat_eq_append, List.length_append, List.length_singleton] at this
      omega
    have hrun := runWith_full_cycle ts t
    rw [← List.concat_eq_append, ← hts, hlen, ← hn, saturatingSum_of_nonneg hnonneg] at hrun
    exact hrun
  · intro hle
    have hy : yielded = times.sum.tdiv n := congrArg (Int.tdiv · n) (min_eq_left hle)
    rw [hy]
    exact ⟨rfl, Average.tdiv_between hne⟩
  · intro h2
    have hfirst := two_mul_flipTime_le first.1 first.2
    rcases others with _ | ⟨second, _ | ⟨third, others⟩⟩
    · have := (flipTime_mem first.1 first.2).1
      simp only [times, List.map_cons, List.map_nil, List.sum_cons, List.sum_nil]
      omega
    · have := two_mul_flipTime_le second.1 second.2
      simp only [times, List.map_cons, List.map_nil, List.sum_cons, List.sum_nil]
      omega
    · simp only [List.length_cons] at hn
      omega

/-- Three flips at one late time: the mean that is yielded is earlier than each of them. -/
theorem mean_below_all_flips :
    let t := flipTime 4294967295 0
    (runWith Cycle.act (.fresh 3) [.observe t, .observe t, .observe t]).2 =
        [none, none, some 3074457345618258602] ∧
      (t + t + t).tdiv 3 = t ∧ 3074457345618258602 < t := by
  decide

end VideoWall.Vsync
