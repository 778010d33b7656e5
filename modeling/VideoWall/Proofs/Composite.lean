import Mathlib.Algebra.BigOperators.Group.List.Basic
import Mathlib.Algebra.Ring.Nat
import Mathlib.Data.List.Induction
import VideoWall.Proofs.Average
import VideoWall.Proofs.Preference

/-! How the mode of a wall comes out of the modes of its outputs.

    A wall's mode is one pass over its outputs, and the pass keeps its sums in registers that hold
    the range of times and no more: `Tally`. As many outputs as can be counted never fill them, so
    the pass ends, and what it ends with is the mode: `ofOutputs?_eq_some`. Each of its means lies
    between two of the values it is taken of, the preferred output is the first that none outdoes,
    and the order of the outputs matters to the preferred one only: `ofOutputs_derivation`. -/

namespace VideoWall

/-- The refresh and the densities are measures. -/
structure OutputMode.InRange (m : OutputMode) : Prop where
  refresh : Limits.minMeasure ≤ m.refresh ∧ m.refresh ≤ Limits.maxMeasure
  dpiX : Limits.minMeasure ≤ m.dpiX ∧ m.dpiX ≤ Limits.maxMeasure
  dpiY : Limits.minMeasure ≤ m.dpiY ∧ m.dpiY ≤ Limits.maxMeasure

instance (m : OutputMode) : Decidable m.InRange :=
  decidable_of_iff
    ((Limits.minMeasure ≤ m.refresh ∧ m.refresh ≤ Limits.maxMeasure) ∧
      (Limits.minMeasure ≤ m.dpiX ∧ m.dpiX ≤ Limits.maxMeasure) ∧
      (Limits.minMeasure ≤ m.dpiY ∧ m.dpiY ≤ Limits.maxMeasure))
    ⟨fun h => ⟨h.1, h.2.1, h.2.2⟩, fun h => ⟨h.1, h.2, h.3⟩⟩

/-! ### One pass -/

/-- The sum of two times, unless it is none. -/
def Limits.plus? (x y : Int) : Option Int :=
  if Limits.minTime ≤ x + y ∧ x + y ≤ Limits.maxTime then some (x + y) else none

/-- What a pass over some outputs has gathered. -/
structure Tally where
  width : Nat := 0
  height : Nat := 0
  refresh : Int := 0
  dpiX : Int := 0
  dpiY : Int := 0
  outputs : Nat := 0
  preference : Preference := {}
  deriving DecidableEq, Repr

namespace Tally

/-- Takes one output in, unless a sum or the count of outputs overflows. -/
def add? (t : Tally) (m : OutputMode) : Option Tally := do
  let refresh ← Limits.plus? t.refresh m.refresh
  let dpiX ← Limits.plus? t.dpiX m.dpiX
  let dpiY ← Limits.plus? t.dpiY m.dpiY
  let outputs ← Limits.plus? t.outputs 1
  some {
    width := Limits.count (t.width + m.width)
    height := max t.height m.height
    refresh, dpiX, dpiY
    outputs := outputs.toNat
    preference := t.preference.see (t.outputs, m.refresh) }

/-- The mode of the outputs taken in. -/
def mode (t : Tally) : CompositeMode :=
  if t.outputs = 0 then {} else
    { width := t.width
      height := t.height
      refresh := Limits.measure (t.refresh.tdiv t.outputs)
      dpiX := Limits.measure (t.dpiX.tdiv t.outputs)
      dpiY := Limits.measure (t.dpiY.tdiv t.outputs)
      preferred := t.preference.index }

/-- What a pass over some outputs gathers if nothing overflows. -/
def of (modes : List OutputMode) : Tally where
  width := CompositeMode.totalWidth modes
  height := CompositeMode.maxHeight modes
  refresh := (modes.map (·.refresh)).sum
  dpiX := (modes.map (·.dpiX)).sum
  dpiY := (modes.map (·.dpiY)).sum
  outputs := modes.length
  preference := (indexedRefreshes modes).foldl Preference.see {}

end Tally

/-- The mode of outputs given from left to right, in one pass; nothing if a sum overflows. -/
def CompositeMode.ofOutputs? (modes : List OutputMode) : Option CompositeMode :=
  (modes.foldlM Tally.add? {}).map Tally.mode

namespace Limits

theorem plus?_eq_some {x y : Int} (h : minTime ≤ x + y ∧ x + y ≤ maxTime) :
    plus? x y = some (x + y) :=
  if_pos h

/-- As many measures as can be counted add up to a time. -/
theorem sum_mem (xs : List Int) (hlen : xs.length ≤ maxCount)
    (h : ∀ x ∈ xs, minMeasure ≤ x ∧ x ≤ maxMeasure) : minTime ≤ xs.sum ∧ xs.sum ≤ maxTime := by
  have hlow := List.card_nsmul_le_sum xs minMeasure fun x hx => (h x hx).1
  have hhigh := List.sum_le_card_nsmul xs maxMeasure fun x hx => (h x hx).2
  simp only [nsmul_eq_mul, minMeasure, maxMeasure] at hlow hhigh
  simp only [maxCount] at hlen
  simp only [minTime, maxTime]
  omega

end Limits

theorem indexedRefreshes_concat (modes : List OutputMode) (m : OutputMode) :
    indexedRefreshes (modes ++ [m]) = indexedRefreshes modes ++ [(modes.length, m.refresh)] := by
  simp [indexedRefreshes, List.zipIdx_append]

/-- One more output, while the sums of all are in range. -/
theorem Tally.add?_of {modes : List OutputMode} {m : OutputMode}
    (hlen : (modes ++ [m]).length ≤ Limits.maxCount) (h : ∀ x ∈ modes ++ [m], x.InRange) :
    (Tally.of modes).add? m = some (Tally.of (modes ++ [m])) := by
  have hrefresh := Limits.sum_mem ((modes ++ [m]).map (·.refresh)) (by simpa using hlen)
    (List.forall_mem_map.2 fun x hx => (h x hx).refresh)
  have hdpiX := Limits.sum_mem ((modes ++ [m]).map (·.dpiX)) (by simpa using hlen)
    (List.forall_mem_map.2 fun x hx => (h x hx).dpiX)
  have hdpiY := Limits.sum_mem ((modes ++ [m]).map (·.dpiY)) (by simpa using hlen)
    (List.forall_mem_map.2 fun x hx => (h x hx).dpiY)
  have houtputs : Limits.minTime ≤ (modes.length : Int) + 1 ∧
      (modes.length : Int) + 1 ≤ Limits.maxTime := by
    simp only [List.length_append, List.length_singleton, Limits.maxCount] at hlen
    simp only [Limits.minTime, Limits.maxTime]
    omega
  simp only [List.map_append, List.map_singleton, List.sum_append, List.sum_singleton]
    at hrefresh hdpiX hdpiY
  simp only [add?, of, Limits.plus?_eq_some hrefresh, Limits.plus?_eq_some hdpiX,
    Limits.plus?_eq_some hdpiY, Limits.plus?_eq_some houtputs, Option.bind_eq_bind,
    Option.bind_some, indexedRefreshes_concat, CompositeMode.totalWidth, CompositeMode.maxHeight,
    List.foldl_append, List.foldl_cons, List.foldl_nil, List.map_append, List.map_singleton,
    List.sum_append, List.sum_singleton, List.length_append, List.length_singleton]
  rfl

/-- The pass ends if the outputs can be counted. -/
theorem Tally.foldlM_add? {modes : List OutputMode} (hlen : modes.length ≤ Limits.maxCount)
    (h : ∀ m ∈ modes, m.InRange) : modes.foldlM add? {} = some (Tally.of modes) := by
  induction modes using List.reverseRecOn with
  | nil => rfl
  | append_singleton modes m ih =>
    have hlen' : modes.length ≤ Limits.maxCount := by
      rw [List.length_append] at hlen
      exact Nat.le_trans (Nat.le_add_right ..) hlen
    rw [List.foldlM_append, ih hlen' fun x hx => h x (List.mem_append_left _ hx)]
    simp only [Option.bind_eq_bind, Option.bind_some, List.foldlM_cons, List.foldlM_nil,
      add?_of hlen h, Option.pure_def]

/-! ### The fields of the mode -/

namespace CompositeMode

/-- Widths stop once, at their sum. -/
theorem totalWidth_eq (modes : List OutputMode) :
    totalWidth modes = Limits.count (modes.map (·.width)).sum := by
  induction modes using List.reverseRecOn with
  | nil => rfl
  | append_singleton modes m ih =>
    rw [totalWidth, List.foldl_append, ← totalWidth, List.foldl_cons, List.foldl_nil, ih,
      List.map_append, List.sum_append, List.map_singleton, List.sum_singleton]
    simp only [Limits.count]
    omega

theorem maxHeight_concat (modes : List OutputMode) (m : OutputMode) :
    maxHeight (modes ++ [m]) = max (maxHeight modes) m.height := by
  rw [maxHeight, List.foldl_append, ← maxHeight, List.foldl_cons, List.foldl_nil]

/-- No output is taller. -/
theorem height_le_maxHeight {modes : List OutputMode} {m : OutputMode} (hm : m ∈ modes) :
    m.height ≤ maxHeight modes := by
  induction modes using List.reverseRecOn with
  | nil => cases hm
  | append_singleton modes last ih =>
    rw [maxHeight_concat]
    rcases List.mem_append.1 hm with hm | hm
    · exact Nat.le_trans (ih hm) (Nat.le_max_left ..)
    · rw [List.mem_singleton.1 hm]
      exact Nat.le_max_right ..

/-- Some output is as tall. -/
theorem exists_height_eq_maxHeight {modes : List OutputMode} (hne : modes ≠ []) :
    ∃ m ∈ modes, m.height = maxHeight modes := by
  induction modes using List.reverseRecOn with
  | nil => cases hne rfl
  | append_singleton modes last ih =>
    rw [maxHeight_concat]
    rcases Nat.le_total (maxHeight modes) last.height with hle | hle
    · exact ⟨last, by simp, (Nat.max_eq_right hle).symm⟩
    · rcases eq_or_ne modes [] with rfl | hne
      · exact ⟨last, by simp, (Nat.max_eq_right (Nat.zero_le _)).symm⟩
      · obtain ⟨m, hm, heq⟩ := ih hne
        exact ⟨m, List.mem_append_left _ hm, heq.trans (Nat.max_eq_left hle).symm⟩

/-- The mean of measures is cut off nowhere. -/
theorem mean_eq {xs : List Int} (hne : xs ≠ [])
    (h : ∀ x ∈ xs, Limits.minMeasure ≤ x ∧ x ≤ Limits.maxMeasure) :
    mean xs = xs.sum.tdiv xs.length := by
  have hmem := Average.tdiv_mem hne h
  rw [mean, ← List.sum_eq_foldl, Limits.measure_of_mem hmem.1 hmem.2]

end CompositeMode

/-- Whether anything is found or not, the pass and the choice agree on the index. -/
theorem index_foldl_see (xs : List (Nat × Int)) :
    (xs.foldl Preference.see {}).index = (preferredOutput xs).getD 0 := by
  rcases forall_le_or_exists_fastest xs with hnone | ⟨x, hx⟩
  · rw [preferredOutput_eq_none_iff.2 hnone, Preference.foldl_see_of_le hnone]
    rfl
  · have hsome := hx.preferredOutput_eq
    rw [preferredOutput] at hsome ⊢
    split at hsome
    · rw [if_pos ‹_›]
      rfl
    · cases hsome

/-- With the pass done, its tally is the mode. -/
theorem Tally.mode_of {modes : List OutputMode} (hne : modes ≠ []) :
    (Tally.of modes).mode = CompositeMode.ofOutputs modes := by
  have hlen : modes.length ≠ 0 := mt List.length_eq_zero_iff.1 hne
  simp only [mode, of, if_neg hlen, CompositeMode.ofOutputs, CompositeMode.mean, List.length_map,
    ← List.sum_eq_foldl, index_foldl_see]

/-- One pass over outputs that can be counted ends with their mode. -/
theorem CompositeMode.ofOutputs?_eq_some {modes : List OutputMode} (hne : modes ≠ [])
    (hlen : modes.length ≤ Limits.maxCount) (h : ∀ m ∈ modes, m.InRange) :
    ofOutputs? modes = some (ofOutputs modes) := by
  rw [ofOutputs?, Tally.foldlM_add? hlen h, Option.map_some, Tally.mode_of hne]

/-! ### The preferred output -/

theorem getElem?_indexedRefreshes (modes : List OutputMode) (i : Nat) :
    (indexedRefreshes modes)[i]? = modes[i]?.map fun m => (i, m.refresh) := by
  simp [indexedRefreshes, Function.comp_def]

theorem forall_indexedRefreshes_le {modes : List OutputMode} {r : Int} :
    (∀ y ∈ indexedRefreshes modes, y.2 ≤ r) ↔ ∀ m ∈ modes, m.refresh ≤ r := by
  constructor
  · intro h m hm
    obtain ⟨i, hi⟩ := List.getElem?_of_mem hm
    refine h (i, m.refresh) (List.mem_of_getElem? (i := i) ?_)
    rw [getElem?_indexedRefreshes, hi]
    rfl
  · intro h y hy
    obtain ⟨i, hi⟩ := List.getElem?_of_mem hy
    rw [getElem?_indexedRefreshes] at hi
    obtain ⟨m, hm, rfl⟩ := Option.map_eq_some_iff.1 hi
    exact h m (List.mem_of_getElem? hm)

/-- Output `i` is the first of those that refresh fastest, or the first of all where none
    refreshes. -/
structure Preferred (modes : List OutputMode) (i : Nat) : Prop where
  fastest : (∃ m ∈ modes, 0 < m.refresh) → ∃ best, modes[i]? = some best ∧
    (∀ m ∈ modes, m.refresh ≤ best.refresh) ∧
    ∀ j < i, ∀ m, modes[j]? = some m → m.refresh < best.refresh
  first : (∀ m ∈ modes, m.refresh ≤ 0) → i = 0

/-- The fastest of some refreshes, with its position, belongs to the output at that position. -/
theorem Fastest.of_indexed {modes : List OutputMode} {i : Nat} {r : Int}
    (h : Fastest (indexedRefreshes modes) (i, r)) :
    ∃ best, modes[i]? = some best ∧ (∀ m ∈ modes, m.refresh ≤ best.refresh) ∧
      ∀ j < i, ∀ m, modes[j]? = some m → m.refresh < best.refresh := by
  obtain ⟨before, after, hxs, hbefore, -⟩ := h.first
  have hat : modes[before.length]?.map (fun m => (before.length, m.refresh)) = some (i, r) := by
    rw [← getElem?_indexedRefreshes, hxs]
    simp
  obtain ⟨best, hbest, heq⟩ := Option.map_eq_some_iff.1 hat
  obtain ⟨rfl, rfl⟩ := Prod.mk.inj heq
  refine ⟨best, hbest, forall_indexedRefreshes_le.1 fun y hy => h.le hy, fun j hj m hm => ?_⟩
  have hjth : (indexedRefreshes modes)[j]? = some (j, m.refresh) := by
    rw [getElem?_indexedRefreshes, hm]
    rfl
  rw [hxs, List.getElem?_append_left hj] at hjth
  exact hbefore _ (List.mem_of_getElem? hjth)

/-- None is preferred exactly if none refreshes. -/
theorem preferredOutput_indexedRefreshes_eq_none_iff {modes : List OutputMode} :
    preferredOutput (indexedRefreshes modes) = none ↔ ∀ m ∈ modes, m.refresh ≤ 0 :=
  preferredOutput_eq_none_iff.trans forall_indexedRefreshes_le

/-- The preferred output of a mode is the one that its outputs' refreshes single out. -/
theorem CompositeMode.preferred_ofOutputs (modes : List OutputMode) :
    Preferred modes (ofOutputs modes).preferred where
  fastest := by
    rintro ⟨m, hm, hpos⟩
    rcases forall_le_or_exists_fastest (indexedRefreshes modes) with hnone | ⟨x, hx⟩
    · exact absurd hpos (Int.not_lt.2 (forall_indexedRefreshes_le.1 hnone m hm))
    · rw [ofOutputs, hx.preferredOutput_eq]
      exact hx.of_indexed
  first hnone := by
    rw [ofOutputs, preferredOutput_indexedRefreshes_eq_none_iff.2 hnone]
    rfl

/-! ### Order -/

/-- The order of the outputs matters to the preferred one only. -/
theorem CompositeMode.ofOutputs_perm {modes modes' : List OutputMode} (h : modes.Perm modes') :
    { ofOutputs modes' with preferred := (ofOutputs modes).preferred } = ofOutputs modes := by
  have hwidth : totalWidth modes' = totalWidth modes := by
    rw [totalWidth_eq, totalWidth_eq, (h.map _).sum_eq]
  have hheight : maxHeight modes' = maxHeight modes :=
    (h.foldl_eq' (fun x _ y _ z => by omega) 0).symm
  have hmean (f : OutputMode → Int) : mean (modes'.map f) = mean (modes.map f) := by
    rw [mean, mean, ← List.sum_eq_foldl, ← List.sum_eq_foldl, (h.map f).sum_eq,
      (h.map f).length_eq]
  rw [ofOutputs, ofOutputs, hwidth, hheight, hmean, hmean, hmean]

/-! ### The whole derivation -/

/-- `mean` is the sum of some values divided once, toward zero, and lies between two of them. -/
structure TruncatedMean (xs : List Int) (mean : Int) : Prop where
  eq : mean = xs.sum.tdiv xs.length
  above : ∃ x ∈ xs, x ≤ mean
  below : ∃ x ∈ xs, mean ≤ x

theorem CompositeMode.truncatedMean_mean {xs : List Int} (hne : xs ≠ [])
    (h : ∀ x ∈ xs, Limits.minMeasure ≤ x ∧ x ≤ Limits.maxMeasure) :
    TruncatedMean xs (mean xs) := by
  have hbetween := Average.tdiv_between hne
  rw [← mean_eq hne h] at hbetween
  exact ⟨mean_eq hne h, hbetween.1, hbetween.2⟩

/-- What each field of a wall's mode is for its outputs: the width their exact sum, stopped once,
    the height that of the tallest, refresh and densities their means. -/
structure CompositeMode.DerivesFrom (c : CompositeMode) (modes : List OutputMode) : Prop where
  width : c.width = min (modes.map (·.width)).sum Limits.maxCount
  height_le : ∀ m ∈ modes, m.height ≤ c.height
  height_eq : ∃ m ∈ modes, m.height = c.height
  refresh : TruncatedMean (modes.map (·.refresh)) c.refresh
  dpiX : TruncatedMean (modes.map (·.dpiX)) c.dpiX
  dpiY : TruncatedMean (modes.map (·.dpiY)) c.dpiY
  preferred : Preferred modes c.preferred

theorem CompositeMode.derivesFrom_ofOutputs {modes : List OutputMode} (hne : modes ≠ [])
    (h : ∀ m ∈ modes, m.InRange) : (ofOutputs modes).DerivesFrom modes := by
  have hmap (f : OutputMode → Int) : modes.map f ≠ [] := mt List.map_eq_nil_iff.1 hne
  exact {
    width := totalWidth_eq modes
    height_le := fun m => height_le_maxHeight
    height_eq := exists_height_eq_maxHeight hne
    refresh := truncatedMean_mean (hmap _) (List.forall_mem_map.2 fun m hm => (h m hm).refresh)
    dpiX := truncatedMean_mean (hmap _) (List.forall_mem_map.2 fun m hm => (h m hm).dpiX)
    dpiY := truncatedMean_mean (hmap _) (List.forall_mem_map.2 fun m hm => (h m hm).dpiY)
    preferred := preferred_ofOutputs modes }

/-- The mode of one or more outputs, as many as can be counted: one pass over them overflows no sum
    and yields it. Its preferred output is the one that is chosen among the refreshes alone, where
    none is chosen exactly if none refreshes; and another order of the outputs changes the preferred
    one at most. -/
theorem ofOutputs_derivation {modes : List OutputMode} (hne : modes ≠ [])
    (hlen : modes.length ≤ Limits.maxCount) (h : ∀ m ∈ modes, m.InRange) :
    ∃ c, CompositeMode.ofOutputs? modes = some c ∧ CompositeMode.ofOutputs modes = c ∧
      c.DerivesFrom modes ∧
      c.preferred = (preferredOutput (indexedRefreshes modes)).getD 0 ∧
      (preferredOutput (indexedRefreshes modes) = none ↔ ∀ m ∈ modes, m.refresh ≤ 0) ∧
      ∀ modes', modes.Perm modes' → ∃ c', CompositeMode.ofOutputs? modes' = some c' ∧
        CompositeMode.ofOutputs modes' = c' ∧ { c' with preferred := c.preferred } = c := by
  refine ⟨_, CompositeMode.ofOutputs?_eq_some hne hlen h, rfl,
    CompositeMode.derivesFrom_ofOutputs hne h, rfl, preferredOutput_indexedRefreshes_eq_none_iff,
    fun modes' hperm => ⟨_, ?_, rfl, CompositeMode.ofOutputs_perm hperm⟩⟩
  refine CompositeMode.ofOutputs?_eq_some ?_ ?_ fun m hm => h m (hperm.mem_iff.2 hm)
  · exact fun hnil => hne (hnil ▸ hperm).eq_nil
  · rwa [← hperm.length_eq]

/-- Four outputs with negative values among them: a width that overflows, means that are truncated
    upwards, and a tie for the fastest. -/
theorem ofOutputs_four_outputs :
    let modes : List OutputMode := [⟨4294967295, 3, -5, -7, 96⟩, ⟨2, 9, 60, -2, 97⟩,
      ⟨7, 4, 60, -1, 95⟩, ⟨1, 1, 59, 0, 98⟩]
    (modes ≠ [] ∧ modes.length ≤ Limits.maxCount ∧ ∀ m ∈ modes, m.InRange) ∧
      CompositeMode.ofOutputs? modes = some ⟨4294967295, 9, 43, -2, 96, 1⟩ ∧
      CompositeMode.DerivesFrom ⟨4294967295, 9, 43, -2, 96, 1⟩ modes := by
  intro modes
  have hrange : ∀ m ∈ modes, m.InRange := by decide
  obtain ⟨c, hc, -, hderives, -⟩ :=
    ofOutputs_derivation (show modes ≠ [] by decide) (by decide) hrange
  obtain rfl : c = ⟨4294967295, 9, 43, -2, 96, 1⟩ := Option.some.inj (hc.symm.trans (by decide))
  exact ⟨⟨by decide, by decide, hrange⟩, hc, hderives⟩

end VideoWall
