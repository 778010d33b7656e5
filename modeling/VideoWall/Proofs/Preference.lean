import Mathlib.Data.List.Induction
import VideoWall.Mode

/-! Which output is preferred.

    Going from left to right, a strictly faster output takes the preference over. So what comes out
    is the first of the outputs with the highest refresh, as long as any of them refreshes at all:
    `preferredOutput_eq_some_iff`. Among some of the outputs only, another one is preferred exactly
    if that one is missing: `preferredOutput_filter_eq_iff`. -/

namespace VideoWall

/-- `x` refreshes, nothing refreshes faster, and nothing before it as fast. -/
structure Fastest (xs : List (Nat × Int)) (x : Nat × Int) : Prop where
  pos : 0 < x.2
  first : ∃ before after, xs = before ++ x :: after ∧
    (∀ y ∈ before, y.2 < x.2) ∧ ∀ y ∈ after, y.2 ≤ x.2

namespace Preference

/-- Nothing that is slower than `r` brings the preference up to `r`. -/
theorem best_foldl_lt {xs : List (Nat × Int)} {r : Int} (h : ∀ y ∈ xs, y.2 < r) {p : Preference}
    (hp : p.best < r) : (xs.foldl see p).best < r := by
  induction xs generalizing p with
  | nil => exact hp
  | cons y ys ih =>
    obtain ⟨hy, hys⟩ := List.forall_mem_cons.1 h
    refine ih hys ?_
    rw [see]
    split
    · exact hy
    · exact hp

/-- What is no faster does not take the preference over. -/
theorem foldl_see_of_le {xs : List (Nat × Int)} {p : Preference} (h : ∀ y ∈ xs, y.2 ≤ p.best) :
    xs.foldl see p = p := by
  induction xs with
  | nil => rfl
  | cons y ys ih =>
    obtain ⟨hy, hys⟩ := List.forall_mem_cons.1 h
    rw [List.foldl_cons, see, if_neg (Int.not_lt.2 hy), ih hys]

end Preference

namespace Fastest

variable {xs : List (Nat × Int)} {x y : Nat × Int}

theorem mem (h : Fastest xs x) : x ∈ xs := by
  obtain ⟨before, after, rfl, -, -⟩ := h.first
  exact List.mem_append_right _ List.mem_cons_self

theorem le (h : Fastest xs x) (hy : y ∈ xs) : y.2 ≤ x.2 := by
  obtain ⟨before, after, rfl, hbefore, hafter⟩ := h.first
  rcases List.mem_append.1 hy with hy | hy
  · exact Int.le_of_lt (hbefore y hy)
  · rcases List.mem_cons.1 hy with rfl | hy
    · exact Int.le_refl _
    · exact hafter y hy

theorem preferredOutput_eq (h : Fastest xs x) : preferredOutput xs = some x.1 := by
  obtain ⟨before, after, rfl, hbefore, hafter⟩ := h.first
  have hlt : (before.foldl Preference.see {}).best < x.2 :=
    Preference.best_foldl_lt hbefore h.pos
  rw [preferredOutput, List.foldl_append, List.foldl_cons, Preference.see, if_pos hlt,
    Preference.foldl_see_of_le hafter]
  rfl

/-- It stays the fastest when others go. -/
theorem filter (h : Fastest xs x) {q : Nat × Int → Bool} (hq : q x = true) :
    Fastest (xs.filter q) x := by
  obtain ⟨before, after, rfl, hbefore, hafter⟩ := h.first
  refine ⟨h.pos, before.filter q, after.filter q, ?_, fun y hy => ?_, fun y hy => ?_⟩
  · rw [List.filter_append, List.filter_cons_of_pos hq]
  · exact hbefore y (List.mem_filter.1 hy).1
  · exact hafter y (List.mem_filter.1 hy).1

end Fastest

/-- Either nothing refreshes, or something is the fastest. -/
theorem forall_le_or_exists_fastest (xs : List (Nat × Int)) :
    (∀ y ∈ xs, y.2 ≤ 0) ∨ ∃ x, Fastest xs x := by
  induction xs using List.reverseRecOn with
  | nil => exact .inl (List.forall_mem_nil _)
  | append_singleton xs y ih =>
    -- whether the last one is faster than all before it
    have hlast : 0 < y.2 → (∀ z ∈ xs, z.2 < y.2) → Fastest (xs ++ [y]) y := fun hpos hlt =>
      ⟨hpos, xs, [], rfl, hlt, List.forall_mem_nil _⟩
    rcases ih with hnone | ⟨x, hx⟩
    · rcases Int.lt_or_le 0 y.2 with hpos | hle
      · exact .inr ⟨y, hlast hpos fun z hz => Int.lt_of_le_of_lt (hnone z hz) hpos⟩
      · exact .inl (List.forall_mem_append.2 ⟨hnone, List.forall_mem_singleton.2 hle⟩)
    · rcases Int.lt_or_le x.2 y.2 with hlt | hle
      · exact .inr ⟨y, hlast (Int.lt_trans hx.pos hlt) fun z hz =>
          Int.lt_of_le_of_lt (hx.le hz) hlt⟩
      · obtain ⟨before, after, rfl, hbefore, hafter⟩ := hx.first
        refine .inr ⟨x, hx.pos, before, after ++ [y], List.append_assoc .., hbefore, ?_⟩
        exact List.forall_mem_append.2 ⟨hafter, List.forall_mem_singleton.2 hle⟩

variable {xs : List (Nat × Int)} {i j : Nat}

/-- No output is preferred if none refreshes. -/
theorem preferredOutput_eq_none_iff : preferredOutput xs = none ↔ ∀ y ∈ xs, y.2 ≤ 0 := by
  constructor
  · intro h
    rcases forall_le_or_exists_fastest xs with hnone | ⟨x, hx⟩
    · exact hnone
    · cases h.symm.trans hx.preferredOutput_eq
  · intro h
    rw [preferredOutput, Preference.foldl_see_of_le h]
    rfl

/-- The preferred output is the first one that none outdoes, and it refreshes. -/
theorem preferredOutput_eq_some_iff : preferredOutput xs = some i ↔ ∃ r, Fastest xs (i, r) := by
  constructor
  · intro h
    rcases forall_le_or_exists_fastest xs with hnone | ⟨x, hx⟩
    · cases h.symm.trans (preferredOutput_eq_none_iff.2 hnone)
    · obtain rfl := Option.some.inj (hx.preferredOutput_eq.symm.trans h)
      exact ⟨x.2, hx⟩
  · rintro ⟨r, h⟩
    exact h.preferredOutput_eq

/-- Where some outputs have a preferred one, so have all of them. -/
theorem isSome_preferredOutput_of_filter {q : Nat × Int → Bool}
    (h : preferredOutput (xs.filter q) = some j) : (preferredOutput xs).isSome = true := by
  obtain ⟨r, hr⟩ := preferredOutput_eq_some_iff.1 h
  rw [Option.isSome_iff_ne_none, Ne, preferredOutput_eq_none_iff]
  exact fun hnone => Int.not_lt.2 (hnone _ (List.mem_filter.1 hr.mem).1) hr.pos

/-- The one that is preferred among some outputs is preferred among all exactly if the one that is
    preferred among all is one of them. -/
theorem preferredOutput_filter_eq_iff {q : Nat → Bool}
    (hj : preferredOutput (xs.filter (q ·.1)) = some j) (hi : preferredOutput xs = some i) :
    j = i ↔ q i = true := by
  constructor
  · rintro rfl
    obtain ⟨r, hr⟩ := preferredOutput_eq_some_iff.1 hj
    exact (List.mem_filter.1 hr.mem).2
  · intro hq
    obtain ⟨r, hr⟩ := preferredOutput_eq_some_iff.1 hi
    exact Option.some.inj (hj.symm.trans (hr.filter (q := (q ·.1)) hq).preferredOutput_eq)

end VideoWall
