import VideoWall.Proofs.Drain
import VideoWall.Proofs.Frame

/-! What was noted over a whole run.

    Some facts about a wall are about its past: which timestamps it was given, whether anybody ever
    listened. They are noted beside the run, each time a task is done or an operation begins, and
    the run itself does not depend on what is noted. `Wall.Brings` says what a wall can come to
    together with its notes, over operations of the host one after another and every step of each;
    `Wall.Brings.invariant` is how to prove something of all of them. -/

namespace VideoWall

/-- A run, and what was noted on the way. -/
structure Noted (σ : Type) where
  run : Run
  notes : σ

namespace Noted

variable {σ : Type} (note : Wall → Task → σ → σ)

/-- Begins an operation of the host. -/
def begins (n : Noted σ) (op : Op) : Noted σ :=
  ⟨n.run.begin op, note n.run.wall (.perform op) n.notes⟩

/-- Takes a step; the task that it does is noted first. -/
def next (n : Noted σ) : Noted σ where
  run := n.run.next
  notes := n.run.tasks.head?.elim n.notes (note n.run.wall · n.notes)

/-- Takes steps until nothing is left to do, at most `fuel` of them. -/
def steps : Nat → Noted σ → Noted σ
  | 0, n => n
  | fuel + 1, n => if n.run.isAtRest then n else steps fuel (n.next note)

/-- Performs an operation of the host. -/
def perform (n : Noted σ) (op : Op) : Noted σ := (n.begins note op).steps note (n.run.begin op).cost

end Noted

/-- What a wall comes to, with its notes. When nothing is left to do, the host may begin another
    operation. -/
inductive Wall.Brings {σ : Type} (note : Wall → Task → σ → σ) (w : Wall) (notes : σ) :
    Noted σ → Prop
  | start : Brings note w notes ⟨w.resting, notes⟩
  | begins {n : Noted σ} (h : Brings note w notes n) (hr : n.run.isAtRest = true) (op : Op) :
    Brings note w notes (n.begins note op)
  | next {n : Noted σ} (h : Brings note w notes n) (hr : n.run.isAtRest = false) :
    Brings note w notes (n.next note)

namespace Wall.Brings

variable {σ : Type} {note : Wall → Task → σ → σ} {w : Wall} {notes : σ} {n : Noted σ}

theorem steps (h : w.Brings note notes n) (fuel : Nat) :
    w.Brings note notes (n.steps note fuel) := by
  induction fuel generalizing n with
  | zero => exact h
  | succ fuel ih =>
    rw [Noted.steps]
    split
    · exact h
    · next hr => exact ih (h.next (Bool.eq_false_iff.2 hr))

/-- An operation that the host performs is one of the things that a wall can come to. -/
theorem perform (h : w.Brings note notes n) (hr : n.run.isAtRest = true) (op : Op) :
    w.Brings note notes (n.perform note op) := (h.begins hr op).steps _

/-- What holds at first, holds when an operation is about to be performed or loops get their turn,
    and is kept by every task, holds all the way. What is left to do may lose a reply at its end,
    since operations of the host are performed without one. -/
theorem invariant {P : Wall → List Task → List Event → σ → Prop}
    (start : P w [] [] notes)
    (host : ∀ v op es s, P v [] es s → P v [.perform op] es s)
    (reply : ∀ v ts op r es s, P v (ts ++ [.report op r]) es s → P v ts es s)
    (turn : ∀ v (tiles : List Nat) es s, P v [] es s → P v (tiles.map .poll) es s)
    (group : ∀ v mark ts es s, P v (.group mark :: ts) es s →
      P v ts (es.take mark ++ Event.grouped (es.drop mark)) (note v (.group mark) s))
    (exec : ∀ v t ts es s, (∀ mark, t ≠ .group mark) → P v (t :: ts) es s →
      P (v.exec es.length t).wall ((v.exec es.length t).tasks ++ ts)
        (es ++ (v.exec es.length t).events) (note v t s))
    (h : w.Brings note notes n) : P n.run.wall n.run.tasks n.run.events n.notes := by
  induction h with
  | start => exact start
  | @begins n _ hr op ih =>
    rw [Run.isAtRest, Bool.and_eq_true, List.isEmpty_iff] at hr
    rw [hr.1] at ih
    have hexec := exec _ _ _ _ _ (by simp) (host _ op _ _ ih)
    rw [List.append_nil] at hexec
    exact reply _ _ op _ _ _ hexec
  | @next n _ _ ih =>
    cases hts : n.run.tasks with
    | nil =>
      rw [hts] at ih
      have hnext : n.next note =
          ⟨{ n.run with tasks := n.run.late.map .poll, late := [] }, n.notes⟩ := by
        simp [Noted.next, Run.next, hts]
      rw [hnext]
      exact turn _ _ _ _ ih
    | cons t ts =>
      rw [hts] at ih
      have hrun : n.run = n.run.doing (t :: ts) := by rw [← hts, Run.doing_self]
      have hnotes : (n.next note).notes = note n.run.wall t n.notes := by
        simp [Noted.next, hts]
      have hnext : (n.next note).run = (n.run.does t).doing ((n.run.does t).tasks ++ ts) := by
        rw [Noted.next, ← Run.next_doing_cons, ← hrun]
      rw [hnotes, hnext]
      by_cases hg : ∃ mark, t = .group mark
      · obtain ⟨mark, rfl⟩ := hg
        exact group _ mark ts _ _ ih
      · have hne : ∀ mark, t ≠ .group mark := fun mark hm => hg ⟨mark, hm⟩
        rw [Run.does_eq _ hne]
        exact exec _ t ts _ _ hne ih

end Wall.Brings

end VideoWall
