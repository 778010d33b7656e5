import VideoWall.Vblank.Loop

/-! Completed flips: which of them a reading tells of, and that none of them is lost.

    A flip would be lost if the interval since the flip before it were out of range. The interval
    tracker only ever holds the time of a flip, and such times lie so close together that
    `Loop.flip_eq` holds: every flip is noted, and forwarded if somebody is there to take it. -/

namespace VideoWall

/-! ### Times of flips -/

theorem flipTime_mem (seconds micros : UInt32) :
    0 ≤ flipTime seconds micros ∧ flipTime seconds micros ≤ Limits.maxTime := by
  have hs := seconds.toNat_lt
  have hm := micros.toNat_lt
  rw [flipTime, Limits.maxTime]
  omega

namespace FrameInterval

/-- What is noted, if anything, lies in the range of the times of flips. -/
def Timely (i : FrameInterval) : Prop := ∀ t, i.last = some t → 0 ≤ t ∧ t ≤ Limits.maxTime

theorem timely_reset (i : FrameInterval) : i.reset.Timely := by
  intro t ht
  cases ht

theorem timely_flip (f : Drm.Flip) : Timely ⟨some f.time⟩ := by
  intro t ht
  rw [← Option.some.inj ht]
  exact flipTime_mem f.seconds f.micros

/-- The time of a flip is always noted, and the time since the flip before it is always known. -/
theorem Timely.observe_eq {i : FrameInterval} (h : i.Timely) (f : Drm.Flip) :
    i.observe f.time = .ok (⟨some f.time⟩, i.last.map (f.time - ·)) := by
  have hf := flipTime_mem f.seconds f.micros
  rw [FrameInterval.observe]
  split
  · next hlast => rw [hlast]; rfl
  · next last hlast =>
    have hl := h last hlast
    have hin : Limits.minTime ≤ f.time - last ∧ f.time - last ≤ Limits.maxTime := by
      simp only [Limits.minTime, Limits.maxTime, Drm.Flip.time] at hl hf ⊢
      omega
    rw [if_pos hin, hlast]
    rfl

end FrameInterval

namespace Vblank

/-- What a loop has to say about a flip: how long ago the last one was, if it knows of one. -/
def Loop.report {κ : Type} (l : Loop κ) (f : Drm.Flip) : List Remark :=
  (l.interval.last.map fun t => Remark.pageFlip f.crtc? ((f.time - t).tdiv 1000)).toList

/-- A flip is noted and reported whatever the last one was, and forwarded as the loop is set up. -/
theorem Loop.flip_eq_report {κ : Type} {l : Loop κ} (h : l.interval.Timely) (f : Drm.Flip) :
    l.flip f = ({ l with interval := ⟨some f.time⟩ }, l.report f, l.forward? f) := by
  rw [Loop.flip, h.observe_eq f, Loop.report]
  simp only [Option.map_map]
  rfl

/-- Whatever is reported, the flip is noted and forwarded. -/
theorem Loop.flip_eq {κ : Type} {l : Loop κ} (h : l.interval.Timely) (f : Drm.Flip) :
    ∃ rs, l.flip f = ({ l with interval := ⟨some f.time⟩ }, rs, l.forward? f) :=
  ⟨l.report f, Loop.flip_eq_report h f⟩

/-! ### Flips of a reading -/

/-- The flip that a decoded record tells of, if it is a completed one. -/
def flipOf? : Except Drm.DecodeError Drm.Event → Option Drm.Flip
  | .ok (.flipComplete f) => some f
  | _ => none

/-- The completed flips in the bytes of a reading, in order; a failed read has none. -/
def Reading.flips : Reading → List Drm.Flip
  | .bytes bs => (Drm.decode (bs.take bufferLength)).filterMap flipOf?
  | .failure _ => []

/-- The flip of an item. -/
def Item.flip? : Item → Option Drm.Flip
  | .flip f => some f
  | .remark _ => none

/-- The flips among what there is to do about a reading are those in its bytes. -/
theorem Reading.filterMap_items (r : Reading) : r.items.filterMap Item.flip? = r.flips := by
  cases r with
  | bytes bs =>
    rw [items, flips, List.filterMap_filterMap]
    refine congrArg (List.filterMap · _) (funext fun x => ?_)
    cases x with
    | error cause => rfl
    | ok e => cases e <;> rfl
  | failure cause => cases cause <;> rfl

end Vblank

end VideoWall
