import VideoWall.Drm.Event

/-! Reading records off a buffer, one after another.

    A malformed record ends the reading: it is reported once and the bytes behind it are dropped. -/

namespace VideoWall.Drm

/-- The event of a complete record. -/
def classify (kind : UInt32) (record : List UInt8) : Except DecodeError Event :=
  if kind = 1 ∨ kind = 2 then
    if record.length < flipLength then .error (.badLength kind record.length)
    else if kind = 1 then .ok (.vblank (.read record)) else .ok (.flipComplete (.read record))
  else if kind = 3 then .ok .crtcSequence
  else .ok (.other kind)

/-- The first record of a non-empty buffer: its event and its length. -/
def first (bytes : List UInt8) : Except DecodeError (Event × Nat) :=
  if bytes.length < headerLength then .error (.truncated headerLength bytes.length) else
    let kind := UInt32.ofNat (field bytes 0 4)
    let length := field bytes 4 4
    if length < headerLength then .error (.badLength kind length)
    else if bytes.length < length then .error (.truncated length bytes.length)
    else (classify kind (bytes.take length)).map fun e => (e, length)

/-- A record covers at least its header. -/
theorem headerLength_le_of_first {bytes : List UInt8} {e : Event} {n : Nat}
    (h : first bytes = .ok (e, n)) : headerLength ≤ n := by
  unfold first at h
  split at h
  · simp at h
  · dsimp only at h
    split at h
    · simp at h
    · split at h
      · simp at h
      · cases hc : classify (.ofNat (field bytes 0 4)) (bytes.take (field bytes 4 4)) with
        | error err => simp [hc, Except.map] at h
        | ok ev => simp [hc, Except.map] at h; omega

/-- One step of reading: the next item and the bytes left behind it. -/
def step : List UInt8 → Option (Except DecodeError Event × List UInt8)
  | [] => none
  | b :: bytes =>
    match first (b :: bytes) with
    | .ok (e, n) => some (.ok e, (b :: bytes).drop n)
    | .error err => some (.error err, [])

/-- Every step uses bytes up. -/
theorem length_lt_of_step {bytes rest : List UInt8} {item : Except DecodeError Event}
    (h : step bytes = some (item, rest)) : rest.length < bytes.length := by
  cases bytes with
  | nil => simp [step] at h
  | cons b bs =>
    simp only [step] at h
    split at h
    · next e n hf =>
      have := headerLength_le_of_first hf
      simp only [headerLength] at this
      simp only [Option.some.injEq, Prod.mk.injEq] at h
      obtain ⟨-, rfl⟩ := h
      simp only [List.length_drop, List.length_cons]
      omega
    · simp only [Option.some.injEq, Prod.mk.injEq] at h
      obtain ⟨-, rfl⟩ := h
      simp

/-- The items of a buffer in order, each with the bytes left behind it. -/
def items (bytes : List UInt8) : List (Except DecodeError Event × List UInt8) :=
  match _h : step bytes with
  | none => []
  | some (item, rest) => (item, rest) :: items rest
termination_by bytes.length
decreasing_by exact length_lt_of_step ‹_›

/-- The events of a buffer, up to the first malformed record, which comes last. -/
def decode (bytes : List UInt8) : List (Except DecodeError Event) := (items bytes).map (·.1)

/-- How many bytes are left at first and after every item. -/
def remaining (bytes : List UInt8) : List Nat :=
  bytes.length :: (items bytes).map (·.2.length)

/-- The text of a reader with this many bytes left. -/
def describeReader (left : Nat) : String := s!"Events \x7b remaining: {left} \x7d"

end VideoWall.Drm
