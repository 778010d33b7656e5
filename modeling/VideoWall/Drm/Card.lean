import VideoWall.Drm.Decode
import VideoWall.Vblank.Request

/-! A display device as a stream of bytes.

    Reading an open stream that has nothing yet would block; once the stream is closed, what is left
    is read first and then nothing. A stream that is no display device refuses vblank requests. -/

namespace VideoWall.Drm

/-- Why a device gives no answer. -/
inductive CardError where
  | open (path : String)
  | wouldBlock
  | refused
  deriving DecidableEq, Repr

/-- The text of the error; a read that would block has none. -/
def CardError.message : CardError → String
  | .open path => s!"failed to open DRM device {path}"
  | .wouldBlock => ""
  | .refused => Vblank.Request.refusal

/-- The stream: bytes written and not yet read, and whether its writer is gone. -/
structure Card where
  pending : List UInt8 := []
  closed : Bool := false
  deriving DecidableEq, Repr

namespace Card

/-- Bytes written come behind those already there. -/
def write (c : Card) (bytes : List UInt8) : Card := { c with pending := c.pending ++ bytes }

/-- The writer goes away. -/
def close (c : Card) : Card := { c with closed := true }

/-- Takes at most `room` bytes; a read without room takes nothing and never blocks. -/
def read (c : Card) (room : Nat) : Except CardError (List UInt8 × Card) :=
  if c.pending.isEmpty && !c.closed && room != 0 then .error .wouldBlock
  else .ok (c.pending.take room, { c with pending := c.pending.drop room })

end Card

end VideoWall.Drm
