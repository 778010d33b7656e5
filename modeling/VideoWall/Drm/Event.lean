import VideoWall.Clock

/-! Records that a display driver hands out when it is read.

    A record begins with a header of two 32-bit words, its kind and its length in bytes, header
    included; numbers are little-endian. Vblank and flip records carry a body of 24 bytes, and may
    be longer than they need to be. Records of other kinds are skipped over by their length
    alone. -/

namespace VideoWall.Drm

/-- The number that some bytes spell, least significant byte first. -/
def number : List UInt8 → Nat
  | [] => 0
  | b :: rest => b.toNat + 256 * number rest

/-- The number in `width` bytes from `offset` on. -/
def field (bytes : List UInt8) (offset width : Nat) : Nat :=
  number ((bytes.drop offset).take width)

/-- Length of the header. -/
def headerLength : Nat := 8

/-- Length of a record with a body. -/
def flipLength : Nat := 32

/-- The body of a vblank or flip record. -/
structure Flip where
  userData : UInt64
  seconds : UInt32
  micros : UInt32
  sequence : UInt32
  crtc : UInt32
  deriving DecidableEq, Repr

namespace Flip

/-- The body of a record of at least `flipLength` bytes. -/
def read (record : List UInt8) : Flip where
  userData := .ofNat (field record 8 8)
  seconds := .ofNat (field record 16 4)
  micros := .ofNat (field record 20 4)
  sequence := .ofNat (field record 24 4)
  crtc := .ofNat (field record 28 4)

/-- The controller that flipped; older drivers leave it zero. -/
def crtc? (f : Flip) : Option UInt32 := if f.crtc = 0 then none else some f.crtc

/-- When the flip happened, in nanoseconds. -/
def time (f : Flip) : Int := flipTime f.seconds f.micros

end Flip

/-- A decoded record. -/
inductive Event where
  | vblank (body : Flip)
  | flipComplete (body : Flip)
  | crtcSequence
  | other (kind : UInt32)
  deriving DecidableEq, Repr

/-- Why bytes are not a record. -/
inductive DecodeError where
  | truncated (needed available : Nat)
  | badLength (kind : UInt32) (length : Nat)
  deriving DecidableEq, Repr

/-- The text of the reason. -/
def DecodeError.message : DecodeError → String
  | .truncated needed available =>
    s!"truncated DRM event: {available} bytes left, {needed} needed"
  | .badLength kind length => s!"DRM event of type {kind} has invalid length {length}"

end VideoWall.Drm
