import VideoWall.Controller
import VideoWall.Output
import VideoWall.Worker.Basic
import VideoWall.Policy

/-! What can be asked of a wall, and what it answers.

    Hosts operate the controller, and outputs operate it through the listeners that it registers
    with them. A listener of the host comes with a script of further operations, which it performs
    while it is being told something; an output may have a script too, which runs while it shows a
    frame. -/

namespace VideoWall

/-- A question about the controller, which changes nothing. -/
inductive Question where
  | report (config : Nat) (asked : Attribute)
  | name (buffer : Option (List UInt8))
  | configs (buffer : Option (List Nat))
  | planeFormat (format : Nat)
  | overview
  | cycle
  | describe
  deriving DecidableEq, Repr

/-- The controller at a glance. -/
structure Overview where
  width : Nat
  height : Nat
  preferred : Nat
  pipe : Option Nat
  policy : Policy
  deriving DecidableEq, Repr

/-- What an operation answers. No frame has a retire fence, so a presented frame answers without
    one. -/
inductive Reply where
  | ok
  | dropped
  | presented
  | report (value : Except Unsupported Int)
  | name (copied : Nat) (buffer : Option (List UInt8))
  | configs (count : Nat) (buffer : Option (List Nat))
  | planeFormat (supported : Bool)
  | overview (overview : Overview)
  | cycle (cycle : Vsync.Cycle)
  | text (text : String)

/-- An operation. The first group is for the holder of the controller; the second group happens to
    an output, by its position; `drop` gives the controller up. -/
inductive Op where
  | setActiveConfig (config : Nat)
  | setPowerMode (mode : PowerMode)
  | control (enabled : Bool)
  | vsyncUpdate (time : Int)
  | hotplugUpdate (connected : Bool)
  | refreshUpdate
  | listen (channel : Channel) (display : DisplayId) (tag : String) (script : List Op) (limit : Nat)
  | present (layers : List Layer) (upload : Bool)
  | ask (question : Question)
  | vblank (output : Nat) (time : Int) (force : Bool)
  | plug (output : Nat) (connected : Bool)
  | requestRefresh (output : Nat)
  | change (output : Nat) (change : OutputChange) (onPresent : Option (List Op))
  | feed (output : Nat) (readings : List Vblank.Reading)
  | drop

end VideoWall
