import VideoWall.Display
import VideoWall.Layer.Coordinate

/-! Layers: rectangles of the canvas with an identity and an optional content handle. -/

namespace VideoWall

/-- A rectangle on the canvas, in the corner order left, top, right, bottom; it need not be
    normalised. -/
structure Frame where
  left : Coordinate
  top : Coordinate
  right : Coordinate
  bottom : Coordinate
  deriving DecidableEq, Repr

def Frame.describe (f : Frame) : String :=
  s!"Rect \x7b x0: {f.left.describe}, y0: {f.top.describe}, " ++
  s!"x1: {f.right.describe}, y1: {f.bottom.describe} \x7d"

/-- A layer of the canvas; its content is passed on untouched. -/
structure Layer where
  id : LayerId
  frame : Frame
  content : Option String
  deriving DecidableEq, Repr

def Layer.describe (l : Layer) : String :=
  s!"Layer \x7b id: {l.id.describe}, display_frame: {l.frame.describe}, " ++
  s!"content: {l.content.isSome} \x7d"

/-- What a tile tells its output about a layer: where the tile is, and how many tiles are left. -/
structure Constraints where
  deviceLeft : Nat
  deviceRight : Nat
  sourceLeft : Int
  sourceRight : Int
  remaining : Nat
  deriving DecidableEq, Repr

/-- A layer as handed to one output. -/
structure TileLayer where
  layer : Layer
  constraints : Constraints
  deriving DecidableEq, Repr

end VideoWall
