import VideoWall.Limits
import VideoWall.Layer.Basic

/-! The slice of the canvas that one output shows.

    Windows stand side by side from the left end of the canvas, each as wide as its output. A layer
    belongs to a window unless it ends at or left of the window's left edge or begins strictly right
    of its right edge, so a layer that only touches the left edge is left out and one that only
    touches the right edge is kept. -/

namespace VideoWall

/-- One output's slice: its place among the tiles, its span on the canvas, and its span in the
    output's own logical space. -/
structure Window where
  ordinal : Nat
  total : Nat
  sourceLeft : Int
  sourceRight : Int
  deviceLeft : Nat
  deviceRight : Nat
  deriving DecidableEq, Repr

namespace Window

/-- The window of an output `width` pixels wide that begins at `left`; every edge saturates. -/
def place (left : Int) (width logicalIndex ordinal total : Nat) : Window :=
  let deviceLeft := Limits.count (logicalIndex * width)
  { ordinal, total
    sourceLeft := left
    sourceRight := Limits.measure (left + width)
    deviceLeft
    deviceRight := Limits.count (deviceLeft + width) }

/-- Whether a frame belongs to the window; a side that is not a number keeps it in. -/
def accepts (w : Window) (f : Frame) : Bool :=
  !(f.right.atMost w.sourceLeft || f.left.above w.sourceRight)

/-- What the window stamps onto its layers; tiles are counted down to the last. -/
def constraints (w : Window) : Constraints where
  deviceLeft := w.deviceLeft
  deviceRight := w.deviceRight
  sourceLeft := w.sourceLeft
  sourceRight := w.sourceRight
  remaining := w.total - w.ordinal

/-- The layers of the window, in their order, stamped. -/
def assign (w : Window) (layers : List Layer) : List TileLayer :=
  (layers.filter fun l => w.accepts l.frame).map fun l => ⟨l, w.constraints⟩

end Window

/-- A tile to lay out: the width of its output and the output's logical index. -/
structure Footprint where
  width : Nat
  logicalIndex : Nat
  deriving DecidableEq, Repr

namespace Window

/-- Windows side by side from `left` on, numbered from `ordinal`. -/
def layoutFrom (total : Nat) : Int → Nat → List Footprint → List Window
  | _, _, [] => []
  | left, ordinal, t :: rest =>
    let w := place left t.width t.logicalIndex ordinal total
    w :: layoutFrom total w.sourceRight (ordinal + 1) rest

/-- The windows of some tiles, from the left end of the canvas. -/
def layout (tiles : List Footprint) : List Window :=
  layoutFrom (Limits.count tiles.length) 0 0 tiles

theorem length_layoutFrom (total : Nat) (left : Int) (ordinal : Nat) (tiles : List Footprint) :
    (layoutFrom total left ordinal tiles).length = tiles.length := by
  induction tiles generalizing left ordinal with
  | nil => rfl
  | cons t rest ih => simp [layoutFrom, ih]

/-- Every tile has its window. -/
theorem length_layout (tiles : List Footprint) : (layout tiles).length = tiles.length :=
  length_layoutFrom ..

end Window

end VideoWall
