/-! How a wall presents its frames. -/

namespace VideoWall

/-- Which tiles get a frame: all of them, or the leftmost alone. -/
inductive Dispatch where | allTiles | firstTileOnly
  deriving DecidableEq, Repr

/-- Whether a tile is waited for before the next one starts, or all of them at the end. -/
inductive Pipeline where | sequential | barrier
  deriving DecidableEq, Repr

def Dispatch.describe : Dispatch → String
  | .allTiles => "AllTiles"
  | .firstTileOnly => "FirstTileOnly"

def Pipeline.describe : Pipeline → String
  | .sequential => "Sequential"
  | .barrier => "Barrier"

/-- The presentation policy; by default all tiles, one after another. -/
structure Policy where
  dispatch : Dispatch := .allTiles
  pipeline : Pipeline := .sequential
  deriving DecidableEq, Repr

namespace Policy

/-- Only the leftmost tile gets a frame. -/
def singleTile : Policy := ⟨.firstTileOnly, .sequential⟩

/-- All tiles work on a frame at the same time. -/
def concurrent : Policy := ⟨.allTiles, .barrier⟩

/-- How many of the tiles get a frame. -/
def tilesPerFrame (p : Policy) (tiles : Nat) : Nat :=
  match p.dispatch with
  | .allTiles => tiles
  | .firstTileOnly => min tiles 1

def describe (p : Policy) : String :=
  s!"MosaicConfig \x7b tile_dispatch: {p.dispatch.describe}, pipeline: {p.pipeline.describe} \x7d"

end Policy

end VideoWall
