/-! Fences, and who holds them.

    A fence is alive as long as some holder has it: as a fence, or as a bare descriptor taken out of
    one or duplicated from it. A bench keeps numbered fences, each with a place for the fence and
    one for a descriptor; putting something into a place drops what was there. -/

namespace VideoWall

/-- A fence, by its number among those of its maker. -/
structure Fence where
  number : Nat
  deriving DecidableEq, Repr

/-- The places of a bench: fences, and descriptors beside them. -/
structure FenceBench where
  fences : List (Option Fence) := []
  descriptors : List (Option Fence) := []
  deriving DecidableEq, Repr

namespace FenceBench

/-- A new fence in a new place. -/
def create (b : FenceBench) : FenceBench :=
  ⟨b.fences ++ [some ⟨b.fences.length⟩], b.descriptors ++ [none]⟩

/-- What lies in a place. -/
def held (places : List (Option Fence)) (i : Nat) : Option Fence := places[i]?.join

/-- Takes the descriptor out of fence `i`. -/
def intoDescriptor (b : FenceBench) (i : Nat) : FenceBench :=
  ⟨b.fences.set i none, b.descriptors.set i (held b.fences i)⟩

/-- Makes descriptor `i` a fence again. -/
def ofDescriptor (b : FenceBench) (i : Nat) : FenceBench :=
  ⟨b.fences.set i (held b.descriptors i), b.descriptors.set i none⟩

/-- Puts a second descriptor of fence `i` beside it. -/
def duplicate (b : FenceBench) (i : Nat) : FenceBench :=
  { b with descriptors := b.descriptors.set i (held b.fences i) }

/-- Lets go of the fence in place `i`. -/
def drop (b : FenceBench) (i : Nat) : FenceBench := { b with fences := b.fences.set i none }

/-- Lets go of the descriptor in place `i`. -/
def close (b : FenceBench) (i : Nat) : FenceBench :=
  { b with descriptors := b.descriptors.set i none }

/-- Moves fence `j` into place `i`. -/
def replace (b : FenceBench) (i j : Nat) : FenceBench :=
  { b with fences := (b.fences.set j none).set i (held b.fences j) }

/-- Whether some place still holds fence `i`. -/
def isLive (b : FenceBench) (i : Nat) : Bool :=
  b.fences.contains (some ⟨i⟩) || b.descriptors.contains (some ⟨i⟩)

/-- For every fence made, whether it is alive. -/
def live (b : FenceBench) : List Bool := (List.range b.fences.length).map b.isLive

/-- For every place, whether it holds a fence. -/
def full (b : FenceBench) : List Bool := b.fences.map (·.isSome)

end FenceBench

end VideoWall
