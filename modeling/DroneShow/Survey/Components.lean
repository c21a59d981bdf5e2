-- Which parts of a survey are wanted.

namespace DroneShow

structure Components where
  duration : Bool
  box : Bool
  takeoff : Bool
  landing : Bool
  distance : Bool
deriving DecidableEq

namespace Components

def none : Components := ⟨false, false, false, false, false⟩

def all : Components := ⟨true, true, true, true, true⟩

/-- The components whose bits are set; bits from 32 on have no meaning. -/
def ofBits (n : Nat) : Components :=
  ⟨n.testBit 0, n.testBit 1, n.testBit 2, n.testBit 3, n.testBit 4⟩

/-- A number with one bit for each component. -/
def bits (c : Components) : Nat :=
  c.duration.toNat + 2 * c.box.toNat + 4 * c.takeoff.toNat + 8 * c.landing.toNat
    + 16 * c.distance.toNat

def union (c d : Components) : Components :=
  ⟨c.duration || d.duration, c.box || d.box, c.takeoff || d.takeoff, c.landing || d.landing,
    c.distance || d.distance⟩

/-- Whether every component of `d` is one of `c`. -/
def contains (c d : Components) : Bool :=
  (c.duration || !d.duration) && (c.box || !d.box) && (c.takeoff || !d.takeoff)
    && (c.landing || !d.landing) && (c.distance || !d.distance)

end Components

end DroneShow
