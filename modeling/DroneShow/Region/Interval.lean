-- Closed intervals of numbers. An interval is empty when its lower bound
-- lies above its upper one.
import DroneShow.Scalar

namespace DroneShow

structure Interval (α : Type) where
  min : α
  max : α
deriving DecidableEq

namespace Interval

variable {α : Type} [Scalar α]

/-- The interval between two values in either order. -/
def between (a b : α) : Interval α := ⟨Min.min a b, Max.max a b⟩

def isEmpty (i : Interval α) : Bool := i.max < i.min

/-- The least interval that also holds `value`. -/
def including (i : Interval α) (value : α) : Interval α :=
  ⟨Min.min i.min value, Max.max i.max value⟩

/-- The least interval that also holds `j`; an empty one adds nothing. -/
def union (i j : Interval α) : Interval α :=
  if j.isEmpty then i else (i.including j.min).including j.max

def contains (i : Interval α) (value : α) : Bool := i.min ≤ value && value ≤ i.max

def size (i : Interval α) : α := if i.isEmpty then 0 else i.max - i.min

/-- The empty interval that every value narrows: from plus to minus infinity. -/
def empty : Interval Single := ⟨.infinity false, .infinity true⟩

/-- Moves both bounds outwards by `margin`; an empty interval stays as it is. -/
def widened (i : Interval α) (margin : α) : Interval α :=
  if i.isEmpty then i else ⟨i.min - margin, i.max + margin⟩

end Interval

end DroneShow
