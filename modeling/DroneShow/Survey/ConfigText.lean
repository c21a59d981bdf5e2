-- Reading survey parameters from JSON text: an object with any of the known
-- members, or an array with the values in their order.
import DroneShow.Survey.Config
import DroneShow.Json.Reader

namespace DroneShow.SurveyConfig

/-- The members of a config in the order of its array form. -/
inductive Field where
  | takeoffSpeed | acceleration | minAscent | preferredDescent | maxDeviationXY
deriving DecidableEq, Repr

namespace Field

def all : List Field :=
  [.takeoffSpeed, .acceleration, .minAscent, .preferredDescent, .maxDeviationXY]

def name : Field → String
  | .takeoffSpeed => "takeoff_speed"
  | .acceleration => "acceleration"
  | .minAscent => "min_ascent"
  | .preferredDescent => "preferred_descent"
  | .maxDeviationXY => "max_vertical_xy_deviation"

def ofName? (text : String) : Option Field := all.find? fun f => f.name == text

end Field

/-- The number that a value is, if it is one. -/
def single? : Json.Value → Option Single
  | .number n => n.toSingle?
  | _ => none

/-- Sets one member. Only the acceleration may be absent. -/
def setField (c : SurveyConfig) (f : Field) (v : Json.Value) : Option SurveyConfig :=
  match f, v with
  | .acceleration, .null => some { c with acceleration := none }
  | .acceleration, v => (single? v).map fun a => { c with acceleration := some a }
  | .takeoffSpeed, v => (single? v).map fun a => { c with takeoffSpeed := a }
  | .minAscent, v => (single? v).map fun a => { c with minAscent := a }
  | .preferredDescent, v => (single? v).map fun a => { c with preferredDescent := a }
  | .maxDeviationXY, v => (single? v).map fun a => { c with maxDeviationXY := a }

/-- Values in the order of the fields; missing ones at the end keep the
standard, and there may be no more than fields. -/
def ofElements? (c : SurveyConfig) : List Field → List Json.Value → Option SurveyConfig
  | _, [] => some c
  | [], _ :: _ => none
  | f :: fs, v :: vs => do
    let c ← c.setField f v
    ofElements? c fs vs

/-- Members in any order. Unknown names are passed over, and a known one may
appear only once; every name must be text. -/
def ofMembers? (c : SurveyConfig) (seen : List Field) :
    List (List Json.Piece × Json.Value) → Option SurveyConfig
  | [] => some c
  | (key, v) :: rest =>
    match Json.textOf? key with
    | none => none
    | some text =>
      match Field.ofName? text with
      | none => ofMembers? c seen rest
      | some f =>
        if f ∈ seen then none
        else
          match c.setField f v with
          | none => none
          | some c => ofMembers? c (f :: seen) rest

/-- The parameters that a JSON value stands for. -/
def ofJson? : Json.Value → Option SurveyConfig
  | .array vs => ofElements? standard Field.all vs
  | .object ms => ofMembers? standard [] ms
  | _ => none

/-- The parameters in a text. They are not validated yet. -/
def parse (bytes : List UInt8) : Except Fault SurveyConfig :=
  match (Json.read? bytes).bind ofJson? with
  | some c => .ok c
  | none => .error .surveyConfig

end DroneShow.SurveyConfig
