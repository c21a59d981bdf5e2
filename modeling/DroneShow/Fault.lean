-- The faults that an operation on trajectories can end with: kinds, with the
-- reason in words, and one definition for each cause.

namespace DroneShow

/-- A failure reported by the system when a file is read or written. -/
inductive FileFault where
  /-- An error number of the operating system. -/
  | system (code : Nat) (kind message : String)
  /-- Any other failure, with its own text. -/
  | other (text : String)
deriving DecidableEq, Repr

namespace FileFault

def notFound : FileFault := .system 2 "NotFound" "No such file or directory"

def notADirectory : FileFault := .system 20 "NotADirectory" "Not a directory"

def isADirectory : FileFault := .system 21 "IsADirectory" "Is a directory"

def nameTooLong : FileFault := .system 36 "InvalidFilename" "File name too long"

/-- The failure with an error number, if it is one of those above. -/
def ofCode? (code : Nat) : Option FileFault :=
  [notFound, notADirectory, isADirectory, nameTooLong].find? fun
    | .system c _ _ => c == code
    | .other _ => false

def message : FileFault → String
  | .system code _ message => s!"{message} (os error {code})"
  | .other text => text

end FileFault

/-- A call that breaks the contract of an operation, which then stops at once. -/
inductive Misuse where
  | axisOutOfRange (index : Nat)
  | cutOfBorrowed
deriving DecidableEq, Repr

def Misuse.message : Misuse → String
  | .axisOutOfRange index => s!"axis index out of range: {index}"
  | .cutOfBorrowed => "cannot cut a borrowed trajectory, call make_owned() first"

inductive Fault where
  | outOfMemory
  | invalidArgument (reason : String)
  | parse (reason : String)
  | overflow (reason : String)
  /-- There is no trajectory to work on. -/
  | notFound
  | unsupported (reason : String)
  | file (fault : FileFault)
  | misuse (call : Misuse)
deriving DecidableEq, Repr

namespace Fault

/-- The text shown to a person. -/
def message : Fault → String
  | .outOfMemory => "out of memory"
  | .invalidArgument reason => s!"invalid argument: {reason}"
  | .parse reason => s!"parse error: {reason}"
  | .overflow reason => s!"overflow: {reason}"
  | .notFound => "not found"
  | .unsupported reason => s!"unsupported: {reason}"
  | .file fault => s!"I/O error: {fault.message}"
  | .misuse call => call.message

/-! ## The causes -/

def pointCount : Fault := .invalidArgument "a Bezier curve needs between 1 and 8 control points"
def highDegree : Fault := .unsupported "root solving is only implemented up to degree 3"

def truncatedHeader : Fault := .parse "trajectory header is truncated"
def zeroScale : Fault := .parse "trajectory scale is zero"
def truncatedData : Fault := .parse "unexpected end of trajectory data"
def endOfTime : Fault := .overflow "segment ends after the end of time"

def infiniteCoordinate : Fault := .invalidArgument "coordinates must be finite"
def infiniteYaw : Fault := .invalidArgument "yaw must be finite"
def coordinateRange : Fault := .overflow "coordinate does not fit the trajectory scale"

def nanTime : Fault := .invalidArgument "time must not be NaN"
def nanCutTime : Fault := .invalidArgument "cut time must not be NaN"

def scaleRange : Fault := .invalidArgument "scale must be between 1 and 127"
def lateStart : Fault :=
  .invalidArgument "start position cannot change once segments were appended"
def segmentPoints : Fault := .invalidArgument "a segment needs 1, 3 or 7 control points"
def longSegment : Fault := .overflow "segment duration exceeds the 60 s limit"

def noLandingTime : Fault := .invalidArgument "statistics do not include the landing time"
def landingVelocity : Fault := .invalidArgument "landing velocity must be positive and finite"
def longLanding : Fault := .overflow "landing takes too long"

def takeoffSpeed : Fault := .invalidArgument "takeoff speed must be positive and finite"
def acceleration : Fault := .invalidArgument "acceleration must be positive"
def distances : Fault := .invalidArgument "distances must be finite and non-negative"
def surveyConfig : Fault := .parse "invalid stats config"

end Fault

end DroneShow
