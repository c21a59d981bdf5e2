-- The three commands: survey a trajectory file, cut one, and play one. Each
-- takes its arguments in order, and further ones are passed over.
import DroneShow.Command.Folder
import DroneShow.Decimal.Reader
import DroneShow.Survey.ConfigText
import DroneShow.Survey.Report
import DroneShow.Trajectory.Landing
import DroneShow.Trajectory.Playback

namespace DroneShow.Command

variable {m : Type → Type} [Monad m]

/-- A command ends with text to print, or with a fault. -/
abbrev Task (m : Type → Type) := ExceptT Fault m

/-- Ends the command with the fault of a pure step. -/
def ofExcept {α : Type} (r : Except Fault α) : Task m α := ExceptT.mk (pure r)

def readFile (files : Files m) (name : String) : Task m Bytes := do
  match ← files.read name with
  | .ok bytes => pure bytes
  | .error e => throw (.file e)

def writeFile (files : Files m) (name : String) (bytes : Bytes) : Task m Unit := do
  match ← files.write name bytes with
  | .ok _ => pure ()
  | .error e => throw (.file e)

def readTrajectory (files : Files m) (name : String) : Task m Trajectory := do
  let bytes ← readFile files name
  ofExcept (Trajectory.ofBytes bytes)

/-! ## Arguments -/

/-- A finite number with a property, or the fault that its argument causes. -/
def number (holds : Single → Bool) (reason text : String) : Except Fault Single :=
  match Decimal.read? text with
  | some x => if x.isFinite && holds x then .ok x else .error (.invalidArgument reason)
  | none => .error (.invalidArgument reason)

def nonNegative (x : Single) : Bool := 0 ≤ x

def positive (x : Single) : Bool := 0 < x

/-! ## Survey -/

def surveyUsage : Fault :=
  .invalidArgument "usage: traj_stats <trajectory file> [stats config json]"

/-- The parameters in a file; without one, the standard ones. -/
def loadConfig (files : Files m) : Option String → Task m SurveyConfig
  | none => pure .standard
  | some name => do
    let bytes ← readFile files name
    let config ← ofExcept (SurveyConfig.parse bytes.toList)
    ofExcept config.validate
    pure config

/-- Prints the report of a trajectory file. The parameters are read first. -/
def survey (files : Files m) : List String → Task m String
  | [] => throw surveyUsage
  | name :: rest => do
    let config ← loadConfig files rest.head?
    let tr ← readTrajectory files name
    let summary ← ofExcept (Survey.run ⟨.all, config⟩ tr)
    pure (summary.report ++ "\n")

/-! ## Cut -/

def cutUsage : Fault :=
  .invalidArgument "usage: traj_cut <input> <output> <time in s> [landing velocity]"

/-- Cuts at `t` and, with a velocity, replaces the end by a landing. -/
def cutAndLand (tr : Trajectory) (t : Single) (velocity : Option Single) :
    Except Fault Trajectory := do
  let _ ← tr.durationMs
  let cut ← edited (Trajectory.cutAt t) tr
  match velocity with
  | none => pure cut
  | some v =>
    let wanted := { Components.none with landing := true }
    let summary ← (Survey.ofComponents wanted).run cut
    edited (Trajectory.replaceEndByLanding summary v) cut
where
  edited (edit : Trajectory.Edit Unit) (tr : Trajectory) : Except Fault Trajectory :=
    match edit tr with
    | .ok _ tr => .ok tr
    | .error e _ => .error e

/-- Writes a cut trajectory to another file. -/
def cut (files : Files m) : List String → Task m String
  | input :: output :: time :: rest => do
    let t ← ofExcept (number nonNegative "cut time must be a non-negative number" time)
    let velocity ← ofExcept
      (rest.head?.mapM (number nonNegative "landing velocity must be positive"))
    let tr ← readTrajectory files input
    let result ← ofExcept (cutAndLand tr t velocity)
    writeFile files output result.bytes
    pure ""
  | _ => throw cutUsage

/-! ## Play -/

def playUsage : Fault := .invalidArgument "usage: showtraj <trajectory file> [speed factor]"

/-- The pose and the velocity at a time. -/
def setpoint (t : Single) : Playback.Play (Pose × Pose) := do
  let position ← Playback.positionAt t
  let velocity ← Playback.velocityAt t
  pure (position, velocity)

/-- Plays a trajectory to its end: the last setpoint is the one at the time
after which playback stops. -/
def playThrough : Playback.Play (Pose × Pose) := do
  let total ← Playback.durationSec
  setpoint total

/-- Plays a trajectory file at a multiple of its speed. -/
def play (files : Files m) : List String → Task m String
  | [] => throw playUsage
  | name :: rest => do
    let _ ← ofExcept (rest.head?.mapM (number positive "speed factor must be a positive number"))
    let tr ← readTrajectory files name
    let playback ← ofExcept (Playback.ofTrajectory tr)
    match playThrough playback with
    | .ok _ _ => pure ""
    | .error e _ => throw e

end DroneShow.Command
