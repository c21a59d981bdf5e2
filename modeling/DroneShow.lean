import DroneShow.Axes
import DroneShow.Binary.Arithmetic
import DroneShow.Binary.Format
import DroneShow.Binary.Roots
import DroneShow.Binary.Rounding
import DroneShow.Command.Folder
import DroneShow.Command.Programs
import DroneShow.Command.Run
import DroneShow.Curve.Crossing
import DroneShow.Curve.Path
import DroneShow.Curve.Poly
import DroneShow.Curve.Roots
import DroneShow.Decimal.Reader
import DroneShow.Decimal.Shortest
import DroneShow.Fault
import DroneShow.Json.Number
import DroneShow.Json.Reader
import DroneShow.Json.Text
import DroneShow.Main
import DroneShow.Proofs.Axes
import DroneShow.Proofs.Binary.ComplexRoot
import DroneShow.Proofs.Binary.Integer
import DroneShow.Proofs.Binary.Magnitude
import DroneShow.Proofs.Binary.Monotone
import DroneShow.Proofs.Binary.Nearest
import DroneShow.Proofs.Binary.Order
import DroneShow.Proofs.Binary.Quotient
import DroneShow.Proofs.Binary.Relative
import DroneShow.Proofs.Binary.Root
import DroneShow.Proofs.Binary.Sum
import DroneShow.Proofs.Binary.Value
import DroneShow.Proofs.Binary.Whole
import DroneShow.Proofs.Checked.Curve
import DroneShow.Proofs.Checked.Cut
import DroneShow.Proofs.Checked.Decoding
import DroneShow.Proofs.Checked.Head
import DroneShow.Proofs.Checked.Player
import DroneShow.Proofs.Checked.Step
import DroneShow.Proofs.Curve.Bernstein
import DroneShow.Proofs.Curve.Crossing
import DroneShow.Proofs.Curve.CubeRoots
import DroneShow.Proofs.Curve.Cubic
import DroneShow.Proofs.Curve.Depressed
import DroneShow.Proofs.Curve.Ends
import DroneShow.Proofs.Curve.Exact
import DroneShow.Proofs.Curve.Extent
import DroneShow.Proofs.Curve.Hull
import DroneShow.Proofs.Curve.InPlace
import DroneShow.Proofs.Curve.Line
import DroneShow.Proofs.Curve.Newton
import DroneShow.Proofs.Curve.Power
import DroneShow.Proofs.Curve.Quadratic
import DroneShow.Proofs.Curve.Radicals
import DroneShow.Proofs.Curve.Reach
import DroneShow.Proofs.Curve.Scale
import DroneShow.Proofs.Curve.Separation
import DroneShow.Proofs.Curve.Slots
import DroneShow.Proofs.Curve.Subdivision
import DroneShow.Proofs.Curve.Value
import DroneShow.Proofs.Draft.Append
import DroneShow.Proofs.Draft.Clock
import DroneShow.Proofs.Draft.Descent
import DroneShow.Proofs.Draft.Faults
import DroneShow.Proofs.Draft.Holding
import DroneShow.Proofs.Draft.Invariant
import DroneShow.Proofs.Draft.Lines
import DroneShow.Proofs.Draft.Reach
import DroneShow.Proofs.Draft.Resumption
import DroneShow.Proofs.Draft.Turning
import DroneShow.Proofs.Draft.WithoutYaw
import DroneShow.Proofs.Outcome
import DroneShow.Proofs.Playback.Curves
import DroneShow.Proofs.Playback.Forward
import DroneShow.Proofs.Playback.History
import DroneShow.Proofs.Playback.Scan
import DroneShow.Proofs.Playback.Time
import DroneShow.Proofs.Record.Encoding
import DroneShow.Proofs.Record.Layout
import DroneShow.Proofs.Record.Quantization
import DroneShow.Proofs.Record.Quantum
import DroneShow.Proofs.Record.Restriction
import DroneShow.Proofs.Record.Series
import DroneShow.Proofs.Record.Word
import DroneShow.Proofs.Survey.Altitude
import DroneShow.Proofs.Survey.Box
import DroneShow.Proofs.Survey.LandingPose
import DroneShow.Proofs.Survey.LandingTime
import DroneShow.Proofs.Survey.Parts
import DroneShow.Proofs.Survey.Takeoff
import DroneShow.Proofs.Survey.TravelTime
import DroneShow.Proofs.Trajectory.Changes
import DroneShow.Proofs.Trajectory.Cut
import DroneShow.Proofs.Trajectory.CutCurve
import DroneShow.Proofs.Trajectory.CutEnd
import DroneShow.Proofs.Trajectory.CutPlace
import DroneShow.Proofs.Trajectory.CutRecord
import DroneShow.Proofs.Trajectory.CutTwice
import DroneShow.Proofs.Trajectory.Faults
import DroneShow.Proofs.Trajectory.Grammar
import DroneShow.Proofs.Trajectory.Header
import DroneShow.Proofs.Trajectory.Joints
import DroneShow.Proofs.Trajectory.Landing
import DroneShow.Proofs.Trajectory.Links
import DroneShow.Proofs.Trajectory.Segment
import DroneShow.Proofs.Trajectory.Touchdown
import DroneShow.Proofs.Trajectory.Walk
import DroneShow.Record.AxisFormat
import DroneShow.Record.Layout
import DroneShow.Record.Quantum
import DroneShow.Record.Word
import DroneShow.Region.Box
import DroneShow.Region.Interval
import DroneShow.Scalar
import DroneShow.Survey.Components
import DroneShow.Survey.Config
import DroneShow.Survey.ConfigText
import DroneShow.Survey.Report
import DroneShow.Survey.Summary
import DroneShow.Trajectory.Basic
import DroneShow.Trajectory.Cursor
import DroneShow.Trajectory.Cut
import DroneShow.Trajectory.Draft
import DroneShow.Trajectory.Header
import DroneShow.Trajectory.Landing
import DroneShow.Trajectory.Playback
import DroneShow.Trajectory.Segment
import DroneShow.Trajectory.Walk
