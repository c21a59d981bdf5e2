-- Replacing the end of a trajectory by a vertical landing.
import DroneShow.Survey.Summary
import DroneShow.Trajectory.Cut
import DroneShow.Trajectory.Draft

namespace DroneShow.Trajectory

/-- The milliseconds that a descent takes. -/
def descentMs (descent velocity : Single) : Except Fault Nat :=
  let ms := (descent / velocity * 1000).round
  if Binary.ofNat timeLimit < ms then .error .longLanding
  else .ok (ms.toIntWithin 0 timeLimit).toNat

/-- Descends from the last pose to the altitude `ground`, if that is lower. -/
def descend (ground velocity : Single) : Draft.Edit Unit := fun b =>
  let descent := b.last.z - ground
  if 0 < descent then
    match descentMs descent velocity with
    | .error e => .error e b
    | .ok ms => Draft.appendLine { b.last with z := ground } ms b
  else .ok () b

/-- Continues a trajectory by a descent to its starting altitude. -/
def landed (tr : Trajectory) (velocity : Single) : Except Fault Trajectory := do
  let b ← Draft.ofTrajectory tr
  let (_, b) ← Draft.run (descend tr.start.z velocity) b
  let (built, _) ← Draft.run Draft.finish b
  pure built

/-- Cuts at the landing time of `summary` and goes straight down from there, at
`velocity`, to the altitude of the start. -/
def replaceEndByLanding (summary : Summary) (velocity : Single) : Edit Unit := fun tr =>
  if tr.isEmpty then .error .notFound tr
  else if !summary.components.landing then .error .noLandingTime tr
  else if !(0 < velocity && velocity.isFinite) then .error .landingVelocity tr
  else
    match cutAt summary.landingSec tr with
    | .error e cut => .error e cut
    | .ok _ cut =>
      match cut.landed velocity with
      | .error e => .error e cut
      | .ok built => .ok () built

end DroneShow.Trajectory
