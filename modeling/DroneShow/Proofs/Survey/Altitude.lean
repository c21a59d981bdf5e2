-- Altitudes of a survey. Those that it looks for are numbers, no lower than where
-- they are counted from, and a segment whose altitude is constant or linear is found
-- to reach each altitude between its ends.
import DroneShow.Proofs.Curve.Line
import DroneShow.Proofs.Survey.Parts
import DroneShow.Proofs.Trajectory.Links

namespace DroneShow

open Binary

variable {seg : Segment} {altitude x d : Single} {a r : ℚ} {k : ℤ} {ks : List ℤ}
  {path : Path Single}

theorem SurveyConfig.exists_above (hx : x.Represents r) (hr : |r| ≤ 32768 * 127)
    (hd : isDistance d = true) : ∃ a, (x + d).Represents a ∧ r ≤ a := by
  obtain ⟨hfinite, hpos⟩ : d.isFinite = true ∧ 0 ≤ d := by simpa [isDistance] using hd
  obtain ⟨e, he⟩ := exists_represents hfinite
  have he0 : 0 ≤ e := (le_iff_of_represents Quantum.zero_represents he).mp hpos
  have hlt : |r| < 2 ^ (binary32.minExponent + binary32.binades - 2) := by
    norm_num [binary32]
    linarith
  obtain ⟨a, ha⟩ := exists_represents (add_isFinite (by decide) hx he hlt)
  have hmono := hx.rounds.mono (add_rounds hx he) (by linarith)
  exact ⟨a, ha, (le_iff_of_represents hx ha).mp hmono⟩

namespace Segment

/-- The altitude stays, or changes at a constant rate. -/
def Straight (seg : Segment) : Prop := seg.formats.z = .constant ∨ seg.formats.z = .linear

theorem Straight.length_le (hs : seg.Straight) (h : seg.Through .z k ks) : ks.length ≤ 1 := by
  rw [h.count]
  show seg.formats.z.storedPoints ≤ 1
  rcases hs with hs | hs
  · rw [hs]
    decide
  · rw [hs]
    decide

theorem Through.reaches (h : seg.Through .z k ks) (hlen : ks.length ≤ 1)
    (hpath : seg.position = .ok path) (ha : altitude.Represents a)
    (hlow : ((min k (ks.getLastD k) : ℤ) : ℚ) ≤ a) (hhigh : a ≤ ((max k (ks.getLastD k) : ℤ) : ℚ)) :
    ∃ u, path.z.firstReach altitude = .ok (some u) ∧ 0 ≤ u ∧ u ≤ 1 := by
  unfold position Path.ofPoints at hpath
  have hcurve : Path.axisCurve (seg.points.get .z) = .ok path.z := Axes.ofFnM_eq_ok_iff.mp hpath .z
  exact Poly.axisCurve_reaches h.points hlen h.bounded hcurve ha hlow hhigh

end Segment

theorem Survey.altitudeTime_eq_ok_iff {reached : Option Single} :
    altitudeTime altitude seg = .ok reached ↔
      ∃ path u, seg.position = .ok path ∧ path.z.firstReach altitude = .ok u ∧
        u.map (fun u => seg.startSec + u * seg.durationSec) = reached := by
  simp only [altitudeTime, bind_eq_ok_iff, pure, Except.pure, Except.ok.injEq]
  constructor
  · rintro ⟨path, hpath, u, hu, h⟩
    exact ⟨path, u, hpath, hu, h⟩
  · rintro ⟨path, u, hpath, hu, h⟩
    exact ⟨path, hpath, u, hu, h⟩

end DroneShow
