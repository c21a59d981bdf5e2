-- The record under a cut. It is overwritten where it stands, value by value,
-- and becomes a record of the same formats with the control points of the
-- first part of its curve.
import DroneShow.Proofs.Curve.Subdivision
import DroneShow.Proofs.Outcome
import DroneShow.Proofs.Record.Series
import DroneShow.Trajectory.Cut

namespace DroneShow

/-! ## Words in place -/

theorem Word.write_toList {bytes : Bytes} {front back : List UInt8} {lo hi : UInt8}
    (h : bytes.toList = front ++ lo :: hi :: back) (n : Nat) :
    (Word.write bytes front.length n).toList = front ++ (Word.toBytes n ++ back) := by
  unfold Word.write
  rw [Array.toList_setIfInBounds, Array.toList_setIfInBounds, h]
  simp [Word.toBytes]

namespace Record

/-- The record with other stored values on one axis. -/
def withRaws (r : Record) (raws : List Int) (axis : Axis) : Record :=
  { r with raws := r.raws.set raws axis }

theorem toBytes_withRaws (r : Record) (raws : List Int) (axis : Axis) :
    (r.withRaws raws axis).toBytes = r.front axis ++ (Word.spell raws ++ r.back axis) := by
  rw [toBytes_eq]
  cases axis <;> simp [withRaws, Axes.set, front, back]

end Record

namespace Axes

variable {α : Type}

theorem get_set (v : Axes α) (a : α) (axis axis' : Axis) :
    (v.set a axis).get axis' = if axis' = axis then a else v.get axis' := by
  cases axis <;> cases axis' <;> rfl

end Axes

namespace Trajectory

open Record (pointsOffset)

variable {tr tr' : Trajectory} {s : Segment} {u ms : Single} {r : Record}
  {front back : List UInt8} {raws : List Int}

/-- The trajectory with other bytes, which it owns. -/
def holding (tr : Trajectory) (l : List UInt8) : Trajectory := { tr with buffer := .owned l.toArray }

@[simp] theorem bytes_holding (tr : Trajectory) (l : List UInt8) :
    (tr.holding l).bytes.toList = l := rfl

@[simp] theorem holding_holding (tr : Trajectory) (l l' : List UInt8) :
    (tr.holding l).holding l' = tr.holding l' := rfl

theorem holding_bytes (h : tr.isOwned = true) : tr.holding tr.bytes.toList = tr := by
  obtain ⟨buffer, scale, yawEnabled, start, headerLength⟩ := tr
  cases buffer with
  | view bytes => cases h
  | owned bytes => rfl

theorem mapBytes_eq_holding (tr : Trajectory) (f : Bytes → Bytes) :
    tr.mapBytes f = tr.holding (f tr.bytes).toList := rfl

theorem truncate_eq_holding (tr : Trajectory) (n : Nat) :
    tr.truncate n = tr.holding (tr.bytes.toList.take n) := by
  rw [truncate, mapBytes_eq_holding]
  show tr.holding (Array.take _ _).toList = _
  rw [Array.take_eq_extract, Array.toList_extract, List.extract_eq_take_drop, List.drop_zero,
    Nat.sub_zero]

theorem writeWord_holding {lo hi : UInt8} (tr : Trajectory) (n : Nat) :
    (tr.holding (front ++ lo :: hi :: back)).writeWord front.length n =
      tr.holding (front ++ (Word.toBytes n ++ back)) := by
  rw [writeWord, mapBytes_eq_holding, Word.write_toList (bytes_holding _ _), holding_holding]

/-! ## One axis -/

/-- Values are overwritten by as many others, if all of those can be stored. -/
theorem writePoints_eq_ok_iff {axis : Axis} {points : List Single}
    (hlen : points.length = raws.length) :
    writePoints axis front.length points (tr.holding (front ++ (Word.spell raws ++ back))) =
        .ok () tr' ↔
      ∃ raws', points.mapM (Quantum.encode tr.scale axis) = .ok raws' ∧
        tr' = tr.holding (front ++ (Word.spell raws' ++ back)) := by
  induction points generalizing front raws with
  | nil =>
    obtain rfl := List.length_eq_zero_iff.mp hlen.symm
    constructor
    · intro h
      cases h
      exact ⟨[], rfl, rfl⟩
    · rintro ⟨raws', hraws, rfl⟩
      cases hraws
      rfl
  | cons p points ih =>
    match raws, hlen with
    | old :: raws, hlen =>
      rw [List.length_cons, List.length_cons, Nat.add_right_cancel_iff] at hlen
      unfold writePoints
      rw [show (tr.holding _).scale = tr.scale from rfl, List.mapM_cons]
      cases hraw : Quantum.encode tr.scale axis p with
      | error e => simp [bind, Except.bind]
      | ok raw =>
        have hword : (tr.holding (front ++ (Word.spell (old :: raws) ++ back))).writeWord
            front.length (Word.ofSigned raw) = tr.holding
              ((front ++ Word.toBytes (Word.ofSigned raw)) ++ (Word.spell raws ++ back)) := by
          rw [List.append_assoc]
          exact writeWord_holding tr _
        have hnext : front.length + 2 = (front ++ Word.toBytes (Word.ofSigned raw)).length := by simp
        simp only [hword, hnext]
        rw [ih hlen]
        constructor
        · rintro ⟨raws', hraws, rfl⟩
          refine ⟨raw :: raws', ?_, by simp⟩
          rw [hraws]
          rfl
        · rintro ⟨raws', hraws, rfl⟩
          obtain ⟨raw', hraw', hraws⟩ := bind_eq_ok_iff.mp hraws
          cases hraw'
          obtain ⟨more, hmore, hraws⟩ := bind_eq_ok_iff.mp hraws
          cases hraws
          exact ⟨more, hmore, by simp⟩

/-- The control points that an axis of a segment has up to the part `u`. The
first one is not stored. -/
def restricted (s : Segment) (u : Single) (axis : Axis) : List Single :=
  (Bezier.restrict (s.points.get axis) u).tail

/-- The stored values of the control points up to the part `u`. -/
def restrictedRaws (scale : Nat) (s : Segment) (u : Single) : Except Fault (Axes (List Int)) :=
  Axes.ofFnM fun axis => (restricted s u axis).mapM (Quantum.encode scale axis)

/-- The segment has control points as the record with its formats stores them. -/
structure Fits (s : Segment) (r : Record) : Prop where
  formats : s.formats = r.formats
  points : ∀ axis, (s.points.get axis).length = (r.formats.get axis).storedPoints + 1
  raws : ∀ axis, (r.raws.get axis).length = (r.formats.get axis).storedPoints

theorem fits_ofRecord {offset startMs scale : Nat} {start : Pose} (hr : r.WellFormed) :
    Fits (Segment.ofRecord offset startMs start scale r) r := by
  refine ⟨rfl, ?_, hr.count⟩
  intro axis
  simp [Segment.ofRecord, hr.count axis]

theorem Fits.length_restricted (h : Fits s r) (u : Single) (axis : Axis) :
    (restricted s u axis).length = (r.formats.get axis).storedPoints := by
  rw [restricted, List.length_tail, Bezier.length_restrict, h.points, Nat.add_sub_cancel]

theorem restrictAxis_eq_ok_iff {axis : Axis} (h : Fits s r) (hoffset : s.offset = front.length) :
    restrictAxis s u axis (tr.holding (front ++ (r.toBytes ++ back))) = .ok () tr' ↔
      ∃ raws', (restricted s u axis).mapM (Quantum.encode tr.scale axis) = .ok raws' ∧
        tr' = tr.holding (front ++ ((r.withRaws raws' axis).toBytes ++ back)) := by
  have hlen := h.length_restricted u axis
  have hfront : ∀ r : Record, front ++ (r.front axis ++ (Word.spell (r.raws.get axis) ++
      r.back axis) ++ back) = (front ++ r.front axis) ++
        (Word.spell (r.raws.get axis) ++ (r.back axis ++ back)) := by simp
  have hwithRaws : ∀ raws', front ++ ((r.withRaws raws' axis).toBytes ++ back) =
      (front ++ r.front axis) ++ (Word.spell raws' ++ (r.back axis ++ back)) := by
    intro raws'
    rw [r.toBytes_withRaws]
    simp
  have hwrite : writePoints axis (pointsOffset s.formats s.offset axis) (restricted s u axis)
      (tr.holding (front ++ (r.toBytes ++ back))) = .ok () tr' ↔
      ∃ raws', (restricted s u axis).mapM (Quantum.encode tr.scale axis) = .ok raws' ∧
        tr' = tr.holding (front ++ ((r.withRaws raws' axis).toBytes ++ back)) := by
    have hplace : pointsOffset s.formats s.offset axis = (front ++ r.front axis).length := by
      rw [h.formats, hoffset, List.length_append]
      exact (Record.length_front h.raws axis).symm
    simp only [hplace, hwithRaws]
    rw [r.toBytes_split axis, hfront]
    exact writePoints_eq_ok_iff (hlen.trans (h.raws axis).symm)
  unfold restrictAxis
  split
  · rename_i hconstant
    rw [h.formats] at hconstant
    rw [hconstant] at hlen
    rw [List.length_eq_zero_iff.mp hlen] at hwrite ⊢
    exact hwrite
  · exact hwrite

/-! ## All axes -/

theorem Fits.withRaws {axis : Axis} {raws' : List Int} (h : Fits s r)
    (hlen : raws'.length = (r.formats.get axis).storedPoints) : Fits s (r.withRaws raws' axis) := by
  refine ⟨h.formats, h.points, ?_⟩
  intro axis'
  show ((r.raws.set raws' axis).get axis').length = (r.formats.get axis').storedPoints
  rw [Axes.get_set]
  split
  · rename_i heq
    rw [heq, hlen]
  · exact h.raws axis'

theorem forM_restrictAxis {axes : List Axis} (h : Fits s r) (hoffset : s.offset = front.length) :
    axes.forM (restrictAxis s u) (tr.holding (front ++ (r.toBytes ++ back))) = .ok () tr' ↔
      ∃ raws', (∀ axis ∈ axes,
          (restricted s u axis).mapM (Quantum.encode tr.scale axis) = .ok (raws'.get axis)) ∧
        (∀ axis ∉ axes, raws'.get axis = r.raws.get axis) ∧
        tr' = tr.holding (front ++ (({ r with raws := raws' } : Record).toBytes ++ back)) := by
  induction axes generalizing r with
  | nil =>
    constructor
    · intro hrun
      cases hrun
      exact ⟨r.raws, by simp, by simp, rfl⟩
    · rintro ⟨raws', -, hsame, rfl⟩
      have heq : raws' = r.raws := Axes.ext_get fun axis => hsame axis (by simp)
      rw [heq]
      rfl
  | cons axis axes ih =>
    refine bind_run_eq_ok_iff.trans ?_
    constructor
    · rintro ⟨_, tr₁, hfirst, hrest⟩
      obtain ⟨raws₁, hraws₁, rfl⟩ := (restrictAxis_eq_ok_iff h hoffset).mp hfirst
      have hlen : raws₁.length = (r.formats.get axis).storedPoints :=
        (mapM_length hraws₁).trans (h.length_restricted u axis)
      obtain ⟨raws', hmem, hsame, rfl⟩ := (ih (h.withRaws hlen)).mp hrest
      refine ⟨raws', ?_, ?_, rfl⟩
      · intro axis' hm
        by_cases hin : axis' ∈ axes
        · exact hmem axis' hin
        · obtain rfl : axis' = axis := (List.mem_cons.mp hm).resolve_right hin
          rw [hsame axis' hin]
          show _ = Except.ok ((r.raws.set raws₁ axis').get axis')
          rw [Axes.get_set, if_pos rfl, hraws₁]
      · intro axis' hout
        rw [List.mem_cons, not_or] at hout
        rw [hsame axis' hout.2]
        show (r.raws.set raws₁ axis).get axis' = _
        rw [Axes.get_set, if_neg hout.1]
    · rintro ⟨raws', hmem, hsame, rfl⟩
      have hfirst := hmem axis List.mem_cons_self
      have hlen : (raws'.get axis).length = (r.formats.get axis).storedPoints :=
        (mapM_length hfirst).trans (h.length_restricted u axis)
      refine ⟨(), _, (restrictAxis_eq_ok_iff h hoffset).mpr ⟨_, hfirst, rfl⟩,
        (ih (h.withRaws hlen)).mpr ⟨raws', fun axis' hm => hmem axis' (List.mem_cons_of_mem _ hm),
          ?_, rfl⟩⟩
      intro axis' hout
      show _ = (r.raws.set (raws'.get axis) axis).get axis'
      rw [Axes.get_set]
      split
      · rename_i heq
        rw [heq]
      · rename_i hne
        exact hsame axis' (by simp [hne, hout])

theorem shortened_holding {r : Record} (durationMs : Nat)
    (h : ∀ axis, (r.raws.get axis).length = (r.formats.get axis).storedPoints) :
    ((tr.holding (front ++ (r.toBytes ++ back))).writeWord (front.length + 1) durationMs).truncate
        (front.length + Record.length r.formats) =
      tr.holding (front ++ Record.toBytes { r with durationMs := durationMs }) := by
  have hlen : (Record.toBytes { r with durationMs := durationMs }).length =
      Record.length r.formats := Record.length_toBytes h
  obtain ⟨points, hold, hnew⟩ : ∃ points,
      r.toBytes = AxisFormat.toByte r.formats :: (Word.toBytes r.durationMs ++ points) ∧
      Record.toBytes { r with durationMs := durationMs } =
        AxisFormat.toByte r.formats :: (Word.toBytes durationMs ++ points) :=
    ⟨_, r.toBytes_eq, Record.toBytes_eq _⟩
  have hsplit : front ++ (r.toBytes ++ back) = (front ++ [AxisFormat.toByte r.formats]) ++
      UInt8.ofNat r.durationMs :: UInt8.ofNat (r.durationMs / 256) :: (points ++ back) := by
    rw [hold]
    simp [Word.toBytes]
  have hplace : front.length + 1 = (front ++ [AxisFormat.toByte r.formats]).length := by simp
  have hword : (tr.holding (front ++ (r.toBytes ++ back))).writeWord (front.length + 1) durationMs =
      tr.holding ((front ++ Record.toBytes { r with durationMs := durationMs }) ++ back) := by
    rw [hsplit, hplace, writeWord_holding, hnew]
    simp
  have hwhole : front.length + Record.length r.formats =
      (front ++ Record.toBytes { r with durationMs := durationMs }).length := by
    rw [List.length_append, hlen]
  rw [hword, truncate_eq_holding, bytes_holding, holding_holding, hwhole, List.take_left]

/-- A record that is shortened becomes the one with the new duration and the
restricted control points, and nothing follows it. -/
theorem shorten_eq_ok_iff (tr tr' : Trajectory) (ms : Single) (front back : List UInt8)
    (h : Fits s r) (hoffset : s.offset = front.length)
    (hlength : s.length = Record.length r.formats) :
    shorten s ms (tr.holding (front ++ (r.toBytes ++ back))) = .ok () tr' ↔
      ∃ raws', restrictedRaws tr.scale s (Binary.ofNat (msInto s ms) / Binary.ofNat s.durationMs) =
          .ok raws' ∧
        tr' = tr.holding (front ++ Record.toBytes ⟨r.formats, msInto s ms, raws'⟩) := by
  have hshortened : ∀ raws' u, restrictedRaws tr.scale s u = .ok raws' →
      ((tr.holding (front ++ (Record.toBytes { r with raws := raws' } ++ back))).writeWord
        (s.offset + 1) (msInto s ms)).truncate (s.offset + s.length) =
      tr.holding (front ++ Record.toBytes ⟨r.formats, msInto s ms, raws'⟩) := by
    intro raws' u hraws
    rw [hoffset, hlength]
    refine shortened_holding (r := { r with raws := raws' }) _ ?_
    intro axis
    exact (mapM_length (Axes.ofFnM_eq_ok_iff.mp hraws axis)).trans (h.length_restricted u axis)
  refine bind_run_eq_ok_iff.trans ?_
  constructor
  · rintro ⟨_, tr₁, hrun, hrest⟩
    obtain ⟨raws', hmem, -, rfl⟩ := (forM_restrictAxis h hoffset).mp hrun
    cases hrest
    have hraws := Axes.ofFnM_eq_ok_iff.mpr fun axis => hmem axis (by cases axis <;> decide)
    exact ⟨raws', hraws, hshortened raws' _ hraws⟩
  · rintro ⟨raws', hraws, rfl⟩
    refine ⟨(), _, (forM_restrictAxis h hoffset).mpr
      ⟨raws', fun axis _ => Axes.ofFnM_eq_ok_iff.mp hraws axis, ?_, rfl⟩, ?_⟩
    · intro axis hout
      cases axis <;> exact absurd (by decide) hout
    · rw [← hshortened raws' _ hraws]
      rfl

end Trajectory

end DroneShow
