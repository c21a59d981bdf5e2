-- Records in a row: their bytes, how long they last and where they end. Any
-- bytes are complete records up to the end or up to a record that offends.
import DroneShow.Proofs.Record.Layout
import DroneShow.Proofs.Record.Quantum
import DroneShow.Trajectory.Segment

namespace DroneShow.Record

open Quantum (Stored)

/-! ## The grammar -/

/-- The bytes of records in a row. -/
def spellAll (rs : List Record) : List UInt8 := rs.flatMap toBytes

/-- The bytes are complete records and nothing else. -/
structure Spells (rs : List Record) (l : List UInt8) : Prop where
  wellFormed : ∀ r ∈ rs, r.WellFormed
  bytes : l = spellAll rs

@[simp] theorem spellAll_nil : spellAll [] = [] := rfl

@[simp] theorem spellAll_cons (r : Record) (rs : List Record) :
    spellAll (r :: rs) = r.toBytes ++ spellAll rs := rfl

@[simp] theorem spellAll_append (rs rs' : List Record) :
    spellAll (rs ++ rs') = spellAll rs ++ spellAll rs' := List.flatMap_append

theorem length_spellAll {rs : List Record} (h : ∀ r ∈ rs, r.WellFormed) :
    prefixLength * rs.length ≤ (spellAll rs).length := by
  induction rs with
  | nil => simp
  | cons r rs ih =>
    have hr := (h r List.mem_cons_self).length_toBytes
    have hpos := length_pos r.formats
    have htail := ih fun r' hm => h r' (List.mem_cons_of_mem _ hm)
    rw [spellAll_cons, List.length_append, List.length_cons, Nat.mul_succ]
    omega

/-! ## Time -/

/-- How long records in a row last. -/
def totalMs : List Record → Nat
  | [] => 0
  | r :: rs => r.durationMs + totalMs rs

@[simp] theorem totalMs_nil : totalMs [] = 0 := rfl

@[simp] theorem totalMs_cons (r : Record) (rs : List Record) :
    totalMs (r :: rs) = r.durationMs + totalMs rs := rfl

@[simp] theorem totalMs_append (rs rs' : List Record) :
    totalMs (rs ++ rs') = totalMs rs + totalMs rs' := by
  induction rs with
  | nil => simp
  | cons r rs ih => rw [List.cons_append, totalMs_cons, totalMs_cons, ih, Nat.add_assoc]

/-- Where records last too long in all, one of them is the first to do so. -/
theorem exists_overrun {limit : Nat} {rs : List Record} (h : limit < totalMs rs) :
    ∃ before r after, rs = before ++ r :: after ∧ totalMs before ≤ limit ∧
      limit < totalMs before + r.durationMs := by
  induction rs generalizing limit with
  | nil =>
    rw [totalMs_nil] at h
    omega
  | cons r rs ih =>
    rw [totalMs_cons] at h
    by_cases hr : limit < r.durationMs
    · exact ⟨[], r, rs, rfl, Nat.zero_le _, by rwa [totalMs_nil, Nat.zero_add]⟩
    · obtain ⟨before, r', after, rfl, hbefore, hover⟩ :=
        ih (show limit - r.durationMs < totalMs rs by omega)
      refine ⟨r :: before, r', after, rfl, ?_, ?_⟩
      · rw [totalMs_cons]
        omega
      · rw [totalMs_cons]
        omega

/-! ## The end -/

/-- The last value that records in a row store for an axis, if any does. -/
def lastRaw? (rs : List Record) (axis : Axis) : Option Int :=
  (rs.flatMap fun r => r.raws.get axis).getLast?

/-- Where records in a row end that begin at `start`. An axis that none of
them stores stays where it was. -/
def endPose (scale : Nat) (start : Pose) (rs : List Record) : Pose :=
  Axes.ofFn fun axis => ((lastRaw? rs axis).map (Quantum.decode scale axis)).getD (start.get axis)

@[simp] theorem endPose_nil (scale : Nat) (start : Pose) : endPose scale start [] = start := rfl

theorem lastRaw?_append (rs rs' : List Record) (axis : Axis) :
    lastRaw? (rs ++ rs') axis = (lastRaw? rs' axis).or (lastRaw? rs axis) := by
  unfold lastRaw?
  rw [List.flatMap_append, List.getLast?_append]

theorem endPose_append (scale : Nat) (start : Pose) (rs rs' : List Record) :
    endPose scale start (rs ++ rs') = endPose scale (endPose scale start rs) rs' := by
  apply Axes.ext_get
  intro axis
  simp only [endPose, Axes.get_ofFn, lastRaw?_append]
  cases lastRaw? rs' axis <;> simp

theorem endPose_cons (scale : Nat) (start : Pose) (r : Record) (rs : List Record) :
    endPose scale start (r :: rs) = endPose scale (endPose scale start [r]) rs :=
  endPose_append scale start [r] rs

theorem finish_ofRecord (offset startMs scale : Nat) (start : Pose) (r : Record) :
    (Segment.ofRecord offset startMs start scale r).finish = endPose scale start [r] := by
  apply Axes.ext_get
  intro axis
  simp [Segment.ofRecord, endPose, lastRaw?, List.getLastD_eq_getLast?]

theorem endPose_stored (scale : Nat) {raws : Axes Int} {rs : List Record}
    (hr : ∀ axis, Stored (raws.get axis)) (hrs : ∀ r ∈ rs, r.WellFormed) :
    ∃ raws', (∀ axis, Stored (raws'.get axis)) ∧
      endPose scale (Quantum.decodePose scale raws) rs = Quantum.decodePose scale raws' := by
  refine ⟨Axes.ofFn fun axis => (lastRaw? rs axis).getD (raws.get axis), fun axis => ?_, ?_⟩
  · rw [Axes.get_ofFn]
    rcases hlast : lastRaw? rs axis with _ | raw
    · exact hr axis
    · have hm := List.mem_of_getLast? hlast
      rw [List.mem_flatMap] at hm
      obtain ⟨r, hmem, hraw⟩ := hm
      exact (hrs r hmem).stored axis raw hraw
  · apply Axes.ext_get
    intro axis
    simp only [endPose, Axes.get_ofFn, Quantum.get_decodePose]
    cases lastRaw? rs axis <;> rfl

theorem points_ofRecord (offset startMs scale : Nat) (raws : Axes Int) (r : Record) (axis : Axis) :
    (Segment.ofRecord offset startMs (Quantum.decodePose scale raws) scale r).points.get axis =
      (raws.get axis :: r.raws.get axis).map (Quantum.decode scale axis) := by
  simp [Segment.ofRecord]

/-! ## Bytes that are no record -/

/-- The bytes from a record on that starts at `ms` have a fault in that
record: its end lies behind the end of time, or it is cut off. The clock
comes first: it needs only the bytes before the control points. -/
inductive Offends (ms : Nat) : List UInt8 → Fault → Prop
  | late {byte lo hi : UInt8} {l : List UInt8} :
    timeLimit < ms + (lo.toNat + 256 * hi.toNat) → Offends ms (byte :: lo :: hi :: l) .endOfTime
  | noPrefix {l : List UInt8} :
    l ≠ [] → l.length < prefixLength → Offends ms l .truncatedData
  | noPoints {byte lo hi : UInt8} {l : List UInt8} :
    ms + (lo.toNat + 256 * hi.toNat) ≤ timeLimit →
    l.length < 2 * points (AxisFormat.ofByte byte) →
    Offends ms (byte :: lo :: hi :: l) .truncatedData

theorem WellFormed.offends {r : Record} {ms : Nat} (hr : r.WellFormed)
    (h : timeLimit < ms + r.durationMs) (rest : List UInt8) :
    Offends ms (r.toBytes ++ rest) .endOfTime := by
  rw [toBytes_eq]
  refine .late ?_
  rwa [Word.toNat_toBytes hr.duration_lt]

/-- Bytes begin with a record that ends in time, or offend, unless there are none. -/
theorem record_or_offends (ms : Nat) {l : List UInt8} (h : l ≠ []) :
    (∃ r rest, l = toBytes r ++ rest ∧ r.WellFormed ∧ ms + r.durationMs ≤ timeLimit) ∨
      ∃ e, Offends ms l e := by
  match l, h with
  | [byte], h => exact .inr ⟨_, .noPrefix h (by simp [prefixLength])⟩
  | [byte, lo], h => exact .inr ⟨_, .noPrefix h (by simp [prefixLength])⟩
  | byte :: lo :: hi :: l, _ =>
    rcases Nat.lt_or_ge timeLimit (ms + (lo.toNat + 256 * hi.toNat)) with hlate | hintime
    · exact .inr ⟨_, .late hlate⟩
    · rcases Nat.lt_or_ge l.length (2 * points (AxisFormat.ofByte byte)) with hshort | hroom
      · exact .inr ⟨_, .noPoints hintime hshort⟩
      · obtain ⟨r, rest, hl, hr, hms⟩ := exists_wellFormed lo hi hroom
        exact .inl ⟨r, rest, hl, hr, by omega⟩

/-- Any bytes are complete records that end in time, up to the end or up to
the first record that offends. -/
theorem exists_series (ms : Nat) (hms : ms ≤ timeLimit) (l : List UInt8) :
    ∃ rs rest, l = spellAll rs ++ rest ∧ (∀ r ∈ rs, r.WellFormed) ∧
      ms + totalMs rs ≤ timeLimit ∧ (rest = [] ∨ ∃ e, Offends (ms + totalMs rs) rest e) := by
  induction hn : l.length using Nat.strongRecOn generalizing l ms with
  | ind n ih =>
    by_cases hl : l = []
    · exact ⟨[], [], by simp [hl], by simp, by simpa using hms, .inl rfl⟩
    · rcases record_or_offends ms hl with ⟨r, rest, rfl, hr, hend⟩ | ⟨e, he⟩
      · have hlen := hr.length_toBytes
        have hpos := length_pos r.formats
        obtain ⟨rs, rest', rfl, hrs, htotal, hstop⟩ := ih rest.length (by
          rw [← hn, List.length_append]
          unfold prefixLength at hpos
          omega) (ms + r.durationMs) hend rest rfl
        refine ⟨r :: rs, rest', by simp, ?_, ?_, ?_⟩
        · intro r' hm
          rcases List.mem_cons.mp hm with rfl | hm
          · exact hr
          · exact hrs r' hm
        · rw [totalMs_cons]
          omega
        · rwa [totalMs_cons, ← Nat.add_assoc]
      · exact ⟨[], l, rfl, by simp, by simpa using hms, .inr ⟨e, by simpa using he⟩⟩

end DroneShow.Record
