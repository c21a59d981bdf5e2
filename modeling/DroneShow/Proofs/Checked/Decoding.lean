-- Decoding on words: each offset and each time is a word, and the control points
-- of an axis are written into eight slots. No string of bytes, offset, time or
-- pose halts it, and it ends as the decoding of the library does.
import DroneShow.Proofs.Checked.Step
import DroneShow.Proofs.Outcome
import DroneShow.Proofs.Trajectory.Header
import DroneShow.Proofs.Trajectory.Segment

namespace DroneShow.Checked

variable {bytes : Bytes} {offset startMs : Nat}

/-! ## Words and headers -/

/-- The word at an offset, whose end has to be an offset as well. -/
def readWord (bytes : Bytes) (offset : Nat) : Checked Nat := do
  let _ ← add offsetBits offset 2
  told (Word.read bytes offset)

def readSigned (bytes : Bytes) (offset : Nat) : Checked Int := do
  let word ← readWord bytes offset
  pure (Int.bmod word 65536)

def readHeader (bytes : Bytes) : Checked Header := do
  if bytes.size < Header.length then throw .truncatedHeader
  else
    let first ← item bytes 0
    let scale := first.toNat % Header.yawBit
    if scale = 0 then throw .zeroScale
    else
      let raws ← Axes.ofFnM fun axis => do
        let at_ ← add offsetBits 1 (2 * axis.index)
        readSigned bytes at_
      pure ⟨scale, Header.yawBit ≤ first.toNat, Quantum.decodePose scale raws⟩

def load (buffer : Buffer) : Checked Trajectory := do
  if buffer.isEmpty then pure { Trajectory.empty with buffer := buffer }
  else
    let h ← readHeader buffer.bytes
    pure ⟨buffer, h.scale, h.yawEnabled, h.start, Header.length⟩

theorem readWord_eq (h : offset + 2 < 2 ^ 64) :
    readWord bytes offset = told (Word.read bytes offset) := by
  unfold readWord
  rw [add_offset h, pure_bind]

theorem readSigned_eq (h : offset + 2 < 2 ^ 64) :
    readSigned bytes offset = told (Word.readSigned bytes offset) := by
  unfold readSigned
  rw [readWord_eq h]
  exact told_map _ _

theorem readHeader_eq (bytes : Bytes) : readHeader bytes = told (Header.decode bytes) := by
  unfold readHeader Header.decode
  by_cases hsize : bytes.size < Header.length
  · rw [if_pos hsize]
    cases hfirst : bytes[0]? with
    | none => rfl
    | some first =>
      simp only [hsize, if_true]
      rfl
  · have hpos : 0 < bytes.size := by
      unfold Header.length at hsize
      omega
    have hfirst : bytes[0]? = some bytes[0] := Array.getElem?_eq_getElem hpos
    have hword : ∀ axis : Axis,
        (add offsetBits 1 (2 * axis.index) >>= fun at_ => readSigned bytes at_) =
          told (Word.readSigned bytes (1 + 2 * axis.index)) := by
      intro axis
      have hlt : 2 * axis.index ≤ 6 := by cases axis <;> decide
      rw [add_offset (by omega), pure_bind, readSigned_eq (by omega)]
    rw [if_neg hsize, item_of_getElem? hfirst, hfirst]
    simp only [pure_bind, hsize, if_false, hword, ofFnM_told]
    split
    · rfl
    · rw [told_map]
      cases Axes.ofFnM fun axis => Word.readSigned bytes (1 + 2 * axis.index) <;> rfl

theorem load_eq (buffer : Buffer) : load buffer = told (Trajectory.ofBuffer buffer) := by
  unfold load Trajectory.ofBuffer
  rw [readHeader_eq]
  split
  · rfl
  · cases Header.decode buffer.bytes <;> rfl

/-! ## Segments -/

/-- A segment as it is kept in words: of the eight slots of an axis, the first
ones hold its control points. -/
structure Frame where
  offset : Nat
  length : Nat
  formats : Axes AxisFormat
  startMs : Nat
  durationMs : Nat
  /-- When the segment ends; this sum has the bits of an offset. -/
  totalMs : Nat
  start : Pose
  finish : Pose
  slots : Axes (Vector Single polySlots)

/-- The segment that a frame holds. -/
def Frame.segment (f : Frame) : Segment where
  offset := f.offset
  length := f.length
  formats := f.formats
  startMs := f.startMs
  durationMs := f.durationMs
  start := f.start
  finish := f.finish
  points := Axes.ofFn fun axis =>
    (f.slots.get axis).toList.take ((f.formats.get axis).storedPoints + 1)

/-- Slots with nothing written yet. -/
def blank : Vector Single polySlots := Vector.replicate polySlots 0

def timed (offset length : Nat) (formats : Axes AxisFormat) (startMs durationMs : Nat)
    (start finish : Pose) (slots : Axes (Vector Single polySlots)) : Checked Frame := do
  let totalMs ← add offsetBits startMs durationMs
  pure ⟨offset, length, formats, startMs, durationMs, totalMs, start, finish, slots⟩

def hold (offset startMs : Nat) (start : Pose) : Checked Frame := do
  let slots ← Axes.ofFnM fun axis => put blank 0 (start.get axis)
  let durationMs ← sub timeLimit startMs
  timed offset 0 (Axes.all .constant) startMs durationMs start start slots

/-- Reads control points into the slots from index `k` on, and tells where the
next axis begins. -/
def readPoints (bytes : Bytes) (scale : Nat) (axis : Axis) :
    (count k cursor : Nat) → Vector Single polySlots → Checked (Vector Single polySlots × Nat)
  | 0, _, cursor, slots => pure (slots, cursor)
  | count + 1, k, cursor, slots => do
    let raw ← readSigned bytes cursor
    let slots ← put slots k (Quantum.decode scale axis raw)
    let cursor ← add offsetBits cursor 2
    readPoints bytes scale axis count (k + 1) cursor slots

/-- What was read of a record: all slots, the last point of each axis, and where
the next one begins. -/
structure Progress where
  slots : Axes (Vector Single polySlots)
  finish : Pose
  cursor : Nat

def readAxis (bytes : Bytes) (formats : Axes AxisFormat) (start : Pose) (scale : Nat)
    (w : Progress) (axis : Axis) : Checked Progress := do
  let count := (formats.get axis).storedPoints
  let slots ← put (w.slots.get axis) 0 (start.get axis)
  let (slots, cursor) ← readPoints bytes scale axis count 1 w.cursor slots
  let last ← item slots.toArray count
  pure ⟨w.slots.set slots axis, w.finish.set last axis, cursor⟩

/-- The frame of the record at an offset. The sum on the clock is guarded by the code itself. -/
def decode (bytes : Bytes) (offset startMs : Nat) (start : Pose) (scale : Nat) :
    Checked Frame := do
  if bytes.size ≤ offset then hold offset startMs start
  else
    let byte ← item bytes offset
    let formats := AxisFormat.ofByte byte
    let wordOffset ← add offsetBits offset 1
    let durationMs ← readWord bytes wordOffset
    if 2 ^ clockBits ≤ startMs + durationMs then throw .endOfTime
    else
      let cursor ← add offsetBits offset Record.prefixLength
      let w ← Axis.all.foldlM (readAxis bytes formats start scale) ⟨Axes.all blank, start, cursor⟩
      let length ← sub w.cursor offset
      timed offset length formats startMs durationMs start w.finish w.slots

/-! ## Decoding in words is decoding -/

/-- Writes a list into the slots from index `k` on. -/
def fill {n : Nat} (slots : Vector Single n) : Nat → List Single → Vector Single n
  | _, [] => slots
  | k, a :: rest => fill (slots.setIfInBounds k a) (k + 1) rest

theorem take_fill {n : Nat} (slots : Vector Single n) (k : Nat) (values : List Single)
    (h : k + values.length ≤ n) :
    (fill slots k values).toList.take (k + values.length) = slots.toList.take k ++ values := by
  induction values generalizing slots k with
  | nil => simp [fill]
  | cons a rest ih =>
    rw [List.length_cons] at h ⊢
    rw [fill, show k + (rest.length + 1) = k + 1 + rest.length by omega, ih _ _ (by omega),
      take_setIfInBounds slots a (by omega), List.append_assoc]
    rfl

theorem readPoints_eq (scale : Nat) (axis : Axis) {count k cursor : Nat}
    (slots : Vector Single polySlots) (hk : k + count ≤ polySlots)
    (h : cursor + 2 * count < 2 ^ 64) :
    readPoints bytes scale axis count k cursor slots =
      told ((Word.readList bytes count cursor).map fun raws =>
        (fill slots k (raws.map (Quantum.decode scale axis)), cursor + 2 * count)) := by
  induction count generalizing k cursor slots with
  | zero => rfl
  | succ count ih =>
    unfold readPoints Word.readList
    rw [readSigned_eq (by omega)]
    cases Word.readSigned bytes cursor with
    | error e => rfl
    | ok raw =>
      rw [told_ok, pure_bind, put_of_lt _ _ (by omega), pure_bind, add_offset (by omega), pure_bind,
        ih _ (by omega) (by omega)]
      simp only [bind, Except.bind]
      cases Word.readList bytes count (cursor + 2) with
      | error e => rfl
      | ok rest =>
        show told (.ok (_, cursor + 2 + 2 * count)) = told (.ok (_, cursor + 2 * (count + 1)))
        rw [show cursor + 2 + 2 * count = cursor + 2 * (count + 1) by omega]
        rfl

theorem length_of_readList {count : Nat} {raws : List Int}
    (h : Word.readList bytes count offset = .ok raws) : raws.length = count := by
  induction count generalizing offset raws with
  | zero =>
    cases h
    rfl
  | succ count ih =>
    obtain ⟨raw, -, h⟩ := bind_eq_ok_iff.mp h
    obtain ⟨rest, hrest, h⟩ := bind_eq_ok_iff.mp h
    cases h
    rw [List.length_cons, ih hrest]

/-- What is kept of the values of an axis: its start and the values behind it,
the last of them, and the end of the words. -/
def Progress.keep (w : Progress) (start : Pose) (axis : Axis) (values : List Single) : Progress :=
  ⟨w.slots.set (fill ((w.slots.get axis).setIfInBounds 0 (start.get axis)) 1 values) axis,
    w.finish.set (values.getLastD (start.get axis)) axis, w.cursor + 2 * values.length⟩

theorem take_keep (slots : Vector Single polySlots) (a : Single) {values : List Single}
    (h : values.length < polySlots) :
    (fill (slots.setIfInBounds 0 a) 1 values).toList.take (values.length + 1) = a :: values := by
  have htake := take_fill (slots.setIfInBounds 0 a) 1 values (by omega)
  rw [Nat.add_comm] at htake
  rw [htake, take_setIfInBounds slots a (by decide)]
  rfl

theorem getElem?_keep (slots : Vector Single polySlots) (a : Single) {values : List Single}
    (h : values.length < polySlots) :
    (fill (slots.setIfInBounds 0 a) 1 values).toArray[values.length]? =
      some (values.getLastD a) := by
  have hlast : (a :: values)[values.length]? = some (values.getLastD a) := by
    rw [List.getLastD_eq_getLast?, ← List.getLast?_cons, List.getLast?_eq_getElem?]
    rfl
  rw [← Array.getElem?_toList, ← hlast, ← take_keep slots a h, List.getElem?_take_of_succ]
  rfl

theorem storedPoints_lt (format : AxisFormat) : format.storedPoints < polySlots := by
  cases format <;> decide

theorem readAxis_eq (formats : Axes AxisFormat) (start : Pose) (scale : Nat) (w : Progress)
    (axis : Axis) (h : w.cursor + 2 * (formats.get axis).storedPoints < 2 ^ 64) :
    readAxis bytes formats start scale w axis =
      told ((Word.readList bytes (formats.get axis).storedPoints w.cursor).map fun raws =>
        w.keep start axis (raws.map (Quantum.decode scale axis))) := by
  have hlt := storedPoints_lt (formats.get axis)
  unfold readAxis
  rw [put_of_lt _ _ (by decide), pure_bind, readPoints_eq scale axis _ (by omega) h]
  cases hread : Word.readList bytes (formats.get axis).storedPoints w.cursor with
  | error e => rfl
  | ok raws =>
    have hlen := length_of_readList hread
    rw [← hlen] at hlt
    have hvalues : (raws.map (Quantum.decode scale axis)).length < polySlots := by
      rwa [List.length_map]
    have hitem := getElem?_keep (w.slots.get axis) (start.get axis) hvalues
    rw [List.length_map] at hitem
    simp only [Except.map, told_ok, pure_bind, ← hlen, item_of_getElem? hitem, Progress.keep,
      List.length_map]

/-- What is kept of a whole record. -/
def Progress.keepAll (w : Progress) (start : Pose) (scale : Nat) (raws : Axes (List Int)) :
    Progress :=
  Axis.all.foldl (fun w axis => w.keep start axis ((raws.get axis).map (Quantum.decode scale axis)))
    w

/-- An axis is read from where its control points begin. -/
theorem readAxis_of_cursor {formats : Axes AxisFormat} {w : Progress} {axis : Axis} (start : Pose)
    (scale : Nat) (hw : w.cursor = Record.pointsOffset formats offset axis)
    (h : offset + 64 < 2 ^ 64) :
    readAxis bytes formats start scale w axis =
      told ((Word.readList bytes (formats.get axis).storedPoints
        (Record.pointsOffset formats offset axis)).map fun raws =>
          w.keep start axis (raws.map (Quantum.decode scale axis))) := by
  rw [readAxis_eq, hw]
  have hx := storedPoints_lt formats.x
  have hy := storedPoints_lt formats.y
  have hz := storedPoints_lt formats.z
  have hyaw := storedPoints_lt formats.yaw
  unfold polySlots at hx hy hz hyaw
  rw [hw]
  cases axis <;> simp only [Record.pointsOffset, Record.pointsBefore, Record.prefixLength, Axes.get]
    <;> omega

/-- The axis behind one begins where the words of that one end. -/
theorem cursor_keep {formats : Axes AxisFormat} {w : Progress} {axis : Axis} {raws : List Int}
    (next : Axis) (start : Pose) (scale : Nat)
    (hw : w.cursor = Record.pointsOffset formats offset axis)
    (hnext : Record.pointsBefore formats next =
      Record.pointsBefore formats axis + (formats.get axis).storedPoints)
    (hread : Word.readList bytes (formats.get axis).storedPoints
      (Record.pointsOffset formats offset axis) = .ok raws) :
    (w.keep start axis (raws.map (Quantum.decode scale axis))).cursor =
      Record.pointsOffset formats offset next := by
  have hlen := length_of_readList hread
  simp only [Progress.keep, List.length_map, hlen, hw, Record.pointsOffset, hnext]
  omega

theorem readAxes_eq (bytes : Bytes) (formats : Axes AxisFormat) (start : Pose) (scale : Nat)
    {w : Progress} (hw : w.cursor = offset + Record.prefixLength) (h : offset + 64 < 2 ^ 64) :
    Axis.all.foldlM (readAxis bytes formats start scale) w =
      told ((Record.readRaws bytes formats offset).map (w.keepAll start scale)) := by
  unfold Axis.all Record.readRaws Axes.ofFnM
  simp only [List.foldlM_cons, List.foldlM_nil, map_bind]
  rw [readAxis_of_cursor start scale hw h]
  refine told_map_bind fun x hx => ?_
  have hwy := cursor_keep .y start scale hw (Nat.zero_add _).symm hx
  rw [readAxis_of_cursor start scale hwy h]
  refine told_map_bind fun y hy => ?_
  have hwz := cursor_keep .z start scale hwy rfl hy
  rw [readAxis_of_cursor start scale hwz h]
  refine told_map_bind fun z hz => ?_
  have hwyaw := cursor_keep .yaw start scale hwz rfl hz
  rw [readAxis_of_cursor start scale hwyaw h]
  exact told_map_bind fun yaw _ => rfl

/-- A frame that holds a segment, with the sum of its times as it should be. -/
structure Frame.Holds (f : Frame) (s : Segment) : Prop where
  segment : f.segment = s
  totalMs : f.totalMs = f.startMs + f.durationMs

/-- A computation of a frame ends as the library does with a segment. -/
def Yields (computation : Checked Frame) (outcome : Except Fault Segment) : Prop :=
  match outcome with
  | .ok s => ∃ f, computation = pure f ∧ f.Holds s
  | .error e => computation = throw e

theorem timed_eq (offset length : Nat) (formats : Axes AxisFormat) {startMs durationMs : Nat}
    (start finish : Pose) (slots : Axes (Vector Single polySlots))
    (h : startMs + durationMs ≤ timeLimit) :
    timed offset length formats startMs durationMs start finish slots =
      pure ⟨offset, length, formats, startMs, durationMs, startMs + durationMs, start, finish,
        slots⟩ := by
  unfold timeLimit at h
  unfold timed
  rw [add_offset (by omega), pure_bind]

theorem hold_yields (offset : Nat) (start : Pose) (h : startMs ≤ timeLimit) :
    Yields (hold offset startMs start) (.ok (Segment.hold offset startMs start)) := by
  have hput : ∀ axis : Axis, put blank 0 (start.get axis) =
      pure (blank.setIfInBounds 0 (start.get axis)) := fun axis => put_of_lt _ _ (by decide)
  refine ⟨⟨offset, 0, Axes.all .constant, startMs, timeLimit - startMs,
    startMs + (timeLimit - startMs), start, start,
    Axes.ofFn fun axis => blank.setIfInBounds 0 (start.get axis)⟩, ?_, ?_, rfl⟩
  · unfold hold
    simp only [hput, sub_of_le h]
    rw [show (Axes.ofFnM fun axis : Axis =>
        (pure (blank.setIfInBounds 0 (start.get axis)) : Checked (Vector Single polySlots))) =
      pure (Axes.ofFn fun axis => blank.setIfInBounds 0 (start.get axis)) from rfl]
    rw [pure_bind, pure_bind, timed_eq _ _ _ _ _ _ (by omega)]
  · unfold Frame.segment Segment.hold
    congr 1

theorem cursor_keepAll (w : Progress) (start : Pose) (scale : Nat) (raws : Axes (List Int)) :
    (w.keepAll start scale raws).cursor = w.cursor + 2 * (raws.get .x).length +
      2 * (raws.get .y).length + 2 * (raws.get .z).length + 2 * (raws.get .yaw).length := by
  simp only [Progress.keepAll, Axis.all, List.foldl_cons, List.foldl_nil, Progress.keep,
    List.length_map]

theorem record_holds {formats : Axes AxisFormat} {w : Progress} {raws : Axes (List Int)}
    (startMs durationMs : Nat) (start : Pose) (scale : Nat)
    (hw : w.cursor = offset + Record.prefixLength)
    (hraws : ∀ axis, (raws.get axis).length = (formats.get axis).storedPoints) :
    Frame.Holds ⟨offset, (w.keepAll start scale raws).cursor - offset, formats, startMs, durationMs,
        startMs + durationMs, start, (w.keepAll start scale raws).finish,
        (w.keepAll start scale raws).slots⟩
      (Segment.ofRecord offset startMs start scale ⟨formats, durationMs, raws⟩) := by
  have hlength : (w.keepAll start scale raws).cursor - offset = Record.length formats := by
    rw [cursor_keepAll, hw, hraws, hraws, hraws, hraws]
    simp only [Record.length, Record.pointsBefore, Axes.get]
    omega
  refine ⟨?_, rfl⟩
  unfold Frame.segment Segment.ofRecord
  rw [hlength]
  congr 1
  apply Axes.ext_get
  intro axis
  have hlt : ((raws.get axis).map (Quantum.decode scale axis)).length < polySlots := by
    rw [List.length_map, hraws]
    exact storedPoints_lt _
  have hslots : ((w.keepAll start scale raws).slots.get axis) =
      fill ((w.slots.get axis).setIfInBounds 0 (start.get axis)) 1
        ((raws.get axis).map (Quantum.decode scale axis)) := by
    cases axis <;> rfl
  have htake := take_keep (w.slots.get axis) (start.get axis) hlt
  rw [List.length_map, hraws] at htake
  rw [Axes.get_ofFn, Axes.get_ofFn, Axes.get_ofFn, hslots]
  exact htake

theorem length_of_readRaws {formats : Axes AxisFormat} {raws : Axes (List Int)}
    (h : Record.readRaws bytes formats offset = .ok raws) (axis : Axis) :
    (raws.get axis).length = (formats.get axis).storedPoints :=
  length_of_readList (Axes.ofFnM_eq_ok_iff.mp h axis)

/-- Whatever stands at an offset, decoding it in words is not halted, and ends
as decoding does. -/
theorem decode_yields (hbytes : bytes.size ≤ maxBytes) (hms : startMs ≤ timeLimit) (offset : Nat)
    (start : Pose) (scale : Nat) :
    Yields (decode bytes offset startMs start scale)
      (Segment.decode bytes offset startMs start scale) := by
  unfold decode Segment.decode
  by_cases hend : bytes.size ≤ offset
  · rw [if_pos hend, Array.getElem?_eq_none hend]
    exact hold_yields offset start hms
  · have hlt : offset < bytes.size := Nat.not_le.mp hend
    have hbyte : bytes[offset]? = some bytes[offset] := Array.getElem?_eq_getElem hlt
    unfold maxBytes at hbytes
    rw [if_neg hend, item_of_getElem? hbyte, hbyte, pure_bind, add_offset (by omega), pure_bind,
      readWord_eq (by omega)]
    simp only []
    cases Word.read bytes (offset + 1) with
    | error e => rfl
    | ok durationMs =>
      rw [told_ok, pure_bind]
      show Yields _ (if timeLimit < startMs + durationMs then _ else _)
      have hguard : 2 ^ clockBits ≤ startMs + durationMs ↔ timeLimit < startMs + durationMs := by
        unfold clockBits timeLimit
        omega
      by_cases hclock : timeLimit < startMs + durationMs
      · rw [if_pos hclock, if_pos (hguard.mpr hclock)]
        rfl
      · have hread := readAxes_eq bytes (AxisFormat.ofByte bytes[offset]) start scale
          (w := ⟨Axes.all blank, start, offset + Record.prefixLength⟩) rfl (by omega)
        rw [if_neg hclock, if_neg (mt hguard.mp hclock),
          add_offset (show offset + Record.prefixLength < _ by unfold Record.prefixLength; omega),
          pure_bind, hread]
        cases hraws : Record.readRaws bytes (AxisFormat.ofByte bytes[offset]) offset with
        | error e => rfl
        | ok raws =>
          have hle : offset ≤ (Progress.keepAll ⟨Axes.all blank, start, offset + Record.prefixLength⟩
              start scale raws).cursor := by
            rw [cursor_keepAll]
            dsimp only
            omega
          refine ⟨_, ?_, record_holds
            (w := ⟨Axes.all blank, start, offset + Record.prefixLength⟩) startMs durationMs start
            scale rfl (length_of_readRaws hraws)⟩
          simp only [Except.map, told_ok, pure_bind]
          rw [sub_of_le hle, pure_bind, timed_eq _ _ _ _ _ _ (Nat.not_lt.mp hclock)]

end DroneShow.Checked
