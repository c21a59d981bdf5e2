-- Headers read back. A header is told by the first nine bytes alone, and the
-- one written for a start pose holds that pose as it is stored.
import DroneShow.Proofs.Record.Series
import DroneShow.Trajectory.Basic

namespace DroneShow

namespace Header

open Quantum (Stored)

variable {bytes : Bytes}

/-- The words of a header and whatever follows them. -/
theorem decode_of_toList {first : UInt8} {raws : Axes Int} {rest : List UInt8}
    (hr : ∀ axis, Stored (raws.get axis))
    (h : bytes.toList = first :: (Word.spell raws.toList ++ rest)) :
    decode bytes = if first.toNat % yawBit = 0 then .error .zeroScale
      else .ok ⟨first.toNat % yawBit, yawBit ≤ first.toNat,
        Quantum.decodePose (first.toNat % yawBit) raws⟩ := by
  have hfirst : bytes[0]? = some first := by
    rw [← Array.getElem?_toList, h]
    rfl
  have hsize : ¬ bytes.size < length := by
    rw [← Array.length_toList, h, List.length_cons, List.length_append, Word.length_spell]
    simp only [Axes.toList, List.length_cons, List.length_nil, length]
    omega
  have hwords : (Axes.ofFnM fun axis => Word.readSigned bytes (1 + 2 * axis.index)) = .ok raws := by
    rw [Axes.ofFnM_eq_ok_iff]
    have hspell : Word.spell raws.toList = Word.toBytes (Word.ofSigned raws.x) ++
        (Word.toBytes (Word.ofSigned raws.y) ++ (Word.toBytes (Word.ofSigned raws.z) ++
          (Word.toBytes (Word.ofSigned raws.yaw) ++ []))) := rfl
    rw [hspell] at h
    intro axis
    cases axis with
    | x => exact Word.readSigned_of_drop (hr .x) (by rw [h]; rfl)
    | y => exact Word.readSigned_of_drop (hr .y) (by rw [h]; rfl)
    | z => exact Word.readSigned_of_drop (hr .z) (by rw [h]; rfl)
    | yaw => exact Word.readSigned_of_drop (hr .yaw) (by rw [h]; rfl)
  unfold decode
  rw [hfirst]
  simp only [hsize, if_false, hwords]
  rfl

theorem exists_words (h : length ≤ bytes.size) :
    ∃ (first : UInt8) (raws : Axes Int) (rest : List UInt8),
      bytes.toList = first :: (Word.spell raws.toList ++ rest) ∧
      ∀ axis, Stored (raws.get axis) := by
  rw [← Array.length_toList] at h
  match hl : bytes.toList with
  | [] => simp [hl, length] at h
  | first :: l =>
    rw [hl, List.length_cons, length] at h
    obtain ⟨raws, rest, rfl, hlen, hr⟩ := Word.exists_spell 4 l (by omega)
    match raws, hlen with
    | [x, y, z, yaw], _ =>
      refine ⟨first, ⟨x, y, z, yaw⟩, rest, rfl, ?_⟩
      intro axis
      cases axis <;> exact hr _ (by simp [Axes.get])

theorem size_of_decode {h : Header} (hd : decode bytes = .ok h) : length ≤ bytes.size := by
  unfold decode at hd
  split at hd
  · cases hd
  · split at hd
    · cases hd
    · rename_i hsize
      exact Nat.not_lt.mp hsize

theorem scale_of_decode {h : Header} (hd : decode bytes = .ok h) :
    0 < h.scale ∧ h.scale ≤ maxScale := by
  obtain ⟨first, raws, rest, hl, hr⟩ := exists_words (size_of_decode hd)
  rw [decode_of_toList hr hl] at hd
  split at hd
  · cases hd
  · rename_i hpos
    cases hd
    have hlt := Nat.mod_lt first.toNat (show 0 < yawBit by decide)
    unfold yawBit at hlt hpos ⊢
    exact ⟨Nat.pos_of_ne_zero hpos, Nat.le_of_lt_succ hlt⟩

theorem start_of_decode {h : Header} (hd : decode bytes = .ok h) :
    ∃ raws, (∀ axis, Stored (raws.get axis)) ∧ h.start = Quantum.decodePose h.scale raws := by
  obtain ⟨first, raws, rest, hl, hr⟩ := exists_words (size_of_decode hd)
  rw [decode_of_toList hr hl] at hd
  split at hd
  · cases hd
  · cases hd
    exact ⟨raws, hr, rfl⟩

/-- A header is told by its nine bytes alone. -/
theorem decode_of_take {h : Header} {bytes' : Bytes} (hd : decode bytes = .ok h)
    (htake : bytes'.toList.take length = bytes.toList.take length) : decode bytes' = .ok h := by
  obtain ⟨first, raws, rest, hl, hr⟩ := exists_words (size_of_decode hd)
  have hwords : bytes.toList.take length = first :: Word.spell raws.toList := by
    rw [hl, ← List.cons_append]
    refine List.take_left' ?_
    rw [List.length_cons, Word.length_spell]
    rfl
  have hl' : bytes'.toList =
      first :: (Word.spell raws.toList ++ bytes'.toList.drop length) := by
    rw [← List.cons_append, ← hwords, ← htake, List.take_append_drop]
  rw [decode_of_toList hr hl', ← hd, decode_of_toList hr hl]

theorem decode_append {h : Header} (hd : decode bytes = .ok h) (more : Bytes) :
    decode (bytes ++ more) = .ok h := by
  refine decode_of_take hd ?_
  rw [Array.toList_append, List.take_append_of_le_length]
  simpa using size_of_decode hd

theorem toNat_firstByte {scale : Nat} (hs : scale ≤ maxScale) (yawEnabled : Bool) :
    (firstByte scale yawEnabled).toNat = scale + if yawEnabled then yawBit else 0 := by
  unfold maxScale at hs
  unfold firstByte yawBit
  rw [UInt8.toNat_ofNat']
  cases yawEnabled
  · simp only [Bool.false_eq_true, if_false]
    omega
  · simp only [if_true]
    omega

theorem firstByte_mod {scale : Nat} (hs : scale ≤ maxScale) (yawEnabled : Bool) :
    (firstByte scale yawEnabled).toNat % yawBit = scale := by
  rw [toNat_firstByte hs]
  unfold maxScale at hs
  unfold yawBit
  cases yawEnabled
  · simp only [Bool.false_eq_true, if_false]
    omega
  · simp only [if_true]
    omega

theorem yawBit_le_firstByte {scale : Nat} (hs : scale ≤ maxScale) (yawEnabled : Bool) :
    decide (yawBit ≤ (firstByte scale yawEnabled).toNat) = yawEnabled := by
  rw [toNat_firstByte hs]
  unfold maxScale at hs
  unfold yawBit
  cases yawEnabled
  · simp only [Bool.false_eq_true, if_false, decide_eq_false_iff_not]
    omega
  · simp only [if_true, decide_eq_true_eq]
    omega

/-- A written header is nine bytes and reads back with the start as stored. -/
theorem decode_encode {h : Header} (hpos : 0 < h.scale) (hs : h.scale ≤ maxScale)
    (he : encode h = .ok bytes) :
    ∃ raws, Quantum.encodePose h.scale h.start = .ok raws ∧ bytes.size = length ∧
      decode bytes = .ok ⟨h.scale, h.yawEnabled, Quantum.decodePose h.scale raws⟩ := by
  unfold encode at he
  rcases hraws : Quantum.encodePose h.scale h.start with e | raws
  · rw [hraws] at he
    cases he
  · rw [hraws] at he
    have hbytes : bytes = (firstByte h.scale h.yawEnabled :: Word.spell raws.toList).toArray :=
      (Except.ok.inj he).symm
    have hstored : ∀ axis, Stored (raws.get axis) := fun axis =>
      Quantum.stored_of_encode (Quantum.encodePose_eq_ok_iff.mp hraws axis)
    have hl : bytes.toList =
        firstByte h.scale h.yawEnabled :: (Word.spell raws.toList ++ []) := by
      rw [hbytes, List.append_nil]
    refine ⟨raws, rfl, ?_, ?_⟩
    · rw [← Array.length_toList, hl, List.append_nil, List.length_cons, Word.length_spell]
      rfl
    · rw [decode_of_toList hstored hl, firstByte_mod hs, if_neg hpos.ne', yawBit_le_firstByte hs]

end Header

namespace Trajectory

open Quantum (Stored)

/-- The trajectory is what its own bytes say. -/
def Parsed (tr : Trajectory) : Prop := ofBuffer tr.buffer = .ok tr

theorem parsed_of_ofBuffer {buffer : Buffer} {tr : Trajectory} (h : ofBuffer buffer = .ok tr) :
    tr.Parsed ∧ tr.buffer = buffer := by
  have hbuffer : tr.buffer = buffer := by
    unfold ofBuffer at h
    split at h
    · cases h
      rfl
    · rcases hd : Header.decode buffer.bytes with e | header
      · rw [hd] at h
        cases h
      · rw [hd] at h
        cases h
        rfl
  exact ⟨by rw [Parsed, hbuffer]; exact h, hbuffer⟩

theorem isOwned_of_ofBytes {bytes : Bytes} {tr : Trajectory} (h : ofBytes bytes = .ok tr) :
    tr.isOwned = true := by
  rw [isOwned, (parsed_of_ofBuffer h).2]
  rfl

/-- What the header says about a trajectory with bytes. -/
theorem Parsed.header {tr : Trajectory} (h : tr.Parsed) (hne : tr.isEmpty = false) :
    tr.headerLength = Header.length ∧
      Header.decode tr.bytes = .ok ⟨tr.scale, tr.yawEnabled, tr.start⟩ := by
  unfold Parsed ofBuffer at h
  rw [show tr.buffer.isEmpty = false from hne, if_neg Bool.false_ne_true] at h
  rcases hd : Header.decode tr.buffer.bytes with e | header
  · rw [hd] at h
    cases h
  · rw [hd] at h
    have htr := (Except.ok.inj h).symm
    refine ⟨by rw [htr], ?_⟩
    show Header.decode tr.buffer.bytes = _
    rw [hd, htr]

/-- A trajectory starts at a decoded pose, also where it has no bytes. -/
theorem Parsed.exists_startRaws {tr : Trajectory} (h : tr.Parsed) :
    0 < tr.scale ∧ tr.scale ≤ 127 ∧
      ∃ raws, (∀ axis, Stored (raws.get axis)) ∧ tr.start = Quantum.decodePose tr.scale raws := by
  cases hne : tr.isEmpty with
  | false =>
    obtain ⟨-, hdecode⟩ := h.header hne
    obtain ⟨hpos, hmax⟩ := Header.scale_of_decode hdecode
    exact ⟨hpos, hmax, Header.start_of_decode hdecode⟩
  | true =>
    unfold Parsed ofBuffer at h
    rw [show tr.buffer.isEmpty = true from hne, if_pos rfl] at h
    have htr := (Except.ok.inj h).symm
    have hscale : tr.scale = 1 := congrArg Trajectory.scale htr
    have hstart : tr.start = Pose.origin := congrArg Trajectory.start htr
    rw [hscale, hstart]
    exact ⟨by decide, by decide, Axes.all 0, by decide, by decide⟩

/-- So do all records behind its header. -/
theorem Parsed.exists_endRaws {tr : Trajectory} {rs : List Record} (h : tr.Parsed)
    (hrs : ∀ r ∈ rs, r.WellFormed) :
    ∃ raws, (∀ axis, Stored (raws.get axis)) ∧
      Record.endPose tr.scale tr.start rs = Quantum.decodePose tr.scale raws := by
  obtain ⟨-, -, raws, hstored, hstart⟩ := h.exists_startRaws
  rw [hstart]
  exact Record.endPose_stored tr.scale hstored hrs

theorem isEmpty_of_decode {buffer : Buffer} {header : Header}
    (h : Header.decode buffer.bytes = .ok header) : buffer.isEmpty = false := by
  have hsize := Header.size_of_decode h
  unfold Header.length at hsize
  simp only [Buffer.isEmpty, Buffer.size, beq_eq_false_iff_ne]
  omega

theorem ofBuffer_of_decode {buffer : Buffer} {header : Header}
    (h : Header.decode buffer.bytes = .ok header) : ofBuffer buffer =
      .ok ⟨buffer, header.scale, header.yawEnabled, header.start, Header.length⟩ := by
  unfold ofBuffer
  rw [isEmpty_of_decode h, if_neg Bool.false_ne_true, h]
  rfl

theorem ofBytes_of_decode {bytes : Bytes} {header : Header} (h : Header.decode bytes = .ok header) :
    ofBytes bytes =
      .ok ⟨.owned bytes, header.scale, header.yawEnabled, header.start, Header.length⟩ :=
  ofBuffer_of_decode (show Header.decode (Buffer.owned bytes).bytes = .ok header from h)

end Trajectory

end DroneShow
