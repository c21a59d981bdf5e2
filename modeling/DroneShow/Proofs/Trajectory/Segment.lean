-- The decoding of one segment, told by the bytes from its offset on: none
-- are the final hold, a record is its segment, and any others are a fault.
import DroneShow.Proofs.Record.Series

namespace DroneShow.Segment

open Record (Offends)

variable {bytes : Bytes} {offset startMs : Nat} {rest : List UInt8}

theorem getElem?_of_drop {byte : UInt8} (h : bytes.toList.drop offset = byte :: rest) :
    bytes[offset]? = some byte := by
  rw [← Array.getElem?_toList, ← Nat.add_zero offset, ← List.getElem?_drop, h]
  rfl

theorem decode_of_end (start : Pose) (scale : Nat) (h : bytes.toList.drop offset = []) :
    decode bytes offset startMs start scale = .ok (hold offset startMs start) := by
  have hsize : bytes.size ≤ offset := by simpa using h
  unfold decode
  rw [Array.getElem?_eq_none hsize]

/-- With the bytes before the control points complete, the clock is checked first. -/
theorem decode_of_clock {byte lo hi : UInt8} (start : Pose) (scale : Nat)
    (h : bytes.toList.drop offset = byte :: lo :: hi :: rest) :
    decode bytes offset startMs start scale =
      if timeLimit < startMs + (lo.toNat + 256 * hi.toNat) then .error .endOfTime
      else (Record.readRaws bytes (AxisFormat.ofByte byte) offset).map fun raws =>
        ofRecord offset startMs start scale
          ⟨AxisFormat.ofByte byte, lo.toNat + 256 * hi.toNat, raws⟩ := by
  have hword : Word.read bytes (offset + 1) = .ok (lo.toNat + 256 * hi.toNat) :=
    Word.read_of_drop (Word.drop_add (show bytes.toList.drop offset = [byte] ++ _ from h))
  unfold decode
  rw [getElem?_of_drop h]
  simp only [hword, bind, Except.bind]
  split
  · rfl
  · cases Record.readRaws bytes (AxisFormat.ofByte byte) offset <;> rfl

theorem decode_of_record {r : Record} (start : Pose) (scale : Nat) (hr : r.WellFormed)
    (hms : startMs + r.durationMs ≤ timeLimit) (h : bytes.toList.drop offset = r.toBytes ++ rest) :
    decode bytes offset startMs start scale = .ok (ofRecord offset startMs start scale r) := by
  have hraws := Record.readRaws_of_drop hr h
  rw [Record.toBytes_eq] at h
  rw [decode_of_clock start scale h, Word.toNat_toBytes hr.duration_lt, if_neg (Nat.not_lt.mpr hms),
    AxisFormat.ofByte_toByte, hraws]
  rfl

theorem decode_of_offends {e : Fault} (start : Pose) (scale : Nat)
    (h : Offends startMs (bytes.toList.drop offset) e) :
    decode bytes offset startMs start scale = .error e := by
  generalize hl : bytes.toList.drop offset = l at h
  cases h with
  | late hlate => rw [decode_of_clock start scale hl, if_pos hlate]
  | noPrefix hne hshort =>
    match l, hne with
    | byte :: l, _ =>
      have hread : Word.read bytes (offset + 1) = .error .truncatedData := by
        refine Word.read_of_short ?_
        have hdrop : bytes.toList.drop (offset + 1) = l :=
          Word.drop_add (show bytes.toList.drop offset = [byte] ++ l from hl)
        rw [hdrop]
        unfold Record.prefixLength at hshort
        rw [List.length_cons] at hshort
        omega
      unfold decode
      rw [getElem?_of_drop hl]
      simp only [hread, bind, Except.bind]
  | noPoints hintime hshort =>
    rw [decode_of_clock start scale hl, if_neg (Nat.not_lt.mpr hintime), Record.readRaws_of_short]
    · rfl
    · rw [hl]
      simp only [List.length_cons, Record.prefixLength]
      omega
    · rw [hl]
      simp [Record.prefixLength]

/-- What was decoded is the final hold where no bytes are left, and otherwise
the segment of the record that stands there and ends in time. -/
theorem decode_eq_ok {start : Pose} {scale : Nat} {s : Segment}
    (h : decode bytes offset startMs start scale = .ok s) :
    (bytes.toList.drop offset = [] ∧ s = hold offset startMs start) ∨
      ∃ r rest, r.WellFormed ∧ bytes.toList.drop offset = r.toBytes ++ rest ∧
        startMs + r.durationMs ≤ timeLimit ∧ s = ofRecord offset startMs start scale r := by
  by_cases hend : bytes.toList.drop offset = []
  · rw [decode_of_end start scale hend] at h
    exact .inl ⟨hend, (Except.ok.inj h).symm⟩
  · rcases Record.record_or_offends startMs hend with ⟨r, rest, hbytes, hr, hms⟩ | ⟨e, he⟩
    · rw [decode_of_record start scale hr hms hbytes] at h
      exact .inr ⟨r, rest, hr, hbytes, hms, (Except.ok.inj h).symm⟩
    · rw [decode_of_offends start scale he] at h
      cases h

end DroneShow.Segment
