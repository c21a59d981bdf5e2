-- Staying where a draft is. The last pose is stored as just the values that it
-- was decoded from, so no axis of a hold moves, and a long hold is as many
-- bare records as the time needs.
import DroneShow.Proofs.Draft.Resumption

namespace DroneShow

namespace Record

/-- A record in which no axis moves. -/
def pause (ms : Nat) : Record := ⟨Axes.all .constant, ms, Axes.all []⟩

/-- A hold as records: full ones, and what is left over. -/
def pauses (ms : Nat) : List Record :=
  List.replicate (ms / maxSegmentMs) (pause maxSegmentMs) ++
    if ms % maxSegmentMs = 0 then [] else [pause (ms % maxSegmentMs)]

@[simp] theorem durationMs_pause (ms : Nat) : (pause ms).durationMs = ms := rfl

@[simp] theorem get_raws_pause (ms : Nat) (axis : Axis) : (pause ms).raws.get axis = [] := by
  cases axis <;> rfl

theorem length_pause (ms : Nat) : (pause ms).toBytes.length = 3 := rfl

theorem wellFormed_pause {ms : Nat} (h : ms ≤ maxSegmentMs) : (pause ms).WellFormed := by
  unfold maxSegmentMs at h
  refine ⟨?_, fun axis => ?_, fun axis raw hm => ?_⟩
  · rw [durationMs_pause]
    omega
  · cases axis <;> rfl
  · rw [get_raws_pause] at hm
    cases hm

variable {ms : Nat} {r : Record}

@[simp] theorem pauses_zero : pauses 0 = [] := rfl

/-- The first record takes as much of the time as it can. -/
theorem pauses_of_pos (h : 0 < ms) :
    pauses ms = pause (min ms maxSegmentMs) :: pauses (ms - min ms maxSegmentMs) := by
  rcases Nat.lt_or_ge ms maxSegmentMs with hlt | hge
  · rw [min_eq_left hlt.le, Nat.sub_self, pauses_zero, pauses, Nat.div_eq_of_lt hlt,
      Nat.mod_eq_of_lt hlt, if_neg h.ne']
    rfl
  · rw [min_eq_right hge]
    obtain ⟨rest, rfl⟩ := Nat.exists_eq_add_of_le hge
    rw [Nat.add_sub_cancel_left, pauses, Nat.add_div_left rest (by decide), Nat.add_mod_left,
      List.replicate_succ, List.cons_append]
    rfl

/-- As many records as the time needs, and no more: the quotient is rounded up. -/
theorem length_pauses (ms : Nat) :
    (pauses ms).length = (ms + (maxSegmentMs - 1)) / maxSegmentMs := by
  rw [pauses, List.length_append, List.length_replicate]
  unfold maxSegmentMs
  split
  · rw [List.length_nil]
    omega
  · rw [List.length_singleton]
    omega

theorem totalMs_pauses (ms : Nat) : totalMs (pauses ms) = ms := by
  induction ms using Nat.strongRecOn with
  | ind ms ih =>
    rcases Nat.eq_zero_or_pos ms with rfl | hpos
    · rfl
    · rw [pauses_of_pos hpos, totalMs_cons, durationMs_pause]
      unfold maxSegmentMs at *
      rw [ih _ (by omega)]
      omega

theorem exists_of_mem_pauses (h : r ∈ pauses ms) :
    ∃ part, 0 < part ∧ part ≤ maxSegmentMs ∧ r = pause part := by
  rw [pauses, List.mem_append, List.mem_replicate] at h
  rcases h with ⟨-, rfl⟩ | h
  · exact ⟨maxSegmentMs, by decide, le_rfl, rfl⟩
  · split at h
    · cases h
    · rename_i hrest
      refine ⟨ms % maxSegmentMs, Nat.pos_of_ne_zero hrest, ?_, List.mem_singleton.mp h⟩
      exact (Nat.mod_lt ms (by decide)).le

theorem full_of_mem_dropLast_pauses (h : r ∈ (pauses ms).dropLast) :
    r.durationMs = maxSegmentMs := by
  have hfull : r ∈ List.replicate (ms / maxSegmentMs) (pause maxSegmentMs) := by
    rw [pauses] at h
    split at h
    · rw [List.append_nil] at h
      exact List.mem_of_mem_dropLast h
    · rwa [List.dropLast_concat] at h
  rw [(List.mem_replicate.mp hfull).2, durationMs_pause]

end Record

namespace Draft

open Record (pause pauses spellAll totalMs)

variable {b : Draft} {ms : Nat}

/-- A record without control points leaves everything as it is but the bytes. -/
theorem write_pause (b : Draft) (ms : Nat) :
    b.write (pause ms) = { b with bytes := b.bytes ++ (pause ms).toBytes } := rfl

/-- More bytes are as settled as fewer: the last pose has not changed. -/
theorem Settled.withBytes (h : b.Settled) (bytes : Bytes) : { b with bytes := bytes }.Settled :=
  ⟨h.scale, h.encode, h.decode⟩

theorem Settled.stays (h : b.Settled) (axis : Axis) : b.Stays [b.last] axis := by
  refine .inr fun p hp => ?_
  rw [List.mem_singleton.mp hp]
  exact Quantum.encodePose_eq_ok_iff.mp h.encode axis

/-- The record that leads to the last pose itself stores nothing. -/
theorem Settled.recordOf_last (h : b.Settled) (hms : ms ≤ maxSegmentMs) :
    b.recordOf [b.last] ms = .ok (pause ms) := by
  obtain ⟨r, hr⟩ := exists_recordOf_point h.encode hms
  have hformats : r.formats = Axes.all .constant := by
    apply Axes.ext_get
    intro axis
    rw [(axis_of_recordOf hr axis).1.mpr (h.stays axis)]
    cases axis <;> rfl
  have hraws : r.raws = Axes.all [] := by
    apply Axes.ext_get
    intro axis
    rw [(axis_of_recordOf hr axis).2.1 (h.stays axis)]
    cases axis <;> rfl
  rw [hr, pause, ← hformats, ← hraws, ← durationMs_of_recordOf hr]

/-- A settled draft holds for any time for which the pieces suffice. -/
theorem Settled.holdPieces (h : b.Settled) {pieces : Nat} (hms : ms ≤ maxSegmentMs * pieces) :
    holdPieces pieces ms b = .ok () { b with bytes := b.bytes ++ spellAll (pauses ms) } := by
  induction pieces generalizing b ms with
  | zero =>
    obtain rfl : ms = 0 := Nat.le_zero.mp hms
    simp [Draft.holdPieces, pure, EStateM.pure]
  | succ pieces ih =>
    rw [holdPieces_succ]
    split
    · rename_i hzero
      simp [hzero]
    · rename_i hzero
      have hpiece : appendSegment [b.last] (min ms maxSegmentMs) b =
          .ok () (b.write (pause (min ms maxSegmentMs))) :=
        appendSegment_eq_ok_iff.mpr ⟨_, h.recordOf_last (min_le_right _ _), rfl⟩
      have hbytes (l l' : List UInt8) : b.bytes ++ l ++ l' = b.bytes ++ (l ++ l') :=
        Array.ext' (by simp)
      rw [Nat.mul_succ] at hms
      refine andThen_eq_ok_iff.mpr ⟨_, hpiece, ?_⟩
      rw [write_pause, ih (h.withBytes _) (by omega), hbytes,
        Record.pauses_of_pos (Nat.pos_of_ne_zero hzero), Record.spellAll_cons]

/-- Holding holds. From every draft that calls can lead to, a hold succeeds for
any time. It appends as many records as the time needs, of three bytes each, in
which no axis moves; all but the last are full, and together they last that
time. Nothing else of the draft changes: not the last pose, nor what is stored
for it. -/
theorem holding_appends_pauses (h : b.Reachable) (ms : Nat) :
    ∃ rs, hold ms b = .ok () { b with bytes := b.bytes ++ spellAll rs } ∧
      rs.length = (ms + 59999) / 60000 ∧ totalMs rs = ms ∧
      (∀ r ∈ rs, r.WellFormed ∧ r.formats = Axes.all .constant ∧ r.toBytes.length = 3 ∧
        0 < r.durationMs ∧ r.durationMs ≤ 60000) ∧
      ∀ r ∈ rs.dropLast, r.durationMs = 60000 := by
  obtain ⟨start, rs, hholds⟩ := h.holds
  refine ⟨pauses ms, ?_, Record.length_pauses ms, Record.totalMs_pauses ms, ?_, ?_⟩
  · exact (h.encoded.settled hholds).holdPieces
      (Nat.lt_mul_div_succ ms (show 0 < maxSegmentMs by decide)).le
  · intro r hm
    obtain ⟨part, hpos, hpart, rfl⟩ := Record.exists_of_mem_pauses hm
    exact ⟨Record.wellFormed_pause hpart, rfl, Record.length_pause part, hpos, hpart⟩
  · intro r hm
    exact Record.full_of_mem_dropLast_pauses hm

/-- Two and a half minutes behind a line that also turns. -/
theorem a_long_hold_takes_three_records : ∃ b₀ b rs, new 10 true = .ok b₀ ∧
    left (Call.run (.line ⟨1000, -20, 4300, 725⟩ 5000) b₀) = b ∧
    b.lastRaw = ⟨100, -2, 430, 50⟩ ∧
    hold 150000 b = .ok () { b with bytes := b.bytes ++ spellAll rs } ∧
    rs.length = 3 ∧ totalMs rs = 150000 := by
  obtain ⟨b₀, hnew, hraws⟩ : ∃ b₀, new 10 true = .ok b₀ ∧
      (left (Call.run (.line ⟨1000, -20, 4300, 725⟩ 5000) b₀)).lastRaw = ⟨100, -2, 430, 50⟩ :=
    ⟨_, rfl, by decide +kernel⟩
  obtain ⟨rs, hhold, hlength, htotal, -, -⟩ := holding_appends_pauses
    ((Reachable.new hnew).call (.line ⟨1000, -20, 4300, 725⟩ 5000)) 150000
  exact ⟨b₀, _, rs, hnew, rfl, hraws, hhold, hlength.trans (by decide), htotal⟩

end Draft

end DroneShow
