-- The trajectory that a cut leaves: the records passed before its time and at
-- most one more, a shortened one. So it can be walked to its end, and ends at
-- that time or where it ended before.
import DroneShow.Proofs.Trajectory.Cut
import DroneShow.Proofs.Trajectory.CutPlace
import DroneShow.Proofs.Trajectory.CutRecord

namespace DroneShow.Trajectory

open Binary
open Record (Spells spellAll totalMs)

variable {tr tr' : Trajectory} {t ms : Single} {rs more : List Record} {rest : List UInt8}

/-! ## What is kept -/

/-- What a cut at `ms` keeps of the bytes behind the records it has passed:
nothing, as there are none or as the records end just then, or the first
record with the same formats and a shorter duration. -/
inductive Kept (ms : Single) (rs : List Record) : List UInt8 → List Record → Prop
  | all : Kept ms rs [] []
  | none {rest : List UInt8} : (Binary.ofNat (totalMs rs)).same ms = true → Kept ms rs rest []
  | shortened {r r' : Record} {rest : List UInt8} : r.WellFormed → r'.WellFormed →
    r'.formats = r.formats → 0 < r'.durationMs → r'.durationMs < r.durationMs →
    totalMs rs + r.durationMs ≤ timeLimit →
    (Binary.ofNat (totalMs rs + r'.durationMs)).same ms = true →
    Kept ms rs (r.toBytes ++ rest) [r']

theorem Kept.wellFormed (h : Kept ms rs rest more) : ∀ r ∈ more, r.WellFormed := by
  cases h with
  | all => simp
  | none => simp
  | shortened _ hr' => simpa using hr'

theorem Kept.inTime (h : Kept ms rs rest more) (hrs : totalMs rs ≤ timeLimit) :
    totalMs (rs ++ more) ≤ timeLimit := by
  cases h with
  | all => simpa using hrs
  | none => simpa using hrs
  | shortened _ _ _ _ hlt htime =>
    rw [Record.totalMs_append, Record.totalMs_cons, Record.totalMs_nil]
    omega

theorem wellFormed_of_restricted {s : Segment} {u : Single} {r : Record} {scale : Nat}
    {raws : Axes (List Int)} (durationMs : Nat) (hfits : Fits s r) (hms : durationMs < 65536)
    (hraws : restrictedRaws scale s u = .ok raws) :
    Record.WellFormed ⟨r.formats, durationMs, raws⟩ := by
  have haxis := Axes.ofFnM_eq_ok_iff.mp hraws
  refine ⟨hms, ?_, ?_⟩
  · intro axis
    exact (mapM_length (haxis axis)).trans (hfits.length_restricted u axis)
  · intro axis raw hraw
    obtain ⟨p, -, hp⟩ := exists_of_mem_mapM (haxis axis) hraw
    exact Quantum.stored_of_encode hp

theorem Parsed.headerLength_le (h : tr.Parsed) : tr.headerLength ≤ tr.bytes.size := by
  cases hempty : tr.isEmpty with
  | true =>
    unfold Parsed ofBuffer at h
    rw [show tr.buffer.isEmpty = true from hempty, if_pos rfl] at h
    rw [← Except.ok.inj h]
    exact Nat.zero_le _
  | false =>
    obtain ⟨hhead, hdecode⟩ := h.header hempty
    rw [hhead]
    exact Header.size_of_decode hdecode

theorem Passed.bytes_eq (h : Passed tr ms rs rest) :
    tr.bytes.toList = (tr.bytes.toList.take tr.headerLength ++ spellAll rs) ++ rest := by
  rw [List.append_assoc, ← h.bytes, List.take_append_drop]

theorem Passed.length_front (h : tr.headerLength ≤ tr.bytes.size) (rs : List Record) :
    (tr.bytes.toList.take tr.headerLength ++ spellAll rs).length =
      tr.headerLength + (spellAll rs).length := by
  rw [List.length_append, List.length_take, Array.length_toList, Nat.min_eq_left h]

/-- Shortening the record behind `front` to its part before the millisecond `k`. -/
theorem shorten_ofRecord {front : List UInt8} {startMs k : Nat} {p : Pose} {r : Record}
    (howned : tr.isOwned = true) (hr : r.WellFormed)
    (hbytes : tr.bytes.toList = front ++ (r.toBytes ++ rest)) (hk : ms.Represents (k : ℚ))
    (hlimit : k ≤ timeLimit) :
    shorten (Segment.ofRecord front.length startMs p tr.scale r) ms tr = .ok () tr' ↔
      ∃ raws, restrictedRaws tr.scale (Segment.ofRecord front.length startMs p tr.scale r)
          (Binary.ofNat (k - startMs) / Binary.ofNat r.durationMs) = .ok raws ∧
        tr' = tr.holding (front ++ Record.toBytes ⟨r.formats, k - startMs, raws⟩) := by
  have hfits : Fits (Segment.ofRecord front.length startMs p tr.scale r) r := fits_ofRecord hr
  have hinplace := shorten_eq_ok_iff tr tr' ms front rest hfits rfl rfl
  rw [← hbytes, holding_bytes howned, msInto_of_represents _ hk hlimit] at hinplace
  exact hinplace

/-- Shortening the record under a cut to the millisecond `k` of the cut. -/
theorem shorten_inside {r : Record} (hhead : tr.headerLength ≤ tr.bytes.size)
    (howned : tr.isOwned = true) (ht : t.isNaN = false)
    (hpassed : Passed tr (cutMs t) rs (r.toBytes ++ rest)) (hr : r.WellFormed)
    (htime : totalMs rs + r.durationMs ≤ timeLimit) (hstart : Binary.ofNat (totalMs rs) < cutMs t)
    (hend : cutMs t < Binary.ofNat (totalMs rs + r.durationMs)) :
    ∃ k, totalMs rs < k ∧ k < totalMs rs + r.durationMs ∧ (cutMs t).Represents (k : ℚ) ∧
      ∀ tr', shorten (Segment.ofRecord (tr.headerLength + (spellAll rs).length) (totalMs rs)
          (Record.endPose tr.scale tr.start rs) tr.scale r) (cutMs t) tr = .ok () tr' ↔
        ∃ raws, restrictedRaws tr.scale (Segment.ofRecord (tr.headerLength + (spellAll rs).length)
            (totalMs rs) (Record.endPose tr.scale tr.start rs) tr.scale r)
            (Binary.ofNat (k - totalMs rs) / Binary.ofNat r.durationMs) = .ok raws ∧
          tr' = tr.holding (tr.bytes.toList.take tr.headerLength ++ spellAll rs ++
            Record.toBytes ⟨r.formats, k - totalMs rs, raws⟩) := by
  obtain ⟨k, hlow, hhigh, hk⟩ := cutMs_between ht hstart hend
  refine ⟨k, hlow, hhigh, hk, fun tr' => ?_⟩
  rw [← Passed.length_front hhead rs]
  exact shorten_ofRecord howned hr hpassed.bytes_eq hk (by omega)

/-- What a cut at `ms` leaves of the bytes behind the records it has passed:
nothing, as there are none or as the records end just then, or the first record
with the part of its curve that lies before the cut. -/
inductive Remains (tr : Trajectory) (ms : Single) (rs : List Record) :
    List UInt8 → List Record → Prop
  | all : Remains tr ms rs [] []
  | none {rest : List UInt8} : (Binary.ofNat (totalMs rs)).same ms = true → Remains tr ms rs rest []
  | part {r : Record} {rest : List UInt8} {k : Nat} {raws : Axes (List Int)} : r.WellFormed →
    totalMs rs + r.durationMs ≤ timeLimit → 0 < k → k < r.durationMs →
    ms.Represents ((totalMs rs + k : Nat) : ℚ) →
    restrictedRaws tr.scale (Segment.ofRecord (tr.headerLength + (spellAll rs).length) (totalMs rs)
      (Record.endPose tr.scale tr.start rs) tr.scale r)
      (Binary.ofNat k / Binary.ofNat r.durationMs) = .ok raws →
    Remains tr ms rs (r.toBytes ++ rest) [⟨r.formats, k, raws⟩]

theorem Remains.kept (h : Remains tr ms rs rest more) : Kept ms rs rest more := by
  cases h with
  | all => exact .all
  | none hsame => exact .none hsame
  | @part r rest k raws hr htime hpos hlt hms hraws =>
    have hlimit := hr.duration_lt
    have hwf := wellFormed_of_restricted k (fits_ofRecord hr) (by omega) hraws
    refine .shortened hr hwf rfl hpos hlt htime ?_
    exact same_of_represents (ofNat_represents hms.exact) hms

/-- A cut that succeeds leaves the records before its time and what `Remains` says. -/
theorem cutAt_remains (hp : tr.Parsed) (howned : tr.isOwned = true) (ht : t.isNaN = false)
    (h : cutAt t tr = .ok () tr') : ∃ rs rest more, Passed tr (cutMs t) rs rest ∧
      Remains tr (cutMs t) rs rest more ∧
      tr' = tr.holding (tr.bytes.toList.take tr.headerLength ++ spellAll (rs ++ more)) := by
  unfold cutAt at h
  rw [ht, if_neg Bool.false_ne_true, howned, Bool.not_true, if_neg Bool.false_ne_true] at h
  have hhead := hp.headerLength_le
  cases hplace : tr.cutPlace (cutMs t) with
  | error e =>
    rw [hplace] at h
    cases h
  | ok place =>
    obtain ⟨rs, rest, hpassed, hbehind⟩ := cutPlace_behind (cutMs_nonneg ht) hplace
    have hbytes := hpassed.bytes_eq
    rw [hplace] at h
    cases hbehind with
    | past =>
      cases h
      refine ⟨rs, [], [], hpassed, .all, ?_⟩
      rw [List.append_nil] at hbytes
      rw [List.append_nil, ← hbytes, holding_bytes howned]
    | boundary hle =>
      cases h
      refine ⟨rs, rest, [], hpassed, .none (same_iff.mpr ⟨hpassed.notAfter, hle⟩), ?_⟩
      rw [truncate_eq_holding, ← Passed.length_front hhead rs, List.append_nil]
      congr 1
      exact (congrArg (List.take _) hbytes).trans List.take_left
    | @inside r rest' hr htime hstart hend =>
      obtain ⟨k, hlow, hhigh, hk, hshorten⟩ :=
        shorten_inside hhead howned ht hpassed hr htime hstart hend
      obtain ⟨raws, hraws, rfl⟩ := (hshorten tr').mp h
      refine ⟨rs, _, [⟨r.formats, k - totalMs rs, raws⟩], hpassed, ?_, by simp⟩
      refine .part hr htime (by omega) (by omega) ?_ hraws
      rwa [Nat.add_sub_cancel' hlow.le]

theorem cutAt_eq_ok (hp : tr.Parsed) (howned : tr.isOwned = true) (ht : t.isNaN = false)
    (h : cutAt t tr = .ok () tr') : ∃ rs rest more, Passed tr (cutMs t) rs rest ∧
      Kept (cutMs t) rs rest more ∧
      tr' = tr.holding (tr.bytes.toList.take tr.headerLength ++ spellAll (rs ++ more)) := by
  obtain ⟨rs, rest, more, hpassed, hremains, heq⟩ := cutAt_remains hp howned ht h
  exact ⟨rs, rest, more, hpassed, hremains.kept, heq⟩

/-! ## The walk over the rest -/

theorem totalMs_le_of_durationMs {d : Nat} (hrs : ∀ r ∈ rs, r.WellFormed)
    (hbytes : tr.bytes.toList.drop tr.headerLength = spellAll rs ++ rest)
    (hms : totalMs rs ≤ timeLimit) (h : tr.durationMs = .ok d) : totalMs rs ≤ d := by
  obtain ⟨rs', rest', hrest, hrs', htotal, hstop⟩ := Record.exists_series (totalMs rs) hms rest
  rw [← Record.totalMs_append] at htotal hstop
  have hall : ∀ r ∈ rs ++ rs', r.WellFormed := List.forall_mem_append.mpr ⟨hrs, hrs'⟩
  rw [hrest, ← List.append_assoc, ← Record.spellAll_append] at hbytes
  rcases hstop with rfl | ⟨e, he⟩
  · rw [List.append_nil] at hbytes
    rw [durationMs_of_spells ⟨hall, hbytes⟩ htotal, Record.totalMs_append] at h
    cases h
    omega
  · rw [durationMs_eq_error_iff.mpr (finalHold_of_offends hall hbytes htotal he)] at h
    cases h

theorem Kept.totalMs_le {d : Nat} (h : Kept ms rs rest more) (hpassed : Passed tr ms rs rest)
    (hd : tr.durationMs = .ok d) : totalMs (rs ++ more) ≤ d := by
  obtain ⟨hrs, hbytes, htime, -⟩ := hpassed
  cases h with
  | all =>
    rw [List.append_nil]
    exact totalMs_le_of_durationMs hrs hbytes htime hd
  | none =>
    rw [List.append_nil]
    exact totalMs_le_of_durationMs hrs hbytes htime hd
  | @shortened r r' rest' hr _ _ _ hlt hend _ =>
    have hwith : totalMs (rs ++ [r]) ≤ d := by
      have hfront : tr.bytes.toList.drop tr.headerLength = spellAll (rs ++ [r]) ++ rest' := by
        rw [hbytes]
        simp
      exact totalMs_le_of_durationMs (List.forall_mem_append.mpr ⟨hrs, by simpa using hr⟩)
        hfront (by simpa using hend) hd
    rw [Record.totalMs_append, Record.totalMs_cons, Record.totalMs_nil] at hwith ⊢
    omega

theorem Kept.spells (h : Kept ms rs rest more) (hpassed : Passed tr ms rs rest)
    (hhead : tr.headerLength ≤ tr.bytes.size) :
    Spells (rs ++ more) ((tr.holding (tr.bytes.toList.take tr.headerLength ++
      spellAll (rs ++ more))).bytes.toList.drop tr.headerLength) := by
  refine ⟨List.forall_mem_append.mpr ⟨hpassed.wellFormed, h.wellFormed⟩, ?_⟩
  rw [bytes_holding]
  refine List.drop_left' ?_
  rw [List.length_take, Array.length_toList, Nat.min_eq_left hhead]

/-! ## The law -/

/-- A cut that succeeds leaves a trajectory with a duration and an end. Either
its bytes are those before and it ends not after the time of the cut, or it
ends just then. It has the header of the trajectory before and its records up
to one of them, and then nothing or that one with a shorter duration. It never
lasts longer than before. -/
theorem cut_ends_at_its_time {bytes : Bytes} (hp : ofBytes bytes = .ok tr) (ht : t.isNaN = false)
    (h : cutAt t tr = .ok () tr') : ∃ rs rest more,
    (∀ r ∈ rs, r.WellFormed) ∧ tr.bytes.toList.drop tr.headerLength = spellAll rs ++ rest ∧
    tr'.durationMs = .ok (totalMs (rs ++ more)) ∧
    tr'.endPose = .ok (Record.endPose tr.scale tr.start (rs ++ more)) ∧
    (tr'.bytes = tr.bytes ∧ Binary.ofNat (totalMs (rs ++ more)) ≤ cutMs t ∨
      (Binary.ofNat (totalMs (rs ++ more))).same (cutMs t) = true) ∧
    tr' = { tr with buffer := tr'.buffer } ∧
    tr'.bytes.toList.take tr.headerLength = tr.bytes.toList.take tr.headerLength ∧
    tr'.bytes.toList =
      tr.bytes.toList.take (tr.headerLength + (spellAll rs).length) ++ spellAll more ∧
    (more = [] ∨ ∃ (r r' : Record) (rest' : List UInt8), more = [r'] ∧
      rest = r.toBytes ++ rest' ∧ r.WellFormed ∧ r'.WellFormed ∧ r'.formats = r.formats ∧
      r'.toBytes.length = r.toBytes.length ∧ 0 < r'.durationMs ∧ r'.durationMs < r.durationMs) ∧
    ∀ d, tr.durationMs = .ok d → totalMs (rs ++ more) ≤ d := by
  obtain ⟨hparsed, -⟩ := parsed_of_ofBuffer hp
  have howned := isOwned_of_ofBytes hp
  have hhead := hparsed.headerLength_le
  obtain ⟨rs, rest, more, hpassed, hkept, rfl⟩ := cutAt_eq_ok hparsed howned ht h
  have hspells := hkept.spells hpassed hhead
  have htime := hkept.inTime hpassed.inTime
  have hfront : tr.bytes.toList.take (tr.headerLength + (spellAll rs).length) =
      tr.bytes.toList.take tr.headerLength ++ spellAll rs := by
    rw [← Passed.length_front hhead rs]
    exact (congrArg (List.take _) hpassed.bytes_eq).trans List.take_left
  refine ⟨rs, rest, more, hpassed.wellFormed, hpassed.bytes, durationMs_of_spells hspells htime,
    endPose_of_spells hspells htime, ?_, rfl, ?_, ?_, ?_, fun d hd => hkept.totalMs_le hpassed hd⟩
  · cases hkept with
    | all =>
      left
      refine ⟨?_, by simpa using hpassed.notAfter⟩
      have hbytes := hpassed.bytes_eq
      rw [List.append_nil] at hbytes
      rw [List.append_nil, ← hbytes, holding_bytes howned]
    | none hsame => exact .inr (by simpa using hsame)
    | shortened _ _ _ _ _ _ hsame => exact .inr (by simpa using hsame)
  · rw [bytes_holding]
    refine List.take_left' ?_
    rw [List.length_take, Array.length_toList, Nat.min_eq_left hhead]
  · rw [bytes_holding, hfront, Record.spellAll_append, List.append_assoc]
  · cases hkept with
    | all => exact .inl rfl
    | none => exact .inl rfl
    | @shortened r r' rest' hr hr' hformats hpos hlt _ _ =>
      right
      refine ⟨r, r', rest', rfl, rfl, hr, hr', hformats, ?_, hpos, hlt⟩
      rw [hr.length_toBytes, hr'.length_toBytes, hformats]

/-- A climb of one second, cut at a half. -/
theorem a_climb_is_cut_at_a_half : ∃ tr tr' d,
    ofBytes #[1, 0, 0, 0, 0, 0, 0, 0, 0, 0x10, 0xe8, 0x03, 10, 0] = .ok tr ∧
    cutAt (.ofDecimal false 5 (-1)) tr = .ok () tr' ∧ tr'.bytes ≠ tr.bytes ∧
    tr'.durationMs = .ok d ∧
    (Binary.ofNat d).same (cutMs (.ofDecimal false 5 (-1))) = true ∧ d ≤ 1000 := by
  obtain ⟨tr, hparse, hruns, hbytes, hms⟩ : ∃ tr,
      ofBytes #[1, 0, 0, 0, 0, 0, 0, 0, 0, 0x10, 0xe8, 0x03, 10, 0] = .ok tr ∧
      (answer (cutAt (.ofDecimal false 5 (-1)) tr)).isOk = true ∧
      (left (cutAt (.ofDecimal false 5 (-1)) tr)).bytes ≠ tr.bytes ∧
      tr.durationMs = .ok 1000 := ⟨_, rfl, by decide +kernel, by decide +kernel, rfl⟩
  have hcut := eq_ok_left hruns
  obtain ⟨rs, rest, more, -, -, hduration, -, hend, -, -, -, -, hshorter⟩ :=
    cut_ends_at_its_time hparse (by decide) hcut
  refine ⟨tr, _, _, hparse, hcut, hbytes, hduration, ?_, hshorter 1000 hms⟩
  rcases hend with ⟨hsame, -⟩ | hend
  · exact absurd hsame hbytes
  · exact hend

end DroneShow.Trajectory
