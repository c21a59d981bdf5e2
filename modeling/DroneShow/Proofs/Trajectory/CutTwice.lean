-- Two cuts of one trajectory. A cut is told by the records: which of them it
-- passes, and what it leaves of the one under it. So a later cut finds nothing
-- to do behind an earlier one, and an earlier one does not see a later one,
-- unless that has changed the record under it.
import DroneShow.Proofs.Trajectory.Faults

namespace DroneShow

open Binary
open Record (Spells spellAll totalMs)

/-- Both times are milliseconds strictly inside the same one of the segments. -/
def Segment.Shared (ms ms' : Single) (segments : List Segment) : Prop :=
  ∃ s ∈ segments, ∃ k k' : Nat, ms.Represents (k : ℚ) ∧ ms'.Represents (k' : ℚ) ∧
    s.startMs < k ∧ k ≤ k' ∧ k' < s.startMs + s.durationMs

namespace Record

variable {scale startMs : Nat} {ms ms' : Single} {p : Pose} {rs rs' once later : List Record}

/-- What a cut at `ms` leaves of records in a row, the first of which begins at
`startMs` and at the pose `p`. -/
inductive Cut (scale : Nat) (ms : Single) : Nat → Pose → List Record → List Record → Prop
  | past {startMs : Nat} {p : Pose} : Cut scale ms startMs p [] []
  | boundary {startMs : Nat} {p : Pose} {r : Record} {rs : List Record} :
    ms ≤ Binary.ofNat startMs → Cut scale ms startMs p (r :: rs) []
  | inside {startMs k : Nat} {p : Pose} {r : Record} {rs : List Record}
    {raws : Axes (List Int)} :
    Binary.ofNat startMs < ms → ms < Binary.ofNat (startMs + r.durationMs) →
    ms.Represents (k : ℚ) → startMs < k → k < startMs + r.durationMs →
    Trajectory.restrictedRaws scale (Segment.ofRecord 0 startMs p scale r)
      (Binary.ofNat (k - startMs) / Binary.ofNat r.durationMs) = .ok raws →
    Cut scale ms startMs p (r :: rs) [⟨r.formats, k - startMs, raws⟩]
  | passed {startMs : Nat} {p : Pose} {r : Record} {rs rs' : List Record} :
    Binary.ofNat startMs < ms → Binary.ofNat (startMs + r.durationMs) ≤ ms →
    Cut scale ms (startMs + r.durationMs) (endPose scale p [r]) rs rs' →
    Cut scale ms startMs p (r :: rs) (r :: rs')

/-! ## Cuts of records -/

theorem Cut.wellFormed (h : Cut scale ms startMs p rs rs') (hrs : ∀ r ∈ rs, r.WellFormed) :
    ∀ r ∈ rs', r.WellFormed := by
  induction h with
  | past => exact hrs
  | boundary => simp
  | inside _ _ _ _ hhigh hraws =>
    intro r' hm
    have hr := hrs _ List.mem_cons_self
    rw [List.mem_singleton.mp hm]
    have hlt := hr.duration_lt
    exact Trajectory.wellFormed_of_restricted _ (Trajectory.fits_ofRecord hr) (by omega) hraws
  | passed _ _ _ ih =>
    obtain ⟨hr, hrs⟩ := List.forall_mem_cons.mp hrs
    exact List.forall_mem_cons.mpr ⟨hr, ih hrs⟩

theorem Cut.totalMs_le (h : Cut scale ms startMs p rs rs') : totalMs rs' ≤ totalMs rs := by
  induction h with
  | past => exact le_rfl
  | boundary => exact Nat.zero_le _
  | inside =>
    simp only [totalMs_cons, totalMs_nil]
    omega
  | passed _ _ _ ih =>
    simp only [totalMs_cons]
    omega

/-- What a cut leaves ends up to its time, so that a later cut passes it all. -/
theorem Cut.again (h : Cut scale ms startMs p rs rs') (hle : ms ≤ ms') :
    Cut scale ms' startMs p rs' rs' := by
  induction h with
  | past => exact .past
  | boundary => exact .past
  | @inside startMs k p r rs raws hstart _ hk hlow _ _ =>
    refine .passed (Binary.lt_of_lt_of_le hstart hle) ?_ .past
    show Binary.ofNat (startMs + (k - startMs)) ≤ ms'
    rw [Nat.add_sub_cancel' hlow.le]
    exact Binary.le_trans ((ofNat_represents hk.exact).rounds.mono hk.rounds le_rfl) hle
  | passed hstart hend _ ih =>
    exact .passed (Binary.lt_of_lt_of_le hstart hle) (Binary.le_trans hend hle) ih

/-- An earlier cut stops at the record at which it stops without the later cut,
and leaves the same of it, unless both cuts fall into that record. -/
theorem Cut.earlier (hlater : Cut scale ms' startMs p rs later) (hle : ms ≤ ms')
    (honce : Cut scale ms startMs p rs once) (offset : Nat) :
    Cut scale ms startMs p later once ∨
      Segment.Shared ms ms' (Segment.ofRecords scale offset startMs p rs) := by
  induction hlater generalizing offset once with
  | past => exact .inl honce
  | boundary hbound =>
    cases honce with
    | boundary => exact .inl .past
    | inside hstart => exact absurd hstart (Binary.not_lt_of_le (Binary.le_trans hle hbound))
    | passed hstart => exact absurd hstart (Binary.not_lt_of_le (Binary.le_trans hle hbound))
  | @inside startMs k' p r rs raws' hstart' hend' hk' hlow' hhigh' hraws' =>
    cases honce with
    | boundary hbound => exact .inl (.boundary hbound)
    | @inside _ k _ _ _ _ _ _ hk hlow _ _ =>
      have hkk : (k : ℚ) ≤ k' := (le_iff_of_represents hk hk').mp hle
      exact .inr ⟨_, List.mem_cons_self, k, k', hk, hk', hlow, by exact_mod_cast hkk, hhigh'⟩
    | passed _ hend => exact absurd hend' (Binary.not_lt_of_le (Binary.le_trans hend hle))
  | @passed startMs p r rs rs' hstart' hend' _ ih =>
    cases honce with
    | boundary hbound => exact .inl (.boundary hbound)
    | inside hstart hend hk hlow hhigh hraws =>
      exact .inl (.inside hstart hend hk hlow hhigh hraws)
    | passed hstart hend hrest =>
      rcases ih hrest (offset + Record.length r.formats) with hsame | ⟨s, hs, hshare⟩
      · exact .inl (.passed hstart hend hsame)
      · rw [← finish_ofRecord offset startMs] at hs
        exact .inr ⟨s, List.mem_cons_of_mem _ hs, hshare⟩

end Record

namespace Trajectory

variable {tr : Trajectory} {t t₁ t₂ ms : Single} {rs rs' : List Record} {startMs : Nat}
  {p : Pose}

/-! ## Cuts of trajectories -/

/-- What a cut does at the place that it has found. -/
def CutPlace.edit (ms : Single) : CutPlace → Edit Unit
  | .past => pure ()
  | .boundary offset => modify (·.truncate offset)
  | .inside s => shorten s ms

theorem cutAt_of_place {place : CutPlace} (ht : t.isNaN = false) (howned : tr.isOwned = true)
    (h : tr.cutPlace (cutMs t) = .ok place) : cutAt t tr = place.edit (cutMs t) tr := by
  unfold cutAt
  rw [ht, howned, h]
  cases place <;> rfl

/-- The search from the first of some records that end in time. -/
theorem cutPlaceFrom_cons {front : List UInt8} {r : Record} (ms : Single) (p : Pose) (steps : Nat)
    (hr : r.WellFormed) (hms : startMs + totalMs (r :: rs) ≤ timeLimit)
    (hbytes : tr.bytes.toList = front ++ spellAll (r :: rs)) :
    tr.segmentAt front.length startMs p =
      .ok (Segment.ofRecord front.length startMs p tr.scale r) ∧
    tr.cutPlaceFrom ms ((r :: rs).length + steps)
        (Segment.ofRecord front.length startMs p tr.scale r) =
      if ms ≤ Binary.ofNat startMs then .ok (.boundary front.length)
      else if ms < Binary.ofNat (startMs + r.durationMs) then
        .ok (.inside (Segment.ofRecord front.length startMs p tr.scale r))
      else
        tr.segmentAt (front ++ r.toBytes).length (startMs + r.durationMs)
          (Record.endPose tr.scale p [r]) >>= tr.cutPlaceFrom ms (rs.length + steps) := by
  rw [Record.totalMs_cons] at hms
  have htime : startMs + r.durationMs ≤ timeLimit := by omega
  have hdrop : tr.bytes.toList.drop front.length = r.toBytes ++ spellAll rs := by
    rw [hbytes, List.drop_left, Record.spellAll_cons]
  refine ⟨Segment.decode_of_record p tr.scale hr htime hdrop, ?_⟩
  rw [List.length_cons, Nat.add_right_comm, cutPlaceFrom_record _ p hr htime, List.length_append]

/-- The search finds the place that the records tell, and the edit there leaves
the records that it tells. The induction follows the records passed. -/
theorem exists_cutPlaceFrom {front : List UInt8} (steps : Nat) (howned : tr.isOwned = true)
    (h : Record.Cut tr.scale ms startMs p rs rs') (hrs : ∀ r ∈ rs, r.WellFormed)
    (hms : startMs + totalMs rs ≤ timeLimit) (hbytes : tr.bytes.toList = front ++ spellAll rs) :
    ∃ s place, tr.segmentAt front.length startMs p = .ok s ∧
      tr.cutPlaceFrom ms (rs.length + steps) s = .ok place ∧
      place.edit ms tr = .ok () (tr.holding (front ++ spellAll rs')) := by
  induction h generalizing front with
  | past =>
    have hdrop : tr.bytes.toList.drop front.length = [] := by rw [hbytes, List.drop_left]; rfl
    refine ⟨_, .past, Segment.decode_of_end _ _ hdrop, ?_, ?_⟩
    · rw [List.length_nil, Nat.zero_add]
      cases steps <;> rfl
    · rw [← hbytes, holding_bytes howned]
      rfl
  | @boundary startMs p r rs hbound =>
    obtain ⟨hs, hstep⟩ := cutPlaceFrom_cons ms p steps (hrs r List.mem_cons_self) hms hbytes
    refine ⟨_, .boundary front.length, hs, ?_, ?_⟩
    · rw [hstep, if_pos hbound]
    · have hkept : tr.truncate front.length = tr.holding front := by
        rw [truncate_eq_holding, hbytes, List.take_left]
      rw [Record.spellAll_nil, List.append_nil, ← hkept]
      rfl
  | @inside startMs k p r rs raws hstart hend hk hlow hhigh hraws =>
    have hr := hrs r List.mem_cons_self
    obtain ⟨hs, hstep⟩ := cutPlaceFrom_cons ms p steps hr hms hbytes
    refine ⟨_, .inside (Segment.ofRecord front.length startMs p tr.scale r), hs, ?_, ?_⟩
    · rw [hstep, if_neg fun hle => Binary.not_lt_of_le hle hstart, if_pos hend]
    · rw [Record.totalMs_cons] at hms
      rw [Record.spellAll_cons] at hbytes
      rw [Record.spellAll_cons, Record.spellAll_nil, List.append_nil]
      exact (shorten_ofRecord howned hr hbytes hk (by omega)).mpr ⟨raws, hraws, rfl⟩
  | @passed startMs p r rs rs' hstart hend hrest ih =>
    obtain ⟨hr, hrs⟩ := List.forall_mem_cons.mp hrs
    obtain ⟨hs, hstep⟩ := cutPlaceFrom_cons ms p steps hr hms hbytes
    rw [Record.totalMs_cons, ← Nat.add_assoc] at hms
    rw [Record.spellAll_cons, ← List.append_assoc] at hbytes
    obtain ⟨s, place, hnext, hplace, hedit⟩ := ih hrs hms hbytes
    refine ⟨_, place, hs, ?_, ?_⟩
    · rw [hstep, if_neg fun hle => Binary.not_lt_of_le hle hstart,
        if_neg (Binary.not_lt_of_le hend), hnext]
      exact hplace
    · rw [hedit, Record.spellAll_cons, List.append_assoc]

/-- The trajectory with other records behind its header. -/
def withRecords (tr : Trajectory) (rs : List Record) : Trajectory :=
  tr.holding (tr.bytes.toList.take tr.headerLength ++ spellAll rs)

theorem withRecords_of_spells (howned : tr.isOwned = true)
    (h : Spells rs (tr.bytes.toList.drop tr.headerLength)) : tr.withRecords rs = tr := by
  rw [withRecords, ← h.bytes, List.take_append_drop, holding_bytes howned]

theorem cutAt_withRecords (hhead : tr.headerLength ≤ tr.bytes.size) (ht : t.isNaN = false)
    (hrs : ∀ r ∈ rs, r.WellFormed) (hms : totalMs rs ≤ timeLimit)
    (h : Record.Cut tr.scale (cutMs t) 0 tr.start rs rs') :
    cutAt t (tr.withRecords rs) = .ok () (tr.withRecords rs') := by
  have hfront : (tr.bytes.toList.take tr.headerLength).length = tr.headerLength := by
    rw [List.length_take, Array.length_toList, Nat.min_eq_left hhead]
  have howned : (tr.withRecords rs).isOwned = true := rfl
  have hbytes : (tr.withRecords rs).bytes.toList =
      tr.bytes.toList.take tr.headerLength ++ spellAll rs := rfl
  have hbehind : (tr.withRecords rs).bytes.toList.drop (tr.withRecords rs).headerLength =
      spellAll rs ++ [] := by
    rw [hbytes, List.append_nil]
    exact List.drop_left' hfront
  obtain ⟨steps, hsteps⟩ := exists_maxSteps hrs hbehind
  obtain ⟨s, place, hs, hplace, hedit⟩ :=
    exists_cutPlaceFrom steps howned h hrs (by rwa [Nat.zero_add]) hbytes
  rw [hfront] at hs
  refine (cutAt_of_place ht howned ?_).trans hedit
  unfold cutPlace firstSegment
  rw [hsteps]
  exact bind_eq_ok_iff.mpr ⟨s, hs, hplace⟩

theorem Parsed.exists_cut {before : List Record} (hp : tr.Parsed) (ht : t.isNaN = false)
    (hbefore : ∀ r ∈ before, r.WellFormed) (hrs : ∀ r ∈ rs, r.WellFormed) :
    ∃ rs', Record.Cut tr.scale (cutMs t) (totalMs before)
      (Record.endPose tr.scale tr.start before) rs rs' := by
  have hnan := (isNaN_of_le (cutMs_nonneg ht)).2
  induction rs generalizing before with
  | nil => exact ⟨[], .past⟩
  | cons r rs ih =>
    obtain ⟨hr, hrs⟩ := List.forall_mem_cons.mp hrs
    by_cases hbound : cutMs t ≤ Binary.ofNat (totalMs before)
    · exact ⟨[], .boundary hbound⟩
    have hstart := (Binary.not_le hnan (ofNat_rounds _).isNaN).mp hbound
    by_cases hend : cutMs t < Binary.ofNat (totalMs before + r.durationMs)
    · obtain ⟨k, hlow, hhigh, hk⟩ := cutMs_between ht hstart hend
      obtain ⟨raws, hraws⟩ := hp.exists_restrictedRaws hbefore hr
        (show k - totalMs before < r.durationMs by omega) 0 (totalMs before)
      exact ⟨_, .inside hstart hend hk hlow hhigh hraws⟩
    · have hall : ∀ r' ∈ before ++ [r], r'.WellFormed :=
        List.forall_mem_append.mpr ⟨hbefore, by simpa using hr⟩
      obtain ⟨rs', hrest⟩ := ih hall hrs
      rw [Record.totalMs_append, Record.totalMs_cons, Record.totalMs_nil, Nat.add_zero,
        Record.endPose_append] at hrest
      exact ⟨r :: rs', .passed hstart ((Binary.not_lt hnan (ofNat_rounds _).isNaN).mp hend) hrest⟩

theorem Parsed.exists_cutAt (hp : tr.Parsed) (howned : tr.isOwned = true) (ht : t.isNaN = false)
    (hspells : Spells rs (tr.bytes.toList.drop tr.headerLength)) (hms : totalMs rs ≤ timeLimit) :
    ∃ rs', Record.Cut tr.scale (cutMs t) 0 tr.start rs rs' ∧
      cutAt t tr = .ok () (tr.withRecords rs') := by
  have hnone : ∀ r ∈ ([] : List Record), r.WellFormed := by simp
  obtain ⟨rs', hcut⟩ := hp.exists_cut ht hnone hspells.wellFormed
  have hruns := cutAt_withRecords hp.headerLength_le ht hspells.wellFormed hms hcut
  rw [withRecords_of_spells howned hspells] at hruns
  exact ⟨rs', hcut, hruns⟩

/-- Cuts compose. Each leaves the records that it is told by. What a cut leaves
is the same after the same cut or a later one. A cut after a later one leaves
what it leaves alone, unless both are at milliseconds strictly inside the same
segment. -/
theorem cuts_compose (hp : tr.Parsed) (howned : tr.isOwned = true) (hwalk : tr.Walkable)
    (hle : t₁ ≤ t₂) : ∃ rs rs₁ rs₂, Spells rs (tr.bytes.toList.drop tr.headerLength) ∧
    Record.Cut tr.scale (cutMs t₁) 0 tr.start rs rs₁ ∧
    Record.Cut tr.scale (cutMs t₂) 0 tr.start rs rs₂ ∧
    cutAt t₁ tr = .ok () (tr.withRecords rs₁) ∧ cutAt t₂ tr = .ok () (tr.withRecords rs₂) ∧
    cutAt t₁ (tr.withRecords rs₁) = .ok () (tr.withRecords rs₁) ∧
    cutAt t₂ (tr.withRecords rs₁) = .ok () (tr.withRecords rs₁) ∧
    (cutAt t₁ (tr.withRecords rs₂) = .ok () (tr.withRecords rs₁) ∨
      Segment.Shared (cutMs t₁) (cutMs t₂) tr.course.segments) := by
  obtain ⟨ht₁, ht₂⟩ := isNaN_of_le hle
  have hhead := hp.headerLength_le
  obtain ⟨⟨d, hd⟩, -⟩ := hwalk
  obtain ⟨rs, hspells, rfl, hms⟩ := durationMs_eq_ok_iff.mp hd
  obtain ⟨rs₁, hcut₁, hruns₁⟩ := hp.exists_cutAt howned ht₁ hspells hms
  obtain ⟨rs₂, hcut₂, hruns₂⟩ := hp.exists_cutAt howned ht₂ hspells hms
  have hwf₁ := hcut₁.wellFormed hspells.wellFormed
  have hms₁ := Nat.le_trans hcut₁.totalMs_le hms
  have hagain : ∀ t : Single, t₁ ≤ t →
      cutAt t (tr.withRecords rs₁) = .ok () (tr.withRecords rs₁) := fun t ht =>
    cutAt_withRecords hhead (isNaN_of_le ht).2 hwf₁ hms₁ (hcut₁.again (cutMs_mono ht))
  refine ⟨rs, rs₁, rs₂, hspells, hcut₁, hcut₂, hruns₁, hruns₂, hagain t₁ (Binary.le_refl ht₁),
    hagain t₂ hle, ?_⟩
  rw [course_of_spells hspells hms]
  rcases hcut₂.earlier (cutMs_mono hle) hcut₁ tr.headerLength with hsame | hshared
  · exact .inl (cutAt_withRecords hhead ht₁ (hcut₂.wellFormed hspells.wellFormed)
      (Nat.le_trans hcut₂.totalMs_le hms) hsame)
  · exact .inr hshared

/-- Up for a second and down for another, cut inside either. -/
theorem a_cut_of_the_climb_stays : ∃ tr once later,
    ofBytes #[1, 0, 0, 0, 0, 0, 0, 0, 0, 0x10, 0xe8, 0x03, 10, 0, 0x10, 0xe8, 0x03, 0, 0] =
      .ok tr ∧
    cutAt (.ofDecimal false 5 (-1)) tr = .ok () once ∧ once.bytes ≠ tr.bytes ∧
    cutAt (.ofDecimal false 15 (-1)) tr = .ok () later ∧ later.bytes ≠ once.bytes ∧
    cutAt (.ofDecimal false 15 (-1)) once = .ok () once ∧
    cutAt (.ofDecimal false 5 (-1)) later = .ok () once := by
  obtain ⟨tr, hparse, hwalk, hsegments, hshorter, hother⟩ : ∃ tr,
      ofBytes #[1, 0, 0, 0, 0, 0, 0, 0, 0, 0x10, 0xe8, 0x03, 10, 0, 0x10, 0xe8, 0x03, 0, 0] =
        .ok tr ∧
      tr.Walkable ∧
      (∀ s ∈ tr.course.segments, s.startMs + s.durationMs ≤ 1000 ∨ 1000 ≤ s.startMs) ∧
      (left (cutAt (.ofDecimal false 5 (-1)) tr)).bytes ≠ tr.bytes ∧
      (left (cutAt (.ofDecimal false 15 (-1)) tr)).bytes ≠
        (left (cutAt (.ofDecimal false 5 (-1)) tr)).bytes :=
    ⟨_, rfl, ⟨⟨2000, rfl⟩, ⟨_, rfl⟩⟩, by decide +kernel, by decide +kernel, by decide +kernel⟩
  obtain ⟨_, _, _, -, -, -, honce, hlater, -, hstays, hsame | hshared⟩ :=
    cuts_compose (parsed_of_ofBuffer hparse).1 (isOwned_of_ofBytes hparse) hwalk
      (show (.ofDecimal false 5 (-1) : Single) ≤ .ofDecimal false 15 (-1) by decide)
  · rw [honce, hlater] at hother
    rw [honce] at hshorter
    exact ⟨tr, _, _, hparse, honce, hshorter, hlater, hother, hstays, hsame⟩
  · obtain ⟨s, hs, k, k', hk, hk', hlow, -, hhigh⟩ := hshared
    have hbefore : (k : ℚ) ≤ 1000 :=
      (le_iff_of_represents hk Segment.thousand_represents).mp (by decide)
    have hbehind : (1000 : ℚ) ≤ k' :=
      (le_iff_of_represents Segment.thousand_represents hk').mp (by decide)
    norm_cast at hbefore hbehind
    rcases hsegments s hs with hfirst | hsecond <;> omega

/-- Inside one record, the later cut rounds the end before the earlier one does. -/
example : ∃ tr, ofBytes #[1, 0, 0, 0, 0, 0, 0, 0, 0, 0x10, 0xe8, 0x03, 10, 0] = .ok tr ∧
    (left (cutAt (.ofDecimal false 44 (-2)) tr)).endPose = .ok ⟨0, 0, 4, 0⟩ ∧
    (left (cutAt (.ofDecimal false 44 (-2))
      (left (cutAt (.ofDecimal false 86 (-2)) tr)))).endPose = .ok ⟨0, 0, 5, 0⟩ :=
  ⟨_, rfl, by decide +kernel, by decide +kernel⟩

end Trajectory

end DroneShow
