-- The parts of a line. However often a line is halved, its parts last as long
-- as the whole, none is very short, and on each axis of space their ends go one
-- way, from where the draft was to where the target is stored.
import Mathlib.Data.List.Chain
import DroneShow.Proofs.Draft.Faults
import DroneShow.Proofs.Record.Restriction

namespace DroneShow

open Record (Spells spellAll totalMs)

/-! ## Where records end -/

namespace Record

variable {axis : Axis} {raw : Int} {rs rs' : List Record} {R : Int → Int → Prop}

/-- The stored value of an axis at the end of records in a row that begin at `raw`. -/
def endRaw (axis : Axis) (raw : Int) (rs : List Record) : Int := (lastRaw? rs axis).getD raw

/-- The stored values of an axis at the end of each of some records in a row. -/
def endRaws (axis : Axis) : (raw : Int) → List Record → List Int
  | _, [] => []
  | raw, r :: rs => endRaw axis raw [r] :: endRaws axis (endRaw axis raw [r]) rs

@[simp] theorem endRaw_nil : endRaw axis raw [] = raw := rfl

@[simp] theorem endRaws_nil : endRaws axis raw [] = [] := rfl

theorem endRaws_cons (r : Record) : endRaws axis raw (r :: rs) =
    endRaw axis raw [r] :: endRaws axis (endRaw axis raw [r]) rs := rfl

theorem endRaw_append : endRaw axis raw (rs ++ rs') = endRaw axis (endRaw axis raw rs) rs' := by
  unfold endRaw
  rw [lastRaw?_append]
  cases lastRaw? rs' axis <;> simp

theorem getLast?_endRaws (h : rs ≠ []) : (endRaws axis raw rs).getLast? = some (endRaw axis raw rs) := by
  induction rs generalizing raw with
  | nil => exact absurd rfl h
  | cons r rs ih =>
    have hend : endRaw axis raw (r :: rs) = endRaw axis (endRaw axis raw [r]) rs := by
      rw [← endRaw_append]
      rfl
    rw [endRaws_cons, hend]
    by_cases hrs : rs = []
    · simp [hrs]
    · rw [List.getLast?_cons, ih hrs]
      rfl

theorem endRaws_append : endRaws axis raw (rs ++ rs') =
    endRaws axis raw rs ++ endRaws axis (endRaw axis raw rs) rs' := by
  induction rs generalizing raw with
  | nil => rfl
  | cons r rs ih =>
    have hend : endRaw axis raw (r :: rs) = endRaw axis (endRaw axis raw [r]) rs := by
      rw [← endRaw_append]
      rfl
    rw [List.cons_append, endRaws_cons, endRaws_cons, ih, hend, List.cons_append]

theorem isChain_endRaws_append :
    (raw :: endRaws axis raw (rs ++ rs')).IsChain R ↔
      (raw :: endRaws axis raw rs).IsChain R ∧
        (endRaw axis raw rs :: endRaws axis (endRaw axis raw rs) rs').IsChain R := by
  induction rs generalizing raw with
  | nil => simp
  | cons r rs ih =>
    have hend : endRaw axis raw (r :: rs) = endRaw axis (endRaw axis raw [r]) rs := by
      rw [← endRaw_append]
      rfl
    rw [List.cons_append, endRaws_cons, endRaws_cons, List.isChain_cons_cons,
      List.isChain_cons_cons, ih, hend, and_assoc]

theorem get_endPose_decodePose (scale : Nat) (raws : Axes Int) (rs : List Record) (axis : Axis) :
    (endPose scale (Quantum.decodePose scale raws) rs).get axis =
      Quantum.decode scale axis (endRaw axis (raws.get axis) rs) := by
  unfold endPose endRaw
  rw [Axes.get_ofFn, Quantum.get_decodePose]
  cases lastRaw? rs axis <;> rfl

end Record

namespace Draft

open Record (endRaw endRaws)

variable {b b' b'' : Draft} {start target : Pose} {rs more more' : List Record}
  {raws middle : Axes Int} {ms n depth : Nat}

/-! ## Parts -/

/-- The records `more` were appended, which last `ms` milliseconds and lead each
axis of space one way to the stored value in `raws`. -/
structure Leads (b : Draft) (raws : Axes Int) (ms : Nat) (more : List Record) (b' : Draft) :
    Prop where
  some : more ≠ []
  scale : b'.scale = b.scale
  yawEnabled : b'.yawEnabled = b.yawEnabled
  bytes : b'.bytes.toList = b.bytes.toList ++ spellAll more
  holds : ∀ start rs, b.Holds start rs → b'.Holds start (rs ++ more)
  fits : ∀ r ∈ more, r.WellFormed ∧ r.durationMs ≤ maxSegmentMs
  total : totalMs more = ms
  long : ∀ r ∈ more, min ms (maxSegmentMs / 2) ≤ r.durationMs
  lastRaw : ∀ axis, b'.lastRaw.get axis = endRaw axis (b.lastRaw.get axis) more
  reaches : ∀ axis, axis ≠ .yaw → endRaw axis (b.lastRaw.get axis) more = raws.get axis
  rises : ∀ axis, axis ≠ .yaw → b.lastRaw.get axis ≤ raws.get axis →
    (b.lastRaw.get axis :: endRaws axis (b.lastRaw.get axis) more).IsChain (· ≤ ·)
  falls : ∀ axis, axis ≠ .yaw → raws.get axis ≤ b.lastRaw.get axis →
    (b.lastRaw.get axis :: endRaws axis (b.lastRaw.get axis) more).IsChain (· ≥ ·)

theorem stores_of_ne {axis : Axis} (hne : axis ≠ .yaw) : b.stores axis = true := by
  cases axis with
  | yaw => exact absurd rfl hne
  | _ => rfl

/-- The record of a segment to one point ends each axis of the draft where the
point is stored, whether it stores the axis or not. -/
theorem endRaw_recordOf {r : Record} (htarget : Quantum.encodePose b.scale target = .ok raws)
    (hr : b.recordOf [target] ms = .ok r) {axis : Axis} (haxes : b.stores axis = true) :
    endRaw axis (b.lastRaw.get axis) [r] = raws.get axis := by
  have hencode := Quantum.encodePose_eq_ok_iff.mp htarget axis
  have haxis := axis_of_recordOf hr axis
  unfold Record.endRaw Record.lastRaw?
  by_cases hstay : b.Stays [target] axis
  · have hnone := haxis.2.1 hstay
    have hsame := hstay.resolve_left (by simp [← stores_eq_false_iff, haxes]) target
      (List.mem_singleton_self target)
    rw [hencode] at hsame
    simp [hnone, Except.ok.inj hsame]
  · have hstored := haxis.2.2 hstay
    rw [List.mapM_cons, List.mapM_nil, hencode] at hstored
    have hone : r.raws.get axis = [raws.get axis] := (Except.ok.inj hstored).symm
    simp [hone]

/-- One record is a line of one part. -/
theorem leads_record {r : Record} (htarget : Quantum.encodePose b.scale target = .ok raws)
    (hr : b.recordOf [target] ms = .ok r) : Leads b raws ms [r] (b.write r) := by
  obtain ⟨_, _, _, hshort, _, hms, _⟩ := recordOf_eq_ok hr
  have hwf := wellFormed_of_recordOf hr
  have hends := fun axis (hne : axis ≠ Axis.yaw) => endRaw_recordOf htarget hr (stores_of_ne hne)
  exact
    { some := by simp
      scale := rfl
      yawEnabled := rfl
      bytes := by simp
      holds := fun start rs hb => hb.write hwf
      fits := by simp [hwf, hms, hshort]
      total := by simp [hms]
      long := by simp [hms]
      lastRaw := by
        intro axis
        simp [get_lastRaw_write, Record.endRaw, Record.lastRaw?]
      reaches := hends
      rises := by
        intro axis hne hle
        simpa [Record.endRaws_cons, hends axis hne] using hle
      falls := by
        intro axis hne hle
        simpa [Record.endRaws_cons, hends axis hne] using hle }

theorem leads_segment (htarget : Quantum.encodePose b.scale target = .ok raws)
    (hrun : appendSegment [target] ms b = .ok () b') : ∃ more, Leads b raws ms more b' := by
  obtain ⟨r, hr, rfl⟩ := appendSegment_eq_ok_iff.mp hrun
  exact ⟨[r], leads_record htarget hr⟩

/-- Two halves are one line, if the middle lies between its ends. -/
theorem Leads.halves (h : Leads b middle ms more b') (h' : Leads b' raws n more' b'')
    (hlong : maxSegmentMs / 2 ≤ ms ∧ maxSegmentMs / 2 ≤ n)
    (hbetween : ∀ axis, axis ≠ .yaw →
      min (b.lastRaw.get axis) (raws.get axis) ≤ middle.get axis ∧
        middle.get axis ≤ max (b.lastRaw.get axis) (raws.get axis)) :
    Leads b raws (ms + n) (more ++ more') b'' := by
  have hmiddle : ∀ axis, axis ≠ .yaw → b'.lastRaw.get axis = middle.get axis := by
    intro axis hne
    rw [h.lastRaw, h.reaches axis hne]
  exact
    { some := by simp [h.some]
      scale := h'.scale.trans h.scale
      yawEnabled := h'.yawEnabled.trans h.yawEnabled
      bytes := by rw [h'.bytes, h.bytes, Record.spellAll_append, List.append_assoc]
      holds := by
        intro start rs hb
        rw [← List.append_assoc]
        exact h'.holds start _ (h.holds start rs hb)
      fits := List.forall_mem_append.mpr ⟨h.fits, h'.fits⟩
      total := by rw [Record.totalMs_append, h.total, h'.total]
      long := by
        intro r hr
        rcases List.mem_append.mp hr with hr | hr
        · have hfirst := h.long r hr
          omega
        · have hsecond := h'.long r hr
          omega
      lastRaw := by
        intro axis
        rw [h'.lastRaw, h.lastRaw, Record.endRaw_append]
      reaches := by
        intro axis hne
        rw [Record.endRaw_append, ← h.lastRaw, h'.reaches axis hne]
      rises := by
        intro axis hne hle
        have hmid := hbetween axis hne
        have hfirst := h.rises axis hne (by omega)
        have hsecond := h'.rises axis hne (by rw [hmiddle axis hne]; omega)
        rw [h.lastRaw] at hsecond
        exact Record.isChain_endRaws_append.mpr ⟨hfirst, hsecond⟩
      falls := by
        intro axis hne hle
        have hmid := hbetween axis hne
        have hfirst := h.falls axis hne (by omega)
        have hsecond := h'.falls axis hne (by rw [hmiddle axis hne]; omega)
        rw [h.lastRaw] at hsecond
        exact Record.isChain_endRaws_append.mpr ⟨hfirst, hsecond⟩ }

/-! ## Lines -/

/-- Halfway to the target, each axis of space is stored between its ends. -/
theorem Holds.midpoint_between (h : b.Holds start rs)
    (htarget : Quantum.encodePose b.scale target = .ok raws)
    (hmiddle : Quantum.encodePose b.scale (b.last.midpoint target) = .ok middle) {axis : Axis}
    (hne : axis ≠ .yaw) : min (b.lastRaw.get axis) (raws.get axis) ≤ middle.get axis ∧
      middle.get axis ≤ max (b.lastRaw.get axis) (raws.get axis) := by
  have hto := Quantum.encodePose_eq_ok_iff.mp htarget axis
  have hhalf := Quantum.encodePose_eq_ok_iff.mp hmiddle axis
  rw [Pose.get_midpoint, h.last_eq, Quantum.get_decodePose] at hhalf
  rw [Quantum.encode_coordinate hne] at hto hhalf
  rw [Quantum.decode_coordinate hne] at hhalf
  obtain ⟨k, hk, hlow, hhigh⟩ := Quantum.encodeCoordinate_half_sum h.scale.1 h.scale.2
    (Quantum.encodeCoordinate_decodeCoordinate h.scale.1 h.scale.2 (h.stored axis)) hto
  rw [hhalf] at hk
  cases hk
  exact ⟨hlow, hhigh⟩

/-- The parts of a line, by induction on how often it may be halved. The second
half begins where the first one was stored to end, and not at the midpoint. -/
theorem Holds.leads_parts (h : b.Holds start rs)
    (htarget : Quantum.encodePose b.scale target = .ok raws)
    (hrun : Draft.appendParts depth target ms b = .ok () b') : ∃ more, Leads b raws ms more b' := by
  induction depth generalizing b b' rs target raws ms with
  | zero => exact leads_segment htarget hrun
  | succ depth ih =>
    rw [appendParts_succ] at hrun
    split at hrun
    · exact leads_segment htarget hrun
    · rename_i hlong
      obtain ⟨b₁, hfirst, hsecond⟩ := andThen_eq_ok_iff.mp hrun
      obtain ⟨middle, hmiddle⟩ := h.exists_encodePose_midpoint htarget
      obtain ⟨more₁, hleads₁⟩ := ih h hmiddle hfirst
      rw [← hleads₁.scale] at htarget
      obtain ⟨more₂, hleads₂⟩ := ih (hleads₁.holds start rs h) htarget hsecond
      rw [hleads₁.scale] at htarget
      have hboth := hleads₁.halves hleads₂ (by unfold maxSegmentMs at hlong ⊢; omega)
        fun axis hne => h.midpoint_between htarget hmiddle hne
      refine ⟨more₁ ++ more₂, ?_⟩
      rwa [show ms / 2 + (ms - ms / 2) = ms by omega] at hboth

/-- A line to a target that can be stored is appended in whole records that last
as long as it does, each at most a minute, and at least half of one if the line
has more than one part. On each axis of space the last of them ends on the target
as it is stored, and the stored values at their ends go one way, from the last
one before the line to that of the target. -/
theorem line_goes_one_way (h : b.Reachable)
    (htarget : Quantum.encodePose b.scale target = .ok raws) (ms : Nat) :
    ∃ b' more, appendLine target ms b = .ok () b' ∧
      b'.bytes.toList = b.bytes.toList ++ spellAll more ∧ totalMs more = ms ∧
      (∀ r ∈ more, r.WellFormed ∧ r.durationMs ≤ maxSegmentMs) ∧
      (maxSegmentMs < ms → ∀ r ∈ more, maxSegmentMs / 2 ≤ r.durationMs) ∧
      ∀ axis, axis ≠ .yaw →
        (Record.endPose b.scale b.last more).get axis =
          Quantum.decode b.scale axis (raws.get axis) ∧
        (endRaws axis (b.lastRaw.get axis) more).getLast? = some (raws.get axis) ∧
        ((b.lastRaw.get axis :: endRaws axis (b.lastRaw.get axis) more).Pairwise (· ≤ ·) ∨
          (b.lastRaw.get axis :: endRaws axis (b.lastRaw.get axis) more).Pairwise (· ≥ ·)) := by
  obtain ⟨start, rs, hb⟩ := h.holds
  rcases hb.appendLine target ms with ⟨_, b', -, hrun⟩ | ⟨e, hfails, -⟩
  · have hparts : appendParts (ms.log2 + 1) target ms b = .ok () b' := by
      unfold appendLine at hrun
      rwa [htarget] at hrun
    obtain ⟨more, hleads⟩ := hb.leads_parts htarget hparts
    refine ⟨b', more, hrun, hleads.bytes, hleads.total, hleads.fits, ?_, ?_⟩
    · intro hlong r hr
      have hleast := hleads.long r hr
      unfold maxSegmentMs at hlong hleast ⊢
      omega
    · intro axis hne
      refine ⟨?_, ?_, ?_⟩
      · rw [hb.last_eq, Record.get_endPose_decodePose, hleads.reaches axis hne]
      · rw [Record.getLast?_endRaws hleads.some, hleads.reaches axis hne]
      · rcases le_total (b.lastRaw.get axis) (raws.get axis) with hle | hle
        · left
          exact List.isChain_iff_pairwise.mp (hleads.rises axis hne hle)
        · right
          exact List.isChain_iff_pairwise.mp (hleads.falls axis hne hle)
  · rw [htarget] at hfails
    cases hfails

/-- A line of four parts, up on x and down on y, to a target between units. -/
theorem a_long_line_goes_one_way : ∃ b b' more, b.Reachable ∧
    Quantum.encodePose b.scale ⟨101, -50, 7, 0⟩ = .ok ⟨51, -25, 4, 0⟩ ∧
    appendLine ⟨101, -50, 7, 0⟩ 130001 b = .ok () b' ∧
    b'.bytes.toList = b.bytes.toList ++ spellAll more ∧ totalMs more = 130001 ∧
    (∀ r ∈ more, maxSegmentMs / 2 ≤ r.durationMs) ∧
    (endRaws .y (b.lastRaw.get .y) more).getLast? = some (-25) := by
  obtain ⟨b, hnew, htarget⟩ : ∃ b, Draft.new 2 true = .ok b ∧
      Quantum.encodePose b.scale ⟨101, -50, 7, 0⟩ = .ok ⟨51, -25, 4, 0⟩ :=
    ⟨_, rfl, by decide +kernel⟩
  obtain ⟨b', more, hrun, hbytes, htotal, -, hlong, hends⟩ :=
    line_goes_one_way (.new hnew) htarget 130001
  have hy := hends .y (by decide)
  exact ⟨b, b', more, .new hnew, htarget, hrun, hbytes, htotal, hlong (by decide), hy.2.1⟩

end Draft

end DroneShow
