-- How lines turn. Halfway between two angles of one turn lies an angle between
-- them, and it is stored there. An angle beyond one turn is halved as it is given
-- but stored without its whole turns, so that a line to it may turn back and forth.
import DroneShow.Proofs.Draft.Lines
import DroneShow.Proofs.Draft.Resumption

namespace DroneShow

namespace Quantum

open Binary

variable {x y v : Single} {p q r : ℚ} {k : Int}

/-! ## Angles of one turn -/

/-- The angle is stored with all of its tenths, without a whole turn taken away. -/
def OneTurn (v : Single) : Prop := 0 ≤ tenths v ∧ tenths v < fullTurn

theorem emod_fullTurn_mem (k : Int) : 0 ≤ k % fullTurn ∧ k % fullTurn < fullTurn :=
  ⟨Int.emod_nonneg _ (by decide), Int.emod_lt_of_pos _ (by decide)⟩

theorem oneTurn_decodeYaw (raw : Int) : OneTurn (decodeYaw raw) := by
  rw [OneTurn, tenths_decodeYaw]
  exact emod_fullTurn_mem raw

theorem mem_of_encodeYaw (h : encodeYaw v = .ok k) : 0 ≤ k ∧ k < fullTurn := by
  obtain ⟨-, rfl⟩ := encodeYaw_eq_ok_iff.mp h
  exact emod_fullTurn_mem _

theorem eq_tenths_of_encodeYaw (h : encodeYaw v = .ok k) (hv : OneTurn v) : k = tenths v := by
  obtain ⟨-, rfl⟩ := encodeYaw_eq_ok_iff.mp h
  exact Int.emod_eq_of_lt hv.1 hv.2

theorem OneTurn.exists_nearest (h : OneTurn v) (hv : v.Represents q) :
    ∃ w, (v * 10).Represents w ∧ nearestInt w = tenths v := by
  obtain ⟨hlow, hhigh⟩ := h
  unfold tenths at hlow hhigh
  exact exists_of_round_toIntWithin (by decide) (by decide) (mul_rounds hv ten_represents).isNaN
    (lt_of_lt_of_le (by decide) hlow) (hhigh.trans (by decide))

theorem OneTurn.bounded (h : OneTurn v) (hv : v.Represents q) : |q| < 2 ^ (23 : Int) := by
  obtain ⟨w, hw, htenths⟩ := h.exists_nearest hv
  have hprod := mul_rounds hv ten_represents
  obtain ⟨hlow, hhigh⟩ := h
  rw [← htenths] at hlow hhigh
  unfold fullTurn at hhigh
  have hlow' : (0 : ℚ) ≤ nearestInt w := by exact_mod_cast hlow
  have hhigh' : (nearestInt w : ℚ) ≤ 3600 := by exact_mod_cast hhigh.le
  obtain ⟨hnear, hnear'⟩ := nearestInt_bounds w
  have hlt : q * 10 < 4000 := by
    by_contra hle
    have hbound := ofInt_represents (F := binary32) (exact_int (k := 4000) (by decide))
    have hmono := hbound.rounds.mono hprod (by exact_mod_cast not_lt.mp hle)
    rw [le_iff_of_represents hbound hw] at hmono
    have : (4000 : ℚ) ≤ w := by exact_mod_cast hmono
    linarith
  have hgt : -1 < q * 10 := by
    by_contra hle
    have hbound := ofInt_represents (F := binary32) (exact_int (k := -1) (by decide))
    have hmono := hprod.mono hbound.rounds (by exact_mod_cast not_lt.mp hle)
    rw [le_iff_of_represents hw hbound] at hmono
    have : w ≤ (-1 : ℚ) := by exact_mod_cast hmono
    linarith
  rw [abs_lt]
  norm_num
  constructor <;> linarith

/-- Between two angles of one turn, any is of that turn, and stored in their order. -/
theorem OneTurn.between (hx : OneTurn x) (hy : OneTurn y) (hxp : x.Represents p)
    (hvr : v.Represents r) (hyq : y.Represents q) (hpr : p ≤ r) (hrq : r ≤ q) :
    OneTurn v ∧ tenths x ≤ tenths v ∧ tenths v ≤ tenths y := by
  obtain ⟨wx, hwx, hxt⟩ := hx.exists_nearest hxp
  obtain ⟨wy, hwy, hyt⟩ := hy.exists_nearest hyq
  have hprod := mul_rounds hvr ten_represents
  obtain ⟨w, hw, hlow, hhigh⟩ := represents_between hwx hwy
    ((mul_rounds hxp ten_represents).mono hprod (by linarith))
    (hprod.mono (mul_rounds hyq ten_represents) (by linarith))
  have hfrom := nearestInt_mono hlow
  have hto := nearestInt_mono hhigh
  rw [hxt] at hfrom
  rw [hyt] at hto
  obtain ⟨hleast, -⟩ := hx
  obtain ⟨-, hgreatest⟩ := hy
  have htenths : tenths v = nearestInt w := by
    refine toIntWithin_of_represents
      (round_represents_nearestInt (by decide) (by decide) hw) ?_ ?_
    · unfold leastTenths
      omega
    · unfold greatestTenths
      unfold fullTurn at hgreatest
      omega
  rw [OneTurn, htenths]
  omega

/-- Halfway between two angles of one turn lies an angle of it that is stored
between them. -/
theorem OneTurn.half_sum (hx : OneTurn x) (hy : OneTurn y) (hxp : x.Represents p)
    (hyq : y.Represents q) : OneTurn ((x + y) / 2) ∧
      min (tenths x) (tenths y) ≤ tenths ((x + y) / 2) ∧
      tenths ((x + y) / 2) ≤ max (tenths x) (tenths y) := by
  obtain ⟨c, hc, hup, hdown⟩ := half_sum_mem hxp hyq (hx.bounded hxp) (hy.bounded hyq)
  rcases le_total p q with hle | hle
  · obtain ⟨hpc, hcq⟩ := hup hle
    obtain ⟨hturn, hfrom, hto⟩ := hx.between hy hxp hc hyq hpc hcq
    exact ⟨hturn, (min_le_left _ _).trans hfrom, hto.trans (le_max_right _ _)⟩
  · obtain ⟨hqc, hcp⟩ := hdown hle
    obtain ⟨hturn, hfrom, hto⟩ := hy.between hx hyq hc hxp hqc hcp
    exact ⟨hturn, (min_le_right _ _).trans hfrom, hto.trans (le_max_left _ _)⟩

end Quantum

namespace Draft

open Record (Spells spellAll totalMs endRaw endRaws)
open Quantum (OneTurn tenths fullTurn)

variable {b b' : Draft} {start target : Pose} {rs more more' : List Record} {raws : Axes Int}
  {raw : Int} {angle middle : Single} {ms depth : Nat}

/-! ## Parts -/

/-- From the stored angle `raw`, the records lead to where `angle` is stored, and
one way if it is of one turn. -/
structure Turns (raw : Int) (angle : Single) (more : List Record) : Prop where
  mem : ∀ k ∈ endRaws .yaw raw more, 0 ≤ k ∧ k < fullTurn
  reaches : Quantum.encodeYaw angle = .ok (endRaw .yaw raw more)
  rises : OneTurn angle → raw ≤ tenths angle → (raw :: endRaws .yaw raw more).IsChain (· ≤ ·)
  falls : OneTurn angle → tenths angle ≤ raw → (raw :: endRaws .yaw raw more).IsChain (· ≥ ·)

/-- The record of a segment to one point turns to the angle of the point. -/
theorem turns_record {r : Record} (hyaw : b.yawEnabled = true)
    (htarget : Quantum.encodePose b.scale target = .ok raws)
    (hr : b.recordOf [target] ms = .ok r) : Turns b.lastRaw.yaw target.yaw [r] := by
  have hencode : Quantum.encodeYaw target.yaw = .ok raws.yaw :=
    Quantum.encodePose_eq_ok_iff.mp htarget .yaw
  have hend : endRaw .yaw b.lastRaw.yaw [r] = raws.yaw := endRaw_recordOf htarget hr hyaw
  exact
    { mem := by
        intro k hk
        rw [Record.endRaws_cons, hend, Record.endRaws_nil, List.mem_singleton] at hk
        rw [hk]
        exact Quantum.mem_of_encodeYaw hencode
      reaches := by rw [hend, hencode]
      rises := by
        intro hturn hle
        rw [← Quantum.eq_tenths_of_encodeYaw hencode hturn] at hle
        simpa [Record.endRaws_cons, hend] using hle
      falls := by
        intro hturn hle
        rw [← Quantum.eq_tenths_of_encodeYaw hencode hturn] at hle
        simpa [Record.endRaws_cons, hend] using hle }

/-- Two halves turn one way, if the angle in the middle lies between their ends. -/
theorem Turns.halves (h : Turns raw middle more) (h' : Turns (endRaw .yaw raw more) angle more')
    (hbetween : OneTurn angle → OneTurn middle ∧ min raw (tenths angle) ≤ tenths middle ∧
      tenths middle ≤ max raw (tenths angle)) : Turns raw angle (more ++ more') := by
  have hmiddle : OneTurn middle → endRaw .yaw raw more = tenths middle :=
    Quantum.eq_tenths_of_encodeYaw h.reaches
  exact
    { mem := by
        rw [Record.endRaws_append]
        exact List.forall_mem_append.mpr ⟨h.mem, h'.mem⟩
      reaches := by rw [Record.endRaw_append, h'.reaches]
      rises := by
        intro hturn hle
        obtain ⟨hmid, hlow, hhigh⟩ := hbetween hturn
        have hfirst := h.rises hmid (by omega)
        have hsecond := h'.rises hturn (by rw [hmiddle hmid]; omega)
        exact Record.isChain_endRaws_append.mpr ⟨hfirst, hsecond⟩
      falls := by
        intro hturn hle
        obtain ⟨hmid, hlow, hhigh⟩ := hbetween hturn
        have hfirst := h.falls hmid (by omega)
        have hsecond := h'.falls hturn (by rw [hmiddle hmid]; omega)
        exact Record.isChain_endRaws_append.mpr ⟨hfirst, hsecond⟩ }

/-! ## Lines -/

/-- Halfway to an angle of one turn lies one of it, stored between the ends. -/
theorem Holds.middle_of_one_turn (h : b.Holds start rs)
    (hlast : 0 ≤ b.lastRaw.yaw ∧ b.lastRaw.yaw < fullTurn)
    (htarget : Quantum.encodePose b.scale target = .ok raws) (hturn : OneTurn target.yaw) :
    OneTurn (b.last.midpoint target).yaw ∧
      min b.lastRaw.yaw (tenths target.yaw) ≤ tenths (b.last.midpoint target).yaw ∧
      tenths (b.last.midpoint target).yaw ≤ max b.lastRaw.yaw (tenths target.yaw) := by
  have hyaw : b.last.yaw = Quantum.decodeYaw b.lastRaw.yaw := congrArg Axes.yaw h.last_eq
  have hmid : (b.last.midpoint target).yaw = (Quantum.decodeYaw b.lastRaw.yaw + target.yaw) / 2 := by
    rw [← hyaw]
    rfl
  obtain ⟨p, hp, -⟩ := Quantum.decodeYaw_represents b.lastRaw.yaw
  obtain ⟨q, hq⟩ := Binary.exists_represents
    (Quantum.isFinite_of_encodeYaw (Quantum.encodePose_eq_ok_iff.mp htarget .yaw))
  have hhalf := (Quantum.oneTurn_decodeYaw b.lastRaw.yaw).half_sum hturn hp hq
  rwa [Quantum.tenths_decodeYaw, Int.emod_eq_of_lt hlast.1 hlast.2, ← hmid] at hhalf

/-- The parts of a line turn with it, by induction on how often it may be halved. -/
theorem Holds.turns_parts (h : b.Holds start rs) (hyaw : b.yawEnabled = true)
    (hlast : 0 ≤ b.lastRaw.yaw ∧ b.lastRaw.yaw < fullTurn)
    (htarget : Quantum.encodePose b.scale target = .ok raws)
    (hrun : Draft.appendParts depth target ms b = .ok () b') :
    ∃ more, Leads b raws ms more b' ∧ Turns b.lastRaw.yaw target.yaw more ∧
      (ms ≤ maxSegmentMs → more.length = 1) := by
  induction depth generalizing b b' rs target raws ms with
  | zero =>
    obtain ⟨r, hr, rfl⟩ := appendSegment_eq_ok_iff.mp hrun
    exact ⟨[r], leads_record htarget hr, turns_record hyaw htarget hr, fun _ => rfl⟩
  | succ depth ih =>
    rw [appendParts_succ] at hrun
    split at hrun
    · obtain ⟨r, hr, rfl⟩ := appendSegment_eq_ok_iff.mp hrun
      exact ⟨[r], leads_record htarget hr, turns_record hyaw htarget hr, fun _ => rfl⟩
    · rename_i hlong
      obtain ⟨b₁, hfirst, hsecond⟩ := andThen_eq_ok_iff.mp hrun
      obtain ⟨middle, hmiddle⟩ := h.exists_encodePose_midpoint htarget
      obtain ⟨more₁, hleads₁, hturns₁, -⟩ := ih h hyaw hlast hmiddle hfirst
      have hlast₁ : b₁.lastRaw.yaw = endRaw .yaw b.lastRaw.yaw more₁ := hleads₁.lastRaw .yaw
      have hmem₁ := Quantum.mem_of_encodeYaw hturns₁.reaches
      rw [← hlast₁] at hmem₁
      obtain ⟨more₂, hleads₂, hturns₂, -⟩ := ih (hleads₁.holds start rs h)
        (hleads₁.yawEnabled.trans hyaw) hmem₁ (hleads₁.scale ▸ htarget) hsecond
      have hleads := hleads₁.halves hleads₂ (by unfold maxSegmentMs at hlong ⊢; omega)
        fun axis hne => h.midpoint_between htarget hmiddle hne
      rw [show ms / 2 + (ms - ms / 2) = ms by omega] at hleads
      rw [hlast₁] at hturns₂
      exact ⟨more₁ ++ more₂, hleads, hturns₁.halves hturns₂ (h.middle_of_one_turn hlast htarget),
        fun hshort => absurd hshort hlong⟩

/-- A line of a draft with yaw ends on the angle of its target, less whole turns,
and all of its parts end on angles below one turn. If the target is itself an
angle of one turn, or the line has one part only, then the stored angles at the
ends of the parts go one way, from the last one before the line to that of the
target. -/
theorem line_turns_one_way (h : b.Reachable) (hyaw : b.yawEnabled = true)
    (htarget : Quantum.encodePose b.scale target = .ok raws) (ms : Nat) :
    ∃ b' more, appendLine target ms b = .ok () b' ∧
      b'.bytes.toList = b.bytes.toList ++ spellAll more ∧ (∀ r ∈ more, r.WellFormed) ∧
      totalMs more = ms ∧
      (∀ raw ∈ b.lastRaw.yaw :: endRaws .yaw b.lastRaw.yaw more, 0 ≤ raw ∧ raw < fullTurn) ∧
      (endRaws .yaw b.lastRaw.yaw more).getLast? = some raws.yaw ∧
      (OneTurn target.yaw ∨ ms ≤ maxSegmentMs →
        (b.lastRaw.yaw :: endRaws .yaw b.lastRaw.yaw more).Pairwise (· ≤ ·) ∨
        (b.lastRaw.yaw :: endRaws .yaw b.lastRaw.yaw more).Pairwise (· ≥ ·)) := by
  obtain ⟨start, rs, hb⟩ := h.holds
  have hlast : 0 ≤ b.lastRaw.yaw ∧ b.lastRaw.yaw < fullTurn := by
    obtain ⟨v, hv⟩ := h.encoded .yaw
    exact Quantum.mem_of_encodeYaw hv
  rcases hb.appendLine target ms with ⟨_, b', -, hrun⟩ | ⟨e, hfails, -⟩
  · have hparts : appendParts (ms.log2 + 1) target ms b = .ok () b' := by
      unfold appendLine at hrun
      rwa [htarget] at hrun
    obtain ⟨more, hleads, hturns, hone⟩ := hb.turns_parts hyaw hlast htarget hparts
    have hend : endRaw .yaw b.lastRaw.yaw more = raws.yaw :=
      Except.ok.inj (hturns.reaches.symm.trans (Quantum.encodePose_eq_ok_iff.mp htarget .yaw))
    refine ⟨b', more, hrun, hleads.bytes, fun r hr => (hleads.fits r hr).1, hleads.total,
      List.forall_mem_cons.mpr ⟨hlast, hturns.mem⟩, ?_, ?_⟩
    · rw [Record.getLast?_endRaws hleads.some, hend]
    · rintro (hturn | hshort)
      · rcases le_total b.lastRaw.yaw (tenths target.yaw) with hle | hle
        · left
          exact List.isChain_iff_pairwise.mp (hturns.rises hturn hle)
        · right
          exact List.isChain_iff_pairwise.mp (hturns.falls hturn hle)
      · obtain ⟨r, rfl⟩ := List.length_eq_one_iff.mp (hone hshort)
        simpa [Record.endRaws_cons] using le_total b.lastRaw.yaw (endRaw .yaw b.lastRaw.yaw [r])
  · rw [htarget] at hfails
    cases hfails

/-- A line of two parts from the angle zero to one of 350 degrees. -/
theorem a_long_line_turns_one_way : ∃ b b' more, b.Reachable ∧ b.yawEnabled = true ∧
    Quantum.encodePose b.scale ⟨0, 0, 0, 350⟩ = .ok ⟨0, 0, 0, 3500⟩ ∧ OneTurn 350 ∧
    appendLine ⟨0, 0, 0, 350⟩ 60001 b = .ok () b' ∧
    b'.bytes.toList = b.bytes.toList ++ spellAll more ∧
    (endRaws .yaw b.lastRaw.yaw more).getLast? = some 3500 ∧
    ((b.lastRaw.yaw :: endRaws .yaw b.lastRaw.yaw more).Pairwise (· ≤ ·) ∨
      (b.lastRaw.yaw :: endRaws .yaw b.lastRaw.yaw more).Pairwise (· ≥ ·)) := by
  obtain ⟨b, hnew, hyaw, htarget⟩ : ∃ b, Draft.new 1 true = .ok b ∧ b.yawEnabled = true ∧
      Quantum.encodePose b.scale ⟨0, 0, 0, 350⟩ = .ok ⟨0, 0, 0, 3500⟩ :=
    ⟨_, rfl, rfl, by decide +kernel⟩
  have hturn : OneTurn 350 := by
    unfold OneTurn
    decide +kernel
  obtain ⟨b', more, hrun, hbytes, -, -, -, hend, hway⟩ :=
    line_turns_one_way (.new hnew) hyaw htarget 60001
  exact ⟨b, b', more, .new hnew, hyaw, htarget, hturn, hrun, hbytes, hend, hway (.inl hturn)⟩

/-- A line of a full turn in two parts: both of its ends are stored as zero, and
its middle as half a turn. -/
theorem a_full_turn_goes_and_comes_back : ∃ b b' more, Draft.new 1 true = .ok b ∧
    maxSegmentMs < 60001 ∧
    Quantum.encodePose b.scale ⟨0, 0, 0, 360⟩ = .ok ⟨0, 0, 0, 0⟩ ∧
    appendLine ⟨0, 0, 0, 360⟩ 60001 b = .ok () b' ∧
    b'.bytes.toList = b.bytes.toList ++ spellAll more ∧ (∀ r ∈ more, r.WellFormed) ∧
    b.lastRaw.yaw :: endRaws .yaw b.lastRaw.yaw more = [0, 1800, 0] ∧
    ¬ ((b.lastRaw.yaw :: endRaws .yaw b.lastRaw.yaw more).Pairwise (· ≤ ·) ∨
      (b.lastRaw.yaw :: endRaws .yaw b.lastRaw.yaw more).Pairwise (· ≥ ·)) := by
  refine ⟨_, _, [⟨⟨.constant, .constant, .constant, .linear⟩, 30000, ⟨[], [], [], [1800]⟩⟩,
    ⟨⟨.constant, .constant, .constant, .linear⟩, 30001, ⟨[], [], [], [0]⟩⟩], rfl, by decide,
    by decide +kernel, rfl, ?_, by decide, by decide, by decide⟩
  decide +kernel

end Draft

end DroneShow
