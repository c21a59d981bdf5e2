-- What a landing leaves. Behind the cut stand records that lead straight down
-- to the altitude of the start, or none if the cut ends there or below. The
-- only thing that can go wrong by then is that the descent takes too long.
import DroneShow.Proofs.Draft.Descent
import DroneShow.Proofs.Trajectory.CutEnd
import DroneShow.Proofs.Trajectory.Landing

namespace DroneShow

open Binary
open Quantum (Stored)
open Record (Spells spellAll totalMs altitudes)

variable {tr tr' cut : Trajectory} {b b' : Draft} {velocity : Single} {p : Pose} {g : Int}
  {ms flown : Nat} {more : List Record} {e : Fault}

/-! ## Altitudes -/

namespace Quantum

/-- Decoded coordinates are in the order of their stored values, and so is
their difference, which is exact. -/
theorem decodeCoordinate_lt_iff {scale : Nat} {raw : Int} (hpos : 0 < scale) (hs : scale ≤ 127)
    (hg : Stored g) (hr : Stored raw) :
    decodeCoordinate scale g < decodeCoordinate scale raw ↔ g < raw := by
  have hscale : (0 : ℚ) < scale := by exact_mod_cast hpos
  rw [lt_iff_of_represents (decodeCoordinate_represents hs hg) (decodeCoordinate_represents hs hr),
    mul_lt_mul_iff_left₀ hscale, Int.cast_lt]

theorem zero_lt_sub_decodeCoordinate_iff {scale : Nat} {raw : Int} (hpos : 0 < scale)
    (hs : scale ≤ 127) (hg : Stored g) (hr : Stored raw) :
    0 < decodeCoordinate scale raw - decodeCoordinate scale g ↔
      decodeCoordinate scale g < decodeCoordinate scale raw := by
  have hscale : (0 : ℚ) < scale := by exact_mod_cast hpos
  have hsmall : ((raw - g) * (scale : Int)).natAbs ≤ 16777216 := by
    rw [stored_iff] at hg hr
    rw [Int.natAbs_mul, Int.natAbs_natCast]
    calc (raw - g).natAbs * scale ≤ 65535 * 127 := Nat.mul_le_mul (by omega) hs
      _ ≤ 16777216 := by decide
  have hsub := sub_rounds (decodeCoordinate_represents hs hr) (decodeCoordinate_represents hs hg)
  have hexact : binary32.Exact ((raw : ℚ) * scale - g * scale) := by
    rw [← sub_mul]
    exact_mod_cast exact_int hsmall
  rw [decodeCoordinate_lt_iff hpos hs hg hr,
    lt_iff_of_represents Quantum.zero_represents (hsub.exact hexact), ← sub_mul,
    mul_pos_iff_of_pos_right hscale, sub_pos, Int.cast_lt]

end Quantum

namespace Trajectory

/-! ## Going on from a cut -/

theorem isOwned_of_cutAt {t : Single} (h : cutAt t tr = .ok () tr') :
    t.isNaN = false ∧ tr.isOwned = true := by
  unfold cutAt at h
  split at h
  · cases h
  · rename_i ht
    split at h
    · cases h
    · rename_i howned
      simp only [Bool.not_eq_true, Bool.not_eq_false'] at ht howned
      exact ⟨ht, howned⟩

theorem walk_of_cutAt {t : Single} (hp : tr.Parsed) (h : cutAt t tr = .ok () cut) :
    ∃ flown p, cut.durationMs = .ok flown ∧ cut.endPose = .ok p := by
  obtain ⟨ht, howned⟩ := isOwned_of_cutAt h
  obtain ⟨rs, rest, more, hpassed, hkept, rfl⟩ := cutAt_eq_ok hp howned ht h
  have hspells := hkept.spells hpassed hp.headerLength_le
  have htime := hkept.inTime hpassed.inTime
  exact ⟨_, _, durationMs_of_spells hspells htime, endPose_of_spells hspells htime⟩

/-- A draft that goes on where a trajectory ends, behind the records it stores. -/
structure Resumes (tr : Trajectory) (flown : Nat) (b : Draft) (rs : List Record) : Prop where
  settled : b.Settled
  holds : b.Holds tr.start rs
  total : totalMs rs = flown
  bytes : b.bytes = tr.bytes
  scale : b.scale = tr.scale
  yawEnabled : b.yawEnabled = tr.yawEnabled

/-- A draft can go on from any trajectory that has an end, and rests there. -/
theorem exists_draft (hp : tr.Parsed) (hne : tr.isEmpty = false) (hflown : tr.durationMs = .ok flown)
    (hend : tr.endPose = .ok p) :
    ∃ b rs, Draft.ofTrajectory tr = .ok b ∧ b.last = p ∧ Resumes tr flown b rs := by
  obtain ⟨hhead, hdecode⟩ := hp.header hne
  obtain ⟨rs, hrs, hms, htime⟩ := durationMs_eq_ok_iff.mp hflown
  have hpose := endPose_of_spells hrs (hms.trans_le htime)
  obtain rfl : p = Record.endPose tr.scale tr.start rs := Except.ok.inj (hend.symm.trans hpose)
  have hstored := Draft.encodePose_endPose hdecode hrs.wellFormed
  simp only at hstored
  obtain ⟨raws, hraws, _, hsame⟩ := hstored
  have hdraft := Draft.ofTrajectory_eq_ok hne hend hraws
  have hheld := Draft.holds_of_ofTrajectory hp hdraft
  obtain ⟨rs', hholds, _, _, hflown', _⟩ := hheld
  have hsettled : Quantum.encodePose tr.scale (Quantum.decodePose tr.scale raws) = .ok raws := by
    rw [hsame, hraws]
  exact ⟨_, rs', hdraft, hsame, {
    settled := ⟨Header.scale_of_decode hdecode, hsettled, rfl⟩
    holds := hholds
    total := Except.ok.inj (hflown'.symm.trans hflown)
    bytes := rfl
    scale := rfl
    yawEnabled := rfl }⟩

/-! ## Going down -/

/-- The milliseconds of a descent from one altitude to another, at most those
of the clock. There is none to an altitude that is not lower. -/
def descentTime (z ground velocity : Single) : Nat :=
  if ground < z then (((z - ground) / velocity * 1000).round.toIntWithin 0 timeLimit).toNat else 0

/-- The clock cannot show how long the descent takes. -/
def TooLong (z ground velocity : Single) : Prop :=
  ground < z ∧ Binary.ofNat timeLimit < ((z - ground) / velocity * 1000).round

/-- What a descent to the stored altitude `g` appends: nothing, where that is
not lower, or records that fall to it. -/
inductive GoesDown (b : Draft) (g : Int) : Nat → List Record → Draft → Prop
  | stays : ¬ Quantum.decodeCoordinate b.scale g < b.last.z → GoesDown b g 0 [] b
  | falls {ms : Nat} {more : List Record} {b' : Draft} :
    Quantum.decodeCoordinate b.scale g < b.last.z → b.Descends g ms more b' →
    GoesDown b g ms more b'

/-- From a draft at rest, a descent to a stored altitude succeeds unless it
takes too long. -/
theorem descend_cases (hb : b.Settled) (hg : Stored g) (velocity : Single) :
    let ground := Quantum.decodeCoordinate b.scale g
    (TooLong b.last.z ground velocity ∧ descend ground velocity b = .error .longLanding b) ∨
    (¬ TooLong b.last.z ground velocity ∧ ∃ more b', descend ground velocity b = .ok () b' ∧
      GoesDown b g (descentTime b.last.z ground velocity) more b') := by
  intro ground
  have hz : b.last.z = Quantum.decodeCoordinate b.scale b.lastRaw.z := by
    rw [hb.decode]
    rfl
  have hpos : 0 < b.last.z - ground ↔ ground < b.last.z := by
    rw [hz]
    exact Quantum.zero_lt_sub_decodeCoordinate_iff hb.scale.1 hb.scale.2 hg (hb.stored .z)
  unfold TooLong descend descentTime descentMs
  simp only [hpos]
  by_cases hlower : ground < b.last.z
  · rw [if_pos hlower, if_pos hlower]
    by_cases hlong : Binary.ofNat timeLimit < ((b.last.z - ground) / velocity * 1000).round
    · left
      rw [if_pos hlong]
      exact ⟨⟨hlower, hlong⟩, rfl⟩
    · right
      have hraw : g ≤ b.lastRaw.z := by
        rw [hz] at hlower
        exact ((Quantum.decodeCoordinate_lt_iff hb.scale.1 hb.scale.2 hg (hb.stored .z)).mp
          hlower).le
      have hground := Quantum.encodeCoordinate_decodeCoordinate hb.scale.1 hb.scale.2 hg
      obtain ⟨b', more, hline, hdown⟩ := hb.descends_line hground hraw
        (((b.last.z - ground) / velocity * 1000).round.toIntWithin 0 timeLimit).toNat
      rw [if_neg hlong]
      exact ⟨fun h => hlong h.2, more, b', hline, .falls hlower hdown⟩
  · right
    rw [if_neg hlower, if_neg hlower]
    exact ⟨fun h => hlower h.1, [], b, rfl, .stays hlower⟩

/-- What is stored after a descent. -/
theorem GoesDown.bytes (h : GoesDown b g ms more b') :
    b'.bytes.toList = b.bytes.toList ++ spellAll more := by
  cases h with
  | stays => simp
  | falls _ hdown => exact hdown.bytes

theorem GoesDown.holds (h : GoesDown b g ms more b') {start : Pose} {rs : List Record}
    (hb : b.Holds start rs) : b'.Holds start (rs ++ more) ∧ totalMs more = ms ∧
      b'.scale = b.scale ∧ b'.yawEnabled = b.yawEnabled := by
  cases h with
  | stays => exact ⟨by rwa [List.append_nil], rfl, rfl, rfl⟩
  | falls _ hdown => exact ⟨hdown.holds start rs hb, hdown.total, hdown.scale, hdown.yawEnabled⟩

theorem GoesDown.eq_nil (h : GoesDown b g ms more b')
    (hlow : ¬ Quantum.decodeCoordinate b.scale g < b.last.z) : more = [] := by
  cases h with
  | stays => rfl
  | falls hlower => exact absurd hlower hlow

theorem GoesDown.falls_mem (h : GoesDown b g ms more b') :
    (∀ r ∈ more, r.WellFormed ∧ r.Vertical) ∧
    (b.lastRaw.z :: altitudes b.lastRaw.z more).Pairwise (fun a a' => a' ≤ a) ∧
    ∀ a ∈ altitudes b.lastRaw.z more, g ≤ a ∧ a ≤ b.lastRaw.z := by
  cases h with
  | stays => simp [altitudes]
  | falls _ hdown =>
    have hmem := hdown.falls.altitudes_mem
    exact ⟨hdown.vertical, .cons (fun a ha => (hmem a ha).2) hdown.falls.pairwise, hmem⟩

theorem min_eq_ite {x y : Single} (hx : x.isNaN = false) (hy : y.isNaN = false) :
    min x y = if y < x then y else x := by
  show Binary.min x y = _
  unfold Binary.min
  rw [hx, hy, if_neg Bool.false_ne_true, if_neg Bool.false_ne_true]

/-- A descent ends on the ground, or where it began if that is not higher. -/
theorem GoesDown.last (h : GoesDown b g ms more b') (hb : b.Settled) (hg : Stored g) :
    b'.last = { b.last with z := min b.last.z (Quantum.decodeCoordinate b.scale g) } := by
  have hz : b.last.z.isNaN = false := by
    rw [hb.decode]
    exact (Quantum.decodeCoordinate_represents hb.scale.2 (hb.stored .z)).isNaN
  rw [min_eq_ite hz (Quantum.decodeCoordinate_represents hb.scale.2 hg).isNaN]
  cases h with
  | stays hlow =>
    rw [if_neg hlow]
  | falls hlow hdown =>
    rw [if_pos hlow, hdown.last]
    rfl

/-! ## Landing -/

/-- What a descent makes of a cut that lasts `flown` milliseconds and ends at
`p`: `more` records behind it that lead straight down, from the stored altitude
`high` to `low` or less far. -/
structure StraightDown (cut : Trajectory) (velocity : Single) (flown : Nat) (p : Pose)
    (high low : Int) (more : List Record) (built : Trajectory) : Prop where
  high_eq : Quantum.encodeCoordinate cut.scale p.z = .ok high
  low_eq : Quantum.encodeCoordinate cut.scale cut.start.z = .ok low
  cached : built = { cut with buffer := built.buffer }
  bytes : built.bytes.toList = cut.bytes.toList ++ spellAll more
  level : ¬ cut.start.z < p.z → more = []
  vertical : ∀ r ∈ more, r.WellFormed ∧ r.Vertical
  falls : (high :: altitudes high more).Pairwise (fun a a' => a' ≤ a)
  between : ∀ a ∈ altitudes high more, low ≤ a ∧ a ≤ high
  lands : flown + descentTime p.z cut.start.z velocity ≤ timeLimit →
    built.durationMs = .ok (flown + descentTime p.z cut.start.z velocity) ∧
    built.endPose = .ok { p with z := min p.z cut.start.z }

/-- What the draft of a descent builds leads straight down. -/
theorem GoesDown.straightDown {rs : List Record} (hp : cut.Parsed) (hne : cut.isEmpty = false)
    (hb : Resumes cut flown b rs) (hg : Stored g)
    (hground : cut.start.z = Quantum.decodeCoordinate b.scale g)
    (h : GoesDown b g (descentTime b.last.z cut.start.z velocity) more b') :
    StraightDown cut velocity flown b.last b.lastRaw.z g more (b'.built cut.start) := by
  obtain ⟨hhead, -⟩ := hp.header hne
  obtain ⟨hholds, hms, hscale, hyaw⟩ := h.holds hb.holds
  obtain ⟨hrecords, hpairwise, hmem⟩ := h.falls_mem
  have hlow : Quantum.encodeCoordinate b.scale cut.start.z = .ok g := by
    rw [hground]
    exact Quantum.encodeCoordinate_decodeCoordinate hb.settled.scale.1 hb.settled.scale.2 hg
  refine {
    high_eq := hb.scale ▸ hb.settled.encode_z
    low_eq := hb.scale ▸ hlow
    cached := ?_
    bytes := ?_
    level := fun hnot => h.eq_nil (hground ▸ hnot)
    vertical := hrecords
    falls := hpairwise
    between := hmem
    lands := fun htime => ?_ }
  · rw [Draft.built, hscale, hb.scale, hyaw, hb.yawEnabled, ← hhead]
  · show b'.bytes.toList = _
    rw [h.bytes, hb.bytes]
  · have hlast := h.last hb.settled hg
    rw [← hground] at hlast
    have hall : totalMs (rs ++ more) = flown + descentTime b.last.z cut.start.z velocity := by
      rw [Record.totalMs_append, hb.total, hms]
    have hspells : Spells (rs ++ more)
        ((b'.built cut.start).bytes.toList.drop (b'.built cut.start).headerLength) :=
      hholds.records
    rw [← hall] at htime
    constructor
    · rw [durationMs_of_spells hspells htime, hall]
    · rw [endPose_of_spells hspells htime, ← hlast]
      exact congrArg Except.ok hholds.end_eq

/-- A landing from any trajectory that has an end succeeds unless the descent
takes too long. -/
theorem landed_cases (hp : tr.Parsed) (hne : tr.isEmpty = false)
    (hflown : tr.durationMs = .ok flown) (hend : tr.endPose = .ok p) (velocity : Single) :
    (TooLong p.z tr.start.z velocity ∧ tr.landed velocity = .error .longLanding) ∨
    ¬ TooLong p.z tr.start.z velocity ∧ ∃ high low more built,
      tr.landed velocity = .ok built ∧ StraightDown tr velocity flown p high low more built := by
  obtain ⟨b, rs, hdraft, rfl, hresumes⟩ := exists_draft hp hne hflown hend
  obtain ⟨-, hdecode⟩ := hp.header hne
  obtain ⟨raws, hstored, hstart⟩ := Header.start_of_decode hdecode
  have hground : tr.start.z = Quantum.decodeCoordinate b.scale raws.z := by
    rw [hresumes.scale]
    exact congrArg Axes.z hstart
  have hdescend := descend_cases hresumes.settled (hstored .z) velocity
  simp only [show raws.get .z = raws.z from rfl, ← hground] at hdescend
  rcases hdescend with ⟨hlong, hrun⟩ | ⟨hshort, more, b', hrun, hdown⟩
  · left
    refine ⟨hlong, ?_⟩
    unfold landed
    simp only [hdraft, bind, Except.bind, Draft.run, hrun]
  · right
    obtain ⟨hholds, -⟩ := hdown.holds hresumes.holds
    obtain ⟨b'', hfinish, -⟩ := hholds.finish
    refine ⟨hshort, b.lastRaw.z, raws.z, more, b'.built tr.start, ?_,
      hdown.straightDown hp hne hresumes (hstored .z) hground⟩
    unfold landed
    simp only [hdraft, bind, Except.bind, Draft.run, hrun, hfinish]
    rfl

/-- What a landing asks of its arguments. -/
structure Accepts (tr : Trajectory) (summary : Summary) (velocity : Single) : Prop where
  bytes : tr.isEmpty = false
  landing : summary.components.landing = true
  velocity : (0 < velocity && velocity.isFinite) = true

/-- Without its arguments accepted a landing changes nothing. -/
theorem replaceEndByLanding_cases (summary : Summary) (velocity : Single) (tr : Trajectory) :
    ¬ Accepts tr summary velocity ∧ (∃ e, replaceEndByLanding summary velocity tr = .error e tr) ∨
    Accepts tr summary velocity ∧ replaceEndByLanding summary velocity tr =
      match cutAt summary.landingSec tr with
      | .error e cut => .error e cut
      | .ok _ cut =>
        match cut.landed velocity with
        | .error e => .error e cut
        | .ok built => .ok () built := by
  unfold replaceEndByLanding
  split
  · rename_i hempty
    left
    refine ⟨fun h => ?_, _, rfl⟩
    rw [h.bytes] at hempty
    cases hempty
  rename_i hne
  split
  · rename_i hmissing
    left
    refine ⟨fun h => ?_, _, rfl⟩
    rw [h.landing] at hmissing
    cases hmissing
  rename_i hlanding
  split
  · rename_i hslow
    left
    refine ⟨fun h => ?_, _, rfl⟩
    rw [h.velocity] at hslow
    cases hslow
  · rename_i hfast
    exact .inr ⟨⟨Bool.eq_false_iff.mpr hne, by simpa using hlanding, by simpa using hfast⟩, rfl⟩

theorem parsed_of_cutAt {t : Single} (hp : tr.Parsed) (hne : tr.isEmpty = false)
    (h : cutAt t tr = .ok () cut) :
    cut.Parsed ∧ cut.isEmpty = false ∧ cut = { tr with buffer := cut.buffer } := by
  have hsame := cutAt_keeps_header t tr
  rw [h, left_ok] at hsame
  obtain ⟨hp', hne'⟩ := hsame.parsed hp hne
  exact ⟨hp', hne', hsame.cached⟩

/-- Behind a cut that succeeds, the landing does too unless the descent takes
too long. -/
theorem replaceEndByLanding_of_cut {summary : Summary} (hp : tr.Parsed)
    (haccepts : Accepts tr summary velocity) (hcut : cutAt summary.landingSec tr = .ok () cut) :
    ∃ flown p, cut.durationMs = .ok flown ∧ cut.endPose = .ok p ∧
      ((TooLong p.z tr.start.z velocity ∧
        replaceEndByLanding summary velocity tr = .error .longLanding cut) ∨
      ¬ TooLong p.z tr.start.z velocity ∧ ∃ high low more built,
        replaceEndByLanding summary velocity tr = .ok () built ∧
        StraightDown cut velocity flown p high low more built) := by
  obtain ⟨hp', hne', hcached⟩ := parsed_of_cutAt hp haccepts.bytes hcut
  have hstart : cut.start = tr.start := by rw [hcached]
  obtain ⟨flown, p, hflown, hend⟩ := walk_of_cutAt hp hcut
  rcases replaceEndByLanding_cases summary velocity tr with ⟨hnot, -⟩ | ⟨-, hrun⟩
  · exact absurd haccepts hnot
  rw [hcut] at hrun
  refine ⟨flown, p, hflown, hend, ?_⟩
  have hlanded := landed_cases hp' hne' hflown hend velocity
  rw [hstart] at hlanded
  rcases hlanded with ⟨hlong, hlanded⟩ | ⟨hshort, high, low, more, built, hlanded, hdown⟩
  · simp only [hlanded] at hrun
    exact .inl ⟨hlong, hrun⟩
  · simp only [hlanded] at hrun
    exact .inr ⟨hshort, high, low, more, built, hrun, hdown⟩

/-! ## The law -/

/-- A landing that succeeds goes straight down. It keeps the bytes of the cut
and appends records that store the altitude alone, none where the cut does not
end above the start. Their stored altitudes never rise and stay between those
of the end of the cut and of the start. If the clock has room for the descent,
the landing lasts that much longer than the cut, and ends below the end of the
cut on the altitude of the start, if that is lower. -/
theorem landing_goes_straight_down {bytes : Bytes} {summary : Summary} (hp : ofBytes bytes = .ok tr)
    (h : replaceEndByLanding summary velocity tr = .ok () tr') :
    ∃ cut flown p high low more, cutAt summary.landingSec tr = .ok () cut ∧
      cut.durationMs = .ok flown ∧ cut.endPose = .ok p ∧
      Quantum.encodeCoordinate tr.scale p.z = .ok high ∧
      Quantum.encodeCoordinate tr.scale tr.start.z = .ok low ∧
      tr' = { tr with buffer := tr'.buffer } ∧
      tr'.bytes.toList = cut.bytes.toList ++ spellAll more ∧
      (¬ tr.start.z < p.z → more = []) ∧
      (∀ r ∈ more, r.WellFormed ∧ r.Vertical) ∧
      (high :: altitudes high more).Pairwise (fun a a' => a' ≤ a) ∧
      (∀ a ∈ altitudes high more, low ≤ a ∧ a ≤ high) ∧
      (flown + descentTime p.z tr.start.z velocity ≤ timeLimit →
        tr'.durationMs = .ok (flown + descentTime p.z tr.start.z velocity) ∧
        tr'.endPose = .ok { p with z := min p.z tr.start.z }) := by
  obtain ⟨hparsed, -⟩ := parsed_of_ofBuffer hp
  rcases replaceEndByLanding_cases summary velocity tr with ⟨-, e, he⟩ | ⟨haccepts, hrun⟩
  · rw [he] at h
    cases h
  cases hcut : cutAt summary.landingSec tr with
  | error e cut =>
    rw [hrun, hcut] at h
    cases h
  | ok _ cut =>
    obtain ⟨flown, p, hflown, hend, ⟨-, hlong⟩ | ⟨-, high, low, more, built, hland, hdown⟩⟩ :=
      replaceEndByLanding_of_cut hparsed haccepts hcut
    · rw [hlong] at h
      cases h
    · rw [hland] at h
      cases h
      obtain ⟨-, -, hcached⟩ := parsed_of_cutAt hparsed haccepts.bytes hcut
      have hstart : cut.start = tr.start := by rw [hcached]
      have hscale : cut.scale = tr.scale := by rw [hcached]
      have hlow := hdown.low_eq
      have hlevel := hdown.level
      have hlands := hdown.lands
      rw [hstart] at hlow hlevel hlands
      refine ⟨cut, flown, p, high, low, more, rfl, hflown, hend, hscale ▸ hdown.high_eq,
        hscale ▸ hlow, ?_, hdown.bytes, hlevel, hdown.vertical, hdown.falls, hdown.between, hlands⟩
      rw [hdown.cached, hcached]

/-- A summary that only tells when to land. -/
def landingAt (sec : Single) : Summary :=
  ⟨.all, 0, 0, .ofPoint Pose.origin, 0, sec, Pose.origin, 0⟩

/-- A climb of ten units lands again. -/
theorem a_climb_goes_straight_down : ∃ tr tr' cut more,
    ofBytes #[1, 0, 0, 0, 0, 0, 0, 0, 0, 0x10, 0xe8, 0x03, 10, 0] = .ok tr ∧
    replaceEndByLanding (landingAt 1) 1 tr = .ok () tr' ∧ cutAt 1 tr = .ok () cut ∧
    tr'.bytes.toList = cut.bytes.toList ++ spellAll more ∧ more ≠ [] ∧
    ∀ r ∈ more, r.WellFormed ∧ r.Vertical := by
  obtain ⟨tr, hparse, hruns, hcut, hgrows⟩ : ∃ tr,
      ofBytes #[1, 0, 0, 0, 0, 0, 0, 0, 0, 0x10, 0xe8, 0x03, 10, 0] = .ok tr ∧
      (answer (replaceEndByLanding (landingAt 1) 1 tr)).isOk = true ∧
      left (cutAt 1 tr) = tr ∧
      (left (replaceEndByLanding (landingAt 1) 1 tr)).bytes ≠ tr.bytes :=
    ⟨_, rfl, by decide +kernel, by decide +kernel, by decide +kernel⟩
  have hland := eq_ok_left hruns
  obtain ⟨cut, flown, p, high, low, more, hcut', -, -, -, -, -, hbytes, -, hrecords, -⟩ :=
    landing_goes_straight_down hparse hland
  rw [show cutAt (landingAt 1).landingSec tr = cutAt 1 tr from rfl] at hcut'
  refine ⟨tr, _, cut, more, hparse, hland, hcut', hbytes, ?_, hrecords⟩
  rintro rfl
  rw [hcut'] at hcut
  rw [show cut = tr from hcut, spellAll, List.flatMap_nil, List.append_nil] at hbytes
  exact hgrows (Array.ext' hbytes)

end Trajectory

end DroneShow
