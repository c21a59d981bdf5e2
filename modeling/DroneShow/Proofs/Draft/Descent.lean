-- A line straight down. Halving it moves nothing but the altitude, and each
-- part ends between the altitudes of the whole as they are stored, so that a
-- descent never rises and never drifts.
import DroneShow.Proofs.Draft.Clock
import DroneShow.Proofs.Record.Encoding

namespace DroneShow

open Quantum (Stored)
open Record (Spells spellAll totalMs)

/-! ## Records that fall -/

namespace Record

/-- The record moves nothing but the altitude, and is not too long. -/
structure Vertical (r : Record) : Prop where
  x : r.formats.x = .constant
  y : r.formats.y = .constant
  yaw : r.formats.yaw = .constant
  short : r.durationMs ≤ maxSegmentMs

/-- The stored altitude at the end of a record that begins at `raw`. -/
def endAltitude (raw : Int) (r : Record) : Int := r.raws.z.getLast?.getD raw

/-- The stored altitudes at the ends of records in a row that begin at `raw`. -/
def altitudes : (raw : Int) → List Record → List Int
  | _, [] => []
  | raw, r :: rs => endAltitude raw r :: altitudes (endAltitude raw r) rs

/-- Records in a row lead from one stored altitude down to another, and none of
them rises. -/
inductive Falls : Int → List Record → Int → Prop
  | done (raw : Int) : Falls raw [] raw
  | step {raw low : Int} {r : Record} {rs : List Record} :
    endAltitude raw r ≤ raw → Falls (endAltitude raw r) rs low → Falls raw (r :: rs) low

variable {high low middle : Int} {rs rs' : List Record}

theorem Falls.append (h : Falls high rs middle) (h' : Falls middle rs' low) :
    Falls high (rs ++ rs') low := by
  induction h with
  | done raw => exact h'
  | step hle _ ih => exact .step hle (ih h')

theorem Falls.le (h : Falls high rs low) : low ≤ high := by
  induction h with
  | done raw => exact le_rfl
  | step hle _ ih => exact ih.trans hle

theorem Falls.altitudes_mem (h : Falls high rs low) :
    ∀ a ∈ altitudes high rs, low ≤ a ∧ a ≤ high := by
  induction h with
  | done raw => simp [altitudes]
  | step hle hfalls ih =>
    intro a ha
    rcases List.mem_cons.mp ha with rfl | ha
    · exact ⟨hfalls.le, hle⟩
    · exact ⟨(ih a ha).1, (ih a ha).2.trans hle⟩

theorem Falls.pairwise (h : Falls high rs low) :
    (altitudes high rs).Pairwise fun a b => b ≤ a := by
  induction h with
  | done raw => exact .nil
  | step hle hfalls ih => exact .cons (fun a ha => (hfalls.altitudes_mem a ha).2) ih

end Record

namespace Draft

variable {b b' b'' : Draft} {z : Single} {g k : Int} {ms n : Nat} {more more' : List Record}

/-! ## Drafts at rest -/

/-- What is stored for the last pose is just its stored values, and stands for
just that pose. -/
structure Settled (b : Draft) : Prop where
  scale : 0 < b.scale ∧ b.scale ≤ Header.maxScale
  encode : Quantum.encodePose b.scale b.last = .ok b.lastRaw
  decode : b.last = Quantum.decodePose b.scale b.lastRaw

/-- The pose above or below the last one. -/
def atAltitude (b : Draft) (z : Single) : Pose := { b.last with z := z }

theorem Settled.stored (h : b.Settled) (axis : Axis) : Stored (b.lastRaw.get axis) :=
  Quantum.stored_of_encode (Quantum.encodePose_eq_ok_iff.mp h.encode axis)

theorem Settled.encode_z (h : b.Settled) :
    Quantum.encodeCoordinate b.scale b.last.z = .ok b.lastRaw.z :=
  Quantum.encodePose_eq_ok_iff.mp h.encode .z

/-- Above or below the last pose, only the stored altitude is another. -/
theorem Settled.encode_atAltitude (h : b.Settled)
    (hg : Quantum.encodeCoordinate b.scale z = .ok g) :
    Quantum.encodePose b.scale (b.atAltitude z) = .ok { b.lastRaw with z := g } := by
  have haxis := Quantum.encodePose_eq_ok_iff.mp h.encode
  rw [Quantum.encodePose_eq_ok_iff]
  intro axis
  cases axis with
  | x => exact haxis .x
  | y => exact haxis .y
  | z => exact hg
  | yaw => exact haxis .yaw

/-- Halfway down, nothing but the altitude changes. -/
theorem Settled.midpoint (h : b.Settled) (z : Single) :
    b.last.midpoint (b.atAltitude z) = b.atAltitude ((b.last.z + z) / 2) := by
  have hhalf : ∀ axis, (b.last.get axis + b.last.get axis) / 2 = b.last.get axis := by
    intro axis
    rw [h.decode, Quantum.get_decodePose]
    exact Quantum.half_double_decode h.scale.2 (h.stored axis) axis
  exact Axes.ext (hhalf .x) (hhalf .y) rfl (hhalf .yaw)

/-! ## Descents -/

/-- The records `more` were appended, which lead the last pose straight down to
the stored altitude `low` and last `ms` milliseconds. -/
structure Descends (b : Draft) (low : Int) (ms : Nat) (more : List Record) (b' : Draft) :
    Prop where
  settled : b'.Settled
  scale : b'.scale = b.scale
  yawEnabled : b'.yawEnabled = b.yawEnabled
  bytes : b'.bytes.toList = b.bytes.toList ++ spellAll more
  holds : ∀ start rs, b.Holds start rs → b'.Holds start (rs ++ more)
  vertical : ∀ r ∈ more, r.WellFormed ∧ r.Vertical
  total : totalMs more = ms
  falls : Record.Falls b.lastRaw.z more low
  lastRaw : b'.lastRaw = { b.lastRaw with z := low }
  last : b'.last = b.atAltitude (Quantum.decodeCoordinate b.scale low)

theorem Descends.trans (h : Descends b k ms more b') (h' : Descends b' g n more' b'') :
    Descends b g (ms + n) (more ++ more') b'' where
  settled := h'.settled
  scale := h'.scale.trans h.scale
  yawEnabled := h'.yawEnabled.trans h.yawEnabled
  bytes := by rw [h'.bytes, h.bytes, Record.spellAll_append, List.append_assoc]
  holds := by
    intro start rs hb
    rw [← List.append_assoc]
    exact h'.holds start _ (h.holds start rs hb)
  vertical := List.forall_mem_append.mpr ⟨h.vertical, h'.vertical⟩
  total := by rw [Record.totalMs_append, h.total, h'.total]
  falls := by
    have hmiddle : b'.lastRaw.z = k := by rw [h.lastRaw]
    exact h.falls.append (hmiddle ▸ h'.falls)
  lastRaw := by rw [h'.lastRaw, h.lastRaw]
  last := by rw [h'.last, atAltitude, h.last, h.scale]; rfl

/-- The record of a segment straight up or down stores the altitude alone. -/
theorem Settled.recordOf_atAltitude {r : Record} (h : b.Settled)
    (hg : Quantum.encodeCoordinate b.scale z = .ok g)
    (hr : b.recordOf [b.atAltitude z] ms = .ok r) :
    (∀ axis, axis ≠ .z → r.formats.get axis = .constant ∧ r.raws.get axis = []) ∧
      Record.endAltitude b.lastRaw.z r = g := by
  have htarget := Quantum.encodePose_eq_ok_iff.mp (h.encode_atAltitude hg)
  constructor
  · intro axis hne
    have hstay : b.Stays [b.atAltitude z] axis := by
      refine .inr fun p hp => ?_
      rw [List.mem_singleton.mp hp, htarget axis]
      cases axis with
      | z => exact absurd rfl hne
      | x => rfl
      | y => rfl
      | yaw => rfl
    obtain ⟨hformat, hraws, -⟩ := axis_of_recordOf hr axis
    exact ⟨hformat.mpr hstay, hraws hstay⟩
  · obtain ⟨-, hraws, hmoves⟩ := axis_of_recordOf hr .z
    have hz : Quantum.encode b.scale .z z = .ok g := hg
    unfold Record.endAltitude
    by_cases hstay : b.Stays [b.atAltitude z] .z
    · have hzraws : r.raws.z = [] := hraws hstay
      have hsame := (hstay.resolve_left (by simp)) _ (List.mem_singleton_self _)
      rw [hzraws, Except.ok.inj (hz.symm.trans hsame)]
      rfl
    · have hlist := hmoves hstay
      rw [List.mapM_cons, List.mapM_nil, show (b.atAltitude z).get .z = z from rfl, hz] at hlist
      have hzraws : r.raws.z = [g] := (Except.ok.inj hlist).symm
      rw [hzraws]
      rfl

theorem Settled.descends_segment (h : b.Settled)
    (hg : Quantum.encodeCoordinate b.scale z = .ok g) (hle : g ≤ b.lastRaw.z)
    (hms : ms ≤ maxSegmentMs) : ∃ b' more,
      appendSegment [b.atAltitude z] ms b = .ok () b' ∧ Descends b g ms more b' := by
  have hstored : Stored g :=
    Quantum.stored_of_encode (show Quantum.encode b.scale .z z = .ok g from hg)
  obtain ⟨r, hr⟩ := exists_recordOf_point (h.encode_atAltitude hg) hms
  have hwf := wellFormed_of_recordOf hr
  have hduration := durationMs_of_recordOf hr
  obtain ⟨hstays, hend⟩ := h.recordOf_atAltitude hg hr
  have hlastRaw : (b.write r).lastRaw = { b.lastRaw with z := g } := by
    apply Axes.ext_get
    intro axis
    rw [get_lastRaw_write]
    cases axis with
    | z => exact hend
    | x => rw [(hstays .x (by decide)).2]; rfl
    | y => rw [(hstays .y (by decide)).2]; rfl
    | yaw => rw [(hstays .yaw (by decide)).2]; rfl
  have hlast : (b.write r).last = b.atAltitude (Quantum.decodeCoordinate b.scale g) := by
    rw [last_write b r h.decode, hlastRaw, atAltitude, h.decode]
    rfl
  have hagain := Quantum.encodeCoordinate_decodeCoordinate h.scale.1 h.scale.2 hstored
  refine ⟨b.write r, [r], appendSegment_eq_ok_iff.mpr ⟨r, hr, rfl⟩, ?_⟩
  exact
    { settled := ⟨h.scale, by rw [hlast, hlastRaw]; exact h.encode_atAltitude hagain,
        last_write b r h.decode⟩
      scale := rfl
      yawEnabled := rfl
      bytes := by simp
      holds := fun start rs hb => hb.write hwf
      vertical := by
        intro r' hm
        rw [List.mem_singleton.mp hm]
        exact ⟨hwf, (hstays .x (by decide)).1, (hstays .y (by decide)).1,
          (hstays .yaw (by decide)).1, hduration.le.trans hms⟩
      total := by simp [hduration]
      falls := .step (by rwa [hend]) (by rw [hend]; exact .done g)
      lastRaw := hlastRaw
      last := hlast }

/-- Parts of a line straight down, however often it is halved: the altitude
halfway is stored between those at the ends. -/
theorem Settled.descends_parts (h : b.Settled) (depth : Nat)
    (hg : Quantum.encodeCoordinate b.scale z = .ok g) (hle : g ≤ b.lastRaw.z)
    (hms : ms ≤ maxSegmentMs * 2 ^ depth) : ∃ b' more,
      appendParts depth (b.atAltitude z) ms b = .ok () b' ∧ Descends b g ms more b' := by
  induction depth generalizing b z g ms with
  | zero => exact h.descends_segment hg hle (by simpa using hms)
  | succ depth ih =>
    rw [appendParts_succ]
    split
    · rename_i hshort
      exact h.descends_segment hg hle hshort
    · rw [pow_succ, ← Nat.mul_assoc] at hms
      obtain ⟨k, hk, hlow, hhigh⟩ :=
        Quantum.encodeCoordinate_half_sum h.scale.1 h.scale.2 h.encode_z hg
      rw [min_eq_right hle] at hlow
      rw [max_eq_left hle] at hhigh
      obtain ⟨b₁, more₁, hfirst, hdown₁⟩ :=
        ih h hk hhigh (show ms / 2 ≤ maxSegmentMs * 2 ^ depth by omega)
      have hraw₁ : b₁.lastRaw.z = k := by rw [hdown₁.lastRaw]
      have hg₁ : Quantum.encodeCoordinate b₁.scale z = .ok g := by rwa [hdown₁.scale]
      have htarget : b₁.atAltitude z = b.atAltitude z := by
        rw [atAltitude, hdown₁.last]
        rfl
      obtain ⟨b₂, more₂, hsecond, hdown₂⟩ := ih hdown₁.settled hg₁ (by rwa [hraw₁])
        (show ms - ms / 2 ≤ maxSegmentMs * 2 ^ depth by omega)
      rw [htarget] at hsecond
      rw [h.midpoint, hfirst]
      refine ⟨b₂, more₁ ++ more₂, hsecond, ?_⟩
      have hboth := hdown₁.trans hdown₂
      rwa [show ms / 2 + (ms - ms / 2) = ms by omega] at hboth

/-- A line straight down is always appended, whatever time it takes. -/
theorem Settled.descends_line (h : b.Settled)
    (hg : Quantum.encodeCoordinate b.scale z = .ok g) (hle : g ≤ b.lastRaw.z) (ms : Nat) :
    ∃ b' more, appendLine (b.atAltitude z) ms b = .ok () b' ∧ Descends b g ms more b' := by
  obtain ⟨b', more, hparts, hdown⟩ :=
    h.descends_parts (ms.log2 + 1) hg hle (le_maxSegmentMs_mul ms)
  refine ⟨b', more, ?_, hdown⟩
  unfold appendLine
  rw [h.encode_atAltitude hg]
  exact hparts

end Draft

end DroneShow
