-- Cutting on words. The time of a cut is a whole number, so that the comparisons
-- of the search with rounded times tell where it lies between the exact ones. The
-- difference to the start of the segment is then none below zero, and each word
-- that is overwritten lies in the record that is shortened.
import DroneShow.Proofs.Checked.Step
import DroneShow.Proofs.Curve.Hull
import DroneShow.Proofs.Trajectory.CutPlace
import DroneShow.Proofs.Trajectory.CutRecord

namespace DroneShow.Checked

open Binary
open Trajectory (cutAt cutMs msInto)

variable {tr : Trajectory} {s : Segment} {r : Record} {n : Nat}

/-! ## Changes -/

/-- A computation that changes a trajectory, also where it ends with a fault. -/
abbrev Change := ExceptT Fault (StateT Trajectory (Except Halt))

/-- A computation that changes nothing. -/
def idle {α : Type} (computation : Checked α) : Change α := ExceptT.mk fun tr => do
  let outcome ← computation.run
  pure (outcome, tr)

/-- Overwrites a word of the record of a segment. The word has to lie in the
record, and the record in the bytes. -/
def overwrite (s : Segment) (offset word : Nat) : Change Unit := do
  let tr ← get
  if s.offset ≤ offset ∧ offset + 2 ≤ s.offset + s.length ∧ s.offset + s.length ≤ tr.bytes.size then
    set (tr.writeWord offset word)
  else idle (halt .access)

def overwritePoints (s : Segment) (axis : Axis) : (offset : Nat) → List Single → Change Unit
  | _, [] => pure ()
  | offset, p :: rest => do
    let tr ← get
    let raw ← idle (told (Quantum.encode tr.scale axis p))
    overwrite s offset (Word.ofSigned raw)
    overwritePoints s axis (offset + 2) rest

def restrictAxis (s : Segment) (u : Single) (axis : Axis) : Change Unit :=
  if s.formats.get axis = .constant then pure ()
  else
    overwritePoints s axis (Record.pointsOffset s.formats s.offset axis)
      (Bezier.restrict (s.points.get axis) u).tail

def shorten (s : Segment) (ms : Single) : Change Unit := do
  let durationMs ← idle (sub (ms.toIntWithin 0 timeLimit).toNat s.startMs)
  let u := Binary.ofNat durationMs / Binary.ofNat s.durationMs
  Axis.all.forM (restrictAxis s u)
  overwrite s (s.offset + 1) durationMs
  modify fun tr => tr.truncate (s.offset + s.length)

/-! ## Changes that are not halted -/

/-- On trajectories of `n` bytes the change is not halted: it does what the
operation does, and that keeps the number of bytes. -/
def Does (n : Nat) (change : Change Unit) (operation : Trajectory.Edit Unit) : Prop :=
  ∀ tr : Trajectory, tr.bytes.size = n →
    change.run.run tr = .ok (answer (operation tr), left (operation tr)) ∧
      (left (operation tr)).bytes.size = n

theorem Does.pure (n : Nat) : Does n (pure ()) (pure ()) := fun _ h => ⟨rfl, h⟩

theorem Does.bind {change change' : Change Unit} {operation operation' : Trajectory.Edit Unit}
    (h : Does n change operation) (h' : Does n change' operation') :
    Does n (change >>= fun _ => change') (operation >>= fun _ => operation') := by
  intro tr hsize
  obtain ⟨hrun, hleft⟩ := h tr hsize
  cases hoperation : operation tr with
  | error e tr' =>
    rw [hoperation] at hrun hleft
    rw [bind_run_of_error hoperation]
    exact ⟨run_bind_of_error hrun _, hleft⟩
  | ok _ tr' =>
    rw [hoperation] at hrun hleft
    rw [bind_run_of_ok hoperation]
    obtain ⟨hrun', hleft'⟩ := h' tr' hleft
    exact ⟨(run_bind_of_ok hrun _).trans hrun', hleft'⟩

theorem Does.forM {α : Type} {l : List α} {change : α → Change Unit}
    {operation : α → Trajectory.Edit Unit} (h : ∀ a ∈ l, Does n (change a) (operation a)) :
    Does n (l.forM change) (l.forM operation) := by
  induction l with
  | nil => exact .pure n
  | cons a l ih =>
    exact (h a List.mem_cons_self).bind (ih fun a' hm => h a' (List.mem_cons_of_mem _ hm))

theorem size_writeWord (tr : Trajectory) (offset word : Nat) :
    (tr.writeWord offset word).bytes.size = tr.bytes.size := by
  show (Word.write tr.bytes offset word).size = tr.bytes.size
  unfold Word.write
  rw [Array.size_setIfInBounds, Array.size_setIfInBounds]

theorem overwrite_eq {offset : Nat} (hlow : s.offset ≤ offset)
    (hhigh : offset + 2 ≤ s.offset + s.length) (hin : s.offset + s.length ≤ tr.bytes.size)
    (word : Nat) : (overwrite s offset word).run.run tr = .ok (.ok (), tr.writeWord offset word) := by
  rw [overwrite, run_get_bind, if_pos ⟨hlow, hhigh, hin⟩]
  rfl

theorem does_overwritePoints (axis : Axis) {offset : Nat} {points : List Single}
    (hlow : s.offset ≤ offset) (hhigh : offset + 2 * points.length ≤ s.offset + s.length)
    (hin : s.offset + s.length ≤ n) : Does n (overwritePoints s axis offset points)
      (Trajectory.writePoints axis offset points) := by
  induction points generalizing offset with
  | nil => exact .pure n
  | cons p points ih =>
    rw [List.length_cons] at hhigh
    intro tr hsize
    unfold overwritePoints Trajectory.writePoints
    cases hraw : Quantum.encode tr.scale axis p with
    | error e =>
      refine ⟨?_, hsize⟩
      rw [run_get_bind, hraw]
      rfl
    | ok raw =>
      have hwrite : (overwrite s offset (Word.ofSigned raw)).run.run tr =
          .ok (.ok (), tr.writeWord offset (Word.ofSigned raw)) :=
        overwrite_eq hlow (by omega) (hsize ▸ hin) _
      have hrest : Does n (overwritePoints s axis (offset + 2) points)
          (Trajectory.writePoints axis (offset + 2) points) := ih (by omega) (by omega)
      obtain ⟨hrun, hleft⟩ := hrest (tr.writeWord offset (Word.ofSigned raw))
        (by rw [size_writeWord, hsize])
      refine ⟨?_, hleft⟩
      rw [run_get_bind, hraw]
      exact (run_bind_of_ok hwrite _).trans hrun

/-! ## The record of a segment -/

theorem pointsOffset_add_le (formats : Axes AxisFormat) (offset : Nat) (axis : Axis) :
    Record.pointsOffset formats offset axis + 2 * (formats.get axis).storedPoints ≤
      offset + Record.length formats := by
  unfold Record.pointsOffset Record.length Record.prefixLength
  cases axis <;> simp only [Record.pointsBefore, Axes.get] <;> omega

theorem does_restrictAxis (h : Trajectory.Fits s r) (hlength : s.length = Record.length r.formats)
    (hin : s.offset + s.length ≤ n) (u : Single) (axis : Axis) :
    Does n (restrictAxis s u axis) (Trajectory.restrictAxis s u axis) := by
  unfold restrictAxis Trajectory.restrictAxis
  split
  · exact .pure n
  · have hplace := pointsOffset_add_le r.formats s.offset axis
    refine does_overwritePoints axis ?_ ?_ hin
    · unfold Record.pointsOffset
      omega
    · have hcount := h.length_restricted u axis
      unfold Trajectory.restricted at hcount
      rw [hcount, h.formats, hlength]
      exact hplace

/-- A record that lies in the bytes is shortened without a halt, if its segment
starts before the time of the cut. -/
theorem shorten_eq {ms : Single} (h : Trajectory.Fits s r)
    (hlength : s.length = Record.length r.formats) (hin : s.offset + s.length ≤ tr.bytes.size)
    (hms : s.startMs ≤ (ms.toIntWithin 0 timeLimit).toNat) :
    (shorten s ms).run.run tr =
      .ok (answer (Trajectory.shorten s ms tr), left (Trajectory.shorten s ms tr)) := by
  have haxes : Does tr.bytes.size _ _ := Does.forM fun axis (_ : axis ∈ Axis.all) =>
    does_restrictAxis h hlength hin (Binary.ofNat (msInto s ms) / Binary.ofNat s.durationMs) axis
  obtain ⟨hrun, hleft⟩ := haxes tr rfl
  have hprefix := Record.length_pos r.formats
  unfold Record.prefixLength at hprefix
  unfold shorten Trajectory.shorten
  rw [sub_of_le hms]
  show (Axis.all.forM (restrictAxis s (Binary.ofNat (msInto s ms) / Binary.ofNat s.durationMs)) >>=
    fun _ => overwrite s (s.offset + 1) (msInto s ms) >>= fun _ =>
      modify fun tr => tr.truncate (s.offset + s.length)).run.run tr = _
  cases hoperation : Axis.all.forM
    (Trajectory.restrictAxis s (Binary.ofNat (msInto s ms) / Binary.ofNat s.durationMs)) tr with
  | error e tr' =>
    rw [hoperation] at hrun
    rw [run_bind_of_error hrun, bind_run_of_error hoperation]
    rfl
  | ok _ tr' =>
    rw [hoperation] at hrun hleft
    rw [left_ok] at hrun hleft
    have hwrite : (overwrite s (s.offset + 1) (msInto s ms)).run.run tr' =
        .ok (.ok (), tr'.writeWord (s.offset + 1) (msInto s ms)) :=
      overwrite_eq (by omega) (by omega) (by omega) _
    rw [bind_run_of_ok hoperation, run_bind_of_ok hrun, run_bind_of_ok hwrite]
    rfl

/-! ## The cut -/

/-- A record behind the ones that the search has passed lies in the bytes. -/
theorem passed_in_bytes {ms : Single} {rs : List Record} {rest : List UInt8}
    (h : Trajectory.Passed tr ms rs (r.toBytes ++ rest)) (hr : r.WellFormed) :
    tr.headerLength + (Record.spellAll rs).length + Record.length r.formats ≤ tr.bytes.size := by
  have hbytes := congrArg List.length h.bytes
  have hlength := hr.length_toBytes
  have hpos := Record.length_pos r.formats
  unfold Record.prefixLength at hpos
  rw [List.length_drop, Array.length_toList, List.length_append, List.length_append] at hbytes
  omega

/-- A cut inside a segment reckons exactly. Its time is a whole number of
milliseconds strictly between the start of the segment and its end, although the
search compares it with both only as they are rounded. So the difference to the
start does not fall below zero, it is the new duration, positive and less than
the old one, and both fit a word; the ratio of the two is a number from zero to
one; and shortening the record overwrites words of this record only. -/
theorem inner_cut_reckons_exactly {t : Single} (howned : tr.isOwned = true)
    (ht : t.isNaN = false) (hplace : tr.cutPlace (cutMs t) = .ok (.inside s)) :
    cutAt t tr = Trajectory.shorten s (cutMs t) tr ∧ s.startMs + s.durationMs ≤ timeLimit ∧
    ∃ k : Nat, (cutMs t).Represents k ∧ (cutMs t).toIntWithin 0 timeLimit = k ∧
      s.startMs < k ∧ k < s.startMs + s.durationMs ∧ msInto s (cutMs t) = k - s.startMs ∧
      0 < msInto s (cutMs t) ∧ msInto s (cutMs t) < s.durationMs ∧ s.durationMs < 65536 ∧
      (∃ u, (Binary.ofNat (msInto s (cutMs t)) / Binary.ofNat s.durationMs : Single).Represents u ∧
        0 ≤ u ∧ u ≤ 1) ∧
      (shorten s (cutMs t)).run.run tr = .ok (answer (Trajectory.shorten s (cutMs t) tr),
        left (Trajectory.shorten s (cutMs t) tr)) := by
  have hcut : cutAt t tr = Trajectory.shorten s (cutMs t) tr := by
    simp only [cutAt, ht, howned, hplace, Bool.not_true, Bool.false_eq_true, if_false]
  obtain ⟨rs, rest, hpassed, hbehind⟩ :=
    Trajectory.cutPlace_behind (Trajectory.cutMs_nonneg ht) hplace
  cases hbehind with
  | @inside r rest hr htime hstart hend =>
    obtain ⟨k, hlow, hhigh, hk⟩ := Trajectory.cutMs_between ht hstart hend
    have hint : (cutMs t).toIntWithin 0 timeLimit = (k : Int) :=
      toIntWithin_of_represents (by exact_mod_cast hk) (by omega) (by omega)
    have hin := passed_in_bytes hpassed hr
    generalize hs : Segment.ofRecord (tr.headerLength + (Record.spellAll rs).length)
      (Record.totalMs rs) (Record.endPose tr.scale tr.start rs) tr.scale r = s at hcut ⊢
    have hfits : Trajectory.Fits s r := hs ▸ Trajectory.fits_ofRecord hr
    have hlength : s.length = Record.length r.formats := by rw [← hs]; rfl
    have hoffset : s.offset = tr.headerLength + (Record.spellAll rs).length := by rw [← hs]; rfl
    have hstartMs : s.startMs = Record.totalMs rs := by rw [← hs]; rfl
    have hduration : s.durationMs = r.durationMs := by rw [← hs]; rfl
    have hinto := Trajectory.msInto_of_represents s hk (by omega)
    have hwhole := hr.duration_lt
    rw [← hstartMs] at hlow hhigh htime
    rw [← hduration] at hhigh htime hwhole
    have hless : msInto s (cutMs t) < s.durationMs := by omega
    obtain ⟨u, hu, hzero, hone, -⟩ := (Bezier.part_of_ms hless hwhole).rounded
    refine ⟨hcut, htime, k, hk, hint, hlow, hhigh, hinto, by omega, hless, hwhole,
      ⟨u, hu, hzero, hone⟩, shorten_eq hfits hlength (by omega) ?_⟩
    rw [hint, Int.toNat_natCast]
    exact hlow.le

/-- A curve of two seconds behind a climb of one, cut after two and a half. -/
theorem a_curve_is_cut_within_its_record : ∃ tr s tr', Trajectory.ofBytes
      #[130, 0, 0, 0, 0, 0, 0, 0, 0, 0x10, 0xe8, 0x03, 10, 0,
        0x42, 0xd0, 0x07, 10, 0, 20, 0, 40, 0, 0x84, 0x03] = .ok tr ∧
    tr.cutPlace (cutMs (.ofDecimal false 25 (-1))) = .ok (.inside s) ∧ s.startMs = 1000 ∧
    msInto s (cutMs (.ofDecimal false 25 (-1))) = 1500 ∧
    cutAt (.ofDecimal false 25 (-1)) tr = .ok () tr' ∧
    (shorten s (cutMs (.ofDecimal false 25 (-1)))).run.run tr = .ok (.ok (), tr') := by
  obtain ⟨tr, hparse, howned, hruns, hfound⟩ : ∃ tr, Trajectory.ofBytes
        #[130, 0, 0, 0, 0, 0, 0, 0, 0, 0x10, 0xe8, 0x03, 10, 0,
          0x42, 0xd0, 0x07, 10, 0, 20, 0, 40, 0, 0x84, 0x03] = .ok tr ∧ tr.isOwned = true ∧
      (answer (cutAt (.ofDecimal false 25 (-1)) tr)).isOk = true ∧
      (match tr.cutPlace (cutMs (.ofDecimal false 25 (-1))) with
        | .ok (.inside s) => s.startMs == 1000 &&
          msInto s (cutMs (.ofDecimal false 25 (-1))) == 1500
        | _ => false) = true := ⟨_, rfl, rfl, by decide +kernel, by decide +kernel⟩
  split at hfound
  · rename_i s hplace
    rw [Bool.and_eq_true] at hfound
    obtain ⟨hsame, -, -, -, -, -, -, -, -, -, -, -, hrun⟩ :=
      inner_cut_reckons_exactly howned (by decide) hplace
    have hcut := eq_ok_left hruns
    rw [← hsame, hcut] at hrun
    exact ⟨tr, s, _, hparse, hplace, eq_of_beq hfound.1, eq_of_beq hfound.2, hcut, hrun⟩
  · cases hfound

end DroneShow.Checked
