-- What a cut leaves alone. It writes behind the header only, so that a cut
-- trajectory is still one that its own bytes tell, also where the cut fails.
import DroneShow.Proofs.Outcome
import DroneShow.Proofs.Trajectory.Header
import DroneShow.Trajectory.Cut

namespace DroneShow

namespace Trajectory

variable {tr tr' tr'' : Trajectory} {n m offset : Nat} {s : Segment}

/-- Only bytes from `n` on differ. -/
structure SameBefore (n : Nat) (tr tr' : Trajectory) : Prop where
  cached : tr' = { tr with buffer := tr'.buffer }
  before : tr'.bytes.toList.take n = tr.bytes.toList.take n

theorem SameBefore.refl (n : Nat) (tr : Trajectory) : SameBefore n tr tr := ⟨rfl, rfl⟩

theorem SameBefore.trans (h : SameBefore n tr tr') (h' : SameBefore n tr' tr'') :
    SameBefore n tr tr'' := by
  refine ⟨?_, h'.before.trans h.before⟩
  rw [h'.cached, h.cached]

theorem sameBefore_truncate (h : n ≤ m) : SameBefore n tr (tr.truncate m) := by
  refine ⟨rfl, ?_⟩
  show ((tr.bytes.take m).toList).take n = _
  simp [List.take_take, h]

theorem sameBefore_writeWord (h : n ≤ offset) (word : Nat) :
    SameBefore n tr (tr.writeWord offset word) := by
  refine ⟨rfl, ?_⟩
  show ((Word.write tr.bytes offset word).toList).take n = _
  unfold Word.write
  rw [Array.toList_setIfInBounds, Array.toList_setIfInBounds, List.take_set_of_le (by omega),
    List.take_set_of_le h]

/-! ## Operations -/

/-- Whatever an operation does, it does behind the first `n` bytes. -/
def WritesBehind (n : Nat) (op : Edit Unit) : Prop := ∀ tr, SameBefore n tr (left (op tr))

theorem writesBehind_pure : WritesBehind n (pure ()) := fun tr => .refl n tr

theorem WritesBehind.bind {op : Edit Unit} {next : Unit → Edit Unit} (h : WritesBehind n op)
    (hnext : ∀ a, WritesBehind n (next a)) : WritesBehind n (op >>= next) := by
  intro tr
  have hop := h tr
  simp only [Bind.bind, EStateM.bind]
  cases hres : op tr with
  | error e tr' =>
    rw [hres] at hop
    exact hop
  | ok a tr' =>
    rw [hres] at hop
    exact hop.trans (hnext a tr')

theorem writesBehind_forM {α : Type} {l : List α} {op : α → Edit Unit}
    (h : ∀ a ∈ l, WritesBehind n (op a)) : WritesBehind n (l.forM op) := by
  induction l with
  | nil => exact writesBehind_pure
  | cons a l ih =>
    show WritesBehind n (op a >>= fun _ => l.forM op)
    exact (h a List.mem_cons_self).bind fun _ => ih fun a' hm => h a' (List.mem_cons_of_mem _ hm)

theorem writesBehind_writePoints (axis : Axis) (points : List Single) (h : n ≤ offset) :
    WritesBehind n (writePoints axis offset points) := by
  induction points generalizing offset with
  | nil => exact writesBehind_pure
  | cons p points ih =>
    intro tr
    unfold writePoints
    cases Quantum.encode tr.scale axis p with
    | error e => exact .refl n tr
    | ok raw => exact (sameBefore_writeWord h _).trans (ih (by omega) _)

theorem writesBehind_restrictAxis (u : Single) (axis : Axis) (h : n ≤ s.offset) :
    WritesBehind n (restrictAxis s u axis) := by
  unfold restrictAxis
  split
  · exact writesBehind_pure
  · refine writesBehind_writePoints axis _ ?_
    unfold Record.pointsOffset
    omega

theorem writesBehind_shorten (ms : Single) (h : n ≤ s.offset) : WritesBehind n (shorten s ms) := by
  unfold shorten
  refine (writesBehind_forM fun axis _ => writesBehind_restrictAxis _ axis h).bind fun _ tr => ?_
  exact (sameBefore_writeWord (by omega) _).trans (sameBefore_truncate (by omega))

/-! ## The place of a cut -/

theorem offset_segmentAt {startMs : Nat} {start : Pose}
    (h : tr.segmentAt offset startMs start = .ok s) : s.offset = offset := by
  unfold segmentAt Segment.decode at h
  split at h
  · cases h
    rfl
  · rw [bind_eq_ok_iff] at h
    obtain ⟨durationMs, _, h⟩ := h
    split at h
    · cases h
    · rw [bind_eq_ok_iff] at h
      obtain ⟨raws, _, h⟩ := h
      cases h
      rfl

theorem offset_segmentAfter {next : Segment} (h : tr.segmentAfter s = .ok next) :
    s.offset ≤ next.offset := by
  unfold segmentAfter at h
  split at h
  · cases h
    exact le_rfl
  · rw [offset_segmentAt h]
    omega

/-- The place is not before the offset `n`. -/
def CutPlace.From (n : Nat) : CutPlace → Prop
  | .past => True
  | .boundary offset => n ≤ offset
  | .inside s => n ≤ s.offset

theorem cutPlaceFrom_from {ms : Single} {steps : Nat} {place : CutPlace} (hs : n ≤ s.offset)
    (h : tr.cutPlaceFrom ms steps s = .ok place) : place.From n := by
  induction steps generalizing s with
  | zero =>
    cases h
    trivial
  | succ steps ih =>
    unfold cutPlaceFrom at h
    split at h
    · cases h
      trivial
    split at h
    · cases h
      exact hs
    split at h
    · cases h
      exact hs
    split at h
    · cases h
    · rename_i next hnext
      exact ih (hs.trans (offset_segmentAfter hnext)) h

theorem cutPlace_from {ms : Single} {place : CutPlace} (h : tr.cutPlace ms = .ok place) :
    place.From tr.headerLength := by
  unfold cutPlace at h
  rw [bind_eq_ok_iff] at h
  obtain ⟨first, hfirst, h⟩ := h
  exact cutPlaceFrom_from (offset_segmentAt hfirst).ge h

theorem cutAt_keeps_header (t : Single) (tr : Trajectory) :
    SameBefore tr.headerLength tr (left (cutAt t tr)) := by
  unfold cutAt
  split
  · exact .refl _ tr
  split
  · exact .refl _ tr
  rcases hplace : tr.cutPlace (cutMs t) with e | place
  · exact .refl _ tr
  · have hfrom := cutPlace_from hplace
    cases place with
    | past => exact .refl _ tr
    | boundary offset => exact sameBefore_truncate hfrom
    | inside s => exact writesBehind_shorten _ hfrom tr

theorem SameBefore.parsed (h : SameBefore tr.headerLength tr tr') (hp : tr.Parsed)
    (hne : tr.isEmpty = false) : tr'.Parsed ∧ tr'.isEmpty = false := by
  obtain ⟨hhead, hdecode⟩ := hp.header hne
  have hbefore := h.before
  rw [hhead] at hbefore
  have hdecode' := Header.decode_of_take hdecode hbefore
  refine ⟨?_, isEmpty_of_decode hdecode'⟩
  have hparse := ofBuffer_of_decode hdecode'
  rw [Parsed, hparse, h.cached, ← hhead]

end Trajectory

end DroneShow
