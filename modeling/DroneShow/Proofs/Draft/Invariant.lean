-- The invariant of a draft. Its bytes are a header and complete records, and
-- the last pose, its stored values and the end of those records agree. Every
-- operation keeps it, also where it fails.
import DroneShow.Proofs.Draft.Append
import DroneShow.Proofs.Trajectory.Grammar

namespace DroneShow

open Quantum (Stored)
open Record (Spells totalMs)

namespace Draft

/-- Further segments were appended, which last the given time in all. -/
inductive Grows : Nat → Draft → Draft → Prop
  | refl (b : Draft) : Grows 0 b b
  | append {b b' b'' : Draft} {points : List Pose} {ms n : Nat} :
    Grows ms b b' → appendSegment points n b' = .ok () b'' → Grows (ms + n) b b''

variable {b b' b'' : Draft} {start p : Pose} {rs : List Record} {r : Record} {ms n : Nat}

/-- The draft holds the records `rs` behind a header with the start `start`. -/
structure Holds (b : Draft) (start : Pose) (rs : List Record) : Prop where
  header : Header.decode b.bytes = .ok ⟨b.scale, b.yawEnabled, start⟩
  records : Spells rs (b.bytes.toList.drop Header.length)
  stored : ∀ axis, Stored (b.lastRaw.get axis)
  last_eq : b.last = Quantum.decodePose b.scale b.lastRaw
  end_eq : Record.endPose b.scale start rs = b.last

theorem Holds.scale (h : b.Holds start rs) : 0 < b.scale ∧ b.scale ≤ Header.maxScale :=
  Header.scale_of_decode h.header

theorem Holds.encodePose_last (h : b.Holds start rs) : ∃ raws,
    Quantum.encodePose b.scale b.last = .ok raws ∧ (∀ axis, Stored (raws.get axis)) ∧
      Quantum.decodePose b.scale raws = b.last := by
  obtain ⟨raws, hraws, hstored, hpose⟩ := Quantum.encodePose_decodePose h.scale.1 h.scale.2 h.stored
  rw [← h.last_eq] at hraws hpose
  exact ⟨raws, hraws, hstored, hpose⟩

theorem Holds.size_of_nil (h : b.Holds start []) : b.bytes.size = Header.length := by
  have hsize := Header.size_of_decode h.header
  have hdrop := h.records.bytes
  rw [Record.spellAll_nil, List.drop_eq_nil_iff, Array.length_toList] at hdrop
  exact Nat.le_antisymm hdrop hsize

theorem Holds.hasSegments_iff (h : b.Holds start rs) : b.hasSegments = true ↔ rs ≠ [] := by
  have hsize := Header.size_of_decode h.header
  have hlen : (b.bytes.toList.drop Header.length).length = (Record.spellAll rs).length := by
    rw [h.records.bytes]
  have hspell := Record.length_spellAll h.records.wellFormed
  rw [List.length_drop, Array.length_toList] at hlen
  unfold Record.prefixLength at hspell
  simp only [hasSegments, decide_eq_true_eq]
  cases rs with
  | nil =>
    simp only [Record.spellAll_nil, List.length_nil, ne_eq, not_true_eq_false, iff_false] at hlen ⊢
    omega
  | cons r rs =>
    simp only [List.length_cons, ne_eq, reduceCtorEq, not_false_eq_true, iff_true] at hspell ⊢
    omega

/-! ## Records -/

theorem Holds.write (h : b.Holds start rs) (hr : r.WellFormed) :
    (b.write r).Holds start (rs ++ [r]) := by
  have hsize := Header.size_of_decode h.header
  refine ⟨?_, ⟨?_, ?_⟩, fun axis => ?_, ?_, ?_⟩
  · have hbytes : (b.write r).bytes = b.bytes ++ r.toBytes.toArray := by
      apply Array.ext'
      simp
    rw [hbytes]
    exact Header.decode_append h.header _
  · exact List.forall_mem_append.mpr ⟨h.records.wellFormed, by simpa using hr⟩
  · rw [bytes_write, Array.toList_appendList, List.drop_append_of_le_length (by simpa using hsize),
      h.records.bytes]
    simp
  · rw [get_lastRaw_write]
    rcases hlast : (r.raws.get axis).getLast? with _ | raw
    · exact h.stored axis
    · exact hr.stored axis raw (List.mem_of_getLast? hlast)
  · exact last_write b r h.last_eq
  · rw [Record.endPose_append, scale_write, h.end_eq]
    apply Axes.ext_get
    intro axis
    rw [get_last_write]
    simp [Record.endPose, Record.lastRaw?]

theorem Grows.scale (h : Grows ms b b') : b'.scale = b.scale := by
  induction h with
  | refl b => rfl
  | append _ happend ih =>
    obtain ⟨r, -, rfl⟩ := appendSegment_eq_ok_iff.mp happend
    exact ih

theorem Grows.trans (h : Grows ms b b') (h' : Grows n b' b'') : Grows (ms + n) b b'' := by
  induction h' with
  | refl b' => exact h
  | append _ happend ih =>
    rw [← Nat.add_assoc]
    exact .append (ih h) happend

/-- A draft that grows keeps its records and gets the time of the new ones. -/
theorem Grows.holds (h : Grows ms b b') (hb : b.Holds start rs) :
    ∃ more, b'.Holds start (rs ++ more) ∧ totalMs more = ms := by
  induction h with
  | refl b => exact ⟨[], by rwa [List.append_nil], rfl⟩
  | append _ happend ih =>
    obtain ⟨more, hmore, hms⟩ := ih hb
    obtain ⟨r, hr, rfl⟩ := appendSegment_eq_ok_iff.mp happend
    refine ⟨more ++ [r], ?_, ?_⟩
    · rw [← List.append_assoc]
      exact hmore.write (wellFormed_of_recordOf hr)
    · simp [hms, durationMs_of_recordOf hr]

/-! ## Lines and holds -/

/-- All of `ms` milliseconds were appended, or a part of them before a fault. -/
structure Adds (ms : Nat) (b : Draft) (result : EStateM.Result Fault Draft Unit) : Prop where
  ok : ∀ b', result = .ok () b' → Grows ms b b'
  left : ∃ part, Grows part b (left result)

theorem Adds.nothing (b : Draft) : Adds 0 b (.ok () b) := by
  refine ⟨fun b' h => ?_, 0, .refl b⟩
  cases h
  exact .refl b

theorem Adds.fault (e : Fault) (b : Draft) : Adds ms b (.error e b) := by
  refine ⟨fun b' h => ?_, 0, .refl b⟩
  cases h

theorem Adds.andThen {result : EStateM.Result Fault Draft Unit}
    {next : Draft → EStateM.Result Fault Draft Unit} (h : Adds ms b result)
    (hnext : ∀ b', Adds n b' (next b')) : Adds (ms + n) b (andThen result next) := by
  cases hres : result with
  | error e b' =>
    rw [hres] at h
    refine ⟨fun b'' h' => ?_, h.left⟩
    cases h'
  | ok _ b' =>
    have hb' := h.ok b' hres
    obtain ⟨part, hpart⟩ := (hnext b').left
    exact ⟨fun b'' h' => hb'.trans ((hnext b').ok b'' h'), ms + part, hb'.trans hpart⟩

theorem adds_segment (points : List Pose) (ms : Nat) (b : Draft) :
    Adds ms b (appendSegment points ms b) := by
  have hok : ∀ b', appendSegment points ms b = .ok () b' → Grows ms b b' := by
    intro b' h
    have hgrows := Grows.append (.refl b) h
    rwa [Nat.zero_add] at hgrows
  rcases hr : b.recordOf points ms with e | r
  · have hres : appendSegment points ms b = .error e b := by
      simp only [appendSegment, hr]
    rw [hres]
    exact .fault e b
  · have hres : appendSegment points ms b = .ok () (b.write r) := by
      simp only [appendSegment, hr]
    rw [hres] at hok ⊢
    exact ⟨hok, ms, hok _ rfl⟩

theorem appendParts_succ (depth : Nat) (target : Pose) (ms : Nat) (b : Draft) :
    appendParts (depth + 1) target ms b =
      if ms ≤ maxSegmentMs then appendSegment [target] ms b
      else andThen (appendParts depth (b.last.midpoint target) (ms / 2) b)
        (appendParts depth target (ms - ms / 2)) := by
  rw [appendParts]
  split
  · rfl
  · show EStateM.bind (appendParts depth (b.last.midpoint target) (ms / 2))
      (fun _ => appendParts depth target (ms - ms / 2)) b = _
    unfold EStateM.bind
    cases appendParts depth (b.last.midpoint target) (ms / 2) b <;> rfl

/-- A line is halved often enough for any time that it takes. -/
theorem le_maxSegmentMs_mul (ms : Nat) : ms ≤ maxSegmentMs * 2 ^ (ms.log2 + 1) := by
  have hlog : ms < 2 ^ (ms.log2 + 1) := Nat.lt_log2_self
  unfold maxSegmentMs
  omega

theorem adds_parts (depth : Nat) (target : Pose) (ms : Nat) (b : Draft) :
    Adds ms b (appendParts depth target ms b) := by
  induction depth generalizing target ms b with
  | zero => exact adds_segment [target] ms b
  | succ depth ih =>
    rw [appendParts_succ]
    split
    · exact adds_segment [target] ms b
    · have hhalves := (ih (b.last.midpoint target) (ms / 2) b).andThen (ih target (ms - ms / 2))
      rwa [show ms / 2 + (ms - ms / 2) = ms by omega] at hhalves

theorem adds_line (target : Pose) (ms : Nat) (b : Draft) : Adds ms b (appendLine target ms b) := by
  unfold appendLine
  cases Quantum.encodePose b.scale target with
  | error e => exact .fault e b
  | ok _ => exact adds_parts _ target ms b

theorem holdPieces_succ (pieces ms : Nat) (b : Draft) :
    holdPieces (pieces + 1) ms b =
      if ms = 0 then .ok () b
      else andThen (appendSegment [b.last] (min ms maxSegmentMs) b)
        (holdPieces pieces (ms - min ms maxSegmentMs)) := by
  rw [holdPieces]
  split
  · rfl
  · cases h : appendSegment [b.last] (min ms maxSegmentMs) b <;> simp only [h, andThen]

/-- Enough pieces hold for the whole time. -/
theorem adds_holdPieces {pieces : Nat} (h : ms ≤ maxSegmentMs * pieces) (b : Draft) :
    Adds ms b (holdPieces pieces ms b) := by
  induction pieces generalizing ms b with
  | zero =>
    obtain rfl : ms = 0 := by omega
    exact .nothing b
  | succ pieces ih =>
    rw [holdPieces_succ]
    split
    · rename_i hms
      rw [hms]
      exact .nothing b
    · rw [Nat.mul_succ] at h
      have hrest := (adds_segment [b.last] (min ms maxSegmentMs) b).andThen
        (ih (show ms - min ms maxSegmentMs ≤ maxSegmentMs * pieces by omega))
      rwa [show min ms maxSegmentMs + (ms - min ms maxSegmentMs) = ms by omega] at hrest

theorem adds_hold (ms : Nat) (b : Draft) : Adds ms b (hold ms b) := by
  refine adds_holdPieces ?_ b
  exact (Nat.lt_mul_div_succ ms (show 0 < maxSegmentMs by decide)).le

end Draft

end DroneShow
