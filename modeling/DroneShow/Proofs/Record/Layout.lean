-- Records read back. A well formed record is found where its bytes stand,
-- bytes that suffice for its formats always hold one, and fewer are a fault.
import DroneShow.Proofs.Axes
import DroneShow.Proofs.Record.Word
import DroneShow.Record.Layout

namespace DroneShow

/-! ## The format byte -/

namespace AxisFormat

theorem ofBits_bits (f : AxisFormat) : ofBits f.bits = f := by
  cases f <;> rfl

theorem bits_lt (f : AxisFormat) : f.bits < 4 := by
  cases f <;> decide

theorem ofBits_add (f : AxisFormat) (n : Nat) : ofBits (f.bits + 4 * n) = f := by
  have h : (f.bits + 4 * n) % 4 = f.bits % 4 := by omega
  unfold ofBits
  rw [h]
  exact ofBits_bits f

theorem bits_ofBits (n : Nat) : (ofBits n).bits = n % 4 := by
  have hlt : n % 4 < 4 := Nat.mod_lt _ (by decide)
  unfold ofBits
  generalize n % 4 = m at hlt
  match m, hlt with
  | 0, _ | 1, _ | 2, _ | 3, _ => rfl

theorem ofByte_toByte (formats : Axes AxisFormat) : ofByte (toByte formats) = formats := by
  obtain ⟨x, y, z, yaw⟩ := formats
  have hx := bits_lt x
  have hy := bits_lt y
  have hz := bits_lt z
  have hyaw := bits_lt yaw
  have hn : (toByte ⟨x, y, z, yaw⟩).toNat =
      x.bits + 4 * (y.bits + 4 * (z.bits + 4 * yaw.bits)) := by
    unfold toByte
    rw [UInt8.toNat_ofNat']
    simp only
    omega
  apply Axes.ext_get
  intro axis
  rw [ofByte, Axes.get_ofFn, hn]
  cases axis <;> simp only [Axis.index, Axes.get, Nat.shiftRight_eq_div_pow]
  · rw [show ∀ n, n / 2 ^ (2 * 0) = n from fun n => Nat.div_one n, ofBits_add]
  · rw [show (x.bits + 4 * (y.bits + 4 * (z.bits + 4 * yaw.bits))) / 2 ^ (2 * 1)
      = y.bits + 4 * (z.bits + 4 * yaw.bits) by omega, ofBits_add]
  · rw [show (x.bits + 4 * (y.bits + 4 * (z.bits + 4 * yaw.bits))) / 2 ^ (2 * 2)
      = z.bits + 4 * yaw.bits by omega, ofBits_add]
  · rw [show (x.bits + 4 * (y.bits + 4 * (z.bits + 4 * yaw.bits))) / 2 ^ (2 * 3)
      = yaw.bits + 4 * 0 by omega, ofBits_add]

theorem toByte_ofByte (byte : UInt8) : toByte (ofByte byte) = byte := by
  have hlt := byte.toNat_lt
  apply UInt8.toNat_inj.mp
  unfold toByte ofByte Axes.ofFn
  simp only [bits_ofBits, Axis.index, UInt8.toNat_ofNat', Nat.shiftRight_eq_div_pow]
  omega

end AxisFormat

namespace Record

open Quantum (Stored)

variable {bytes : Bytes} {offset : Nat} {rest : List UInt8}

/-! ## Well formed records -/

/-- What a record must satisfy to be spelled without loss. -/
structure WellFormed (r : Record) : Prop where
  duration_lt : r.durationMs < 65536
  count : ∀ axis, (r.raws.get axis).length = (r.formats.get axis).storedPoints
  stored : ∀ axis, ∀ raw ∈ r.raws.get axis, Stored raw

instance decidableWellFormed (r : Record) : Decidable r.WellFormed :=
  decidable_of_iff (r.durationMs < 65536 ∧
      (∀ axis, (r.raws.get axis).length = (r.formats.get axis).storedPoints) ∧
      ∀ axis, ∀ raw ∈ r.raws.get axis, Stored raw)
    ⟨fun h => ⟨h.1, h.2.1, h.2.2⟩, fun h => ⟨h.duration_lt, h.count, h.stored⟩⟩

/-- The number of control points that a record with these formats stores. -/
def points (formats : Axes AxisFormat) : Nat := pointsBefore formats .yaw + formats.yaw.storedPoints

theorem toBytes_eq (r : Record) : r.toBytes = AxisFormat.toByte r.formats ::
    (Word.toBytes r.durationMs ++ (Word.spell r.raws.x ++ (Word.spell r.raws.y ++
      (Word.spell r.raws.z ++ Word.spell r.raws.yaw)))) := by
  simp [toBytes, Axes.toList, Word.spell]

theorem length_toBytes {r : Record}
    (h : ∀ axis, (r.raws.get axis).length = (r.formats.get axis).storedPoints) :
    r.toBytes.length = length r.formats := by
  have hx := h .x
  have hy := h .y
  have hz := h .z
  have hyaw := h .yaw
  simp only [Axes.get] at hx hy hz hyaw
  rw [toBytes_eq]
  simp only [List.length_cons, List.length_append, Word.length_toBytes, Word.length_spell, length,
    prefixLength, pointsBefore]
  omega

theorem WellFormed.length_toBytes {r : Record} (h : r.WellFormed) :
    r.toBytes.length = length r.formats := Record.length_toBytes h.count

theorem length_pos (formats : Axes AxisFormat) : prefixLength ≤ length formats :=
  Nat.le_add_right _ _

/-- The bytes of a record before the points of an axis. -/
def front (r : Record) (axis : Axis) : List UInt8 :=
  AxisFormat.toByte r.formats :: (Word.toBytes r.durationMs ++
    match axis with
    | .x => []
    | .y => Word.spell r.raws.x
    | .z => Word.spell r.raws.x ++ Word.spell r.raws.y
    | .yaw => Word.spell r.raws.x ++ (Word.spell r.raws.y ++ Word.spell r.raws.z))

/-- The bytes of a record behind the points of an axis. -/
def back (r : Record) : Axis → List UInt8
  | .x => Word.spell r.raws.y ++ (Word.spell r.raws.z ++ Word.spell r.raws.yaw)
  | .y => Word.spell r.raws.z ++ Word.spell r.raws.yaw
  | .z => Word.spell r.raws.yaw
  | .yaw => []

theorem toBytes_split (r : Record) (axis : Axis) :
    r.toBytes = r.front axis ++ (Word.spell (r.raws.get axis) ++ r.back axis) := by
  rw [toBytes_eq]
  cases axis <;> simp [front, back, Axes.get]

theorem length_front {r : Record}
    (h : ∀ axis, (r.raws.get axis).length = (r.formats.get axis).storedPoints) (axis : Axis) :
    offset + (r.front axis).length = pointsOffset r.formats offset axis := by
  have hx := h .x
  have hy := h .y
  have hz := h .z
  simp only [Axes.get] at hx hy hz
  cases axis <;> simp only [front, List.length_cons, List.length_append, Word.length_toBytes,
    Word.length_spell, List.length_nil, pointsOffset, pointsBefore, prefixLength] <;> omega

/-! ## Reading -/

theorem readRaws_of_drop {r : Record} (h : r.WellFormed)
    (hd : bytes.toList.drop offset = r.toBytes ++ rest) :
    readRaws bytes r.formats offset = .ok r.raws := by
  unfold readRaws
  rw [Axes.ofFnM_eq_ok_iff]
  intro axis
  rw [r.toBytes_split axis, List.append_assoc, List.append_assoc] at hd
  have hpoints := Word.drop_add hd
  rw [length_front h.count] at hpoints
  rw [← h.count axis]
  exact Word.readList_of_drop (h.stored axis) hpoints

theorem readList_error {count : Nat} {e : Fault} (h : Word.readList bytes count offset = .error e) :
    e = .truncatedData := by
  rcases Nat.lt_or_ge (bytes.toList.drop offset).length (2 * count) with hlt | hge
  · rw [Word.readList_of_short hlt] at h
    exact (Except.error.inj h).symm
  · obtain ⟨raws, rest, hd, rfl, hr⟩ := Word.exists_spell count _ hge
    rw [Word.readList_of_drop hr hd] at h
    cases h

theorem readRaws_of_short {formats : Axes AxisFormat}
    (h : (bytes.toList.drop offset).length < prefixLength + 2 * points formats)
    (hhead : prefixLength ≤ (bytes.toList.drop offset).length) :
    readRaws bytes formats offset = .error .truncatedData := by
  rcases hread : readRaws bytes formats offset with e | raws
  · obtain ⟨axis, haxis⟩ := Axes.ofFnM_eq_error hread
    rw [readList_error haxis]
  · exfalso
    unfold readRaws at hread
    rw [Axes.ofFnM_eq_ok_iff] at hread
    have hroom : ∀ axis, (formats.get axis).storedPoints = 0 ∨
        2 * (pointsBefore formats axis + (formats.get axis).storedPoints) + prefixLength ≤
          (bytes.toList.drop offset).length := by
      intro axis
      have hlen : (bytes.toList.drop (pointsOffset formats offset axis)).length =
          (bytes.toList.drop offset).length - (prefixLength + 2 * pointsBefore formats axis) := by
        rw [List.length_drop, List.length_drop, pointsOffset]
        omega
      rcases Nat.lt_or_ge (bytes.toList.drop (pointsOffset formats offset axis)).length
        (2 * (formats.get axis).storedPoints) with hlt | hge
      · have haxis := hread axis
        rw [Word.readList_of_short hlt] at haxis
        cases haxis
      · omega
    have hx := hroom .x
    have hy := hroom .y
    have hz := hroom .z
    have hyaw := hroom .yaw
    simp only [Axes.get, pointsBefore] at hx hy hz hyaw
    simp only [points, pointsBefore] at h
    omega

/-- Enough bytes for the formats that they start with hold a record. -/
theorem exists_wellFormed {byte : UInt8} (lo hi : UInt8) {l : List UInt8}
    (h : 2 * points (AxisFormat.ofByte byte) ≤ l.length) :
    ∃ r rest, byte :: lo :: hi :: l = toBytes r ++ rest ∧ r.WellFormed ∧
      r.durationMs = lo.toNat + 256 * hi.toNat := by
  generalize hf : AxisFormat.ofByte byte = formats at h
  simp only [points, pointsBefore] at h
  obtain ⟨x, l₁, rfl, hx, hxs⟩ := Word.exists_spell formats.x.storedPoints l (by omega)
  rw [List.length_append, Word.length_spell] at h
  obtain ⟨y, l₂, rfl, hy, hys⟩ := Word.exists_spell formats.y.storedPoints l₁ (by omega)
  rw [List.length_append, Word.length_spell] at h
  obtain ⟨z, l₃, rfl, hz, hzs⟩ := Word.exists_spell formats.z.storedPoints l₂ (by omega)
  rw [List.length_append, Word.length_spell] at h
  obtain ⟨yaw, l₄, rfl, hyaw, hyaws⟩ := Word.exists_spell formats.yaw.storedPoints l₃ (by omega)
  refine ⟨⟨formats, lo.toNat + 256 * hi.toNat, ⟨x, y, z, yaw⟩⟩, l₄, ?_,
    ⟨Word.word_lt lo hi, ?_, ?_⟩, rfl⟩
  · rw [toBytes_eq, ← hf, AxisFormat.toByte_ofByte, Word.toBytes_toNat]
    simp
  · intro axis
    cases axis <;> assumption
  · intro axis
    cases axis <;> assumption

end Record

end DroneShow
