-- Words read back. What reading finds depends only on the bytes from the
-- offset on: the words that were spelled there, or a fault where they end.
import DroneShow.Record.Quantum
import DroneShow.Record.Word

namespace DroneShow

namespace Quantum

/-- A value that 16 bits hold. -/
def Stored (raw : Int) : Prop := least ≤ raw ∧ raw ≤ greatest

instance decidableStored (raw : Int) : Decidable (Stored raw) :=
  inferInstanceAs (Decidable (_ ∧ _))

theorem stored_iff {raw : Int} : Stored raw ↔ -32768 ≤ raw ∧ raw ≤ 32767 := Iff.rfl

end Quantum

namespace Word

open Quantum (Stored stored_iff)

variable {bytes : Bytes} {offset : Nat} {rest : List UInt8}

/-- The bytes of stored values, one word each. -/
def spell (raws : List Int) : List UInt8 := raws.flatMap fun raw => toBytes (ofSigned raw)

@[simp] theorem spell_cons (raw : Int) (raws : List Int) :
    spell (raw :: raws) = toBytes (ofSigned raw) ++ spell raws := rfl

@[simp] theorem length_toBytes (n : Nat) : (toBytes n).length = 2 := rfl

@[simp] theorem length_spell (raws : List Int) : (spell raws).length = 2 * raws.length := by
  induction raws with
  | nil => rfl
  | cons raw raws ih =>
    rw [spell_cons, List.length_append, ih, length_toBytes, List.length_cons]
    omega

/-! ## Numbers and their bytes -/

theorem toNat_toBytes {n : Nat} (h : n < 65536) :
    (UInt8.ofNat n).toNat + 256 * (UInt8.ofNat (n / 256)).toNat = n := by
  simp only [UInt8.toNat_ofNat']
  omega

theorem toBytes_toNat (lo hi : UInt8) : toBytes (lo.toNat + 256 * hi.toNat) = [lo, hi] := by
  have hlo := lo.toNat_lt
  have hhi := hi.toNat_lt
  have h1 : UInt8.ofNat (lo.toNat + 256 * hi.toNat) = lo := by
    apply UInt8.toNat_inj.mp
    rw [UInt8.toNat_ofNat']
    omega
  have h2 : UInt8.ofNat ((lo.toNat + 256 * hi.toNat) / 256) = hi := by
    apply UInt8.toNat_inj.mp
    rw [UInt8.toNat_ofNat']
    omega
  rw [toBytes, h1, h2]

theorem word_lt (lo hi : UInt8) : lo.toNat + 256 * hi.toNat < 65536 := by
  have hlo := lo.toNat_lt
  have hhi := hi.toNat_lt
  omega

theorem bmod_ofSigned {raw : Int} (h : Stored raw) : Int.bmod (ofSigned raw) 65536 = raw := by
  rw [stored_iff] at h
  unfold ofSigned
  rw [Int.bmod_def]
  split <;> omega

theorem stored_bmod {n : Nat} (h : n < 65536) :
    Stored (Int.bmod n 65536) ∧ ofSigned (Int.bmod n 65536) = n := by
  rw [stored_iff, ofSigned, Int.bmod_def]
  constructor
  · split <;> omega
  · split <;> omega

/-! ## Reading -/

theorem read_of_drop {lo hi : UInt8} (h : bytes.toList.drop offset = lo :: hi :: rest) :
    read bytes offset = .ok (lo.toNat + 256 * hi.toNat) := by
  have h0 : bytes[offset]? = some lo := by
    rw [← Array.getElem?_toList, ← Nat.add_zero offset, ← List.getElem?_drop, h]
    rfl
  have h1 : bytes[offset + 1]? = some hi := by
    rw [← Array.getElem?_toList, ← List.getElem?_drop, h]
    rfl
  simp only [read, h0, h1]

theorem read_of_short (h : (bytes.toList.drop offset).length < 2) :
    read bytes offset = .error .truncatedData := by
  have h1 : bytes[offset + 1]? = none := by
    rw [← Array.getElem?_toList, ← List.getElem?_drop]
    exact List.getElem?_eq_none (by omega)
  unfold read
  rw [h1]
  split
  · simp_all
  · rfl

theorem readSigned_of_drop {raw : Int} (hr : Stored raw)
    (h : bytes.toList.drop offset = toBytes (ofSigned raw) ++ rest) :
    readSigned bytes offset = .ok raw := by
  have hlt : ofSigned raw < 65536 := by
    unfold ofSigned
    omega
  have hread := read_of_drop (show _ = UInt8.ofNat (ofSigned raw) ::
    UInt8.ofNat (ofSigned raw / 256) :: rest from h)
  rw [toNat_toBytes hlt] at hread
  simp only [readSigned, hread, bind, Except.bind, pure, Except.pure, bmod_ofSigned hr]

theorem drop_add {front : List UInt8} (h : bytes.toList.drop offset = front ++ rest) :
    bytes.toList.drop (offset + front.length) = rest := by
  rw [← List.drop_drop, h, List.drop_left]

theorem readList_of_drop {raws : List Int} (hr : ∀ raw ∈ raws, Stored raw)
    (h : bytes.toList.drop offset = spell raws ++ rest) :
    readList bytes raws.length offset = .ok raws := by
  induction raws generalizing offset with
  | nil => rfl
  | cons raw raws ih =>
    rw [spell_cons, List.append_assoc] at h
    have hhead := readSigned_of_drop (hr raw List.mem_cons_self) h
    have htail := ih (fun r hm => hr r (List.mem_cons_of_mem _ hm)) (drop_add h)
    rw [length_toBytes] at htail
    simp only [List.length_cons, readList, hhead, htail, bind, Except.bind, pure, Except.pure]

theorem readList_of_short {count : Nat} (h : (bytes.toList.drop offset).length < 2 * count) :
    readList bytes count offset = .error .truncatedData := by
  induction count generalizing offset with
  | zero => omega
  | succ count ih =>
    rcases Nat.lt_or_ge (bytes.toList.drop offset).length 2 with hlt | hge
    · simp only [readList, readSigned, read_of_short hlt, bind, Except.bind]
    · match hd : bytes.toList.drop offset with
      | [] => simp [hd] at hge
      | [_] => simp [hd] at hge
      | lo :: hi :: rest =>
        have hrest := drop_add (show bytes.toList.drop offset = [lo, hi] ++ rest from hd)
        rw [hd] at h
        simp only [List.length_cons, List.length_nil] at hrest h
        have hshort : (bytes.toList.drop (offset + 2)).length < 2 * count := by
          rw [hrest]
          omega
        have htail := ih hshort
        simp only [readList, readSigned, read_of_drop hd, htail, bind, Except.bind, pure,
          Except.pure]

theorem exists_spell (count : Nat) (l : List UInt8) (h : 2 * count ≤ l.length) :
    ∃ raws rest, l = spell raws ++ rest ∧ raws.length = count ∧ ∀ raw ∈ raws, Stored raw := by
  induction count generalizing l with
  | zero => exact ⟨[], l, rfl, rfl, by simp⟩
  | succ count ih =>
    match l, h with
    | lo :: hi :: l, h =>
      obtain ⟨raws, rest, rfl, hlen, hr⟩ := ih l (by
        simp only [List.length_cons] at h
        omega)
      obtain ⟨raw, hstored, hword⟩ : ∃ raw, Stored raw ∧ ofSigned raw = lo.toNat + 256 * hi.toNat :=
        ⟨_, stored_bmod (word_lt lo hi)⟩
      refine ⟨raw :: raws, rest, ?_, by rw [List.length_cons, hlen], ?_⟩
      · rw [spell_cons, hword, toBytes_toNat]
        rfl
      · intro raw' hm
        rcases List.mem_cons.mp hm with rfl | hm
        · exact hstored
        · exact hr raw' hm

end Word

end DroneShow
