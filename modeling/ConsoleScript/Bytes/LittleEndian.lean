import ConsoleScript.Bytes.Basic

/-!
# Little-endian numbers

Numbers of a fixed width are stored with the least significant byte first.
-/

namespace ConsoleScript.Bytes

/-- The `width` low bytes of `n`, least significant first. -/
def littleEndian : Nat → Nat → Bytes
  | 0, _ => []
  | width + 1, n => UInt8.ofNat n :: littleEndian width (n / 256)

/-- The number that the bytes store, least significant first. -/
def ofLittleEndian : Bytes → Nat
  | [] => 0
  | b :: s => b.toNat + 256 * ofLittleEndian s

/-- How many numbers have a width. -/
def range : Nat → Nat
  | 0 => 1
  | width + 1 => 256 * range width

@[simp] theorem length_littleEndian (width n : Nat) :
    (littleEndian width n).length = width := by
  induction width generalizing n with
  | zero => rfl
  | succ width ih => simp [littleEndian, ih]

theorem ofLittleEndian_littleEndian (width n : Nat) :
    ofLittleEndian (littleEndian width n) = n % range width := by
  induction width generalizing n with
  | zero => simp [littleEndian, ofLittleEndian, range, Nat.mod_one]
  | succ width ih =>
      have hbyte : (UInt8.ofNat n).toNat = n % 256 := UInt8.toNat_ofNat'
      rw [littleEndian, ofLittleEndian, ih, hbyte, range, Nat.mod_mul]

theorem ofLittleEndian_lt (s : Bytes) : ofLittleEndian s < range s.length := by
  induction s with
  | nil => simp [ofLittleEndian, range]
  | cons b s ih =>
      have hb := b.toNat_lt
      simp only [ofLittleEndian, List.length_cons, range]
      omega

theorem littleEndian_ofLittleEndian (s : Bytes) :
    littleEndian s.length (ofLittleEndian s) = s := by
  induction s with
  | nil => rfl
  | cons b s ih =>
      have hb := b.toNat_lt
      have hhead : UInt8.ofNat (b.toNat + 256 * ofLittleEndian s) = b := by
        apply UInt8.toNat_inj.mp
        simp only [UInt8.toNat_ofNat']
        omega
      have htail : (b.toNat + 256 * ofLittleEndian s) / 256 = ofLittleEndian s := by omega
      simp [littleEndian, ofLittleEndian, hhead, htail, ih]

/-- The two bytes of a signed 16-bit number. -/
def ofInt16 (n : Int16) : Bytes := littleEndian 2 n.toUInt16.toNat

/-- The signed 16-bit number that two bytes store. -/
def toInt16 (low high : UInt8) : Int16 :=
  (UInt16.ofNat (ofLittleEndian [low, high])).toInt16

@[simp] theorem length_ofInt16 (n : Int16) : (ofInt16 n).length = 2 := by
  simp [ofInt16]

theorem toInt16_ofInt16 (n : Int16) :
    ∃ low high, ofInt16 n = [low, high] ∧ toInt16 low high = n := by
  refine ⟨UInt8.ofNat n.toUInt16.toNat, UInt8.ofNat (n.toUInt16.toNat / 256), rfl, ?_⟩
  have h := ofLittleEndian_littleEndian 2 n.toUInt16.toNat
  have hn := n.toUInt16.toNat_lt
  simp only [littleEndian] at h
  rw [toInt16, h]
  rw [Nat.mod_eq_of_lt (by simpa [range] using hn)]
  simp

theorem ofInt16_toInt16 (low high : UInt8) : ofInt16 (toInt16 low high) = [low, high] := by
  have h := littleEndian_ofLittleEndian [low, high]
  have hlt := ofLittleEndian_lt [low, high]
  simp only [List.length_cons, List.length_nil] at h hlt
  rw [ofInt16, toInt16]
  simp only [UInt16.toUInt16_toInt16, UInt16.toNat_ofNat']
  rw [Nat.mod_eq_of_lt (by simpa [range] using hlt)]
  simpa using h

end ConsoleScript.Bytes
