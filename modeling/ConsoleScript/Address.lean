/-!
# Addresses

Places in a code section are words of 64 bits. An offset is the unsigned reading
of its word. A jump's target is the signed reading, in which the upper half of
the words counts as negative.
-/

namespace ConsoleScript.Address

/-- The unsigned reading of the 64-bit word that a number leaves. -/
def unsigned (n : Int) : Nat := (n % 0x10000000000000000).toNat

/-- The signed reading of the 64-bit word that a number leaves. -/
def signed (n : Int) : Int := n.bmod 0x10000000000000000

theorem unsigned_of_lt {n : Nat} (h : n < 0x10000000000000000) : unsigned n = n := by
  rw [unsigned, Int.emod_eq_of_lt (Int.natCast_nonneg n) (by omega), Int.toNat_natCast]

theorem signed_of_le_of_lt {n : Int} (hle : -0x8000000000000000 ≤ n)
    (hlt : n < 0x8000000000000000) : signed n = n :=
  Int.bmod_eq_of_le hle hlt

/-- Both readings are of the same word. -/
theorem unsigned_signed (n : Int) : unsigned (signed n) = unsigned n := by
  rw [unsigned, unsigned, signed]
  exact congrArg Int.toNat Int.bmod_emod

end ConsoleScript.Address
