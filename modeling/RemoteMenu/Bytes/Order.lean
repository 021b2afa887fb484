/-!
# Byte order

Words as bytes. `ofBigEndian_bigEndian` and `bigEndian_ofBigEndian` say that four bytes and a
32-bit word determine each other.
-/

namespace RemoteMenu

def bigEndian (w : UInt32) : List UInt8 :=
  [(w >>> 24).toUInt8, (w >>> 16).toUInt8, (w >>> 8).toUInt8, w.toUInt8]

def ofBigEndian (a b c d : UInt8) : UInt32 :=
  .ofNat (a.toNat * 0x1000000 + b.toNat * 0x10000 + c.toNat * 0x100 + d.toNat)

theorem ofBigEndian_bigEndian (w : UInt32) :
    ofBigEndian (w >>> 24).toUInt8 (w >>> 16).toUInt8 (w >>> 8).toUInt8 w.toUInt8 = w := by
  apply UInt32.toNat_inj.1
  have := w.toNat_lt
  simp [ofBigEndian, Nat.shiftRight_eq_div_pow]
  omega

theorem bigEndian_ofBigEndian (a b c d : UInt8) : bigEndian (ofBigEndian a b c d) = [a, b, c, d] := by
  have := a.toNat_lt
  have := b.toNat_lt
  have := c.toNat_lt
  have := d.toNat_lt
  simp only [bigEndian, List.cons.injEq, and_true]
  refine ⟨?_, ?_, ?_, ?_⟩ <;> apply UInt8.toNat_inj.1 <;>
    simp [ofBigEndian, Nat.shiftRight_eq_div_pow] <;> try omega

/-- The lowest `count` bytes of a number, lowest first. -/
def littleEndian : (count : Nat) → Nat → List UInt8
  | 0, _ => []
  | count + 1, n => n.toUInt8 :: littleEndian count (n / 256)

def ofLittleEndian : List UInt8 → Nat
  | [] => 0
  | b :: bs => b.toNat + 256 * ofLittleEndian bs

@[simp] theorem length_littleEndian (count n : Nat) : (littleEndian count n).length = count := by
  induction count generalizing n with
  | zero => rfl
  | succ count ih => simp [littleEndian, ih]

end RemoteMenu
