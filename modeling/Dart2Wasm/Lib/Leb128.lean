import Mathlib.Data.Int.ModEq
import Dart2Wasm.Lib.Codec

/-!
# Leb128 — variable-length integers

Unsigned and signed LEB128: seven bits a byte, lowest first, the high bit of a byte set when
another one follows. In the signed form bit 6 of the last byte is the sign.
-/

namespace Dart2Wasm.Lib.Leb128

/-! ## Writers -/

/-- The loop of the unsigned writer; the value itself bounds the number of rounds. -/
def unsignedLoop : Nat → Nat → List UInt8
  | 0, v => [UInt8.ofNat v]
  | fuel + 1, v =>
    if 0x80 ≤ v then UInt8.ofNat (v % 0x80 + 0x80) :: unsignedLoop fuel (v / 0x80)
    else [UInt8.ofNat v]

def unsigned (v : Nat) : List UInt8 :=
  unsignedLoop v v

/-- The loop of the signed writer; the magnitude of the value bounds the number of rounds. -/
def signedLoop : Nat → Int → List UInt8
  | 0, v => [UInt8.ofNat (v % 0x80).toNat]
  | fuel + 1, v =>
    if v < -0x40 ∨ 0x40 ≤ v then
      UInt8.ofNat ((v % 0x80).toNat + 0x80) :: signedLoop fuel (v / 0x80)
    else [UInt8.ofNat (v % 0x80).toNat]

def signed (v : Int) : List UInt8 :=
  signedLoop v.natAbs v

/-! ## Readers -/

def readUnsigned : Parser UInt8 Nat
  | [] => none
  | b :: bs =>
    if b.toNat < 0x80 then some (b.toNat, bs)
    else
      match readUnsigned bs with
      | some (v, rest) => some (b.toNat - 0x80 + 0x80 * v, rest)
      | none => none

def readSigned : Parser UInt8 Int
  | [] => none
  | b :: bs =>
    if b.toNat < 0x40 then some (b.toNat, bs)
    else if b.toNat < 0x80 then some (b.toNat - 0x80, bs)
    else
      match readSigned bs with
      | some (v, rest) => some (b.toNat - 0x80 + 0x80 * v, rest)
      | none => none

/-! ## Reading back what was written -/

private theorem toNat_ofNat {n : Nat} (h : n < 256) : (UInt8.ofNat n).toNat = n := by
  simp [Nat.mod_eq_of_lt h]

theorem readUnsigned_loop (fuel v : Nat) (h : v ≤ fuel) (rest : List UInt8) :
    readUnsigned (unsignedLoop fuel v ++ rest) = some (v, rest) := by
  induction fuel generalizing v with
  | zero =>
    have hv : v = 0 := by omega
    subst hv
    simp [unsignedLoop, readUnsigned]
  | succ fuel ih =>
    rw [unsignedLoop]
    split
    · rename_i hbig
      have hbyte : (UInt8.ofNat (v % 0x80 + 0x80)).toNat = v % 0x80 + 0x80 := toNat_ofNat (by omega)
      have hrec := ih (v / 0x80) (by omega)
      have hge : ¬ (v % 0x80 + 0x80 < 0x80) := by omega
      simp only [List.cons_append, readUnsigned, hbyte, hge, if_false, hrec]
      have : v % 0x80 + 0x80 - 0x80 + 0x80 * (v / 0x80) = v := by omega
      rw [this]
    · rename_i hsmall
      have hbyte : (UInt8.ofNat v).toNat = v := toNat_ofNat (by omega)
      have hlt : v < 0x80 := by omega
      simp [readUnsigned, hbyte, hlt]

/-- A value that ends the signed writer's loop is recovered from its last byte. -/
private theorem readSigned_last {v : Int} (hlo : -0x40 ≤ v) (hhi : v < 0x40) (rest : List UInt8) :
    readSigned (UInt8.ofNat (v % 0x80).toNat :: rest) = some (v, rest) := by
  have hbyte : (UInt8.ofNat (v % 0x80).toNat).toNat = (v % 0x80).toNat := toNat_ofNat (by omega)
  rcases Int.lt_or_le v 0 with hneg | hpos
  · have h₁ : ¬ (v % 0x80).toNat < 0x40 := by omega
    have h₂ : (v % 0x80).toNat < 0x80 := by omega
    have h₃ : ((v % 0x80).toNat : Int) - 0x80 = v := by omega
    simp only [readSigned, hbyte, h₁, h₂, if_true, if_false]
    rw [h₃]
  · have h₁ : (v % 0x80).toNat < 0x40 := by omega
    have h₂ : ((v % 0x80).toNat : Int) = v := by omega
    simp only [readSigned, hbyte, h₁, if_true]
    rw [h₂]

theorem readSigned_loop (fuel : Nat) (v : Int) (h : v.natAbs ≤ fuel) (rest : List UInt8) :
    readSigned (signedLoop fuel v ++ rest) = some (v, rest) := by
  induction fuel generalizing v with
  | zero =>
    have hv : v = 0 := by omega
    subst hv
    exact readSigned_last (by omega) (by omega) rest
  | succ fuel ih =>
    rw [signedLoop]
    split
    · rename_i hbig
      have hbyte : (UInt8.ofNat ((v % 0x80).toNat + 0x80)).toNat = (v % 0x80).toNat + 0x80 :=
        toNat_ofNat (by omega)
      have hrec := ih (v / 0x80) (by omega)
      have h₁ : ¬ ((v % 0x80).toNat + 0x80 < 0x40) := by omega
      have h₂ : ¬ ((v % 0x80).toNat + 0x80 < 0x80) := by omega
      simp only [List.cons_append, readSigned, hbyte, h₁, h₂, if_false, hrec]
      have : (((v % 0x80).toNat + 0x80 : Nat) : Int) - 0x80 + 0x80 * (v / 0x80) = v := by
        omega
      rw [this]
    · rename_i hsmall
      exact readSigned_last (by omega) (by omega) rest

end Dart2Wasm.Lib.Leb128
