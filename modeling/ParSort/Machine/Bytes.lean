import Mathlib.Data.List.GetD
import ParSort.Machine.F32

/-!
# Floats in a file

A file of floats is their four bytes each, the lowest first (`ofFile_toBytes`). Where the file ends
within a float, the bytes that are there are written over what the float was (`overlay`): a float
of the file takes its place (`overlay_eq_ofFile`), and one that is there but for its last byte is as
one that ends with the byte before it was read (`overlay_append`).
-/

namespace F32

/-- The float of four bytes. -/
def ofBytes (b₀ b₁ b₂ b₃ : UInt8) : F32 :=
  ⟨.ofNat 32 (b₀.toNat + 2 ^ 8 * b₁.toNat + 2 ^ 16 * b₂.toNat + 2 ^ 24 * b₃.toNat)⟩

/-- Byte `k` of a float. -/
def byte (x : F32) (k : Nat) : UInt8 := .ofNat (x.bits.toNat / 2 ^ (8 * k))

def toBytes (x : F32) : List UInt8 := [x.byte 0, x.byte 1, x.byte 2, x.byte 3]

theorem ofBytes_byte (x : F32) : ofBytes (x.byte 0) (x.byte 1) (x.byte 2) (x.byte 3) = x := by
  obtain ⟨bits⟩ := x
  have hlt := bits.isLt
  simp only [ofBytes, byte, UInt8.toNat_ofNat', F32.mk.injEq]
  refine BitVec.eq_of_toNat_eq ?_
  rw [BitVec.toNat_ofNat]
  omega

/-- The whole floats of a file. -/
def ofFile : List UInt8 → List F32
  | b₀ :: b₁ :: b₂ :: b₃ :: file => ofBytes b₀ b₁ b₂ b₃ :: ofFile file
  | _ => []

/-- **The round trip**: floats that were written are read again, whatever follows them. -/
theorem ofFile_toBytes (xs : List F32) (file : List UInt8) :
    ofFile (xs.flatMap toBytes ++ file) = xs ++ ofFile file := by
  induction xs with
  | nil => rfl
  | cons x xs ih =>
    rw [List.flatMap_cons, List.append_assoc]
    change ofBytes (x.byte 0) (x.byte 1) (x.byte 2) (x.byte 3) ::
      ofFile (xs.flatMap toBytes ++ file) = _
    rw [ofBytes_byte, ih]
    rfl

theorem length_ofFile (file : List UInt8) : (ofFile file).length = file.length / 4 := by
  fun_induction ofFile file with
  | case1 b₀ b₁ b₂ b₃ file ih =>
    simp only [List.length_cons, ih]
    omega
  | case2 file h =>
    have hlt : file.length < 4 := by
      match file with
      | [] => exact (by decide : 0 < 4)
      | [_] => exact (by decide : 1 < 4)
      | [_, _] => exact (by decide : 2 < 4)
      | [_, _, _] => exact (by decide : 3 < 4)
      | b₀ :: b₁ :: b₂ :: b₃ :: file => exact absurd rfl (h b₀ b₁ b₂ b₃ file)
    rw [Nat.div_eq_of_lt hlt]
    rfl

/-! ## Floats that the file ends in -/

/-- `x` with the bytes of a file written over its first ones. -/
def overlay (file : List UInt8) (x : F32) : F32 :=
  ofBytes (file.getD 0 (x.byte 0)) (file.getD 1 (x.byte 1)) (file.getD 2 (x.byte 2))
    (file.getD 3 (x.byte 3))

theorem overlay_eq_ofFile {file : List UInt8} {i : Nat} (h : i < (ofFile file).length) (x : F32) :
    overlay (file.drop (4 * i)) x = (ofFile file)[i] := by
  fun_induction ofFile file generalizing i with
  | case1 b₀ b₁ b₂ b₃ file ih =>
    cases i with
    | zero => rfl
    | succ i => exact ih (Nat.lt_of_succ_lt_succ h)
  | case2 => exact absurd h (Nat.not_lt_zero i)

/-- Only the last byte of `x` can be missing. -/
theorem overlay_append {file : List UInt8} {b : UInt8} {x : F32} (h : 3 ≤ file.length)
    (hb : file.length = 3 → x.byte 3 = b) : overlay (file ++ [b]) x = overlay file x := by
  match file, h with
  | [_, _, _], _ =>
    rw [← hb rfl]
    rfl
  | _ :: _ :: _ :: _ :: _, _ => rfl

theorem byte_three_ofBytes (b₀ b₁ b₂ b₃ : UInt8) : (ofBytes b₀ b₁ b₂ b₃).byte 3 = b₃ := by
  have h₀ := b₀.toNat_lt
  have h₁ := b₁.toNat_lt
  have h₂ := b₂.toNat_lt
  have h₃ := b₃.toNat_lt
  refine UInt8.toNat_inj.1 ?_
  rw [byte, UInt8.toNat_ofNat', ofBytes, BitVec.toNat_ofNat]
  omega

theorem magnitude_ofBytes (b₀ b₁ b₂ b₃ : UInt8) : (ofBytes b₀ b₁ b₂ b₃).magnitude =
    b₀.toNat + 2 ^ 8 * b₁.toNat + 2 ^ 16 * b₂.toNat + 2 ^ 24 * (b₃.toNat % 2 ^ 7) := by
  have h₀ := b₀.toNat_lt
  have h₁ := b₁.toNat_lt
  have h₂ := b₂.toNat_lt
  have h₃ := b₃.toNat_lt
  rw [magnitude, ofBytes, BitVec.toNat_ofNat]
  omega

/-- Zeros behind a part of a float are no NaN. -/
theorem isNum_overlay_zero {file : List UInt8} (h : file.length ≤ 3) :
    (overlay file ⟨0⟩).IsNum := by
  have h₀ := (file.getD 0 0).toNat_lt
  have h₁ := (file.getD 1 0).toNat_lt
  have h₂ := (file.getD 2 0).toNat_lt
  have h₃ : file.getD 3 0 = 0 := List.getD_eq_default _ _ h
  refine decide_eq_false ?_
  change ¬0x7F800000 < magnitude (ofBytes (file.getD 0 0) (file.getD 1 0) (file.getD 2 0)
    (file.getD 3 0))
  rw [magnitude_ofBytes, h₃]
  change ¬0x7F800000 < _ + 2 ^ 24 * 0
  omega

/-- The upper half of a NaN is a NaN, whatever is below it. -/
theorem not_isNum_overlay {file : List UInt8} (h : file.length ≤ 2) :
    ¬(overlay file ⟨0x7FC00000⟩).IsNum := by
  have h₂ : file.getD 2 0xC0 = 0xC0 := List.getD_eq_default _ _ h
  have h₃ : file.getD 3 0x7F = 0x7F := List.getD_eq_default _ _ (Nat.le_succ_of_le h)
  refine fun hnum => of_decide_eq_false hnum ?_
  change 0x7F800000 < magnitude (ofBytes (file.getD 0 0) (file.getD 1 0) (file.getD 2 0xC0)
    (file.getD 3 0x7F))
  rw [magnitude_ofBytes, h₂, h₃]
  change 0x7F800000 < _ + 2 ^ 16 * 0xC0 + 2 ^ 24 * 0x7F
  omega

end F32
