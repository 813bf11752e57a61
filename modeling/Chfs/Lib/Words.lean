import Mathlib

/-! Words as their bytes and halves, the highest first. -/

namespace Words

/-- The byte at a position of a word that is put together. -/
theorem byte_of_join (b₃ b₂ b₁ b₀ : BitVec 8) (k : Nat) (hk : k < 4) :
    ((b₃.setWidth 32 <<< 24 ||| b₂.setWidth 32 <<< 16 ||| b₁.setWidth 32 <<< 8 ||| b₀.setWidth 32) >>>
      (8 * k)).setWidth 8 =
      [b₀, b₁, b₂, b₃][k] := by
  apply BitVec.eq_of_getLsbD_eq
  intro i hi
  simp only [BitVec.getLsbD_setWidth, BitVec.getLsbD_ushiftRight, BitVec.getLsbD_or, BitVec.getLsbD_shiftLeft]
  interval_cases k <;> dsimp only [List.getElem_cons_zero, List.getElem_cons_succ] <;> grind

theorem join_of_bytes (v : BitVec 32) :
    ((v >>> 24).setWidth 8).setWidth 32 <<< 24 ||| ((v >>> 16).setWidth 8).setWidth 32 <<< 16 |||
      ((v >>> 8).setWidth 8).setWidth 32 <<< 8 ||| (v.setWidth 8).setWidth 32 = v := by
  apply BitVec.eq_of_getLsbD_eq
  intro i hi
  simp only [BitVec.getLsbD_setWidth, BitVec.getLsbD_ushiftRight, BitVec.getLsbD_or, BitVec.getLsbD_shiftLeft]
  grind

/-- Four bytes are a word. -/
def bytes : UInt8 × UInt8 × UInt8 × UInt8 ≃ UInt32 where
  toFun b := b.1.toUInt32 <<< 24 ||| b.2.1.toUInt32 <<< 16 ||| b.2.2.1.toUInt32 <<< 8 ||| b.2.2.2.toUInt32
  invFun v := ((v >>> 24).toUInt8, (v >>> 16).toUInt8, (v >>> 8).toUInt8, v.toUInt8)
  left_inv := by
    rintro ⟨b₃, b₂, b₁, b₀⟩
    have h := byte_of_join b₃.toBitVec b₂.toBitVec b₁.toBitVec b₀.toBitVec
    refine Prod.ext ?_ (Prod.ext ?_ (Prod.ext ?_ ?_))
    · exact UInt8.toBitVec_inj.mp (h 3 (by omega))
    · exact UInt8.toBitVec_inj.mp (h 2 (by omega))
    · exact UInt8.toBitVec_inj.mp (h 1 (by omega))
    · exact UInt8.toBitVec_inj.mp (h 0 (by omega))
  right_inv v := UInt32.toBitVec_inj.mp (join_of_bytes v.toBitVec)

theorem high_of_join (high low : BitVec 32) :
    ((high.setWidth 64 <<< 32 ||| low.setWidth 64) >>> 32).setWidth 32 = high := by
  apply BitVec.eq_of_getLsbD_eq
  intro i hi
  simp only [BitVec.getLsbD_setWidth, BitVec.getLsbD_ushiftRight, BitVec.getLsbD_or, BitVec.getLsbD_shiftLeft]
  grind

theorem low_of_join (high low : BitVec 32) : (high.setWidth 64 <<< 32 ||| low.setWidth 64).setWidth 32 = low := by
  apply BitVec.eq_of_getLsbD_eq
  intro i hi
  simp only [BitVec.getLsbD_setWidth, BitVec.getLsbD_or, BitVec.getLsbD_shiftLeft]
  grind

theorem join_of_halves (v : BitVec 64) :
    ((v >>> 32).setWidth 32).setWidth 64 <<< 32 ||| (v.setWidth 32).setWidth 64 = v := by
  apply BitVec.eq_of_getLsbD_eq
  intro i hi
  simp only [BitVec.getLsbD_setWidth, BitVec.getLsbD_ushiftRight, BitVec.getLsbD_or, BitVec.getLsbD_shiftLeft]
  grind

/-- Two words are a double word. -/
def halves : UInt32 × UInt32 ≃ UInt64 where
  toFun h := h.1.toUInt64 <<< 32 ||| h.2.toUInt64
  invFun v := ((v >>> 32).toUInt32, v.toUInt32)
  left_inv := by
    rintro ⟨high, low⟩
    refine Prod.ext ?_ ?_
    · exact UInt32.toBitVec_inj.mp (high_of_join high.toBitVec low.toBitVec)
    · exact UInt32.toBitVec_inj.mp (low_of_join high.toBitVec low.toBitVec)
  right_inv v := UInt64.toBitVec_inj.mp (join_of_halves v.toBitVec)

end Words
