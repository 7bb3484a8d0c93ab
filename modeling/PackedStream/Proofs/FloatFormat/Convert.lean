import PackedStream.Proofs.FloatFormat.Exact

namespace PackedStream.FloatFormat

variable {F G : FloatFormat} {w n : ℕ} {x : BitVec w}

theorem join_negative_magnitude (hw : w = F.magnitudeBits + 1) (x : BitVec w) :
    F.join (F.negative x) (F.magnitude x) = x := by
  rw [join, pow2_eq, ← toNat_eq hw x, BitVec.ofNat_toNat, BitVec.setWidth_eq]

theorem exists_join (hw : w = F.magnitudeBits + 1) (hx : F.isNaN x = false) :
    ∃ b m, m ≤ F.infinity ∧ F.join b m = x :=
  ⟨F.negative x, F.magnitude x, not_lt.mp (of_decide_eq_false hx), join_negative_magnitude hw x⟩

section Join

variable (hw : F.magnitudeBits < w) {m : ℕ}

include hw in
theorem convert_join (G : FloatFormat) (hm : m < F.infinity) (b : Bool) :
    (F.convert G (F.join b m : BitVec w) : BitVec n) =
      G.join b (G.nearest (F.units m * 2 ^ G.unitShift) (2 ^ F.unitShift)) := by
  have hfinite := isFinite_join hw hm b
  rw [convert]
  simp only [isNaN_of_finite hfinite, hfinite, Bool.false_eq_true, if_true, if_false,
    magnitude_join hw b hm.le, negative_join hw b hm.le, pow2_eq]

include hw in
theorem convert_join_infinity (G : FloatFormat) (b : Bool) :
    (F.convert G (F.join b F.infinity : BitVec w) : BitVec n) = G.join b G.infinity := by
  simp [convert, isNaN, isFinite, magnitude_join hw b le_rfl, negative_join hw b le_rfl]

end Join

theorem convert_convert (hw : w = F.magnitudeBits + 1) (hn : G.magnitudeBits < n)
    (hFG : ∀ v, F.Exact v → G.Exact v) (hx : F.isNaN x = false) :
    G.convert F (F.convert G x : BitVec n) = x := by
  have hw' : F.magnitudeBits < w := hw ▸ Nat.lt_succ_self _
  obtain ⟨b, m, hm, rfl⟩ := exists_join hw hx
  obtain hlt | rfl := hm.lt_or_eq
  · obtain ⟨_, ⟨k, hk, rfl⟩, hvalue⟩ := hFG _ (exact_value (isFinite_join hw' hlt b))
    have hunits : F.units m * 2 ^ G.unitShift = G.units k * 2 ^ F.unitShift := by
      have habs := abs_value (F := F) (F.join b m : BitVec w)
      rw [magnitude_join hw' b hm] at habs
      have hcross : (F.units m * 2 ^ G.unitShift : ℚ) = G.units k * 2 ^ F.unitShift := by
        rw [← habs, ← hvalue, mul_right_comm]
      exact_mod_cast hcross
    rw [convert_join hw' G hlt, hunits, nearest_units (by positivity) hk.le, convert_join hn F hk,
      ← hunits, nearest_units (by positivity) hm]
  · rw [convert_join_infinity hw', convert_join_infinity hn]

theorem convert_binary32_binary64 {x : BitVec 32} (hx : binary32.isNaN x = false) :
    binary64.convert binary32 (binary32.convert binary64 x : BitVec 64) = x :=
  convert_convert rfl magnitudeBits_binary64 (fun _ => Exact.binary64) hx

end PackedStream.FloatFormat
