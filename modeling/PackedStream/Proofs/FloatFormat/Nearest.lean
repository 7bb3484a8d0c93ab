import PackedStream.FloatFormat.Nearest
import PackedStream.Proofs.FloatFormat

namespace PackedStream

section RoundHalfEven

variable {den : ℕ}

theorem div_le_roundHalfEven (num den : ℕ) : num / den ≤ roundHalfEven num den := by
  unfold roundHalfEven
  dsimp only
  split <;> omega

theorem roundHalfEven_le (num den : ℕ) : roundHalfEven num den ≤ num / den + 1 := by
  unfold roundHalfEven
  dsimp only
  split <;> omega

theorem roundHalfEven_mono (den : ℕ) : Monotone fun num => roundHalfEven num den := by
  intro a b hab
  have hdiv : a / den ≤ b / den := Nat.div_le_div_right hab
  obtain hlt | heq := hdiv.lt_or_eq
  · have ha := roundHalfEven_le a den
    have hb := div_le_roundHalfEven b den
    dsimp only
    omega
  · have hmod : a % den ≤ b % den := by
      have ha := Nat.div_add_mod a den
      have hb := Nat.div_add_mod b den
      rw [heq] at ha
      omega
    simp only [roundHalfEven, heq]
    split <;> split <;> omega

theorem roundHalfEven_mul (n : ℕ) (hden : 0 < den) : roundHalfEven (n * den) den = n := by
  rw [roundHalfEven, Nat.mul_div_cancel _ hden, Nat.mul_mod_left]
  exact if_pos (.inl hden)

theorem roundHalfEven_mul_right (num den : ℕ) {c : ℕ} (hc : 0 < c) :
    roundHalfEven (num * c) (den * c) = roundHalfEven num den := by
  have hlt : 2 * (num % den * c) < den * c ↔ 2 * (num % den) < den := by
    rw [← Nat.mul_assoc]
    exact Nat.mul_lt_mul_right hc
  have heq : 2 * (num % den * c) = den * c ↔ 2 * (num % den) = den := by
    rw [← Nat.mul_assoc]
    exact Nat.mul_left_inj hc.ne'
  simp only [roundHalfEven, Nat.mul_div_mul_right _ _ hc, Nat.mul_mod_mul_right, hlt, heq]

theorem roundHalfEven_pred {p e : ℕ} (hp : 0 < p) (he : 0 < e) :
    roundHalfEven (2 ^ (p + e) - 1) (2 ^ e) = 2 ^ p := by
  have hp2 : 2 ^ p = 2 * 2 ^ (p - 1) := by rw [← pow_succ', Nat.sub_add_cancel hp]
  have he2 : 2 ^ e = 2 * 2 ^ (e - 1) := by rw [← pow_succ', Nat.sub_add_cancel he]
  have hpos : 0 < 2 ^ (p - 1) := Nat.two_pow_pos _
  have hepos : 0 < 2 ^ (e - 1) := Nat.two_pow_pos _
  have hsplit : 2 ^ (p + e) - 1 = (2 ^ e - 1) + 2 ^ e * (2 ^ p - 1) := by
    rw [Nat.mul_sub_one, pow_add, Nat.mul_comm (2 ^ p)]
    have hle : 2 ^ e ≤ 2 ^ e * 2 ^ p := Nat.le_mul_of_pos_right _ (by positivity)
    omega
  have hdiv : (2 ^ (p + e) - 1) / 2 ^ e = 2 ^ p - 1 := by
    rw [hsplit, Nat.add_mul_div_left _ _ (by positivity), Nat.div_eq_of_lt (by omega), Nat.zero_add]
  have hmod : (2 ^ (p + e) - 1) % 2 ^ e = 2 ^ e - 1 := by
    rw [hsplit, Nat.add_mul_mod_self_left, Nat.mod_eq_of_lt (by omega)]
  simp only [roundHalfEven, hdiv, hmod]
  rw [if_neg (by omega)]
  omega

end RoundHalfEven

namespace FloatFormat

variable {F : FloatFormat} {num num' den : ℕ}

section Magnitudes

def excess (F : FloatFormat) (n : ℕ) : ℕ := n.log2 - F.fractionBits

theorem excess_mono : Monotone F.excess := by
  intro m n h
  obtain rfl | hm := m.eq_zero_or_pos
  · simp [excess]
  · have hlog : m.log2 ≤ n.log2 := by
      rw [Nat.le_log2 (by omega)]
      exact le_trans (Nat.log2_self_le hm.ne') h
    exact Nat.sub_le_sub_right hlog _

theorem nearest_eq (F : FloatFormat) (num den : ℕ) : F.nearest num den =
    min F.infinity (F.excess (num / den) * 2 ^ F.fractionBits +
      roundHalfEven num (den * 2 ^ F.excess (num / den))) := rfl

theorem nearest_le_infinity (F : FloatFormat) (num den : ℕ) : F.nearest num den ≤ F.infinity :=
  Nat.min_le_left _ _

theorem rounded_steps (F : FloatFormat) (num den : ℕ) :
    (F.excess (num / den) = 0 ∨
      2 ^ F.fractionBits ≤ roundHalfEven num (den * 2 ^ F.excess (num / den))) ∧
    roundHalfEven num (den * 2 ^ F.excess (num / den)) ≤ 2 ^ (F.fractionBits + 1) := by
  have hdiv : num / (den * 2 ^ F.excess (num / den)) = num / den / 2 ^ F.excess (num / den) :=
    (Nat.div_div_eq_div_mul _ _ _).symm
  have hlow := div_le_roundHalfEven num (den * 2 ^ F.excess (num / den))
  have hhigh := roundHalfEven_le num (den * 2 ^ F.excess (num / den))
  rw [hdiv] at hlow hhigh
  generalize hn : num / den = n at hlow hhigh ⊢
  have hpow : 0 < 2 ^ F.excess n := Nat.two_pow_pos _
  constructor
  · by_cases hs : F.excess n = 0
    · exact .inl hs
    · right
      refine le_trans ?_ hlow
      have hne : n ≠ 0 := by
        rintro rfl
        simp [excess] at hs
      rw [Nat.le_div_iff_mul_le hpow, ← pow_add]
      refine le_trans (Nat.pow_le_pow_right (by decide) ?_) (Nat.log2_self_le hne)
      unfold excess at hs ⊢
      omega
  · have hlt : n / 2 ^ F.excess n < 2 ^ (F.fractionBits + 1) := by
      rw [Nat.div_lt_iff_lt_mul hpow, ← pow_add]
      refine lt_of_lt_of_le Nat.lt_log2_self (Nat.pow_le_pow_right (by decide) ?_)
      unfold excess
      omega
    omega

theorem nearest_mul_right (F : FloatFormat) (num den : ℕ) {c : ℕ} (hc : 0 < c) :
    F.nearest (num * c) (den * c) = F.nearest num den := by
  rw [nearest_eq, nearest_eq, Nat.mul_div_mul_right _ _ hc, Nat.mul_right_comm den,
    roundHalfEven_mul_right _ _ hc]

theorem nearest_mono (F : FloatFormat) (den : ℕ) : Monotone fun num => F.nearest num den := by
  intro a b hab
  dsimp only
  rw [nearest_eq, nearest_eq]
  apply min_le_min_left
  have hexcess := excess_mono (F := F) (Nat.div_le_div_right (c := den) hab)
  obtain hlt | heq := hexcess.lt_or_eq
  · have hhigh := (F.rounded_steps a den).2
    have hlow := (F.rounded_steps b den).1.resolve_left (by omega)
    have hnext := Nat.mul_le_mul_right (2 ^ F.fractionBits) (Nat.succ_le_of_lt hlt)
    rw [Nat.succ_mul] at hnext
    rw [pow_succ] at hhigh
    omega
  · rw [heq]
    exact Nat.add_le_add_left (roundHalfEven_mono _ hab) _

theorem excess_binade {s q : ℕ} (hlow : s = 0 ∨ 2 ^ F.fractionBits ≤ q)
    (hhigh : q < 2 ^ (F.fractionBits + 1)) : F.excess (q * 2 ^ s) = s := by
  obtain rfl | hq := q.eq_zero_or_pos
  · have hs : s = 0 := hlow.resolve_right (by simp)
    simp [excess, hs]
  · have hlog : (q * 2 ^ s).log2 = q.log2 + s := by
      rw [Nat.log2_eq_iff (Nat.mul_pos hq (Nat.two_pow_pos s)).ne', Nat.add_right_comm, pow_add,
        pow_add _ (q.log2 + 1)]
      exact ⟨Nat.mul_le_mul_right _ (Nat.log2_self_le hq.ne'),
        Nat.mul_lt_mul_of_pos_right Nat.lt_log2_self (Nat.two_pow_pos s)⟩
    have hq2 : q.log2 < F.fractionBits + 1 := (Nat.log2_lt hq.ne').mpr hhigh
    rw [excess, hlog]
    obtain rfl | hs := hlow
    · omega
    · have hge : F.fractionBits ≤ q.log2 := (Nat.le_log2 hq.ne').mpr hs
      omega

theorem nearest_units (hden : 0 < den) {m : ℕ} (hm : m ≤ F.infinity) :
    F.nearest (F.units m * den) den = m := by
  obtain ⟨s, q, hsplit, hlow, hhigh, hunits⟩ := F.exists_units_eq m
  rw [nearest_eq, Nat.mul_div_cancel _ hden, hunits, excess_binade hlow hhigh, Nat.mul_assoc,
    Nat.mul_comm (2 ^ s), roundHalfEven_mul _ (Nat.mul_pos hden (Nat.two_pow_pos s)), ← hsplit]
  exact Nat.min_eq_right hm

theorem nearest_pred_two_pow (F : FloatFormat) {e s : ℕ} (he : 0 < e) :
    F.nearest ((2 ^ (F.fractionBits + 1 + e) - 1) * 2 ^ s) 1 =
      min F.infinity ((e + s) * 2 ^ F.fractionBits + 2 ^ (F.fractionBits + 1)) := by
  have hexcess : F.excess ((2 ^ (F.fractionBits + 1 + e) - 1) * 2 ^ s) = e + s := by
    have hpow : 2 ^ (F.fractionBits + 1 + e) = 2 * 2 ^ (F.fractionBits + e) := by
      rw [← pow_succ', Nat.add_right_comm]
    have hpos : 0 < 2 ^ (F.fractionBits + e) := Nat.two_pow_pos _
    have hlog : ((2 ^ (F.fractionBits + 1 + e) - 1) * 2 ^ s).log2 = F.fractionBits + e + s := by
      rw [Nat.log2_eq_iff (Nat.mul_pos (by omega) (Nat.two_pow_pos s)).ne', pow_succ, pow_add _ _ s,
        Nat.mul_right_comm]
      exact ⟨Nat.mul_le_mul_right _ (by omega),
        Nat.mul_lt_mul_of_pos_right (by omega) (Nat.two_pow_pos s)⟩
    rw [excess, hlog]
    omega
  rw [nearest_eq, Nat.div_one, hexcess, Nat.one_mul, pow_add 2 e s,
    roundHalfEven_mul_right _ _ (Nat.two_pow_pos s), roundHalfEven_pred (Nat.succ_pos _) he]

theorem nearest_le (hden : 0 < den) {m : ℕ} (hm : m ≤ F.infinity) (h : num ≤ F.units m * den) :
    F.nearest num den ≤ m :=
  (F.nearest_mono den h).trans_eq (nearest_units hden hm)

theorem le_nearest (hden : 0 < den) {m : ℕ} (hm : m ≤ F.infinity) (h : F.units m * den ≤ num) :
    m ≤ F.nearest num den :=
  (nearest_units hden hm).symm.trans_le (F.nearest_mono den h)

end Magnitudes

end FloatFormat

end PackedStream
