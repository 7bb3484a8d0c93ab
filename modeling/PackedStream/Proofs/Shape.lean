import PackedStream.Proofs.PackOptions
import PackedStream.Shape

namespace PackedStream.Shape

theorem foldl_times_none (shape : Shape) : shape.foldl times none = none := by
  induction shape with
  | nil => rfl
  | cons extent shape ih => exact ih

theorem prod_pos {shape : Shape} (hzero : 0 ∉ shape) : 0 < shape.prod :=
  Nat.pos_of_ne_zero (fun h => hzero (List.prod_eq_zero_iff.mp h))

theorem foldl_times {shape : Shape} (hzero : 0 ∉ shape) {n : ℕ} (hn : n < sizeLimit) :
    shape.foldl times (some n) =
      if n * shape.prod < sizeLimit then some (n * shape.prod) else none := by
  induction shape generalizing n with
  | nil => simp [hn]
  | cons extent shape ih =>
    rw [List.mem_cons, not_or] at hzero
    rw [List.foldl_cons, List.prod_cons, ← Nat.mul_assoc, times, Option.bind_some]
    by_cases hextent : n * extent < sizeLimit
    · rw [if_pos hextent, ih hzero.2 hextent]
    · have hle : n * extent ≤ n * extent * shape.prod := Nat.le_mul_of_pos_right _ (prod_pos hzero.2)
      rw [if_neg hextent, if_neg (by omega), foldl_times_none]

theorem check_eq_ok_iff {shape : Shape} {elements : ℕ} :
    shape.check elements = .ok () ↔
      shape ≠ [] ∧ 0 ∉ shape ∧ shape.prod = elements ∧ elements < sizeLimit := by
  unfold check
  split
  case isTrue h => simp [h]
  case isFalse h =>
    by_cases hzero : 0 ∈ shape
    · simp [hzero]
    · rw [foldl_times hzero (by decide), Nat.one_mul]
      by_cases hprod : shape.prod < sizeLimit
      · rw [if_pos hprod]
        by_cases helements : shape.prod = elements
        · simp [h, hzero, helements ▸ hprod, helements]
        · simp [helements]
      · rw [if_neg hprod]
        have hover : ¬ (shape.prod = elements ∧ elements < sizeLimit) := by omega
        simp [hover]

theorem check_eq_error {shape : Shape} {elements : ℕ} (hne : shape ≠ [])
    (h : 0 ∈ shape ∨ shape.prod ≠ elements) :
    shape.check elements = .error (.shapeMismatch shape elements) := by
  have hnot : shape.check elements ≠ .ok () := by
    rw [Ne, check_eq_ok_iff]
    rintro ⟨-, hzero, hprod, -⟩
    exact h.elim hzero fun hprod' => hprod' hprod
  unfold check at hnot ⊢
  rw [if_neg hne] at hnot ⊢
  split
  case isTrue => rfl
  case isFalse hfit => exact absurd (if_neg hfit) hnot

theorem inner_mem {shape : Shape} (hne : shape ≠ []) : shape.inner ∈ shape := by
  rw [inner, List.getLast?_eq_some_getLast hne, Option.getD_some]
  exact List.getLast_mem hne

theorem getLast?_eq_inner {shape : Shape} (hne : shape ≠ []) : shape.getLast? = some shape.inner := by
  rw [inner, List.getLast?_eq_some_getLast hne, Option.getD_some]

theorem dropLast_append_inner {shape : Shape} (hne : shape ≠ []) :
    shape.dropLast ++ [shape.inner] = shape :=
  List.dropLast_append_getLast? _ (getLast?_eq_inner hne)

theorem inner_pos {shape : Shape} (hne : shape ≠ []) (hzero : 0 ∉ shape) : 0 < shape.inner :=
  Nat.pos_of_ne_zero (fun h => hzero (h ▸ inner_mem hne))

theorem inner_dvd_prod {shape : Shape} (hne : shape ≠ []) : shape.inner ∣ shape.prod :=
  List.dvd_prod (inner_mem hne)

theorem flatMap_range' (m n : ℕ) :
    ((List.range m).flatMap fun s => List.range' (s * n) n) = List.range (m * n) := by
  induction m with
  | zero => simp
  | succ m ih =>
    rw [List.range_succ, List.flatMap_append, ih, List.flatMap_singleton, Nat.succ_mul,
      List.range_eq_range', List.range_eq_range', ← List.range'_append_1, Nat.zero_add]

end PackedStream.Shape
