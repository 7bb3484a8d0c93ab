import PackedStream.Proofs.Unpack.Checked

namespace PackedStream.Shape

variable {shape shape' : Shape} {elements : ℕ}

theorem check_eq (hsize : elements < sizeLimit) : shape.check elements =
    if shape = [] then .error .emptyShape
    else if 0 ∈ shape ∨ shape.prod ≠ elements then .error (.shapeMismatch shape elements)
    else .ok () := by
  split_ifs with hempty hbad
  · exact if_pos hempty
  · exact check_eq_error hempty hbad
  · rw [not_or, not_not] at hbad
    exact check_eq_ok_iff.mpr ⟨hempty, hbad.1, hbad.2, hsize⟩

theorem check_eq_emptyShape_iff : shape.check elements = .error .emptyShape ↔ shape = [] := by
  constructor
  · intro h
    by_contra hne
    rw [check, if_neg hne] at h
    split at h <;> cases h
  · exact fun h => if_pos h

theorem check_eq_shapeMismatch_iff (hsize : elements < sizeLimit) :
    shape.check elements = .error (.shapeMismatch shape elements) ↔
      shape ≠ [] ∧ (0 ∈ shape ∨ shape.prod ≠ elements) := by
  constructor
  · intro h
    refine ⟨fun hempty => ?_, ?_⟩
    · rw [check_eq_emptyShape_iff.mpr hempty] at h
      cases h
    · by_contra hfit
      rw [not_or, not_not] at hfit
      rw [check_eq hsize, if_neg (not_or.mpr ⟨hfit.1, not_not.mpr hfit.2⟩)] at h
      split at h <;> cases h
  · exact fun h => check_eq_error h.1 h.2

def showing (shape : Shape) : Except StreamError Unit → Except StreamError Unit
  | .error (.shapeMismatch _ elements) => .error (.shapeMismatch shape elements)
  | r => r

theorem check_perm (hsize : elements < sizeLimit) (h : shape.Perm shape') :
    shape'.check elements = showing shape' (shape.check elements) := by
  have hempty : shape' = [] ↔ shape = [] := ⟨fun h' => (h' ▸ h).eq_nil, fun h' => (h' ▸ h.symm).eq_nil⟩
  rw [check_eq hsize, check_eq hsize, ← h.prod_eq]
  simp only [hempty, ← h.mem_iff]
  split_ifs <;> rfl

theorem inner_pos_of_check (h : shape.check elements = .ok ()) : 0 < shape.inner := by
  obtain ⟨hne, hzero, -⟩ := check_eq_ok_iff.mp h
  exact inner_pos hne hzero

/--
The check of a shape is exact: it compares the true product, in whatever order the dimensions stand
and wherever a partial product leaves the sizes. So an innermost extent that something is divided by
is never zero.
-/
theorem check_exact (shape : Shape) {elements : ℕ} (hsize : elements < sizeLimit) :
    ((shape.check elements = .ok () ↔ shape ≠ [] ∧ 0 ∉ shape ∧ shape.prod = elements) ∧
      (shape.check elements = .error .emptyShape ↔ shape = []) ∧
      (shape.check elements = .error (.shapeMismatch shape elements) ↔
        shape ≠ [] ∧ (0 ∈ shape ∨ shape.prod ≠ elements))) ∧
    (∀ shape' : Shape, shape.Perm shape' →
      shape'.check elements = showing shape' (shape.check elements)) ∧
    (∀ wraps ≠ 0, shape.prod = elements + wraps * sizeLimit → shape.check elements ≠ .ok ()) ∧
    (∀ {α : Type} {data : Array α} {v w : TensorView α},
      (TensorView.Reached data v → 0 < v.inner) ∧
      ∀ fault, (TensorView.setShape shape).run.run v = (.error fault, w) → ∃ e, fault = .refused e) ∧
    ∀ (f : FieldFormat) (t : HostType) (bytes : Array UInt8) (padding : ℕ) (o : PackOptions),
      Checked.unpackTensor f t bytes padding shape o ≠ .error .divisionByZero ∧
      ∀ values, Checked.unpackTensor f t bytes padding shape o = .ok values → 0 < shape.inner := by
  refine ⟨⟨?_, check_eq_emptyShape_iff, check_eq_shapeMismatch_iff hsize⟩,
    fun shape' => check_perm hsize, ?_, ?_, ?_⟩
  · rw [check_eq_ok_iff]
    exact ⟨fun h => ⟨h.1, h.2.1, h.2.2.1⟩, fun h => ⟨h.1, h.2.1, h.2.2, hsize⟩⟩
  · intro wraps hwraps hprod hok
    have hpos : 0 < wraps * sizeLimit := Nat.mul_pos (Nat.pos_of_ne_zero hwraps) (by decide)
    have htrue : shape.prod = elements := (check_eq_ok_iff.mp hok).2.2.1
    omega
  · intro α data v w
    refine ⟨fun hv => ?_, fun fault h => ?_⟩
    · obtain ⟨x, hx, rfl⟩ := hv.exists_tensor
      exact hx.inner_pos
    · obtain ⟨-, e, rfl, -⟩ := TensorView.of_setShape_error h
      exact ⟨e, rfl⟩
  · intro f t bytes padding o
    obtain ⟨fault, hfault, hmild⟩ | ⟨count, values, hvalues, hcount⟩ :=
      Checked.unpackTensor_cases f t bytes padding shape o
    · rw [hfault]
      refine ⟨fun h => ?_, fun values h => by cases h⟩
      obtain rfl := Except.error.inj h
      obtain ⟨e, h⟩ | h := hmild <;> cases h
    · rw [hvalues]
      exact ⟨fun h => (by cases h), fun _ _ => inner_pos_of_check hcount⟩

theorem check_exact_wrapped :
    4 < sizeLimit ∧ [4, 4611686018427387905].prod = 4 + 1 * sizeLimit ∧
      check [4, 4611686018427387905] 4 ≠ .ok () ∧
      [4294967296, 4294967296, 0].Perm [0, 4294967296, 4294967296] ∧
      check [0, 4294967296, 4294967296] 0 =
        .error (.shapeMismatch [0, 4294967296, 4294967296] 0) ∧
      TensorView.Reached #[7, 8] ⟨#[7, 8], [1, 2], [2, 1], [(0, 2)]⟩ ∧
      0 < (TensorView.inner ⟨#[7, 8], [1, 2], [2, 1], [(0, 2)]⟩ : ℕ) := by
  have hsize : 4 < sizeLimit := by decide
  have hprod : [4, 4611686018427387905].prod = 4 + 1 * sizeLimit := by decide
  have hperm : [4294967296, 4294967296, 0].Perm [0, 4294967296, 4294967296] := by decide
  have hmade : TensorView.ofShape #[7, 8] [1, 2] = .ok ⟨#[7, 8], [1, 2], [2, 1], [(0, 2)]⟩ := rfl
  obtain ⟨-, -, hwraps, hviews, -⟩ := check_exact [4, 4611686018427387905] hsize
  obtain ⟨-, hany, -⟩ := check_exact [4294967296, 4294967296, 0] (by decide : 0 < sizeLimit)
  exact ⟨hsize, hprod, hwraps 1 one_ne_zero hprod, hperm, hany _ hperm, .made hmade,
    (hviews (w := ⟨#[7, 8], [], [], []⟩)).1 (.made hmade)⟩

end PackedStream.Shape
