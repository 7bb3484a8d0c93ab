import PackedStream.Proofs.Shape.RowMajor
import PackedStream.Proofs.Tensor
import PackedStream.Tensor.View

namespace PackedStream

theorem mapM_eq_ok {α β ε : Type} {g : α → Except ε β} {k : α → β} {as : List α}
    (h : ∀ a ∈ as, g a = .ok (k a)) : as.mapM g = .ok (as.map k) := by
  induction as with
  | nil => rfl
  | cons a as ih =>
    rw [List.forall_mem_cons] at h
    rw [List.mapM_cons, h.1, ih h.2]
    rfl

namespace Shape

variable {shape : Shape}

theorem stridesFromEnd_eq (hne : shape ≠ []) (hzero : 0 ∉ shape) (hsize : shape.prod < sizeLimit) :
    shape.stridesFromEnd = .ok shape.strides := by
  induction shape with
  | nil => exact absurd rfl hne
  | cons extent shape ih =>
    cases shape with
    | nil => rfl
    | cons next shape =>
      rw [List.mem_cons, not_or] at hzero
      have hle : (next :: shape).prod ≤ (extent :: next :: shape).prod := by
        rw [List.prod_cons (a := extent)]
        exact Nat.le_mul_of_pos_left _ (Nat.pos_of_ne_zero (Ne.symm hzero.1))
      have hstride : volume shape * next = (next :: shape).prod := by
        rw [List.prod_cons, volume_eq_prod, Nat.mul_comm]
      have hrest := ih (List.cons_ne_nil next shape) hzero.2 (hle.trans_lt hsize)
      rw [stridesFromEnd, hrest, strides]
      simp only [bind, Except.bind, hstride, asSize_of_lt (hle.trans_lt hsize), pure, Except.pure]
      rw [strides, strides, volume_eq_prod (next :: shape)]

theorem offsetFrom_eq (hzero : 0 ∉ shape) {index : List ℕ} (hindex : index.length = shape.length)
    {offset : ℕ} (hsize : offset + shape.volume ≤ sizeLimit) :
    offsetFrom offset index shape shape.strides =
      .ok ((shape.offset? index).map (offset + ·)) := by
  induction shape generalizing index offset with
  | nil =>
    obtain rfl := List.length_eq_zero_iff.mp hindex
    rfl
  | cons extent shape ih =>
    obtain ⟨i, index, rfl⟩ := List.exists_cons_of_length_eq_add_one hindex
    rw [List.mem_cons, not_or] at hzero
    rw [strides, offsetFrom, offset?]
    by_cases hi : i < extent
    · have hpos : 0 < volume shape := volume_eq_prod shape ▸ prod_pos hzero.2
      have hstep : i * volume shape + volume shape ≤ volume (extent :: shape) := by
        rw [← Nat.succ_mul]
        exact Nat.mul_le_mul_right _ hi
      have hnext : offset + i * volume shape + volume shape ≤ sizeLimit := by omega
      have hrest := ih hzero.2 (Nat.succ.inj hindex) hnext
      rw [if_neg (by omega), if_pos hi]
      simp only [bind, Except.bind, asSize_of_lt (by omega : i * volume shape < sizeLimit),
        asSize_of_lt (by omega : offset + i * volume shape < sizeLimit), hrest, Option.map_map]
      simp [Function.comp_def, Nat.add_assoc]
    · rw [if_pos (by omega), if_neg hi]
      rfl

theorem rangesOf_eq {elements : ℕ} (hcheck : shape.check elements = .ok ()) :
    shape.rangesOf elements = .ok ((List.range (elements / shape.inner)).map fun s =>
      (s * shape.inner, (s + 1) * shape.inner)) := by
  obtain ⟨hne, hzero, -, hsize⟩ := check_eq_ok_iff.mp hcheck
  have hpos : 0 < shape.inner := inner_pos hne hzero
  have hranges : ∀ s ∈ List.range (elements / shape.inner),
      (do return (← asSize (s * shape.inner), ← asSize ((s + 1) * shape.inner)) :
        Except Fault (ℕ × ℕ)) = .ok (s * shape.inner, (s + 1) * shape.inner) := by
    intro s hs
    have hend : (s + 1) * shape.inner ≤ elements :=
      (Nat.le_div_iff_mul_le hpos).mp (Nat.succ_le_of_lt (List.mem_range.mp hs))
    have hstart : s * shape.inner ≤ (s + 1) * shape.inner := Nat.mul_le_mul_right _ (Nat.le_succ s)
    rw [asSize_of_lt (by omega), asSize_of_lt (by omega)]
    rfl
  rw [rangesOf, getLast?_eq_inner hne]
  split
  case h_1 h => cases h
  case h_2 h => exact absurd (Option.some_inj.mp h) hpos.ne'
  case h_3 extent _ h =>
    obtain rfl := Option.some_inj.mp h
    exact mapM_eq_ok hranges

end Shape

namespace Tensor

variable {α : Type} {data : Array α} {x : Tensor α} {index : List ℕ} {k : ℕ}

def view (x : Tensor α) : TensorView α := ⟨x.data, x.shape, x.strides, x.ranges⟩

theorem rangesOf_eq (hcheck : x.shape.check x.data.size = .ok ()) :
    x.shape.rangesOf x.data.size = .ok x.ranges := Shape.rangesOf_eq hcheck

namespace Shaped

variable (hx : Shaped data x)

include hx

theorem shape_ne_nil : x.shape ≠ [] := (Shape.check_eq_ok_iff.mp hx.check_eq).1

theorem stridesFromEnd_eq : x.shape.stridesFromEnd = .ok x.strides := by
  obtain ⟨hne, hzero, hprod, hsize⟩ := Shape.check_eq_ok_iff.mp hx.check_eq
  exact Shape.stridesFromEnd_eq hne hzero (hprod ▸ hsize)

theorem volume_eq : x.shape.volume = data.size := by
  rw [Shape.volume_eq_prod, (Shape.check_eq_ok_iff.mp hx.check_eq).2.2.1, hx.data_eq]

theorem get?_eq (h : x.offset? index = some k) :
    ∃ hk : k < data.size, x.get? index = some data[k] := by
  have hk : k < data.size := hx.volume_eq ▸ Shape.offset?_lt h
  refine ⟨hk, ?_⟩
  rw [get?, h, Option.bind_some, hx.data_eq, Array.getElem?_eq_getElem hk]

theorem offset?_view (index : List ℕ) : x.view.offset? index = .ok (x.offset? index) := by
  obtain ⟨-, hzero, hprod, hsize⟩ := Shape.check_eq_ok_iff.mp hx.check_eq
  rw [TensorView.offset?]
  split
  case isTrue hlength =>
    have hvolume : 0 + x.shape.volume ≤ sizeLimit := by
      rw [Shape.volume_eq_prod]
      omega
    rw [view, strides, Shape.offsetFrom_eq hzero hlength hvolume, offset?]
    simp
  case isFalse hlength =>
    have hnone : x.offset? index = none := by
      rw [← Option.not_isSome_iff_eq_none, offset?, Shape.isSome_offset?_iff]
      exact fun h => hlength h.length_eq
    rw [hnone]

theorem get?_view (index : List ℕ) : x.view.get? index = .ok (x.get? index) := by
  rw [TensorView.get?, hx.offset?_view]
  cases h : x.offset? index with
  | none =>
    rw [get?, h]
    rfl
  | some k =>
    obtain ⟨hk, hget⟩ := hx.get?_eq h
    obtain rfl := hx.data_eq
    rw [hget]
    exact dif_pos hk

theorem dropLast_prod_mul : x.shape.dropLast.prod * x.inner = x.data.size := by
  have hprod := congrArg List.prod (Shape.dropLast_append_inner hx.shape_ne_nil)
  rw [List.prod_append, List.prod_singleton] at hprod
  exact hprod.trans (Shape.check_eq_ok_iff.mp hx.check_eq).2.2.1

theorem dropLast_prod_pos : 0 < x.shape.dropLast.prod :=
  Shape.prod_pos fun h =>
    (Shape.check_eq_ok_iff.mp hx.check_eq).2.1 (List.mem_of_mem_dropLast h)

theorem ranges_eq : x.ranges = (List.range x.shape.dropLast.prod).map fun s =>
    (s * x.inner, (s + 1) * x.inner) := by
  rw [ranges, ← hx.dropLast_prod_mul, Nat.mul_div_cancel _ hx.inner_pos]

theorem length_ranges : x.ranges.length = x.shape.dropLast.prod := by
  rw [hx.ranges_eq, List.length_map, List.length_range]

theorem head?_ranges : x.ranges.head?.map Prod.fst = some 0 := by
  rw [hx.ranges_eq, List.head?_map, List.head?_range, if_neg hx.dropLast_prod_pos.ne',
    Option.map_some, Option.map_some, Nat.zero_mul]

theorem getLast?_ranges : x.ranges.getLast?.map Prod.snd = some x.data.size := by
  rw [hx.ranges_eq, List.getLast?_map, List.getLast?_range, if_neg hx.dropLast_prod_pos.ne',
    Option.map_some, Option.map_some, Nat.sub_add_cancel hx.dropLast_prod_pos, hx.dropLast_prod_mul]

theorem get?_slice {outer : List ℕ} {s : ℕ} {slice : Array α}
    (houter : Shape.offset? x.shape.dropLast outer = some s) (hslice : x.slices[s]? = some slice) :
    slice.size = x.inner ∧ ∀ k (hk : k < slice.size), x.get? (outer ++ [k]) = some slice[k] := by
  rw [slices, List.getElem?_map] at hslice
  obtain ⟨r, hr, rfl⟩ := Option.map_eq_some_iff.mp hslice
  obtain ⟨hlen, hle⟩ := of_mem_ranges (List.mem_of_getElem? hr)
  have hfirst : r.1 = s * x.inner := by
    obtain ⟨hs, rfl⟩ := List.getElem?_eq_some_iff.mp hr
    simp [ranges]
  have hsize : (x.data.extract r.1 r.2).size = x.inner := by
    rw [Array.size_extract]
    omega
  refine ⟨hsize, fun k hk => ?_⟩
  have hoffset := Shape.offset?_append_singleton houter (hsize ▸ hk)
  rw [inner, Shape.dropLast_append_inner hx.shape_ne_nil, ← inner, ← hfirst] at hoffset
  rw [get?, offset?, hoffset, Option.bind_some, Array.getElem?_eq_getElem (by omega),
    Array.getElem_extract]

end Shaped

theorem slices_view (x : Tensor α) : x.view.slices = .ok x.slices := by
  apply mapM_eq_ok
  intro r hr
  obtain ⟨hlen, hle⟩ := of_mem_ranges hr
  exact if_pos ⟨by omega, hle⟩

theorem isChain_ranges (x : Tensor α) : x.ranges.IsChain fun r s => r.2 = s.1 := by
  rw [ranges, List.isChain_map, List.isChain_range]
  exact fun _ _ => rfl

end Tensor

namespace TensorView

variable {α : Type} {data : Array α} {v w : TensorView α}

/-- The views over given elements, after any calls that went through or not. -/
inductive Reached (data : Array α) : TensorView α → Prop
  | made {shape : Shape} {v : TensorView α} (h : ofShape data shape = .ok v) : Reached data v
  | edited {v : TensorView α} (hv : Reached data v) (shape : Shape) :
      Reached data (v.after (setShape shape))

theorem ofExcept_bind_run {β γ : Type} (result : Except Fault β) (next : β → Edit α γ)
    (v : TensorView α) : (Edit.ofExcept result >>= next).run.run v = match result with
      | .ok b => (next b).run.run v
      | .error e => (.error e, v) := by
  cases result <;> rfl

theorem setShape_run (v : TensorView α) (shape : Shape) :
    (setShape shape).run.run v = match shape.check v.data.size with
      | .error e => (.error (.refused e), v)
      | .ok () => (.ok (), Tensor.view ⟨v.data, shape⟩) := by
  change (Edit.ofExcept ((shape.check v.data.size).mapError Fault.refused) >>= _).run.run v = _
  rw [ofExcept_bind_run]
  cases hcheck : shape.check v.data.size with
  | error e => rfl
  | ok _ =>
    obtain ⟨hne, hzero, hprod, hsize⟩ := Shape.check_eq_ok_iff.mp hcheck
    have hstrides := Shape.stridesFromEnd_eq hne hzero (hprod ▸ hsize)
    have hranges : shape.rangesOf v.data.size = .ok (Tensor.mk v.data shape).ranges :=
      Tensor.rangesOf_eq (x := ⟨v.data, shape⟩) hcheck
    simp only [Except.mapError]
    rw [ofExcept_bind_run, hstrides]
    simp only []
    rw [ofExcept_bind_run, hranges]
    rfl

theorem of_setShape_error {shape : Shape} {fault : Fault}
    (h : (setShape shape).run.run v = (.error fault, w)) :
    w = v ∧ ∃ e, fault = .refused e ∧ shape.check v.data.size = .error e := by
  rw [setShape_run] at h
  split at h
  case h_1 e hcheck =>
    cases h
    exact ⟨rfl, e, rfl, hcheck⟩
  case h_2 => cases h

theorem of_setShape_ok {shape : Shape} (h : (setShape shape).run.run v = (.ok (), w)) :
    shape.check v.data.size = .ok () ∧ w = Tensor.view ⟨v.data, shape⟩ := by
  rw [setShape_run] at h
  split at h
  case h_1 => cases h
  case h_2 hcheck =>
    cases h
    exact ⟨hcheck, rfl⟩

theorem ofShape_eq (data : Array α) (shape : Shape) :
    ofShape data shape = match shape.check data.size with
      | .error e => .error (.refused e)
      | .ok () => .ok (Tensor.view ⟨data, shape⟩) := by
  rw [ofShape, setShape_run]
  cases shape.check data.size <;> rfl

theorem after_setShape (v : TensorView α) (shape : Shape) :
    v.after (setShape shape) = match shape.check v.data.size with
      | .error _ => v
      | .ok () => Tensor.view ⟨v.data, shape⟩ := by
  rw [after, setShape_run]
  cases shape.check v.data.size <;> rfl

theorem Reached.exists_tensor (hv : Reached data v) :
    ∃ x : Tensor α, Tensor.Shaped data x ∧ v = x.view := by
  induction hv with
  | @made shape v h =>
    rw [ofShape_eq] at h
    cases hcheck : shape.check data.size with
    | error e =>
      rw [hcheck] at h
      cases h
    | ok _ =>
      rw [hcheck] at h
      cases h
      have hx : Tensor.ofShape data shape = .ok ⟨data, shape⟩ :=
        Tensor.reshape_eq_ok_iff.mpr ⟨hcheck, rfl⟩
      exact ⟨_, .ofShape hx, rfl⟩
  | edited hv shape ih =>
    obtain ⟨x, hx, rfl⟩ := ih
    rw [after_setShape]
    cases hcheck : shape.check x.view.data.size with
    | error e => exact ⟨x, hx, rfl⟩
    | ok _ =>
      have hy : x.reshape shape = .ok { x with shape } := Tensor.reshape_eq_ok_iff.mpr ⟨hcheck, rfl⟩
      exact ⟨_, hx.reshape hy, rfl⟩

/--
In every view the indices with a component below each extent are the positions of the elements, in
lexicographic order: a position is the number whose digits are the components. No size that comes
up on the way is too large for a word, and no access leaves the elements.
-/
theorem Reached.offset?_bijective (hv : Reached data v) :
    ∃ x : Tensor α, Tensor.Shaped data x ∧ v = x.view ∧
      (x.shape.stridesFromEnd = .ok x.strides ∧
        ∀ index, v.offset? index = .ok (x.offset? index) ∧ v.get? index = .ok (x.get? index)) ∧
      (∀ index, (x.offset? index).isSome = true ↔ List.Forall₂ (· < ·) index x.shape) ∧
      (∀ k < data.size, ∃! index, x.offset? index = some k) ∧
      (∀ index k, x.offset? index = some k →
        (k = x.shape.radixValue index ∧ k = (List.zipWith (· * ·) index x.strides).sum) ∧
        (∃ hk : k < data.size, x.get? index = some data[k]) ∧
        ∀ index' k', x.offset? index' = some k' → (k < k' ↔ index < index')) ∧
      ∀ index, x.offset? index = none → x.get? index = none := by
  obtain ⟨x, hx, rfl⟩ := hv.exists_tensor
  refine ⟨x, hx, rfl, ⟨hx.stridesFromEnd_eq, fun index => ⟨hx.offset?_view index, hx.get?_view index⟩⟩,
    fun index => Shape.isSome_offset?_iff, ?_, ?_, ?_⟩
  · intro k hk
    exact Shape.existsUnique_offset?_eq (hx.volume_eq ▸ hk)
  · intro index k h
    exact ⟨⟨Shape.offset?_eq_radixValue h, Shape.offset?_eq_sum h⟩, hx.get?_eq h,
      fun index' k' h' => Shape.offset?_lt_iff h h'⟩
  · intro index h
    rw [Tensor.get?, h, Option.bind_none]

theorem offset?_bijective_reshaped :
    Reached #[10, 11, 12, 13, 14, 15]
        ⟨#[10, 11, 12, 13, 14, 15], [3, 2], [2, 1], [(0, 2), (2, 4), (4, 6)]⟩ ∧
      ∃ x : Tensor ℕ, Tensor.Shaped #[10, 11, 12, 13, 14, 15] x ∧ x.offset? [2, 0] = some 4 ∧
        x.get? [2, 0] = some 14 ∧ x.shape.radixValue [2, 0] = 4 ∧ x.get? [2, 2] = none := by
  have hmade : ofShape #[10, 11, 12, 13, 14, 15] [2, 3] =
      .ok ⟨#[10, 11, 12, 13, 14, 15], [2, 3], [3, 1], [(0, 3), (3, 6)]⟩ := rfl
  have hv : Reached #[10, 11, 12, 13, 14, 15]
      ⟨#[10, 11, 12, 13, 14, 15], [3, 2], [2, 1], [(0, 2), (2, 4), (4, 6)]⟩ :=
    ((Reached.made hmade).edited [4, 2]).edited [3, 2]
  obtain ⟨x, hx, hview, ⟨-, hsame⟩, -, -, hindex, hnone⟩ := hv.offset?_bijective
  have hoffset : x.offset? [2, 0] = some 4 := (Except.ok.inj (hsame [2, 0]).1).symm
  have hbehind : x.offset? [2, 2] = none := (Except.ok.inj (hsame [2, 2]).1).symm
  obtain ⟨⟨hvalue, -⟩, ⟨_, hget⟩, -⟩ := hindex _ _ hoffset
  exact ⟨hv, x, hx, hoffset, hget, hvalue.symm, hnone _ hbehind⟩

/--
In every view the ranges follow one another from the first element to the last, one for each index
of the outer dimensions, and the slices are the elements in order. A shape that is refused leaves
the view as it was, and any other makes it the view that starts with that shape.
-/
theorem Reached.slices_tile (hv : Reached data v) :
    ∃ x : Tensor α, Tensor.Shaped data x ∧ v = x.view ∧
      (v.ranges.head?.map Prod.fst = some 0 ∧ v.ranges.getLast?.map Prod.snd = some data.size ∧
        v.ranges.IsChain (fun r s => r.2 = s.1) ∧
        (∀ r ∈ v.ranges, r.1 < r.2 ∧ r.2 = r.1 + v.inner) ∧
        v.ranges.length = v.shape.dropLast.prod) ∧
      (v.slices = .ok x.slices ∧ (x.slices.map Array.toList).flatten = data.toList) ∧
      (v.strides.length = v.shape.length ∧ v.strides.getLast? = some 1 ∧
        ∀ d stride extent, v.strides[d + 1]? = some stride → v.shape[d + 1]? = some extent →
          v.strides[d]? = some (stride * extent)) ∧
      (∃ outers : List (List ℕ), outers.Pairwise (· < ·) ∧ outers.length = x.slices.length ∧
        (∀ outer, outer ∈ outers ↔ List.Forall₂ (· < ·) outer v.shape.dropLast) ∧
        ∀ (s : ℕ) (outer : List ℕ) (slice : Array α), outers[s]? = some outer →
          x.slices[s]? = some slice → slice.size = v.inner ∧
            ∀ (k : ℕ) (hk : k < slice.size), v.get? (outer ++ [k]) = .ok (some slice[k])) ∧
      (∀ shape fault w, (setShape shape).run.run v = (.error fault, w) →
        w = v ∧ ∃ e, fault = .refused e ∧ x.reshape shape = .error e) ∧
      ∀ shape w, (setShape shape).run.run v = (.ok (), w) →
        ofShape data shape = .ok w ∧ ∃ y, x.reshape shape = .ok y ∧ w = y.view := by
  obtain ⟨x, hx, rfl⟩ := hv.exists_tensor
  have hne := hx.shape_ne_nil
  have hslices : x.slices.length = x.ranges.length := List.length_map _
  refine ⟨x, hx, rfl, ⟨hx.head?_ranges, hx.data_eq ▸ hx.getLast?_ranges, x.isChain_ranges, ?_,
    hx.length_ranges⟩, ⟨x.slices_view, hx.data_eq ▸ hx.flatten_slices⟩,
    ⟨Shape.length_strides _, Shape.getLast?_strides hne, fun _ _ _ => Shape.getElem?_strides⟩,
    ⟨Shape.indices x.shape.dropLast, Shape.pairwise_indices _, ?_, fun _ => Shape.mem_indices_iff, ?_⟩,
    ?_, ?_⟩
  · intro r hr
    have hlen := (Tensor.of_mem_ranges hr).1
    have hpos := hx.inner_pos
    exact ⟨by omega, hlen⟩
  · rw [Shape.length_indices, Shape.volume_eq_prod, hslices, hx.length_ranges]
  · intro s outer slice houter hslice
    obtain ⟨hsize, hget⟩ := hx.get?_slice (Shape.offset?_of_getElem? houter) hslice
    exact ⟨hsize, fun k hk => (hx.get?_view _).trans (congrArg _ (hget k hk))⟩
  · intro shape fault w h
    obtain ⟨rfl, e, rfl, hcheck⟩ := of_setShape_error h
    exact ⟨rfl, e, rfl, congrArg (Except.map _) hcheck⟩
  · intro shape w h
    obtain ⟨hcheck, rfl⟩ := of_setShape_ok h
    obtain rfl := hx.data_eq
    have hshape : shape.check x.data.size = .ok () := hcheck
    refine ⟨?_, _, Tensor.reshape_eq_ok_iff.mpr ⟨hshape, rfl⟩, rfl⟩
    rw [ofShape_eq, hshape]
    rfl

theorem slices_tile_reshaped :
    Reached #[10, 11, 12, 13, 14, 15]
        ⟨#[10, 11, 12, 13, 14, 15], [3, 1, 2], [2, 2, 1], [(0, 2), (2, 4), (4, 6)]⟩ ∧
      ∃ x : Tensor ℕ, Tensor.Shaped #[10, 11, 12, 13, 14, 15] x ∧
        x.slices = [#[10, 11], #[12, 13], #[14, 15]] ∧
        (x.slices.map Array.toList).flatten = [10, 11, 12, 13, 14, 15] ∧
        x.reshape [5] = .error (.shapeMismatch [5] 6) := by
  have hmade : ofShape #[10, 11, 12, 13, 14, 15] [6] =
      .ok ⟨#[10, 11, 12, 13, 14, 15], [6], [1], [(0, 6)]⟩ := rfl
  have hv : Reached #[10, 11, 12, 13, 14, 15]
      ⟨#[10, 11, 12, 13, 14, 15], [3, 1, 2], [2, 2, 1], [(0, 2), (2, 4), (4, 6)]⟩ :=
    ((Reached.made hmade).edited []).edited [3, 1, 2]
  obtain ⟨x, hx, -, -, ⟨hslices, hflat⟩, -, -, hrefused, -⟩ := hv.slices_tile
  obtain ⟨-, e, he, hreshape⟩ := hrefused [5] (.refused (.shapeMismatch [5] 6)) _ rfl
  cases he
  exact ⟨hv, x, hx, (Except.ok.inj hslices).symm, hflat, hreshape⟩

end TensorView

end PackedStream
