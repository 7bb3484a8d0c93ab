import PackedStream.Proofs.Shape

namespace PackedStream.Shape

variable {shape : Shape} {index index' : List ℕ} {k k' : ℕ}

theorem volume_eq_prod (shape : Shape) : shape.volume = shape.prod := by
  induction shape with
  | nil => rfl
  | cons extent shape ih => rw [volume, ih, List.prod_cons]

def indices : Shape → List (List ℕ)
  | [] => [[]]
  | extent :: shape => (List.range extent).flatMap fun i => (indices shape).map (i :: ·)

theorem mem_indices_iff : index ∈ shape.indices ↔ List.Forall₂ (· < ·) index shape := by
  induction shape generalizing index with
  | nil => simp [indices]
  | cons extent shape ih =>
    cases index with
    | nil => simp [indices]
    | cons i index => simp [indices, ih]

theorem pairwise_indices (shape : Shape) : shape.indices.Pairwise (· < ·) := by
  induction shape with
  | nil => exact List.pairwise_singleton _ _
  | cons extent shape ih =>
    rw [indices, List.pairwise_flatMap]
    constructor
    · intro i _
      exact List.pairwise_map.mpr (ih.imp fun h => List.Lex.cons h)
    · refine List.pairwise_lt_range.imp fun hij => ?_
      simp only [List.mem_map, forall_exists_index, and_imp]
      rintro _ index - rfl _ index' - rfl
      exact List.Lex.rel hij

theorem map_offset?_indices (shape : Shape) :
    shape.indices.map shape.offset? = (List.range shape.volume).map some := by
  induction shape with
  | nil => rfl
  | cons extent shape ih =>
    have hrow : ∀ i ∈ List.range extent,
        ((indices shape).map (i :: ·)).map (offset? (extent :: shape)) =
          (List.range' (i * volume shape) (volume shape)).map some := by
      intro i hi
      have hoffset : offset? (extent :: shape) ∘ (i :: ·) =
          Option.map (i * volume shape + ·) ∘ offset? shape := by
        funext index
        exact if_pos (List.mem_range.mp hi)
      rw [List.map_map, hoffset, ← List.map_map, ih, List.map_map, List.range'_eq_map_range,
        List.map_map]
      rfl
    rw [indices, List.map_flatMap, List.flatMap_congr hrow, ← List.map_flatMap, flatMap_range', volume]

theorem length_indices (shape : Shape) : shape.indices.length = shape.volume := by
  simpa using congrArg List.length (map_offset?_indices shape)

theorem offset?_of_getElem? (h : shape.indices[k]? = some index) : shape.offset? index = some k := by
  have hk : k < shape.volume := length_indices shape ▸ (List.getElem?_eq_some_iff.mp h).1
  have hmap := congrArg (·[k]?) (map_offset?_indices shape)
  simpa [h, hk] using hmap

theorem isSome_offset?_iff :
    (shape.offset? index).isSome = true ↔ List.Forall₂ (· < ·) index shape := by
  induction shape generalizing index with
  | nil => cases index <;> simp [offset?]
  | cons extent shape ih =>
    cases index with
    | nil => simp [offset?]
    | cons i index =>
      rw [offset?, List.forall₂_cons, ← ih]
      split <;> simp [*]

theorem offset?_eq_some_iff : shape.offset? index = some k ↔ shape.indices[k]? = some index := by
  refine ⟨fun h => ?_, offset?_of_getElem?⟩
  have hindex : index ∈ shape.indices :=
    mem_indices_iff.mpr (isSome_offset?_iff.mp (Option.isSome_of_eq_some h))
  obtain ⟨j, hj⟩ := List.getElem?_of_mem hindex
  have hjk : j = k := Option.some_inj.mp ((offset?_of_getElem? hj).symm.trans h)
  exact hjk ▸ hj

theorem offset?_lt (h : shape.offset? index = some k) : k < shape.volume :=
  length_indices shape ▸ (List.getElem?_eq_some_iff.mp (offset?_eq_some_iff.mp h)).1

theorem existsUnique_offset?_eq (hk : k < shape.volume) : ∃! index, shape.offset? index = some k := by
  simp only [offset?_eq_some_iff]
  rw [← length_indices] at hk
  exact ⟨_, List.getElem?_eq_getElem hk, fun _ h => by simpa [hk, eq_comm] using h⟩

theorem offset?_lt_iff (h : shape.offset? index = some k) (h' : shape.offset? index' = some k') :
    k < k' ↔ index < index' := by
  obtain ⟨hk, rfl⟩ := List.getElem?_eq_some_iff.mp (offset?_eq_some_iff.mp h)
  obtain ⟨hk', rfl⟩ := List.getElem?_eq_some_iff.mp (offset?_eq_some_iff.mp h')
  have hmono := List.pairwise_iff_getElem.mp (pairwise_indices shape)
  refine ⟨hmono k k' hk hk', fun hlt => ?_⟩
  obtain hkk | rfl | hkk := lt_trichotomy k k'
  · exact hkk
  · exact absurd hlt (lt_irrefl _)
  · exact absurd hlt (hmono k' k hk' hk hkk).asymm

theorem offset?_nil_eq_some (h : offset? [] index = some k) : index = [] ∧ k = 0 := by
  cases index with
  | nil => exact ⟨rfl, (Option.some_inj.mp h).symm⟩
  | cons => cases h

theorem offset?_cons_eq_some {extent : ℕ} (h : offset? (extent :: shape) index = some k) :
    ∃ i rest r, index = i :: rest ∧ i < extent ∧ shape.offset? rest = some r ∧
      k = i * shape.volume + r := by
  cases index with
  | nil => cases h
  | cons i rest =>
    rw [offset?] at h
    split at h
    case isTrue hi =>
      obtain ⟨r, hr, rfl⟩ := Option.map_eq_some_iff.mp h
      exact ⟨i, rest, r, rfl, hi, hr, rfl⟩
    case isFalse => cases h

def radixValue (shape : Shape) (index : List ℕ) : ℕ :=
  (shape.zip index).foldl (fun value digit => value * digit.1 + digit.2) 0

theorem offset?_eq_radixValue (h : shape.offset? index = some k) : k = shape.radixValue index := by
  -- The leading digits make up a number `n` that the rest of the shape takes to `n * volume`.
  have hfold : ∀ n, (shape.zip index).foldl (fun value digit => value * digit.1 + digit.2) n =
      n * shape.volume + k := by
    induction shape generalizing index k with
    | nil =>
      obtain ⟨rfl, rfl⟩ := offset?_nil_eq_some h
      simp [volume]
    | cons extent shape ih =>
      obtain ⟨i, rest, r, rfl, -, hr, rfl⟩ := offset?_cons_eq_some h
      intro n
      rw [List.zip_cons_cons, List.foldl_cons, ih hr, volume]
      ring
  simpa [radixValue] using (hfold 0).symm

theorem offset?_eq_sum (h : shape.offset? index = some k) :
    k = (List.zipWith (· * ·) index shape.strides).sum := by
  induction shape generalizing index k with
  | nil =>
    obtain ⟨rfl, rfl⟩ := offset?_nil_eq_some h
    rfl
  | cons extent shape ih =>
    obtain ⟨i, rest, r, rfl, -, hr, rfl⟩ := offset?_cons_eq_some h
    rw [strides, List.zipWith_cons_cons, List.sum_cons, ← ih hr]

theorem volume_append (outer shape : Shape) : volume (outer ++ shape) = outer.volume * shape.volume := by
  rw [volume_eq_prod, volume_eq_prod, volume_eq_prod, List.prod_append]

theorem offset?_append_singleton {outer : Shape} {extent s i : ℕ} (h : outer.offset? index = some s)
    (hi : i < extent) : offset? (outer ++ [extent]) (index ++ [i]) = some (s * extent + i) := by
  induction outer generalizing index s with
  | nil =>
    obtain ⟨rfl, rfl⟩ := offset?_nil_eq_some h
    simp [offset?, hi, volume]
  | cons n outer ih =>
    obtain ⟨j, rest, r, rfl, hj, hr, rfl⟩ := offset?_cons_eq_some h
    have hvolume : volume (outer ++ [extent]) = volume outer * extent := by
      rw [volume_append, volume, volume, Nat.mul_one]
    rw [List.cons_append, List.cons_append, offset?, if_pos hj, ih hr, Option.map_some, hvolume]
    congr 1
    ring

theorem length_strides (shape : Shape) : shape.strides.length = shape.length := by
  induction shape with
  | nil => rfl
  | cons extent shape ih => rw [strides, List.length_cons, List.length_cons, ih]

theorem getElem_strides {d : ℕ} (hd : d < shape.strides.length) :
    shape.strides[d] = volume (shape.drop (d + 1)) := by
  induction shape generalizing d with
  | nil => cases hd
  | cons extent shape ih =>
    cases d with
    | zero => rfl
    | succ d => exact ih (Nat.lt_of_succ_lt_succ hd)

theorem getLast?_strides (hne : shape ≠ []) : shape.strides.getLast? = some 1 := by
  induction shape with
  | nil => exact absurd rfl hne
  | cons extent shape ih =>
    cases shape with
    | nil => rfl
    | cons next shape => exact (List.getLast?_cons_cons).trans (ih (List.cons_ne_nil next shape))

theorem getElem?_strides {d stride extent : ℕ} (hstride : shape.strides[d + 1]? = some stride)
    (hextent : shape[d + 1]? = some extent) : shape.strides[d]? = some (stride * extent) := by
  obtain ⟨hd, rfl⟩ := List.getElem?_eq_some_iff.mp hstride
  obtain ⟨hd', rfl⟩ := List.getElem?_eq_some_iff.mp hextent
  have hdrop : shape.drop (d + 1) = shape[d + 1] :: shape.drop (d + 1 + 1) :=
    List.drop_eq_getElem_cons hd'
  rw [List.getElem?_eq_getElem (by omega), getElem_strides, getElem_strides, hdrop, volume,
    Nat.mul_comm]

end PackedStream.Shape
