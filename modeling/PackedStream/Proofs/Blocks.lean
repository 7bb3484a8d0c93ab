import Mathlib
import PackedStream.Blocks

namespace PackedStream

variable {α : Type}

theorem mem_dropLast_cons {x y : α} {ys : List α} (h : x ∈ ys.dropLast) :
    x ∈ (y :: ys).dropLast := by
  have hne : ys ≠ [] := by
    rintro rfl
    cases h
  rw [List.dropLast_cons_of_ne_nil hne]
  exact List.mem_cons_of_mem y h

section Pieces

variable {n : ℕ}

@[simp]
theorem pieces_nil (n : ℕ) : pieces n ([] : List α) = [] := by
  rw [pieces, dif_pos (Or.inr rfl)]

theorem pieces_of_ne_nil (hn : 0 < n) {xs : List α} (hxs : xs ≠ []) :
    pieces n xs = xs.take n :: pieces n (xs.drop n) := by
  rw [pieces, dif_neg]
  rintro (h | h)
  · omega
  · exact hxs h

theorem flatten_pieces (hn : 0 < n) (xs : List α) : (pieces n xs).flatten = xs := by
  fun_induction pieces n xs with
  | case1 xs h =>
    obtain h | h := h
    · omega
    · rw [h, List.flatten_nil]
  | case2 xs h ih => rw [List.flatten_cons, ih, List.take_append_drop]

theorem flatten_flatMap_pieces {β : Type} (hn : 0 < n) (f : β → List α) (xs : List β) :
    (xs.flatMap fun x => pieces n (f x)).flatten = xs.flatMap f := by
  induction xs with
  | nil => rfl
  | cons x xs ih =>
    rw [List.flatMap_cons, List.flatten_append, ih, flatten_pieces hn, List.flatMap_cons]

theorem pieces_eq_nil_iff (hn : 0 < n) {xs : List α} : pieces n xs = [] ↔ xs = [] := by
  constructor
  · intro h
    rw [← flatten_pieces hn xs, h, List.flatten_nil]
  · rintro rfl
    exact pieces_nil n

theorem pieces_map {β : Type} (g : α → β) (xs : List α) :
    pieces n (xs.map g) = (pieces n xs).map (List.map g) := by
  fun_induction pieces n xs with
  | case1 xs h =>
    rw [pieces, dif_pos, List.map_nil]
    rwa [List.map_eq_nil_iff]
  | case2 xs h ih =>
    rw [pieces, dif_neg, ← List.map_take, ← List.map_drop, ih, List.map_cons]
    rwa [List.map_eq_nil_iff]

theorem pieces_replicate {β : Type} (n : ℕ) (x : β) (xs : List α) :
    pieces n (List.replicate xs.length x) =
      (pieces n xs).map fun c => List.replicate c.length x := by
  have hmap : pieces n (xs.map fun _ => x) = (pieces n xs).map (List.map fun _ => x) :=
    pieces_map (fun _ => x) xs
  rw [List.map_const'] at hmap
  exact hmap.trans (List.map_congr_left fun c _ => List.map_const')

theorem two_le_length_pieces (hn : 0 < n) {xs : List α} (h : n < xs.length) :
    2 ≤ (pieces n xs).length := by
  have hxs : xs ≠ [] := List.ne_nil_of_length_pos (by omega)
  have hdrop : xs.drop n ≠ [] := by
    apply List.ne_nil_of_length_pos
    rw [List.length_drop]
    omega
  rw [pieces_of_ne_nil hn hxs, pieces_of_ne_nil hn hdrop, List.length_cons, List.length_cons]
  omega

theorem length_of_mem_pieces {xs c : List α} (hc : c ∈ pieces n xs) :
    0 < c.length ∧ c.length ≤ n := by
  fun_induction pieces n xs with
  | case1 xs h => cases hc
  | case2 xs h ih =>
    rw [not_or] at h
    have hpos : 0 < xs.length := List.length_pos_iff.mpr h.2
    obtain rfl | hc := List.mem_cons.mp hc
    · rw [List.length_take]
      omega
    · exact ih hc

theorem length_of_mem_dropLast_pieces {xs c : List α} (hc : c ∈ (pieces n xs).dropLast) :
    c.length = n := by
  fun_induction pieces n xs with
  | case1 xs h => cases hc
  | case2 xs h ih =>
    rw [not_or] at h
    have hn : 0 < n := Nat.pos_of_ne_zero h.1
    by_cases hrest : pieces n (xs.drop n) = []
    · rw [hrest] at hc
      cases hc
    · rw [List.dropLast_cons_of_ne_nil hrest] at hc
      obtain rfl | hc := List.mem_cons.mp hc
      · have hdrop : xs.drop n ≠ [] := fun he => hrest ((pieces_eq_nil_iff hn).mpr he)
        have hlen : 0 < xs.length - n := by
          rw [← List.length_drop]
          exact List.length_pos_iff.mpr hdrop
        rw [List.length_take]
        omega
      · exact ih hc

theorem length_of_mem_pieces_of_dvd {xs c : List α} (hdvd : n ∣ xs.length) (hc : c ∈ pieces n xs) :
    c.length = n := by
  fun_induction pieces n xs with
  | case1 xs h => cases hc
  | case2 xs h ih =>
    rw [not_or] at h
    have hle : n ≤ xs.length := Nat.le_of_dvd (List.length_pos_iff.mpr h.2) hdvd
    obtain rfl | hc := List.mem_cons.mp hc
    · rw [List.length_take, Nat.min_eq_left hle]
    · refine ih ?_ hc
      rw [List.length_drop]
      exact Nat.dvd_sub hdvd (dvd_refl n)

theorem length_pieces_of_dvd (hn : 0 < n) {xs : List α} (hdvd : n ∣ xs.length) :
    (pieces n xs).length = xs.length / n := by
  have hsum : xs.length = (pieces n xs).length * n := by
    conv_lhs => rw [← flatten_pieces hn xs, List.length_flatten]
    rw [List.map_congr_left fun c hc => length_of_mem_pieces_of_dvd hdvd hc, List.map_const',
      List.sum_replicate, smul_eq_mul]
  exact (Nat.div_eq_of_eq_mul_left hn hsum).symm

theorem pieces_flatten {cs : List (List α)} (hfull : ∀ c ∈ cs.dropLast, c.length = n)
    (hlen : ∀ c ∈ cs, 0 < c.length ∧ c.length ≤ n) : pieces n cs.flatten = cs := by
  induction cs with
  | nil => exact pieces_nil n
  | cons c cs ih =>
    obtain ⟨hpos, hle⟩ := hlen c List.mem_cons_self
    have hne : (c :: cs).flatten ≠ [] := by
      rw [List.flatten_cons, ← List.length_pos_iff, List.length_append]
      omega
    have hrest := ih (fun d hd => hfull d (mem_dropLast_cons hd))
      (fun d hd => hlen d (List.mem_cons_of_mem c hd))
    rw [pieces_of_ne_nil (by omega) hne, List.flatten_cons]
    cases cs with
    | nil => simp [List.take_of_length_le hle, List.drop_of_length_le hle]
    | cons d ds =>
      have hc : c.length = n := hfull c (by simp)
      rw [← hc, List.take_left, List.drop_left, hc, hrest]

theorem pieces_flatten_of_length (hn : 0 < n) {cs : List (List α)}
    (hlen : ∀ c ∈ cs, c.length = n) : pieces n cs.flatten = cs :=
  pieces_flatten (fun c hc => hlen c (List.mem_of_mem_dropLast hc))
    (fun c hc => ⟨(hlen c hc).symm ▸ hn, (hlen c hc).le⟩)

theorem pieces_of_length (hn : 0 < n) {xs : List α} (hlen : xs.length = n) :
    pieces n xs = [xs] := by
  have hall : ∀ c ∈ [xs], c.length = n := fun c hc => List.mem_singleton.mp hc ▸ hlen
  have h := pieces_flatten_of_length hn hall
  rwa [List.flatten_singleton] at h

end Pieces

section Places

theorem toList_mapIdx {β : Type} (start : ℕ → ℕ) (block : β → Array α) (xs : List β) :
    ((xs.mapIdx fun i x => (start i, block x)).map fun b => b.2.toList) =
      xs.map fun x => (block x).toList := by
  apply List.ext_getElem?
  intro i
  simp [Function.comp_def]

@[simp]
theorem size_place (xs : Array α) (start : ℕ) (ys : List α) : (place xs start ys).size = xs.size := by
  induction ys generalizing xs start with
  | nil => rfl
  | cons y ys ih => rw [place, ih, Array.size_setIfInBounds]

theorem getElem?_place (xs : Array α) (start : ℕ) (ys : List α) (i : ℕ) :
    (place xs start ys)[i]? =
      if start ≤ i ∧ i < start + ys.length ∧ i < xs.size then ys[i - start]? else xs[i]? := by
  induction ys generalizing xs start with
  | nil =>
    have hnone : ¬ (start ≤ i ∧ i < start + 0 ∧ i < xs.size) := by omega
    rw [List.length_nil, if_neg hnone, place]
  | cons y ys ih =>
    rw [place, ih, Array.size_setIfInBounds, Array.getElem?_setIfInBounds, List.length_cons]
    by_cases hi : start = i
    · subst hi
      by_cases hsize : start < xs.size <;> simp [hsize]
    · grind

theorem place_append (done ys rest : List α) (h : ys.length ≤ rest.length) :
    place (done ++ rest).toArray done.length ys = (done ++ ys ++ rest.drop ys.length).toArray := by
  induction ys generalizing done rest with
  | nil => simp [place]
  | cons y ys ih =>
    cases rest with
    | nil => simp at h
    | cons x rest =>
      have hlen : ys.length ≤ rest.length := by simpa using h
      have hset : (done ++ x :: rest).toArray.setIfInBounds done.length y =
          ((done ++ [y]) ++ rest).toArray := by simp
      have hnext : done.length + 1 = (done ++ [y]).length := by simp
      rw [place, hset, hnext, ih (done ++ [y]) rest hlen]
      simp

theorem placeAll_append {β : Type} (block : β → Array α) (step : ℕ) (done rest : List α)
    (xs : List β) (hfull : ∀ x ∈ xs.dropLast, (block x).size = step)
    (hspace : rest.length = (xs.map fun x => (block x).size).sum) :
    placeAll (done ++ rest).toArray (xs.mapIdx fun i x => (done.length + i * step, block x)) =
      (done ++ xs.flatMap fun x => (block x).toList).toArray := by
  induction xs generalizing done rest with
  | nil =>
    have hrest : rest = [] := List.length_eq_zero_iff.mp (by simpa using hspace)
    simp [placeAll, hrest]
  | cons x xs ih =>
    rw [List.map_cons, List.sum_cons] at hspace
    have hx : (block x).toList.length ≤ rest.length := by
      rw [Array.length_toList]
      omega
    have hdone : place (done ++ rest).toArray (done.length + 0 * step) (block x).toList =
        ((done ++ (block x).toList) ++ rest.drop (block x).size).toArray := by
      rw [Nat.zero_mul, Nat.add_zero, place_append done (block x).toList rest hx,
        Array.length_toList]
    have hshift : (xs.mapIdx fun i y => (done.length + (i + 1) * step, block y)) =
        xs.mapIdx fun i y => ((done ++ (block x).toList).length + i * step, block y) := by
      cases xs with
      | nil => rfl
      | cons y ys =>
        have hstep : (block x).size = step := hfull x (by simp)
        have hlen : (done ++ (block x).toList).length = done.length + step := by simp [hstep]
        have hpos (i : ℕ) : done.length + (i + 1) * step =
            (done ++ (block x).toList).length + i * step := by
          rw [hlen, Nat.succ_mul]
          omega
        simp only [hpos]
    have hrest := ih (done ++ (block x).toList) (rest.drop (block x).size)
      (fun y hy => hfull y (mem_dropLast_cons hy)) (by rw [List.length_drop]; omega)
    rw [List.mapIdx_cons, placeAll, List.foldl_cons, hdone, hshift]
    change placeAll _ _ = _
    rw [hrest, List.flatMap_cons, List.append_assoc]

end Places

end PackedStream
