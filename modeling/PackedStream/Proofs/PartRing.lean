import PackedStream.PartRing
import PackedStream.Proofs.PartQueue

namespace PackedStream.PartRing

variable {α : Type}

structure WellFormed (r : PartRing α) : Prop where
  partSize_pos : 0 < r.partSize
  head_lt : r.head < r.parts
  valid_le : r.valid ≤ r.parts
  size_eq : r.storage.size = r.parts * r.partSize

def content (r : PartRing α) : List (List α) :=
  (List.range r.valid).map fun i => r.slot ((r.head + i) % r.parts)

def queue (r : PartRing α) : PartQueue α := ⟨r.parts, r.partSize, r.content⟩

def HasSlot (r : PartRing α) (i : ℕ) : Prop := i * r.partSize + r.partSize ≤ r.storage.size

variable {r : PartRing α} {part : List α}

@[simp]
theorem length_content (r : PartRing α) : r.content.length = r.valid := by simp [content]

theorem content_eq_nil_iff : r.content = [] ↔ r.valid = 0 := by
  rw [← List.length_eq_zero_iff, length_content]

theorem checkCapacity_eq_ok {parts partSize : ℕ} (h : checkCapacity parts partSize = .ok ()) :
    0 < parts ∧ 0 < partSize := by
  unfold checkCapacity at h
  split at h
  · cases h
  · split at h
    case isTrue => cases h
    case isFalse hzero =>
      obtain ⟨hparts, hpartSize⟩ := Nat.mul_ne_zero_iff.mp hzero
      exact ⟨Nat.pos_of_ne_zero hparts, Nat.pos_of_ne_zero hpartSize⟩

theorem make_eq_ok [Inhabited α] {parts partSize : ℕ} (hmake : make parts partSize = .ok r) :
    r.WellFormed ∧ r.queue = .empty parts partSize := by
  unfold make at hmake
  cases hcheck : checkCapacity parts partSize with
  | error e => simp [hcheck, Except.map] at hmake
  | ok u =>
    obtain ⟨hparts, hpartSize⟩ := checkCapacity_eq_ok hcheck
    rw [hcheck] at hmake
    obtain rfl := Except.ok.inj hmake
    refine ⟨⟨hpartSize, hparts, Nat.zero_le _, ?_⟩, rfl⟩
    simp

section Slots

theorem getElem?_slot (r : PartRing α) (i j : ℕ) :
    (r.slot i)[j]? = if j < r.partSize then r.storage[i * r.partSize + j]? else none := by
  simp only [slot, Array.getElem?_toList, Array.getElem?_extract]
  grind

theorem WellFormed.hasSlot (h : r.WellFormed) {i : ℕ} (hi : i < r.parts) : r.HasSlot i := by
  rw [HasSlot, h.size_eq, ← Nat.succ_mul]
  exact Nat.mul_le_mul_right r.partSize hi

theorem WellFormed.length_slot (h : r.WellFormed) {i : ℕ} (hi : i < r.parts) :
    (r.slot i).length = r.partSize := by
  have hle : i * r.partSize + r.partSize ≤ r.storage.size := h.hasSlot hi
  rw [slot, Array.length_toList, Array.size_extract]
  omega

theorem WellFormed.length_of_mem_content (h : r.WellFormed) (hpart : part ∈ r.content) :
    part.length = r.partSize := by
  obtain ⟨i, -, rfl⟩ := List.mem_map.mp hpart
  exact h.length_slot (Nat.mod_lt _ (by have := h.head_lt; omega))

theorem slot_disjoint {size i k j : ℕ} (hij : i ≠ k) (hj : j < size) :
    ¬ (k * size ≤ i * size + j ∧ i * size + j < k * size + size) := by
  rintro ⟨hlow, hhigh⟩
  have hle : k ≤ i := Nat.le_of_lt_succ (Nat.lt_of_mul_lt_mul_right (a := size) (by
    rw [Nat.succ_mul]
    omega))
  have hge : i ≤ k := Nat.le_of_lt_succ (Nat.lt_of_mul_lt_mul_right (a := size) (by
    rw [Nat.succ_mul]
    omega))
  omega

theorem WellFormed.slot_push (h : r.WellFormed) (hpart : part.length = r.partSize) {i : ℕ}
    (hi : i < r.parts) :
    (r.push part).slot i = if i = (r.head + r.valid) % r.parts then part else r.slot i := by
  have hle : i * r.partSize + r.partSize ≤ r.storage.size := h.hasSlot hi
  apply List.ext_getElem?
  intro j
  have hslot : ((r.push part).slot i)[j]? = if j < r.partSize then
      (place r.storage ((r.head + r.valid) % r.parts * r.partSize) part)[i * r.partSize + j]?
      else none := getElem?_slot (r.push part) i j
  rw [hslot, getElem?_place, hpart]
  split
  case isTrue hj =>
    split
    case isTrue hin =>
      have hsame : i = (r.head + r.valid) % r.parts := by
        by_contra hne
        exact slot_disjoint hne hj ⟨hin.1, hin.2.1⟩
      rw [if_pos hsame, ← hsame, Nat.add_sub_cancel_left]
    case isFalse hout =>
      have hother : i ≠ (r.head + r.valid) % r.parts := by
        rintro rfl
        omega
      rw [if_neg hother, getElem?_slot, if_pos hj]
  case isFalse hj =>
    have hnone (xs : List α) (hxs : xs.length = r.partSize) : xs[j]? = none :=
      List.getElem?_eq_none (by omega)
    split
    · rw [hnone part hpart]
    · rw [hnone _ (h.length_slot hi)]

end Slots

section Calls

theorem WellFormed.push (h : r.WellFormed) (hroom : r.valid < r.parts) (part : List α) :
    (r.push part).WellFormed where
  partSize_pos := h.partSize_pos
  head_lt := h.head_lt
  valid_le := hroom
  size_eq := (size_place _ _ _).trans h.size_eq

theorem WellFormed.content_push (h : r.WellFormed) (hroom : r.valid < r.parts)
    (hpart : part.length = r.partSize) : (r.push part).content = r.content ++ [part] := by
  have hmod (i : ℕ) : (r.head + i) % r.parts < r.parts := Nat.mod_lt _ (by omega)
  have hcontent : (r.push part).content =
      (List.range (r.valid + 1)).map fun i => (r.push part).slot ((r.head + i) % r.parts) := rfl
  rw [hcontent, List.range_succ, List.map_append, List.map_singleton, h.slot_push hpart (hmod _),
    if_pos rfl]
  congr 1
  apply List.map_congr_left
  intro i hi
  have hi : i < r.valid := List.mem_range.mp hi
  have hne : (r.head + i) % r.parts ≠ (r.head + r.valid) % r.parts := by
    intro heq
    have hmodeq : i % r.parts = r.valid % r.parts := Nat.ModEq.add_left_cancel' r.head heq
    rw [Nat.mod_eq_of_lt (by omega), Nat.mod_eq_of_lt hroom] at hmodeq
    omega
  rw [h.slot_push hpart (hmod i), if_neg hne]

theorem WellFormed.foldl_push (h : r.WellFormed) {cs : List (List α)}
    (hroom : r.valid + cs.length ≤ r.parts) (hlen : ∀ c ∈ cs, c.length = r.partSize) :
    (cs.foldl PartRing.push r).WellFormed ∧
      (cs.foldl PartRing.push r).queue = { r.queue with content := r.content ++ cs } := by
  induction cs generalizing r with
  | nil => exact ⟨h, by simp [queue]⟩
  | cons c cs ih =>
    rw [List.length_cons] at hroom
    have hpush := h.push (by omega) c
    have hcontent := h.content_push (by omega) (hlen c List.mem_cons_self)
    obtain ⟨hwf, hqueue⟩ := ih hpush (by change r.valid + 1 + cs.length ≤ r.parts; omega)
      (fun d hd => hlen d (List.mem_cons_of_mem c hd))
    refine ⟨hwf, hqueue.trans ?_⟩
    rw [hcontent, List.append_assoc]
    rfl

theorem partCount_eq (r : PartRing α) (length : ℕ) :
    r.partCount length =
      match batchFault? r.parts r.partSize length with
      | some e => .error e
      | none => .ok (length / r.partSize) := by
  unfold partCount batchFault? capacity
  split
  · rfl
  · split <;> rfl

theorem WellFormed.length_pieces (h : r.WellFormed) {values : List α}
    (hfault : batchFault? r.parts r.partSize values.length = none) :
    (pieces r.partSize values).length = values.length / r.partSize ∧
      ∀ c ∈ pieces r.partSize values, c.length = r.partSize := by
  have hdvd := Nat.dvd_of_mod_eq_zero (batchFault?_eq_none_iff.mp hfault).1
  exact ⟨length_pieces_of_dvd h.partSize_pos hdvd, fun c hc => length_of_mem_pieces_of_dvd hdvd hc⟩

theorem WellFormed.pushAll (h : r.WellFormed) {values : List α}
    (hfault : batchFault? r.parts r.partSize values.length = none)
    (hroom : values.length / r.partSize ≤ r.room) :
    (r.pushAll values).WellFormed ∧ (r.pushAll values).queue =
      { r.queue with content := r.content ++ pieces r.partSize values } := by
  obtain ⟨hcount, hlen⟩ := h.length_pieces hfault
  have hvalid := h.valid_le
  apply h.foldl_push _ hlen
  rw [hcount]
  unfold room at hroom
  omega

theorem WellFormed.store_cases (h : r.WellFormed) (values : List α) :
    (∃ e, batchFault? r.parts r.partSize values.length = some e ∧ r.store values = .error e) ∨
    (batchFault? r.parts r.partSize values.length = none ∧
      r.room < values.length / r.partSize ∧ r.store values = .ok (false, r)) ∨
    (batchFault? r.parts r.partSize values.length = none ∧
      values.length / r.partSize ≤ r.room ∧ ∃ s, r.store values = .ok (true, s) ∧ s.WellFormed ∧
        s.queue = { r.queue with content := r.content ++ pieces r.partSize values }) := by
  unfold store
  rw [partCount_eq]
  cases hfault : batchFault? r.parts r.partSize values.length with
  | some e => exact .inl ⟨e, rfl, rfl⟩
  | none =>
    by_cases hroom : r.room < values.length / r.partSize
    · exact .inr (.inl ⟨rfl, hroom, if_pos hroom⟩)
    · exact .inr (.inr ⟨rfl, Nat.le_of_not_lt hroom, _, if_neg hroom,
        h.pushAll hfault (Nat.le_of_not_lt hroom)⟩)

theorem WellFormed.content_eq_cons (h : r.WellFormed) (hvalid : 0 < r.valid) :
    r.content = r.slot r.head ::
      content { r with head := (r.head + 1) % r.parts, valid := r.valid - 1 } := by
  have hrange : List.range r.valid = 0 :: (List.range (r.valid - 1)).map Nat.succ := by
    rw [← List.range_succ_eq_map, Nat.sub_add_cancel hvalid]
  rw [content, hrange, List.map_cons, List.map_map, Nat.add_zero, Nat.mod_eq_of_lt h.head_lt]
  congr 1
  apply List.map_congr_left
  intro i _
  change r.slot ((r.head + (i + 1)) % r.parts) = r.slot (((r.head + 1) % r.parts + i) % r.parts)
  rw [Nat.mod_add_mod, Nat.add_assoc, Nat.add_comm 1 i]

theorem WellFormed.read_cases (h : r.WellFormed) :
    (r.content = [] ∧ r.read = none) ∨
    ∃ part s, r.read = some (part, s) ∧ s.WellFormed ∧ r.content = part :: s.content ∧
      s.queue = { r.queue with content := s.content } := by
  obtain hvalid | hvalid := Nat.eq_zero_or_pos r.valid
  · exact .inl ⟨content_eq_nil_iff.mpr hvalid, if_pos hvalid⟩
  · have hle := h.valid_le
    refine .inr ⟨_, _, if_neg hvalid.ne', ⟨h.partSize_pos, ?_, ?_, h.size_eq⟩,
      h.content_eq_cons hvalid, rfl⟩
    · exact Nat.mod_lt _ (by omega)
    · change r.valid - 1 ≤ r.parts
      omega

theorem WellFormed.drain (h : r.WellFormed) {n : ℕ} (hn : n ≤ r.valid) :
    (drain n r).2.WellFormed ∧ (drain n r).1 = (r.content.take n).flatten ∧
      (drain n r).2.queue = { r.queue with content := r.content.drop n } := by
  induction n generalizing r with
  | zero => exact ⟨h, rfl, rfl⟩
  | succ n ih =>
    obtain ⟨hempty, -⟩ | ⟨part, s, hread, hwf, hcontent, hqueue⟩ := h.read_cases
    · rw [content_eq_nil_iff] at hempty
      omega
    · have hlen : r.valid = s.valid + 1 := by
        rw [← length_content r, hcontent, List.length_cons, length_content]
      obtain ⟨hdrained, htaken, hleft⟩ := ih hwf (by omega)
      rw [PartRing.drain, hread, hcontent]
      refine ⟨hdrained, ?_, ?_⟩
      · rw [List.take_succ_cons, List.flatten_cons, ← htaken]
      · rw [List.drop_succ_cons]
        exact hleft.trans (by rw [hqueue])

theorem WellFormed.readAll_cases (h : r.WellFormed) :
    (r.content = [] ∧ r.readAll = none) ∨
    ∃ s, r.content ≠ [] ∧ r.readAll = some (r.content.flatten, s) ∧ s.WellFormed ∧
      s.queue = { r.queue with content := [] } := by
  obtain hvalid | hvalid := Nat.eq_zero_or_pos r.valid
  · exact .inl ⟨content_eq_nil_iff.mpr hvalid, if_pos hvalid⟩
  · obtain ⟨hwf, htaken, hleft⟩ := h.drain le_rfl
    rw [← length_content r, List.take_length] at htaken
    rw [← length_content r, List.drop_length] at hleft
    rw [← length_content r] at hwf
    refine .inr ⟨_, fun hnil => hvalid.ne' (content_eq_nil_iff.mp hnil), ?_, hwf, hleft⟩
    rw [readAll, if_neg hvalid.ne', ← htaken, length_content]

end Calls

section Queue

variable {s : PartRing α} {values : List α}

@[simp]
theorem room_queue (r : PartRing α) : r.queue.room = r.room := by
  rw [queue, PartQueue.room, length_content, room]

theorem WellFormed.queue_store (h : r.WellFormed) (values : List α) :
    r.queue.store values = (r.store values).map (Prod.map id queue) := by
  obtain ⟨e, hfault, hstore⟩ | ⟨hfault, hlt, hstore⟩ | ⟨hfault, hle, t, hstore, -, hqueue⟩ :=
    h.store_cases values
  · rw [hstore]
    exact PartQueue.store_of_fault hfault
  · rw [hstore]
    exact PartQueue.store_of_lt hfault (r.room_queue.trans_lt hlt)
  · rw [hstore, PartQueue.store_of_le hfault (hle.trans_eq r.room_queue.symm)]
    exact congrArg (fun q => Except.ok (true, q)) hqueue.symm

theorem WellFormed.store (h : r.WellFormed) {stored : Bool}
    (hstore : r.store values = .ok (stored, s)) : s.WellFormed := by
  obtain ⟨e, -, he⟩ | ⟨-, -, hr⟩ | ⟨-, -, t, ht, hwf, -⟩ := h.store_cases values
  · rw [he] at hstore
    cases hstore
  · rw [hr] at hstore
    cases hstore
    exact h
  · rw [ht] at hstore
    cases hstore
    exact hwf

theorem WellFormed.queue_read (h : r.WellFormed) :
    r.queue.read = r.read.map (Prod.map id queue) := by
  obtain ⟨hempty, hread⟩ | ⟨part, t, hread, -, hcontent, hqueue⟩ := h.read_cases
  · rw [hread, PartQueue.read, queue, hempty]
    rfl
  · rw [hread, PartQueue.read, queue, hcontent, Option.map_some, Prod.map, hqueue]
    rfl

theorem WellFormed.read (h : r.WellFormed) (hread : r.read = some (values, s)) : s.WellFormed := by
  obtain ⟨-, hnone⟩ | ⟨part, t, ht, hwf, -⟩ := h.read_cases
  · rw [hnone] at hread
    cases hread
  · rw [ht] at hread
    cases hread
    exact hwf

theorem WellFormed.queue_readAll (h : r.WellFormed) :
    r.queue.readAll = r.readAll.map (Prod.map id queue) := by
  obtain ⟨hempty, hread⟩ | ⟨t, hne, hread, -, hqueue⟩ := h.readAll_cases
  · rw [hread, PartQueue.readAll, queue, hempty]
    rfl
  · obtain ⟨part, rest, hcontent⟩ := List.exists_cons_of_ne_nil hne
    rw [hread, PartQueue.readAll, queue, hcontent, Option.map_some, Prod.map, hqueue]
    rfl

theorem WellFormed.readAll (h : r.WellFormed) (hread : r.readAll = some (values, s)) :
    s.WellFormed := by
  obtain ⟨-, hnone⟩ | ⟨t, -, ht, hwf, -⟩ := h.readAll_cases
  · rw [hnone] at hread
    cases hread
  · rw [ht] at hread
    cases hread
    exact hwf

end Queue

end PackedStream.PartRing
