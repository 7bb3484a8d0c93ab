import PackedStream.Proofs.BitBuffer.Calls

/-!
What a buffer holds after writes depends on the writes alone: not on their order, and not on the
workers that share them and the way in which the buffers of these are merged.
-/

namespace PackedStream

inductive BitWrite where
  | set (n : ℕ)
  | word (value : Word) (offset : ℕ)
deriving DecidableEq

namespace BitWrite

def apply (b : BitBuffer) : BitWrite → BitBuffer
  | set n => b.set n
  | word value offset => b.write value offset

def call (target : ℕ) : BitWrite → BitCall
  | set n => .set target n
  | word value offset => .write target value offset

def hits : BitWrite → ℕ → Bool
  | set n, k => n == k
  | word value offset, k => decide (offset ≤ k) && value.getLsbD (k - offset)

theorem bitLength_apply (b : BitBuffer) (w : BitWrite) : (w.apply b).bitLength = b.bitLength := by
  cases w with
  | set n => exact b.bitLength_set n
  | word value offset => exact b.bitLength_write value offset

theorem size_apply (b : BitBuffer) (w : BitWrite) : (w.apply b).bytes.size = b.bytes.size := by
  cases w with
  | set n => exact b.size_set n
  | word value offset => exact b.size_write value offset

theorem bit_apply {b : BitBuffer} (hb : b.bitLength ≤ 8 * b.bytes.size) (w : BitWrite) (k : ℕ) :
    Bytes.bit (w.apply b).bytes k =
      (Bytes.bit b.bytes k || (decide (k < b.bitLength) && w.hits k)) := by
  cases w with
  | set n =>
    rw [apply, BitBuffer.bit_set b hb, hits]
    by_cases hn : n = k
    · simp [hn]
    · simp [hn]
  | word value offset =>
    rw [apply, BitBuffer.bit_write b hb, hits, Bool.decide_and, Bool.and_comm (decide (offset ≤ k)),
      Bool.and_assoc]

theorem apply_call (w : BitWrite) (front rest : List BitBuffer) (b : BitBuffer) :
    (w.call front.length).apply (front ++ b :: rest) = front ++ w.apply b :: rest := by
  have hmodify (g : BitBuffer → BitBuffer) :
      (front ++ b :: rest).modify front.length g = front ++ g b :: rest := by
    rw [List.modify_eq_take_cons_drop (by simp)]
    simp
  cases w with
  | set n => exact hmodify _
  | word value offset => exact hmodify _

end BitWrite

inductive WriteTree where
  | worker (writes : List BitWrite)
  | merge (left right : WriteTree)

namespace WriteTree

def writes : WriteTree → List BitWrite
  | worker writes => writes
  | merge left right => left.writes ++ right.writes

def fill (bitLength : ℕ) : WriteTree → Except StreamError BitBuffer
  | worker writes => .ok (writes.foldl BitWrite.apply (.zeros bitLength))
  | merge left right => do (← left.fill bitLength).merge (← right.fill bitLength)

def workers : WriteTree → ℕ
  | worker _ => 1
  | merge left right => left.workers + right.workers

def calls (bitLength : ℕ) : WriteTree → ℕ → List BitCall
  | worker writes, first => .zeros bitLength :: writes.map (·.call first)
  | merge left right, first =>
    left.calls bitLength first ++ right.calls bitLength (first + left.workers) ++
      [.merge first (first + left.workers)]

end WriteTree

variable {n : ℕ} {xs ys : List BitWrite} {a b : BitBuffer}

structure Written (n : ℕ) (writes : List BitWrite) (b : BitBuffer) : Prop where
  bitLength_eq : b.bitLength = n
  size_eq : b.bytes.size = (n + 7) / 8
  bit_eq : ∀ k, Bytes.bit b.bytes k = (decide (k < n) && writes.any (·.hits k))

namespace Written

theorem zeros (n : ℕ) : Written n [] (.zeros n) := by
  constructor <;> simp

theorem apply (h : Written n xs b) (w : BitWrite) : Written n (xs ++ [w]) (w.apply b) := by
  constructor
  · rw [w.bitLength_apply, h.bitLength_eq]
  · rw [w.size_apply, h.size_eq]
  · intro k
    have hcapacity : b.bitLength ≤ 8 * b.bytes.size := by
      rw [h.bitLength_eq, h.size_eq]
      omega
    rw [BitWrite.bit_apply hcapacity, h.bit_eq, h.bitLength_eq, List.any_append,
      Bool.and_or_distrib_left]
    simp

theorem foldl (h : Written n xs b) (ys : List BitWrite) :
    Written n (xs ++ ys) (ys.foldl BitWrite.apply b) := by
  induction ys generalizing xs b with
  | nil => rwa [List.append_nil]
  | cons w ys ih =>
    have hrest := ih (h.apply w)
    rwa [List.append_assoc, List.singleton_append] at hrest

theorem merge (ha : Written n xs a) (hb : Written n ys b) :
    ∃ c, a.merge b = .ok c ∧ Written n (xs ++ ys) c := by
  have hsize : a.bytes.size = b.bytes.size := by rw [ha.size_eq, hb.size_eq]
  obtain ⟨c, hc, hlength, hbytes, hbit⟩ := a.merge_of_size_eq b hsize
  refine ⟨c, hc, hlength.trans ha.bitLength_eq, hbytes.trans ha.size_eq, fun k => ?_⟩
  rw [hbit, ha.bit_eq, hb.bit_eq, List.any_append, Bool.and_or_distrib_left]

theorem eq_of_perm (ha : Written n xs a) (hb : Written n ys b) (h : xs.Perm ys) : a = b := by
  apply BitBuffer.eq_of_bit_eq
  · rw [ha.bitLength_eq, hb.bitLength_eq]
  · rw [ha.size_eq, hb.size_eq]
  · intro k
    rw [ha.bit_eq, hb.bit_eq, h.any_eq]

end Written

namespace WriteTree

theorem fill_written (n : ℕ) (tree : WriteTree) :
    ∃ b, tree.fill n = .ok b ∧ Written n tree.writes b := by
  induction tree with
  | worker writes => exact ⟨_, rfl, (Written.zeros n).foldl writes⟩
  | merge left right ihl ihr =>
    obtain ⟨a, hleft, ha⟩ := ihl
    obtain ⟨b, hright, hb⟩ := ihr
    obtain ⟨c, hmerge, hc⟩ := ha.merge hb
    refine ⟨c, ?_, hc⟩
    rw [fill, hleft, hright]
    exact hmerge

theorem foldl_calls_worker (b : BitBuffer) (writes : List BitWrite) (bs : List BitBuffer) :
    (writes.map (·.call bs.length)).foldl BitCall.apply (bs ++ [b]) =
      bs ++ [writes.foldl BitWrite.apply b] := by
  induction writes generalizing b with
  | nil => rfl
  | cons w writes ih => rw [List.map_cons, List.foldl_cons, w.apply_call, ih, List.foldl_cons]

theorem foldl_calls (n : ℕ) (tree : WriteTree) (bs : List BitBuffer) :
    ∃ b rest, tree.fill n = .ok b ∧ rest.length + 1 = tree.workers ∧
      (tree.calls n bs.length).foldl BitCall.apply bs = bs ++ b :: rest := by
  induction tree generalizing bs with
  | worker writes =>
    exact ⟨_, [], rfl, rfl, foldl_calls_worker (.zeros n) writes bs⟩
  | merge left right ihl ihr =>
    obtain ⟨a, xs, hleft, hxs, hrunl⟩ := ihl bs
    obtain ⟨b, ys, hright, hys, hrunr⟩ := ihr (bs ++ a :: xs)
    obtain ⟨c, hfill, -⟩ := (merge left right).fill_written n
    have hmerge : a.merge b = .ok c := by
      rw [fill, hleft, hright] at hfill
      exact hfill
    have hlength : (bs ++ a :: xs).length = bs.length + left.workers := by
      rw [List.length_append, List.length_cons, hxs]
    rw [hlength] at hrunr
    have htarget : (bs ++ a :: xs ++ b :: ys)[bs.length]? = some a := by simp
    have hsource : (bs ++ a :: xs ++ b :: ys)[bs.length + left.workers]? = some b := by
      rw [← hlength]
      simp
    refine ⟨c, xs ++ b :: ys, hfill, ?_, ?_⟩
    · rw [List.length_append, List.length_cons, workers]
      omega
    · rw [calls, List.foldl_append, List.foldl_append, hrunl, hrunr, List.foldl_cons, List.foldl_nil,
        BitCall.apply, htarget, hsource]
      simp [hmerge]

/--
Writes into buffers of one capacity have one outcome: that of a single buffer which takes them in
order, whichever workers make them, in whatever order, and however the buffers are merged. It has
the bits of the writes that are within the capacity, and no others. No merge fails on the way, and
in no run of calls a bit that is on goes off.
-/
theorem fill_eq_foldl (n : ℕ) (writes : List BitWrite) :
    (∀ tree : WriteTree, tree.writes.Perm writes →
      tree.fill n = .ok (writes.foldl BitWrite.apply (.zeros n)) ∧
      (BitCall.run (tree.calls n 0))[0]? = some (writes.foldl BitWrite.apply (.zeros n))) ∧
    (∀ k, Bytes.bit (writes.foldl BitWrite.apply (.zeros n)).bytes k =
      (decide (k < n) && writes.any (·.hits k))) ∧
    ∀ (calls more : List BitCall) (r : ℕ) (b : BitBuffer), (BitCall.run calls)[r]? = some b →
      ∃ b' : BitBuffer, (BitCall.run (calls ++ more))[r]? = some b' ∧
        ∀ k, Bytes.bit b.bytes k = true → Bytes.bit b'.bytes k = true := by
  have hsequential : Written n writes (writes.foldl BitWrite.apply (.zeros n)) :=
    (Written.zeros n).foldl writes
  refine ⟨?_, hsequential.bit_eq, ?_⟩
  · intro tree hperm
    obtain ⟨b, hfill, hwritten⟩ := tree.fill_written n
    obtain ⟨c, rest, hfill', -, hrun⟩ := tree.foldl_calls n []
    obtain rfl := Except.ok.inj (hfill.symm.trans hfill')
    rw [← hwritten.eq_of_perm hsequential hperm]
    refine ⟨hfill, ?_⟩
    rw [BitCall.run]
    exact hrun ▸ rfl
  · intro calls more r b hb
    obtain ⟨b', hb', -, hkept⟩ := BitCall.run_append_keeps more hb
    exact ⟨b', hb', hkept⟩

theorem fill_eq_foldl_overlapping :
    (WriteTree.merge (.merge (.worker [.word 0xFFFF 8, .set 40]) (.worker []))
      (.worker [.word 5 2, .set 3])).writes.Perm
        [.set 3, .word 0xFFFF 8, .word 5 2, .set 40] ∧
      (WriteTree.merge (.merge (.worker [.word 0xFFFF 8, .set 40]) (.worker []))
        (.worker [.word 5 2, .set 3])).fill 12 = .ok ⟨#[0x1C, 0x0F], 12⟩ ∧
      (BitCall.run [.zeros 12, .set 0 3])[0]? = some ⟨#[0x08, 0x00], 12⟩ ∧
      ∃ b' : BitBuffer,
        (BitCall.run ([.zeros 12, .set 0 3] ++ [.zeros 12, .merge 0 1]))[0]? = some b' ∧
          Bytes.bit b'.bytes 3 = true := by
  have hperm : (WriteTree.merge (.merge (.worker [.word 0xFFFF 8, .set 40]) (.worker []))
      (.worker [.word 5 2, .set 3])).writes.Perm
        [.set 3, .word 0xFFFF 8, .word 5 2, .set 40] := by
    decide
  obtain ⟨hfill, -, hkept⟩ := fill_eq_foldl 12 [.set 3, .word 0xFFFF 8, .word 5 2, .set 40]
  have hrun : (BitCall.run [.zeros 12, .set 0 3])[0]? = some ⟨#[0x08, 0x00], 12⟩ := rfl
  obtain ⟨b', hb', hbits⟩ := hkept _ [.zeros 12, .merge 0 1] 0 _ hrun
  exact ⟨hperm, (hfill _ hperm).1.trans rfl, hrun, b', hb', hbits 3 rfl⟩

end WriteTree

end PackedStream
