import PackedStream.Proofs.PartRing

namespace PackedStream

inductive PartCall (α : Type) where
  | store (values : List α)
  | read (sink : List α)
  | readAll (sink : List α)

inductive PartAnswer (α : Type) where
  | stored (result : Except StreamError Bool)
  | taken (found : Bool) (sink : List α)

structure PartBuffer (σ α : Type) where
  store : σ → List α → Except StreamError (Bool × σ)
  read : σ → Option (List α × σ)
  readAll : σ → Option (List α × σ)

variable {α σ : Type}

namespace PartBuffer

def appendTo (sink : List α) (s : σ) : Option (List α × σ) → PartAnswer α × σ
  | none => (.taken false sink, s)
  | some (values, s') => (.taken true (sink ++ values), s')

def answer (b : PartBuffer σ α) (s : σ) : PartCall α → PartAnswer α × σ
  | .store values =>
    match b.store s values with
    | .error e => (.stored (.error e), s)
    | .ok (stored, s') => (.stored (.ok stored), s')
  | .read sink => appendTo sink s (b.read s)
  | .readAll sink => appendTo sink s (b.readAll s)

def run (b : PartBuffer σ α) (s : σ) : List (PartCall α) → List (PartAnswer α) × σ
  | [] => ([], s)
  | call :: calls =>
    let rest := run b (b.answer s call).2 calls
    ((b.answer s call).1 :: rest.1, rest.2)

theorem run_cons (b : PartBuffer σ α) (s : σ) (call : PartCall α) (calls : List (PartCall α)) :
    b.run s (call :: calls) = ((b.answer s call).1 :: (b.run (b.answer s call).2 calls).1,
      (b.run (b.answer s call).2 calls).2) := rfl

end PartBuffer

namespace PartQueue

def buffer : PartBuffer (PartQueue α) α := ⟨store, read, readAll⟩

theorem sizes_of_answer (q : PartQueue α) (call : PartCall α) :
    (buffer.answer q call).2.parts = q.parts ∧
      (buffer.answer q call).2.partSize = q.partSize := by
  have htaken (sink : List α) (found : Option (List α × PartQueue α))
      (hfound : ∀ values q', found = some (values, q') →
        q'.parts = q.parts ∧ q'.partSize = q.partSize) :
      (PartBuffer.appendTo sink q found).2.parts = q.parts ∧
        (PartBuffer.appendTo sink q found).2.partSize = q.partSize := by
    cases found with
    | none => exact ⟨rfl, rfl⟩
    | some found => exact hfound found.1 found.2 rfl
  cases call with
  | store values =>
    have hbuffer : buffer.store q values = q.store values := rfl
    rw [PartBuffer.answer, hbuffer]
    cases hstore : q.store values with
    | error e => exact ⟨rfl, rfl⟩
    | ok found => exact sizes_of_store hstore
  | read sink => exact htaken sink q.read fun _ _ => sizes_of_read
  | readAll sink => exact htaken sink q.readAll fun _ _ => sizes_of_readAll

theorem sizes_of_run (q : PartQueue α) (calls : List (PartCall α)) :
    (buffer.run q calls).2.parts = q.parts ∧ (buffer.run q calls).2.partSize = q.partSize := by
  induction calls generalizing q with
  | nil => exact ⟨rfl, rfl⟩
  | cons call calls ih =>
    obtain ⟨hparts, hpartSize⟩ := sizes_of_answer q call
    obtain ⟨hparts', hpartSize'⟩ := ih (buffer.answer q call).2
    exact ⟨hparts'.trans hparts, hpartSize'.trans hpartSize⟩

end PartQueue

namespace PartRing

def buffer : PartBuffer (PartRing α) α := ⟨store, read, readAll⟩

variable {r : PartRing α}

theorem appendTo_queue (sink : List α) (r : PartRing α) (found : Option (List α × PartRing α)) :
    PartBuffer.appendTo sink r.queue (found.map (Prod.map id queue)) =
      Prod.map id queue (PartBuffer.appendTo sink r found) := by
  cases found <;> rfl

theorem WellFormed.appendTo (h : r.WellFormed) (sink : List α)
    {found : Option (List α × PartRing α)}
    (hfound : ∀ values s, found = some (values, s) → s.WellFormed) :
    (PartBuffer.appendTo sink r found).2.WellFormed := by
  cases found with
  | none => exact h
  | some found => exact hfound found.1 found.2 rfl

theorem WellFormed.answer_eq (h : r.WellFormed) (call : PartCall α) :
    (buffer.answer r call).2.WellFormed ∧
      PartQueue.buffer.answer r.queue call = Prod.map id queue (buffer.answer r call) := by
  cases call with
  | store values =>
    have hqueue : PartQueue.buffer.store r.queue values =
        (r.store values).map (Prod.map id queue) := h.queue_store values
    have hring : buffer.store r values = r.store values := rfl
    rw [PartBuffer.answer, PartBuffer.answer, hqueue, hring]
    cases hstore : r.store values with
    | error e => exact ⟨h, rfl⟩
    | ok found => exact ⟨h.store hstore, rfl⟩
  | read sink =>
    have hqueue := h.queue_read
    exact ⟨h.appendTo sink fun _ _ => h.read, (congrArg _ hqueue).trans (appendTo_queue sink r _)⟩
  | readAll sink =>
    have hqueue := h.queue_readAll
    exact ⟨h.appendTo sink fun _ _ => h.readAll,
      (congrArg _ hqueue).trans (appendTo_queue sink r _)⟩

theorem WellFormed.run_eq (h : r.WellFormed) (calls : List (PartCall α)) :
    (buffer.run r calls).2.WellFormed ∧
      PartQueue.buffer.run r.queue calls = Prod.map id queue (buffer.run r calls) := by
  induction calls generalizing r with
  | nil => exact ⟨h, rfl⟩
  | cons call calls ih =>
    obtain ⟨hwf, hanswer⟩ := h.answer_eq call
    obtain ⟨hend, hrest⟩ := ih hwf
    refine ⟨hend, ?_⟩
    rw [PartBuffer.run_cons, PartBuffer.run_cons, hanswer, Prod.map_fst, Prod.map_snd, hrest]
    rfl

theorem WellFormed.hasSlot_drain (h : r.WellFormed) {n : ℕ} (hn : n ≤ r.valid) :
    (PartRing.drain n r).2.HasSlot (PartRing.drain n r).2.head := by
  obtain ⟨hwf, -⟩ := h.drain hn
  exact hwf.hasSlot hwf.head_lt

theorem WellFormed.batchFault?_eq_none (h : r.WellFormed) {values : List α} {s : PartRing α}
    (hstore : r.store values = .ok (true, s)) :
    batchFault? r.parts r.partSize values.length = none ∧
      values.length / r.partSize ≤ r.room := by
  obtain ⟨e, -, he⟩ | ⟨-, -, hr⟩ | ⟨hfault, hroom, -⟩ := h.store_cases values
  · rw [he] at hstore
    cases hstore
  · rw [hr] at hstore
    cases hstore
  · exact ⟨hfault, hroom⟩

theorem WellFormed.hasSlot_push (h : r.WellFormed) {values : List α} {s : PartRing α}
    (hstore : r.store values = .ok (true, s)) {n : ℕ} (hn : n < (pieces r.partSize values).length) :
    let t := ((pieces r.partSize values).take n).foldl PartRing.push r
    t.HasSlot ((t.head + t.valid) % t.parts) ∧ t.head + t.valid < 2 * t.parts := by
  intro t
  obtain ⟨hfault, hroom⟩ := h.batchFault?_eq_none hstore
  obtain ⟨hcount, hlen⟩ := h.length_pieces hfault
  have hvalid := h.valid_le
  rw [hcount] at hn
  unfold room at hroom
  have hfit : r.valid + ((pieces r.partSize values).take n).length ≤ r.parts := by
    rw [List.length_take]
    omega
  obtain ⟨hwf, -⟩ := h.foldl_push hfit fun c hc => hlen c (List.mem_of_mem_take hc)
  have hhead : t.head < t.parts := hwf.head_lt
  have hle : t.valid ≤ t.parts := hwf.valid_le
  exact ⟨hwf.hasSlot (Nat.mod_lt _ (by omega)), by omega⟩

/--
Whatever the calls, a ring answers like a queue that is empty at first. In every state it comes to,
the loops of the next call stay within the storage, and its numbers are those of the queue.
-/
theorem run_eq_queue_run [Inhabited α] {parts partSize : ℕ} (hmake : make parts partSize = .ok r)
    (calls : List (PartCall α)) :
    ∃ answers s q,
      buffer.run r calls = (answers, s) ∧
      PartQueue.buffer.run (.empty parts partSize) calls = (answers, q) ∧
      (s.content = q.content ∧ s.valid = q.content.length ∧ q.content.length ≤ parts ∧
        (∀ part ∈ q.content, part.length = partSize) ∧
        s.head < parts ∧ s.storage.size = parts * partSize) ∧
      (∀ n < s.valid, (drain n s).2.HasSlot (drain n s).2.head) ∧
      (∀ values t, s.store values = .ok (true, t) →
        (∀ part ∈ pieces partSize values, part.length = partSize) ∧
        ∀ n < (pieces partSize values).length,
          let u := ((pieces partSize values).take n).foldl push s
          u.HasSlot ((u.head + u.valid) % u.parts) ∧ u.head + u.valid < 2 * u.parts) ∧
      (s.length = q.content.length * partSize ∧ s.capacity = parts * partSize ∧
        s.room = parts - q.content.length ∧ (s.isEmpty = true ↔ q.content = []) ∧
        (s.isFull = true ↔ q.content.length = parts) ∧ s.parts = parts ∧
        s.partSize = partSize) := by
  obtain ⟨hr, hempty⟩ := make_eq_ok hmake
  obtain ⟨hwf, hrun⟩ := hr.run_eq calls
  have hsizes := PartQueue.sizes_of_run (.empty parts partSize) calls
  rw [hempty] at hrun
  rw [hrun, Prod.map_snd] at hsizes
  refine ⟨_, (buffer.run r calls).2, _, rfl, hrun, ?_⟩
  generalize (buffer.run r calls).2 = s at hwf hsizes
  have hparts : s.parts = parts := hsizes.1
  have hpartSize : s.partSize = partSize := hsizes.2
  subst hparts hpartSize
  have hcount : s.content.length = s.valid := length_content s
  refine ⟨⟨rfl, hcount.symm, hcount.trans_le hwf.valid_le, ?_, hwf.head_lt, hwf.size_eq⟩,
    fun n hn => hwf.hasSlot_drain hn.le, ?_, ?_⟩
  · exact fun part hpart => hwf.length_of_mem_content hpart
  · intro values t hstore
    exact ⟨(hwf.length_pieces (hwf.batchFault?_eq_none hstore).1).2,
      fun n hn => hwf.hasSlot_push hstore hn⟩
  · refine ⟨congrArg (· * s.partSize) hcount.symm, rfl, congrArg (s.parts - ·) hcount.symm, ?_, ?_,
      rfl, rfl⟩
    · exact beq_iff_eq.trans content_eq_nil_iff.symm
    · exact beq_iff_eq.trans (by rw [← hcount]; rfl)

theorem run_eq_queue_run_wrapped :
    ∃ r s : PartRing ℕ, make 3 2 = .ok r ∧
      buffer.run r [.store [1, 2, 3, 4], .read [0], .store [5, 6, 7, 8], .store [9, 10], .store [9],
          .read [], .store [9, 10], .readAll [], .readAll [0], .store [11, 12, 13, 14]] =
        ([.stored (.ok true), .taken true [0, 1, 2], .stored (.ok true), .stored (.ok false),
          .stored (.error (.partSizeMismatch 1 2)), .taken true [3, 4], .stored (.ok true),
          .taken true [5, 6, 7, 8, 9, 10], .taken false [0], .stored (.ok true)], s) ∧
      s.content = [[11, 12], [13, 14]] ∧ s.head < 3 := by
  have hmake : make 3 2 = .ok (⟨Array.replicate 6 0, 3, 2, 0, 0⟩ : PartRing ℕ) := rfl
  obtain ⟨answers, s, q, hring, hqueue, ⟨hcontent, -, -, -, hhead, -⟩, -⟩ :=
    run_eq_queue_run hmake [.store [1, 2, 3, 4], .read [0], .store [5, 6, 7, 8], .store [9, 10],
      .store [9], .read [], .store [9, 10], .readAll [], .readAll [0], .store [11, 12, 13, 14]]
  have hanswers : answers = [.stored (.ok true), .taken true [0, 1, 2], .stored (.ok true),
      .stored (.ok false), .stored (.error (.partSizeMismatch 1 2)), .taken true [3, 4],
      .stored (.ok true), .taken true [5, 6, 7, 8, 9, 10], .taken false [0], .stored (.ok true)] ∧
      q = ⟨3, 2, [[11, 12], [13, 14]]⟩ := by
    rw [eq_comm, eq_comm (a := q), ← Prod.mk.injEq, ← hqueue]
    cbv
  obtain ⟨rfl, rfl⟩ := hanswers
  exact ⟨_, s, hmake, hring, hcontent, hhead⟩

end PartRing

end PackedStream
