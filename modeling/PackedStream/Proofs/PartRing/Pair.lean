import PackedStream.Proofs.PartRing.Signals

namespace PackedStream

variable {α : Type}

def batchReply (parts partSize length : ℕ) : RingReply :=
  match batchFault? parts partSize length with
  | none => .done
  | some e => .refused e

def partsOf (parts partSize : ℕ) (batches : List (List α)) : List (List α) :=
  (batches.filter fun values => batchFault? parts partSize values.length = none).flatMap
    (pieces partSize)

section Batches

variable {parts partSize : ℕ} {values : List α}

theorem partsOf_append (batches batches' : List (List α)) :
    partsOf parts partSize (batches ++ batches') =
      partsOf parts partSize batches ++ partsOf parts partSize batches' := by
  rw [partsOf, List.filter_append, List.flatMap_append]
  rfl

theorem partsOf_singleton_of_fault {e : StreamError}
    (hfault : batchFault? parts partSize values.length = some e) :
    partsOf parts partSize [values] = [] := by
  simp [partsOf, hfault]

theorem partsOf_singleton (hfault : batchFault? parts partSize values.length = none) :
    partsOf parts partSize [values] = pieces partSize values := by
  simp [partsOf, hfault]

end Batches

namespace PartQueue

variable {q q' : PartQueue α} {turn : Turn α} {values : List α}

theorem Served.of_storeWaiting (h : q.Served turn q') (hcall : turn.call = .storeWaiting values) :
    turn.reply = batchReply q.parts q.partSize values.length ∧
      turn.arrived q.partSize = partsOf q.parts q.partSize [values] ∧ turn.moved = [] := by
  obtain ⟨i, call, reply, transfer⟩ := turn
  obtain rfl : call = .storeWaiting values := hcall
  obtain ⟨e, hfault, rfl, rfl, -⟩ | ⟨hfault, rfl, rfl, -⟩ := h.storeWaiting_cases
  · refine ⟨?_, (partsOf_singleton_of_fault hfault).symm, rfl⟩
    rw [batchReply, hfault]
  · refine ⟨?_, ?_, rfl⟩
    · rw [batchReply, hfault]
    · exact (List.flatMap_singleton _ values).trans (partsOf_singleton hfault).symm

theorem Served.of_readWaiting (h : q.Served turn q') (hcall : turn.call = .readWaiting) :
    turn.reply = .done ∧ turn.accepted = none ∧ turn.moved ∈ q.content := by
  obtain ⟨i, call, reply, transfer⟩ := turn
  obtain rfl : call = .readWaiting := hcall
  obtain ⟨part, rfl, rfl, hcontent⟩ := h.eq_of_readWaiting
  exact ⟨rfl, rfl, hcontent ▸ List.mem_cons_self⟩

end PartQueue

def Turn.Possible (turn : Turn α) (parts partSize : ℕ) : Prop :=
  ∃ (r : PartRing α) (q : PartQueue α), r.WellFormed ∧ r.parts = parts ∧ r.partSize = partSize ∧
    r.queue.Served turn q

section Turns

variable {turns : List (Turn α)} {parts partSize : ℕ}

theorem turns_of_stores {sent : List (List α)}
    (hturns : ∀ turn ∈ turns, turn.Possible parts partSize)
    (hcalls : turns.map Turn.call = sent.map .storeWaiting) :
    turns.map Turn.reply = sent.map (fun values => batchReply parts partSize values.length) ∧
      turns.flatMap (Turn.arrived partSize) = partsOf parts partSize sent ∧
      ∀ turn ∈ turns, turn.moved = [] := by
  induction turns generalizing sent with
  | nil =>
    obtain rfl := List.map_eq_nil_iff.mp hcalls.symm
    exact ⟨rfl, rfl, fun turn hturn => absurd hturn List.not_mem_nil⟩
  | cons turn turns ih =>
    obtain ⟨values, sent, rfl, hcall, hcalls⟩ := List.map_eq_cons_iff.mp hcalls.symm
    obtain ⟨r, q, -, rfl, rfl, hserved⟩ := hturns turn List.mem_cons_self
    obtain ⟨hreply, harrived, hmoved⟩ := hserved.of_storeWaiting hcall.symm
    obtain ⟨hreplies, hparts, hnone⟩ :=
      ih (fun u hu => hturns u (List.mem_cons_of_mem turn hu)) hcalls.symm
    refine ⟨?_, ?_, List.forall_mem_cons.mpr ⟨hmoved, hnone⟩⟩
    · rw [List.map_cons, List.map_cons, hreply, hreplies]
      rfl
    · rw [List.flatMap_cons, hparts]
      exact (congrArg (· ++ _) harrived).trans (partsOf_append [values] sent).symm

theorem turns_of_reads {taken : ℕ}
    (hturns : ∀ turn ∈ turns, turn.Possible parts partSize)
    (hcalls : turns.map Turn.call = .replicate taken .readWaiting) :
    turns.map Turn.reply = .replicate taken .done ∧
      turns.flatMap (fun turn => pieces partSize turn.moved) = turns.map Turn.moved ∧
      ∀ turn ∈ turns, turn.accepted = none := by
  obtain rfl : turns.length = taken := by simpa using congrArg List.length hcalls
  have hcalls := List.map_eq_replicate_iff.mp hcalls
  have hturn (turn : Turn α) (hturn : turn ∈ turns) : turn.reply = .done ∧ turn.accepted = none ∧
      pieces partSize turn.moved = [turn.moved] := by
    obtain ⟨r, q, hwf, -, rfl, hserved⟩ := hturns turn hturn
    obtain ⟨hreply, hnone, hmoved⟩ := hserved.of_readWaiting (hcalls turn hturn)
    exact ⟨hreply, hnone, pieces_of_length hwf.partSize_pos (hwf.length_of_mem_content hmoved)⟩
  refine ⟨List.map_eq_replicate_iff.mpr fun turn h => (hturn turn h).1, ?_,
    fun turn h => (hturn turn h).2.1⟩
  rw [List.map_eq_flatMap]
  exact List.flatMap_congr fun turn h => (hturn turn h).2.2

end Turns

namespace SharedRing

variable {w w₀ : SharedRing α} {log : List (Turn α)}

theorem Run.possible (hrun : Run w₀ log w) (hw₀ : w₀.ring.WellFormed) :
    ∀ turn ∈ log, turn.Possible w₀.ring.parts w₀.ring.partSize := by
  induction hrun with
  | refl => exact fun turn hturn => absurd hturn List.not_mem_nil
  | @step log w w' i turn hrun hstep ih =>
    obtain ⟨hwf, hserves⟩ := hrun.serves hw₀
    intro last hlast
    obtain hlast | hlast := List.mem_append.mp hlast
    · exact ih last hlast
    · obtain ⟨rfl, -⟩ | ⟨turn, rfl, -, hserved, -⟩ := hstep.ring_cases hwf
      · cases hlast
      · obtain rfl := List.mem_singleton.mp hlast
        exact ⟨w.ring, _, hwf, hserves.sizes.1, hserves.sizes.2, hserved⟩
  | rouse _ _ _ ih => exact ih

theorem flatMap_turnsOf {β : Type} {i : ℕ} {f : Turn α → List β}
    (hf : ∀ turn ∈ log, turn.thread ≠ i → f turn = []) :
    (turnsOf log i).flatMap f = log.flatMap f := by
  induction log with
  | nil => rfl
  | cons turn log ih =>
    have ih := ih fun u hu => hf u (List.mem_cons_of_mem turn hu)
    rw [turnsOf] at ih ⊢
    by_cases hi : turn.thread = i
    · rw [List.filter_cons, if_pos (decide_eq_true hi), List.flatMap_cons, List.flatMap_cons, ih]
    · rw [List.filter_cons, if_neg (by simpa using hi), List.flatMap_cons,
        hf turn List.mem_cons_self hi, List.nil_append, ih]

theorem Run.conserved_pair (hrun : Run w₀ log w) (hw₀ : w₀.ring.WellFormed)
    (hempty : w₀.ring.content = []) (hlength : w₀.threads.length = 2)
    (hmoved : ∀ turn ∈ turnsOf log 0, turn.moved = [])
    (haccepted : ∀ turn ∈ turnsOf log 1, turn.accepted = none) :
    ((turnsOf log 1).flatMap fun turn => pieces w₀.ring.partSize turn.moved) ++ w.ring.content =
      (turnsOf log 0).flatMap (Turn.arrived w₀.ring.partSize) := by
  have hthread (turn : Turn α) (hturn : turn ∈ log) : turn.thread < 2 :=
    hlength ▸ hrun.threads.2 turn hturn
  rw [flatMap_turnsOf, flatMap_turnsOf]
  · exact hrun.conserved hw₀ hempty
  · intro turn hturn hne
    have h1 : turn.thread = 1 := by have := hthread turn hturn; omega
    rw [Turn.arrived, haccepted turn (mem_turnsOf.mpr ⟨hturn, h1⟩)]
    rfl
  · intro turn hturn hne
    have h0 : turn.thread = 0 := by have := hthread turn hturn; omega
    rw [hmoved turn (mem_turnsOf.mpr ⟨hturn, h0⟩), pieces_nil]

/-- A producer that has sent some batches, and a consumer that has taken so many parts. -/
structure PairAt (w : SharedRing α) (parts partSize : ℕ) (sent rest : List (List α))
    (taken left : ℕ) (producer consumer : RingThread α) : Prop where
  wellFormed : w.ring.WellFormed
  parts_eq : w.ring.parts = parts
  partSize_eq : w.ring.partSize = partSize
  threads_eq : w.threads = [producer, consumer]
  producer_calls : producer.calls = rest.map .storeWaiting
  producer_replies :
    producer.replies = sent.map fun values => batchReply parts partSize values.length
  consumer_calls : consumer.calls = .replicate left .readWaiting
  consumer_replies : consumer.replies = .replicate taken .done
  consumer_sink : consumer.sink = ((partsOf parts partSize sent).take taken).flatten
  content_eq : w.ring.content = (partsOf parts partSize sent).drop taken
  taken_le : taken ≤ (partsOf parts partSize sent).length

section Progress

variable {parts partSize : ℕ} {sent rest : List (List α)} {taken left : ℕ}
  {producer consumer : RingThread α}

theorem PairAt.valid_eq (h : w.PairAt parts partSize sent rest taken left producer consumer) :
    w.ring.valid = (partsOf parts partSize sent).length - taken := by
  rw [← PartRing.length_content, h.content_eq, List.length_drop]

theorem PairAt.exists_free
    (h : w.PairAt parts partSize sent rest taken left producer consumer)
    (hlow : taken + left ≤ (partsOf parts partSize (sent ++ rest)).length)
    (hhigh : (partsOf parts partSize (sent ++ rest)).length ≤ taken + left + parts)
    (hcalls : rest ≠ [] ∨ left ≠ 0) :
    ∃ (i : ℕ) (t : RingThread α) (call : RingCall α), w.threads[i]? = some t ∧
      t.calls.head? = some call ∧ ∀ signal, ¬ w.ring.queue.Waits call signal := by
  obtain rfl := h.parts_eq
  obtain rfl := h.partSize_eq
  have hvalid := h.valid_eq
  by_cases hread : left ≠ 0 ∧ w.ring.content ≠ []
  · obtain ⟨hleft, hdata⟩ := hread
    refine ⟨1, consumer, .readWaiting, by rw [h.threads_eq]; rfl, ?_, ?_⟩
    · rw [h.consumer_calls, List.head?_replicate, if_neg hleft]
    · intro signal hwaits
      cases hwaits with
      | data hempty => exact hdata hempty
  -- From here on the producer must be able to go on: a batch needs no more room than an empty ring
  -- has, and behind the last read no more than `hhigh` leaves.
  have hidle : left = 0 ∨ w.ring.valid = 0 := by
    rw [not_and_or, not_ne_iff, not_ne_iff, PartRing.content_eq_nil_iff] at hread
    exact hread
  cases rest with
  | nil =>
    rw [List.append_nil] at hlow
    have hleft : left ≠ 0 := hcalls.resolve_left (absurd rfl)
    omega
  | cons values rest =>
    refine ⟨0, producer, .storeWaiting values, by rw [h.threads_eq]; rfl, ?_, ?_⟩
    · rw [h.producer_calls]
      rfl
    · intro signal hwaits
      cases hwaits with
      | space hfault hroom =>
        rw [PartRing.room_queue, PartRing.room] at hroom
        change batchFault? w.ring.parts w.ring.partSize values.length = none at hfault
        change w.ring.parts - w.ring.valid < values.length / w.ring.partSize at hroom
        have hneeded : values.length / w.ring.partSize ≤ w.ring.parts :=
          Nat.div_le_of_le_mul (Nat.mul_comm .. ▸ (batchFault?_eq_none_iff.mp hfault).2)
        have hcount := (h.wellFormed.length_pieces hfault).1
        have htaken := h.taken_le
        rw [← List.singleton_append, partsOf_append, partsOf_append, List.length_append,
          List.length_append, partsOf_singleton hfault, hcount] at hhigh
        omega

theorem PairAt.advances (h : w.PairAt parts partSize sent rest taken left producer consumer)
    (halert : w.Alert) (hlow : taken + left ≤ (partsOf parts partSize (sent ++ rest)).length)
    (hhigh : (partsOf parts partSize (sent ++ rest)).length ≤ taken + left + parts)
    {t : RingThread α} (ht : t ∈ w.threads) (hunfinished : t.calls ≠ [] ∨ t.phase ≠ .ready) :
    w.Advances := by
  obtain ⟨i, hi⟩ := List.getElem?_of_mem ht
  have hstuck : t.calls ≠ [] ∨ w.Advances := by
    cases hphase : t.phase with
    | ready => exact .inl (hunfinished.resolve_right fun hne => hne hphase)
    | parked signal =>
      obtain ⟨call, hcall, -⟩ := halert i t signal hi hphase
      exact .inl (List.ne_nil_of_mem (List.mem_of_head? hcall))
    | signalling signal => exact .inr (advances_of_signalling hi hphase)
  refine hstuck.elim (fun hne => ?_) id
  have hcalls : rest ≠ [] ∨ left ≠ 0 := by
    rw [h.threads_eq, List.mem_pair] at ht
    obtain rfl | rfl := ht
    · rw [h.producer_calls] at hne
      exact .inl fun hrest => hne (hrest ▸ rfl)
    · rw [h.consumer_calls] at hne
      exact .inr fun hleft => hne (hleft ▸ rfl)
  obtain ⟨j, u, call, hu, hcall, hfree⟩ := h.exists_free hlow hhigh hcalls
  exact halert.advances h.wellFormed hu hcall hfree

end Progress

section Pair

variable [Inhabited α] {parts partSize reads : ℕ} {ring : PartRing α} {batches : List (List α)}

theorem Run.pairAt (hmake : PartRing.make parts partSize = .ok ring)
    (hrun : Run (start ring [batches.map .storeWaiting, .replicate reads .readWaiting]) log w) :
    ∃ sent rest taken left producer consumer, batches = sent ++ rest ∧ reads = taken + left ∧
      w.PairAt parts partSize sent rest taken left producer consumer := by
  obtain ⟨hring, hempty⟩ := PartRing.make_eq_ok hmake
  obtain ⟨hwf, hserves⟩ := hrun.serves hring
  obtain ⟨producer, consumer, hthreads⟩ := List.length_eq_two.mp hrun.threads.1
  obtain ⟨_, hscript, hproducer⟩ := hrun.had (j := 0) (t := producer) (by rw [hthreads]; rfl)
  obtain ⟨_, hscript', hconsumer⟩ := hrun.had (j := 1) (t := consumer) (by rw [hthreads]; rfl)
  obtain rfl := Option.some.inj hscript
  obtain rfl := Option.some.inj hscript'
  obtain ⟨sent, rest, rfl, hsent, hrest⟩ := List.append_eq_map_iff.mp hproducer.calls_eq
  obtain ⟨hreads, htaken, hleft⟩ := List.append_eq_replicate_iff.mp hconsumer.calls_eq
  rw [List.length_map] at hreads htaken
  obtain ⟨rfl, rfl, -⟩ := PartQueue.mk.inj hempty
  have hturns (i : ℕ) : ∀ turn ∈ turnsOf log i, turn.Possible ring.parts ring.partSize :=
    fun turn hturn => hrun.possible hring turn (mem_turnsOf.mp hturn).1
  obtain ⟨hreplies, harrived, hnone⟩ := turns_of_stores (hturns 0) hsent.symm
  obtain ⟨hreplies', hmoved, hnone'⟩ := turns_of_reads (hturns 1) htaken
  have hconserved : (turnsOf log 1).map Turn.moved ++ w.ring.content =
      partsOf ring.parts ring.partSize sent := by
    rw [← hmoved, ← harrived]
    exact hrun.conserved_pair hring (congrArg PartQueue.content hempty) rfl hnone hnone'
  have hcount : ((turnsOf log 1).map Turn.moved).length = (turnsOf log 1).length :=
    List.length_map _
  refine ⟨sent, rest, (turnsOf log 1).length, consumer.calls.length, producer, consumer, rfl,
    hreads.symm, hwf, hserves.sizes.1, hserves.sizes.2, hthreads, hrest.symm,
    hproducer.replies_eq.trans hreplies, hleft, hconsumer.replies_eq.trans hreplies', ?_, ?_, ?_⟩
  · rw [← hconserved, List.take_left' hcount, hconsumer.sink_eq, List.flatMap_def]
  · rw [← hconserved, List.drop_left' hcount]
  · rw [← hconserved, List.length_append, hcount]
    exact Nat.le_add_right _ _

/--
Whenever both threads come to the end of their calls, the producer has the answers that the sizes of
its batches give, the consumer the first parts of the good batches, and the ring the rest. If there
are parts enough to read, and room for those that are left, the two cannot get stuck.
-/
theorem Run.pair_outcome (hmake : PartRing.make parts partSize = .ok ring)
    (hrun : Run (start ring [batches.map .storeWaiting, .replicate reads .readWaiting]) log w) :
    ((∀ t ∈ w.threads, t.calls = []) → ∃ producer consumer, w.threads = [producer, consumer] ∧
      producer.replies = batches.map (fun values => batchReply parts partSize values.length) ∧
      consumer.replies = .replicate reads .done ∧
      consumer.sink = ((partsOf parts partSize batches).take reads).flatten ∧
      w.ring.content = (partsOf parts partSize batches).drop reads ∧
      reads ≤ (partsOf parts partSize batches).length ∧
      w.ring.length = ((partsOf parts partSize batches).length - reads) * partSize) ∧
    (reads ≤ (partsOf parts partSize batches).length →
      (partsOf parts partSize batches).length ≤ reads + parts →
      (∃ t ∈ w.threads, t.calls ≠ [] ∨ t.phase ≠ .ready) → w.Advances) := by
  obtain ⟨sent, rest, taken, left, producer, consumer, rfl, rfl, hpair⟩ := hrun.pairAt hmake
  constructor
  · intro hdone
    rw [hpair.threads_eq] at hdone
    have hrest := hdone producer (by simp)
    have hleft := hdone consumer (by simp)
    rw [hpair.producer_calls, List.map_eq_nil_iff] at hrest
    rw [hpair.consumer_calls, List.replicate_eq_nil_iff] at hleft
    subst hrest hleft
    rw [List.append_nil, Nat.add_zero]
    refine ⟨producer, consumer, hpair.threads_eq, hpair.producer_replies, hpair.consumer_replies,
      hpair.consumer_sink, hpair.content_eq, hpair.taken_le, ?_⟩
    rw [PartRing.length, hpair.valid_eq, hpair.partSize_eq]
  · rintro hlow hhigh ⟨t, ht, hunfinished⟩
    have halert := hrun.alert (PartRing.make_eq_ok hmake).1
    exact hpair.advances halert hlow hhigh ht hunfinished

end Pair

theorem pair_outcome_tight :
    ∃ (ring : PartRing ℕ) (log log' : List (Turn ℕ)) (w w' : SharedRing ℕ)
        (producer consumer : RingThread ℕ),
      let batches := [[1, 2], [3], [4, 5, 6, 7], [8, 9]]
      let w₀ := start ring [batches.map .storeWaiting, .replicate 2 .readWaiting]
      PartRing.make 2 2 = .ok ring ∧
      Run w₀ log w ∧ w.threads.map RingThread.phase = [.parked .space, .ready] ∧ w.Advances ∧
      Run w₀ log' w' ∧ w'.threads = [producer, consumer] ∧
      producer.replies = [.done, .refused (.partSizeMismatch 1 2), .done, .done] ∧
      consumer.sink = [1, 2, 4, 5] ∧ w'.ring.content = [[6, 7], [8, 9]] := by
  let ring : PartRing ℕ := ⟨Array.replicate 4 0, 2, 2, 0, 0⟩
  have hmake : PartRing.make 2 2 = .ok ring := rfl
  let batches := [[1, 2], [3], [4, 5, 6, 7], [8, 9]]
  let w₀ := start ring [batches.map .storeWaiting, .replicate 2 .readWaiting]
  have hparts : partsOf 2 2 batches = [[1, 2], [4, 5], [6, 7], [8, 9]] := by cbv
  have hmiddle : runFor 9 w₀ = ⟨⟨#[6, 7, 4, 5], 2, 2, 1, 2⟩,
      [⟨[.storeWaiting [8, 9]], .parked .space,
          [.done, .refused (.partSizeMismatch 1 2), .done], []⟩,
        ⟨[.readWaiting], .ready, [.done], [1, 2]⟩]⟩ := by
    cbv
  have hend : runFor 13 w₀ = ⟨⟨#[6, 7, 8, 9], 2, 2, 0, 2⟩,
      [⟨[], .ready, [.done, .refused (.partSizeMismatch 1 2), .done, .done], []⟩,
        ⟨[], .ready, [.done, .done], [1, 2, 4, 5]⟩]⟩ := by
    cbv
  obtain ⟨log, hrun⟩ := exists_run_runFor w₀ 9
  obtain ⟨log', hrun'⟩ := exists_run_runFor w₀ 13
  obtain ⟨-, hadvances⟩ := hrun.pair_outcome hmake
  obtain ⟨houtcome, -⟩ := hrun'.pair_outcome hmake
  rw [hparts] at houtcome hadvances
  rw [hmiddle] at hrun hadvances
  rw [hend] at hrun' houtcome
  obtain ⟨producer, consumer, hthreads, hreplies, -, hsink, hcontent, -⟩ := houtcome (by simp)
  exact ⟨ring, log, log', _, _, producer, consumer, hmake, hrun, rfl,
    hadvances (by decide) (by decide) ⟨_, List.mem_cons_self, .inl (List.cons_ne_nil _ _)⟩, hrun',
    hthreads, hreplies, hsink, hcontent⟩

end SharedRing

end PackedStream
