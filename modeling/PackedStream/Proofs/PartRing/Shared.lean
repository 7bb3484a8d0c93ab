import PackedStream.Proofs.PartRing

namespace PackedStream

variable {α : Type}

def Turn.owed (turn : Turn α) : Option Signal :=
  match turn.transfer with
  | .none => none
  | .stored values => if values = [] then none else some .data
  | .moved _ => some .space

def PartRing.Ends (r : PartRing α) (call : RingCall α) (inLock : Section α) : Prop :=
  ∃ s reply transfer, inLock = .finish s reply transfer (Turn.owed ⟨0, call, reply, transfer⟩) ∧
    s.WellFormed ∧ ∀ i, r.queue.Served ⟨i, call, reply, transfer⟩ s.queue

namespace PartRing.WellFormed

variable {r : PartRing α} {call : RingCall α}

theorem putting_cases (h : r.WellFormed) {values : List α} {full : Section α}
    (hcall : call = .store values ∨ call = .storeWaiting values) :
    (RingCall.putting r values full = full ∧ ∃ q', r.queue.store values = .ok (false, q')) ∨
    r.Ends call (RingCall.putting r values full) := by
  have hqueue := h.queue_store values
  unfold RingCall.putting
  cases hstore : r.store values with
  | error e =>
    rw [hstore] at hqueue
    exact .inr ⟨r, _, _, rfl, h, fun _ => .refused hcall hqueue⟩
  | ok found =>
    obtain ⟨stored, s⟩ := found
    rw [hstore] at hqueue
    cases stored with
    | false => exact .inl ⟨rfl, _, hqueue⟩
    | true => exact .inr ⟨s, _, _, rfl, h.store hstore, fun _ => .stored hcall hqueue⟩

theorem taking_read_cases (h : r.WellFormed) {empty : Section α}
    (hcall : call = .read ∨ call = .readWaiting) :
    (RingCall.taking r.read empty = empty ∧ r.content = []) ∨
    r.Ends call (RingCall.taking r.read empty) := by
  have hqueue := h.queue_read
  obtain ⟨hempty, hread⟩ | ⟨part, s, hread, hwf, -⟩ := h.read_cases
  · rw [hread]
    exact .inl ⟨rfl, hempty⟩
  · rw [hread] at hqueue ⊢
    exact .inr ⟨s, _, _, rfl, hwf, fun _ => .read hcall hqueue⟩

theorem locked_cases (h : r.WellFormed) (call : RingCall α) :
    (∃ signal, call.locked r = .wait signal ∧ r.queue.Waits call signal) ∨
    r.Ends call (call.locked r) := by
  cases call with
  | store values =>
    obtain ⟨hfull, q', hstore⟩ | hend := h.putting_cases (.inl rfl)
    · exact .inr ⟨r, _, _, hfull, h, fun _ => .full hstore⟩
    · exact .inr hend
  | storeWaiting values =>
    obtain ⟨hfull, q', hstore⟩ | hend := h.putting_cases (.inr rfl)
    · obtain ⟨hfault, hroom, -⟩ := PartQueue.store_eq_ok_false_iff.mp hstore
      exact .inl ⟨.space, hfull, .space hfault hroom⟩
    · exact .inr hend
  | read =>
    obtain ⟨hnone, hempty⟩ | hend := h.taking_read_cases (.inl rfl)
    · exact .inr ⟨r, _, _, hnone, h, fun _ => .missing (.inl rfl) hempty⟩
    · exact .inr hend
  | readWaiting =>
    obtain ⟨hnone, hempty⟩ | hend := h.taking_read_cases (.inr rfl)
    · exact .inl ⟨.data, hnone, .data hempty⟩
    · exact .inr hend
  | readAll =>
    have hqueue := h.queue_readAll
    obtain ⟨hempty, hread⟩ | ⟨s, -, hread, hwf, -⟩ := h.readAll_cases
    · refine .inr ⟨r, _, _, ?_, h, fun _ => .missing (.inr rfl) hempty⟩
      rw [RingCall.locked, hread]
      rfl
    · rw [hread] at hqueue
      refine .inr ⟨s, _, _, ?_, hwf, fun _ => .readAll hqueue⟩
      rw [RingCall.locked, hread]
      rfl

theorem of_wait (h : r.WellFormed) {signal : Signal} (hlocked : call.locked r = .wait signal) :
    r.queue.Waits call signal := by
  obtain ⟨signal', hwait, hwaits⟩ | ⟨s, reply, transfer, hend, -⟩ := h.locked_cases call
  · rw [hlocked] at hwait
    cases hwait
    exact hwaits
  · rw [hlocked] at hend
    cases hend

theorem of_finish (h : r.WellFormed) {s : PartRing α} {reply : RingReply} {transfer : Transfer α}
    {owed : Option Signal} (hlocked : call.locked r = .finish s reply transfer owed) (i : ℕ) :
    s.WellFormed ∧ r.queue.Served ⟨i, call, reply, transfer⟩ s.queue ∧
      owed = Turn.owed ⟨i, call, reply, transfer⟩ := by
  obtain ⟨signal, hwait, -⟩ | ⟨s', reply', transfer', hend, hwf, hserved⟩ := h.locked_cases call
  · rw [hlocked] at hwait
    cases hwait
  · rw [hlocked] at hend
    cases hend
    exact ⟨hwf, hserved i, rfl⟩

end PartRing.WellFormed

namespace RingThread

variable (t : RingThread α) (reply : RingReply) (transfer : Transfer α) (owed : Option Signal)

@[simp]
theorem calls_finished : (t.finished reply transfer owed).calls = t.calls.tail := rfl

@[simp]
theorem replies_finished : (t.finished reply transfer owed).replies = t.replies ++ [reply] := rfl

@[simp]
theorem sink_finished : (t.finished reply transfer owed).sink = t.sink ++ transfer.received := rfl

theorem wake_eq (signal : Signal) : ∃ phase, t.wake signal = { t with phase } := by
  unfold wake
  split
  · exact ⟨.ready, rfl⟩
  · exact ⟨t.phase, rfl⟩

end RingThread

namespace SharedRing

variable {w w' : SharedRing α} {i : ℕ}

def start (ring : PartRing α) (scripts : List (List (RingCall α))) : SharedRing α :=
  ⟨ring, scripts.map fun calls => { calls }⟩

inductive Step (w : SharedRing α) (i : ℕ) : Option (Turn α) → SharedRing α → Prop
  | signal {t : RingThread α} {signal : Signal} (ht : w.threads[i]? = some t)
      (hphase : t.phase = .signalling signal) :
      Step w i none
        { w with threads := (w.threads.set i { t with phase := .ready }).map (·.wake signal) }
  | wait {t : RingThread α} {call : RingCall α} {signal : Signal} (ht : w.threads[i]? = some t)
      (hphase : t.phase = .ready) (hcall : t.calls.head? = some call)
      (hlocked : call.locked w.ring = .wait signal) :
      Step w i none { w with threads := w.threads.set i { t with phase := .parked signal } }
  | finish {t : RingThread α} {call : RingCall α} {ring : PartRing α} {reply : RingReply}
      {transfer : Transfer α} {owed : Option Signal} (ht : w.threads[i]? = some t)
      (hphase : t.phase = .ready) (hcall : t.calls.head? = some call)
      (hlocked : call.locked w.ring = .finish ring reply transfer owed) :
      Step w i (some ⟨i, call, reply, transfer⟩)
        ⟨ring, w.threads.set i (t.finished reply transfer owed)⟩

theorem step_eq_some_iff {transfer : Transfer α} :
    w.step i = some (transfer, w') ↔
      ∃ turn, Step w i turn w' ∧ transfer = (turn.map Turn.transfer).getD .none := by
  constructor
  · intro h
    unfold step at h
    cases ht : w.threads[i]? with
    | none => simp [ht] at h
    | some t =>
      cases hphase : t.phase with
      | parked signal => simp [ht, hphase] at h
      | signalling signal =>
        simp only [ht, hphase, Option.bind_eq_bind, Option.bind_some] at h
        cases h
        exact ⟨none, .signal ht hphase, rfl⟩
      | ready =>
        cases hcall : t.calls.head? with
        | none => simp [ht, hphase, hcall] at h
        | some call =>
          simp only [ht, hphase, hcall, Option.bind_eq_bind, Option.bind_some] at h
          cases hlocked : call.locked w.ring with
          | wait signal =>
            simp only [hlocked] at h
            cases h
            exact ⟨none, .wait ht hphase hcall hlocked, rfl⟩
          | finish ring reply transfer owed =>
            simp only [hlocked] at h
            cases h
            exact ⟨_, .finish ht hphase hcall hlocked, rfl⟩
  · rintro ⟨turn, hstep, rfl⟩
    cases hstep with
    | signal ht hphase => simp [step, ht, hphase]
    | wait ht hphase hcall hlocked => simp [step, ht, hphase, hcall, hlocked]
    | finish ht hphase hcall hlocked => simp [step, ht, hphase, hcall, hlocked]

/-- What the threads may do in any order, and their turns. A wait may also end unsignalled. -/
inductive Run (w₀ : SharedRing α) : List (Turn α) → SharedRing α → Prop
  | refl : Run w₀ [] w₀
  | step {log : List (Turn α)} {w w' : SharedRing α} {i : ℕ} {turn : Option (Turn α)}
      (hrun : Run w₀ log w) (hstep : Step w i turn w') : Run w₀ (log ++ turn.toList) w'
  | rouse {log : List (Turn α)} {w : SharedRing α} {i : ℕ} {t : RingThread α} {signal : Signal}
      (hrun : Run w₀ log w) (ht : w.threads[i]? = some t) (hphase : t.phase = .parked signal) :
      Run w₀ log { w with threads := w.threads.set i { t with phase := .ready } }

theorem exists_run_runFor (w₀ : SharedRing α) (n : ℕ) : ∃ log, Run w₀ log (runFor n w₀) := by
  have hfrom (n : ℕ) (w : SharedRing α) (log : List (Turn α)) (hrun : Run w₀ log w) :
      ∃ log', Run w₀ log' (runFor n w) := by
    induction n generalizing w log with
    | zero => exact ⟨log, hrun⟩
    | succ n ih =>
      unfold runFor
      cases hadvance : w.advance with
      | none => exact ⟨log, hrun⟩
      | some w' =>
        obtain ⟨i, -, hi⟩ := List.exists_of_findSome?_eq_some hadvance
        obtain ⟨⟨transfer, w''⟩, hstep, rfl⟩ := Option.map_eq_some_iff.mp hi
        obtain ⟨turn, hturn, -⟩ := step_eq_some_iff.mp hstep
        exact ih _ _ (hrun.step hturn)
  exact hfrom n w₀ [] .refl

section Ring

theorem Step.ring_cases {turn : Option (Turn α)} (hstep : Step w i turn w')
    (hwf : w.ring.WellFormed) :
    (turn = none ∧ w'.ring = w.ring) ∨
    ∃ last, turn = some last ∧ w'.ring.WellFormed ∧ w.ring.queue.Served last w'.ring.queue ∧
      ∀ signal, last.owed = some signal →
        ∃ t : RingThread α, w'.threads[i]? = some t ∧ t.phase = .signalling signal := by
  cases hstep with
  | signal => exact .inl ⟨rfl, rfl⟩
  | wait => exact .inl ⟨rfl, rfl⟩
  | finish ht hphase hcall hlocked =>
    obtain ⟨hwf', hserved, rfl⟩ := hwf.of_finish hlocked i
    refine .inr ⟨_, rfl, hwf', hserved, fun signal howed => ?_⟩
    rw [howed]
    exact ⟨_, List.getElem?_set_self (List.getElem?_eq_some_iff.mp ht).1, rfl⟩

theorem Run.serves {w₀ : SharedRing α} {log : List (Turn α)} (hrun : Run w₀ log w)
    (hw₀ : w₀.ring.WellFormed) : w.ring.WellFormed ∧ w₀.ring.queue.Serves log w.ring.queue := by
  induction hrun with
  | refl => exact ⟨hw₀, .nil⟩
  | step _ hstep ih =>
    obtain ⟨hwf, hserves⟩ := ih
    obtain ⟨rfl, hring⟩ | ⟨last, rfl, hwf', hserved, -⟩ := hstep.ring_cases hwf
    · rw [hring, Option.toList_none, List.append_nil]
      exact ⟨hwf, hserves⟩
    · exact ⟨hwf', hserves.snoc hserved⟩
  | rouse _ _ _ ih => exact ih

theorem Run.conserved {w₀ : SharedRing α} {log : List (Turn α)} (hrun : Run w₀ log w)
    (hw₀ : w₀.ring.WellFormed) (hempty : w₀.ring.content = []) :
    (log.flatMap fun turn => pieces w₀.ring.partSize turn.moved) ++ w.ring.content =
      log.flatMap (Turn.arrived w₀.ring.partSize) := by
  induction hrun with
  | refl => exact hempty
  | step hrun hstep ih =>
    obtain ⟨hwf, hserves⟩ := hrun.serves hw₀
    obtain ⟨rfl, hring⟩ | ⟨last, rfl, -, hserved, -⟩ := hstep.ring_cases hwf
    · rwa [hring, Option.toList_none, List.append_nil]
    · have hturn := hserved.conserved hwf.partSize_pos fun _ => hwf.length_of_mem_content
      have hsize := hserves.sizes.2
      rw [hsize] at hturn
      rw [Option.toList_some, List.flatMap_append, List.flatMap_append, ← ih, List.append_assoc,
        List.append_assoc, List.flatMap_singleton, List.flatMap_singleton]
      exact congrArg _ hturn.symm
  | rouse _ _ _ ih => exact ih

theorem Run.elements_conserved {w₀ : SharedRing α} {log : List (Turn α)} (hrun : Run w₀ log w)
    (hw₀ : w₀.ring.WellFormed) (hempty : w₀.ring.content = []) :
    log.flatMap Turn.moved ++ w.ring.content.flatten = (log.filterMap Turn.accepted).flatten := by
  have hpos : 0 < w₀.ring.partSize := hw₀.partSize_pos
  have hflat := congrArg List.flatten (hrun.conserved hw₀ hempty)
  rw [List.flatten_append, flatten_flatMap_pieces hpos, Turn.flatMap_arrived] at hflat
  exact hflat.trans ((flatten_flatMap_pieces hpos id _).trans List.flatMap_id)

end Ring

section Threads

def turnsOf (log : List (Turn α)) (i : ℕ) : List (Turn α) := log.filter fun turn => turn.thread = i

theorem mem_turnsOf {log : List (Turn α)} {turn : Turn α} {i : ℕ} :
    turn ∈ turnsOf log i ↔ turn ∈ log ∧ turn.thread = i := by
  simp [turnsOf]

theorem turnsOf_append (log log' : List (Turn α)) (i : ℕ) :
    turnsOf (log ++ log') i = turnsOf log i ++ turnsOf log' i := List.filter_append ..

structure Had (calls : List (RingCall α)) (turns : List (Turn α)) (t : RingThread α) : Prop where
  calls_eq : turns.map Turn.call ++ t.calls = calls
  replies_eq : t.replies = turns.map Turn.reply
  sink_eq : t.sink = turns.flatMap Turn.moved

theorem Had.phase {calls : List (RingCall α)} {turns : List (Turn α)} {t : RingThread α}
    (h : Had calls turns t) (phase : Phase) : Had calls turns { t with phase } :=
  ⟨h.calls_eq, h.replies_eq, h.sink_eq⟩

theorem Had.finished {calls : List (RingCall α)} {turns : List (Turn α)} {t : RingThread α}
    (h : Had calls turns t) (turn : Turn α) (hcall : t.calls.head? = some turn.call)
    (owed : Option Signal) :
    Had calls (turns ++ [turn]) (t.finished turn.reply turn.transfer owed) := by
  obtain ⟨rest, hrest⟩ := List.head?_eq_some_iff.mp hcall
  constructor
  · rw [← h.calls_eq, RingThread.calls_finished, hrest, List.map_append, List.append_assoc]
    rfl
  · rw [RingThread.replies_finished, h.replies_eq, List.map_append]
    rfl
  · rw [RingThread.sink_finished, h.sink_eq, List.flatMap_append, List.flatMap_singleton]
    rfl

theorem eq_of_getElem?_set {threads : List (RingThread α)} {i j : ℕ} {u t' : RingThread α}
    (ht' : (threads.set i u)[j]? = some t') :
    i = j ∧ t' = u ∨ i ≠ j ∧ threads[j]? = some t' := by
  rw [List.getElem?_set] at ht'
  split at ht'
  case isTrue h =>
    split at ht'
    · exact .inl ⟨h, (Option.some.inj ht').symm⟩
    · cases ht'
  case isFalse h => exact .inr ⟨h, ht'⟩

theorem exists_had_of_set {threads : List (RingThread α)} {t t' : RingThread α} {phase : Phase}
    (ht : threads[i]? = some t) {j : ℕ}
    (ht' : (threads.set i { t with phase })[j]? = some t') :
    ∃ u, threads[j]? = some u ∧ ∀ calls turns, Had calls turns u → Had calls turns t' := by
  obtain ⟨rfl, rfl⟩ | ⟨-, hother⟩ := eq_of_getElem?_set ht'
  · exact ⟨t, ht, fun _ _ h => h.phase phase⟩
  · exact ⟨t', hother, fun _ _ h => h⟩

theorem Step.exists_had {turn : Option (Turn α)} (hstep : Step w i turn w') {j : ℕ}
    {t' : RingThread α} (ht' : w'.threads[j]? = some t') :
    ∃ u, w.threads[j]? = some u ∧
      ∀ calls turns, Had calls turns u → Had calls (turns ++ turnsOf turn.toList j) t' := by
  cases hstep with
  | @signal t signal ht hphase =>
    rw [List.getElem?_map] at ht'
    obtain ⟨v, hv, rfl⟩ := Option.map_eq_some_iff.mp ht'
    obtain ⟨u, hu, hhad⟩ := exists_had_of_set ht hv
    obtain ⟨phase, hwake⟩ := v.wake_eq signal
    refine ⟨u, hu, fun calls turns h => ?_⟩
    rw [hwake, Option.toList_none, turnsOf, List.filter_nil, List.append_nil]
    exact (hhad calls turns h).phase phase
  | wait ht =>
    obtain ⟨u, hu, hhad⟩ := exists_had_of_set ht ht'
    refine ⟨u, hu, fun calls turns h => ?_⟩
    rw [Option.toList_none, turnsOf, List.filter_nil, List.append_nil]
    exact hhad calls turns h
  | @finish t call ring reply transfer owed ht hphase hcall hlocked =>
    obtain ⟨rfl, rfl⟩ | ⟨hne, hother⟩ := eq_of_getElem?_set ht'
    · refine ⟨t, ht, fun calls turns h => ?_⟩
      have hfinished := h.finished ⟨i, call, reply, transfer⟩ hcall owed
      simpa [turnsOf] using hfinished
    · refine ⟨t', hother, fun calls turns h => ?_⟩
      simpa [turnsOf, hne] using h

theorem Step.length_threads {turn : Option (Turn α)} (hstep : Step w i turn w') :
    w'.threads.length = w.threads.length := by
  cases hstep <;> simp

theorem Run.threads {w₀ : SharedRing α} {log : List (Turn α)} (hrun : Run w₀ log w) :
    w.threads.length = w₀.threads.length ∧ ∀ turn ∈ log, turn.thread < w₀.threads.length := by
  induction hrun with
  | refl => exact ⟨rfl, fun turn hturn => absurd hturn List.not_mem_nil⟩
  | step _ hstep ih =>
    obtain ⟨hlength, hthread⟩ := ih
    refine ⟨hstep.length_threads.trans hlength, fun turn hturn => ?_⟩
    obtain hturn | hturn := List.mem_append.mp hturn
    · exact hthread turn hturn
    · cases hstep with
      | signal => cases hturn
      | wait => cases hturn
      | finish ht =>
        obtain rfl := List.mem_singleton.mp hturn
        exact hlength ▸ (List.getElem?_eq_some_iff.mp ht).1
  | rouse _ _ _ ih => exact ⟨List.length_set.trans ih.1, ih.2⟩

theorem Run.had {ring : PartRing α} {scripts : List (List (RingCall α))} {log : List (Turn α)}
    (hrun : Run (start ring scripts) log w) {j : ℕ} {t : RingThread α}
    (ht : w.threads[j]? = some t) :
    ∃ calls, scripts[j]? = some calls ∧ Had calls (turnsOf log j) t := by
  induction hrun generalizing t with
  | refl =>
    rw [start, List.getElem?_map] at ht
    obtain ⟨calls, hcalls, rfl⟩ := Option.map_eq_some_iff.mp ht
    exact ⟨calls, hcalls, rfl, rfl, rfl⟩
  | step _ hstep ih =>
    obtain ⟨u, hu, hhad⟩ := hstep.exists_had ht
    obtain ⟨calls, hcalls, h⟩ := ih hu
    refine ⟨calls, hcalls, ?_⟩
    rw [turnsOf_append]
    exact hhad calls _ h
  | rouse _ hv _ ih =>
    obtain ⟨u, hu, hhad⟩ := exists_had_of_set hv ht
    obtain ⟨calls, hcalls, h⟩ := ih hu
    exact ⟨calls, hcalls, hhad calls _ h⟩

end Threads

/--
The turns in the lock are a history of one bounded queue: no element is lost, doubled or moved,
batches stay whole, and every thread has the answers and the elements of its own turns in its order.
-/
theorem Run.linearizable [Inhabited α] {parts partSize : ℕ} {ring : PartRing α}
    (hmake : PartRing.make parts partSize = .ok ring) {scripts : List (List (RingCall α))}
    {log : List (Turn α)} (hrun : Run (start ring scripts) log w) :
    ((PartQueue.empty parts partSize).Serves log w.ring.queue ∧ w.ring.content.length ≤ parts) ∧
    (log.flatMap Turn.moved ++ w.ring.content.flatten = (log.filterMap Turn.accepted).flatten ∧
      (log.flatMap fun turn => pieces partSize turn.moved) ++ w.ring.content =
        (log.filterMap Turn.accepted).flatMap (pieces partSize)) ∧
    (w.threads.length = scripts.length ∧ ∀ turn ∈ log, turn.thread < scripts.length) ∧
    (∀ i t, w.threads[i]? = some t → ∃ calls, scripts[i]? = some calls ∧
      (turnsOf log i).map Turn.call ++ t.calls = calls ∧
      t.replies = (turnsOf log i).map Turn.reply ∧
      t.sink = (turnsOf log i).flatMap Turn.moved ∧
      ((turnsOf log i).filterMap Turn.accepted).Sublist (log.filterMap Turn.accepted) ∧
      t.sink.Sublist (log.filterMap Turn.accepted).flatten) ∧
    (∀ i values reply transfer w', Step w i (some ⟨i, .storeWaiting values, reply, transfer⟩) w' →
      (∃ e, batchFault? parts partSize values.length = some e ∧ reply = .refused e ∧
        w'.ring.content = w.ring.content) ∨
      (batchFault? parts partSize values.length = none ∧ reply = .done ∧
        values.length / partSize ≤ w.ring.room ∧
        w'.ring.content = w.ring.content ++ pieces partSize values)) := by
  obtain ⟨hring, hempty⟩ := PartRing.make_eq_ok hmake
  obtain ⟨hwf, hserves⟩ := hrun.serves hring
  have hserves : (PartQueue.empty parts partSize).Serves log w.ring.queue := hempty ▸ hserves
  obtain ⟨hparts, hsize⟩ : w.ring.parts = parts ∧ w.ring.partSize = partSize := hserves.sizes
  have hnil : ring.content = [] := congrArg PartQueue.content hempty
  have hsize₀ : ring.partSize = partSize := congrArg PartQueue.partSize hempty
  have helements := hrun.elements_conserved hring hnil
  have hconserved := hrun.conserved hring hnil
  rw [Turn.flatMap_arrived, show (start ring scripts).ring.partSize = partSize from hsize₀]
    at hconserved
  refine ⟨⟨hserves, ?_⟩, ⟨helements, hconserved⟩, ?_, ?_, ?_⟩
  · rw [PartRing.length_content, ← hparts]
    exact hwf.valid_le
  · simpa [start] using hrun.threads
  · intro i t ht
    obtain ⟨calls, hcalls, hhad⟩ := hrun.had ht
    have hturns : (turnsOf log i).Sublist log := List.filter_sublist
    refine ⟨calls, hcalls, hhad.calls_eq, hhad.replies_eq, hhad.sink_eq, hturns.filterMap _, ?_⟩
    rw [hhad.sink_eq, ← helements]
    exact (hturns.flatMap _).trans (List.sublist_append_left _ _)
  · intro i values reply transfer w' hstep
    cases hstep with
    | finish _ _ _ hlocked =>
      obtain ⟨-, hserved, -⟩ := hwf.of_finish hlocked i
      obtain ⟨e, hfault, hreply, -, hqueue⟩ | ⟨hfault, hreply, -, hle, hcontent⟩ :=
        hserved.storeWaiting_cases
      · exact .inl ⟨e, hparts ▸ hsize ▸ hfault, hreply, congrArg PartQueue.content hqueue⟩
      · rw [PartRing.room_queue] at hle
        exact .inr ⟨hparts ▸ hsize ▸ hfault, hreply, hsize ▸ hle, hsize ▸ hcontent⟩

theorem linearizable_two_producers :
    ∃ (ring : PartRing ℕ) (log : List (Turn ℕ)) (w : SharedRing ℕ),
      PartRing.make 2 2 = .ok ring ∧
      Run (start ring [[.storeWaiting [1, 2, 3, 4], .storeWaiting [9]],
        [.storeWaiting [5, 6], .store [7, 8]], [.readWaiting]]) log w ∧
      log.flatMap Turn.moved ++ [3, 4, 5, 6] = (log.filterMap Turn.accepted).flatten ∧
      (turnsOf log 0).map Turn.reply = [.done, .refused (.partSizeMismatch 1 2)] ∧
      (turnsOf log 1).map Turn.reply = [.done, .notDone] ∧
      (turnsOf log 2).flatMap Turn.moved = [1, 2] := by
  let ring : PartRing ℕ := ⟨Array.replicate 4 0, 2, 2, 0, 0⟩
  have hmake : PartRing.make 2 2 = .ok ring := rfl
  let scripts : List (List (RingCall ℕ)) := [[.storeWaiting [1, 2, 3, 4], .storeWaiting [9]],
    [.storeWaiting [5, 6], .store [7, 8]], [.readWaiting]]
  have hend : runFor 11 (start ring scripts) = ⟨⟨#[5, 6, 3, 4], 2, 2, 1, 2⟩,
      [⟨[], .ready, [.done, .refused (.partSizeMismatch 1 2)], []⟩,
        ⟨[], .ready, [.done, .notDone], []⟩, ⟨[], .ready, [.done], [1, 2]⟩]⟩ := by
    cbv
  obtain ⟨log, hrun⟩ := exists_run_runFor (start ring scripts) 11
  rw [hend] at hrun
  obtain ⟨-, ⟨helements, -⟩, -, hthreads, -⟩ := hrun.linearizable hmake
  obtain ⟨-, -, -, hreplies, -⟩ := hthreads 0 _ rfl
  obtain ⟨-, -, -, hreplies', -⟩ := hthreads 1 _ rfl
  obtain ⟨-, -, -, -, hsink, -⟩ := hthreads 2 _ rfl
  exact ⟨ring, log, _, hmake, hrun, helements, hreplies.symm, hreplies'.symm, hsink.symm⟩

end SharedRing

end PackedStream
