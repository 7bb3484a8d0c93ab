import PackedStream.Proofs.PartRing.Shared

namespace PackedStream

variable {α : Type}

def Turn.Owes (turn : Turn α) : Signal → Prop
  | .data => ∃ values, turn.accepted = some values ∧ values ≠ []
  | .space => turn.reply = .done ∧
      (turn.call = .read ∨ turn.call = .readWaiting ∨ turn.call = .readAll)

namespace PartQueue

variable {q q' : PartQueue α} {turn : Turn α} {call : RingCall α} {signal : Signal}

theorem Waits.mayWait (h : q.Waits call signal) : q.MayWait call signal := by
  cases h with
  | space hfault => exact .space hfault
  | data => exact .data

theorem MayWait.of_served (h : q.MayWait call signal) (hserved : q.Served turn q') :
    q'.MayWait call signal := by
  obtain ⟨hparts, hpartSize⟩ := hserved.sizes
  cases h with
  | space hfault => exact .space (by rwa [hparts, hpartSize])
  | data => exact .data

theorem Served.owes (h : q.Served turn q') (howed : turn.owed = some signal) :
    turn.Owes signal := by
  cases h with
  | refused => cases howed
  | full => cases howed
  | @stored i call values q' hcall =>
    have hdata : values ≠ [] ∧ signal = .data := by
      simpa [Turn.owed, eq_comm] using howed
    obtain ⟨hne, rfl⟩ := hdata
    obtain rfl | rfl := hcall <;> exact ⟨values, rfl, hne⟩
  | missing => cases howed
  | read hcall =>
    cases howed
    exact ⟨rfl, hcall.imp_right .inl⟩
  | readAll =>
    cases howed
    exact ⟨rfl, .inr (.inr rfl)⟩

theorem Waits.of_served (h : q.Waits call signal) (hserved : q.Served turn q') :
    q'.Waits call signal ∨ turn.owed = some signal := by
  cases hserved with
  | refused => exact .inl h
  | full => exact .inl h
  | @stored i call values q' hcall hstore =>
    obtain ⟨-, -, rfl⟩ := store_eq_ok_true_iff.mp hstore
    cases h with
    | space hfault hroom =>
      refine .inl (.space hfault ?_)
      simp only [room, List.length_append] at hroom ⊢
      omega
    | data hempty =>
      by_cases hvalues : values = []
      · refine .inl (.data ?_)
        simp [hempty, hvalues]
      · exact .inr (by simp [Turn.owed, hvalues])
  | missing => exact .inl h
  | read hcall hread =>
    cases h with
    | space => exact .inr rfl
    | data hempty =>
      rw [content_of_read hread] at hempty
      cases hempty
  | readAll hread =>
    cases h with
    | space => exact .inr rfl
    | data hempty => exact absurd hempty (content_of_readAll hread).1

end PartQueue

namespace RingThread

variable {t : RingThread α} {signal : Signal}

theorem wake_of_ne (h : t.phase ≠ .parked signal) : t.wake signal = t := if_neg h

theorem phase_wake_ne (t : RingThread α) (signal : Signal) :
    (t.wake signal).phase ≠ .parked signal := by
  unfold wake
  split
  · exact nofun
  · assumption

theorem phase_finished_ne_parked (t : RingThread α) (reply : RingReply) (transfer : Transfer α)
    (owed : Option Signal) (signal : Signal) :
    (t.finished reply transfer owed).phase ≠ .parked signal := by
  cases owed <;> simp [finished]

theorem phase_finished_iff {t : RingThread α} {reply : RingReply} {transfer : Transfer α}
    {owed : Option Signal} {signal : Signal} :
    (t.finished reply transfer owed).phase = .signalling signal ↔ owed = some signal := by
  cases owed <;> simp [finished]

end RingThread

namespace SharedRing

variable {w w' : SharedRing α} {i j : ℕ} {turn : Option (Turn α)} {t t' : RingThread α}
  {signal : Signal}

theorem ne_of_phase_ne (ht : w.threads[i]? = some t) (ht' : w.threads[j]? = some t')
    (hne : t.phase ≠ t'.phase) : i ≠ j := by
  rintro rfl
  exact hne (congrArg RingThread.phase (Option.some.inj (ht.symm.trans ht')))

theorem Step.thread_cases (hstep : Step w i turn w') (hwf : w.ring.WellFormed)
    (ht' : w'.threads[j]? = some t') :
    t'.phase = .ready ∨
    (w.threads[j]? = some t' ∧ turnsOf turn.toList j = []) ∨
    (∃ call signal, t'.calls.head? = some call ∧ t'.phase = .parked signal ∧
      w'.ring = w.ring ∧ w.ring.queue.Waits call signal) ∨
    (∃ last, turn = some last ∧ last.thread = j ∧ w.ring.queue.Served last w'.ring.queue ∧
      ∀ signal, t'.phase ≠ .parked signal ∧
        (t'.phase = .signalling signal → last.owed = some signal)) := by
  cases hstep with
  | @signal t signal ht hphase =>
    rw [List.getElem?_map] at ht'
    obtain ⟨v, hv, rfl⟩ := Option.map_eq_some_iff.mp ht'
    by_cases hparked : v.phase = .parked signal
    · exact .inl (by rw [RingThread.wake, if_pos hparked])
    · rw [RingThread.wake_of_ne hparked]
      obtain ⟨-, rfl⟩ | ⟨-, hother⟩ := eq_of_getElem?_set hv
      · exact .inl rfl
      · exact .inr (.inl ⟨hother, rfl⟩)
  | wait ht hphase hcall hlocked =>
    obtain ⟨-, rfl⟩ | ⟨-, hother⟩ := eq_of_getElem?_set ht'
    · exact .inr (.inr (.inl ⟨_, _, hcall, rfl, rfl, hwf.of_wait hlocked⟩))
    · exact .inr (.inl ⟨hother, rfl⟩)
  | finish ht hphase hcall hlocked =>
    obtain ⟨rfl, rfl⟩ | ⟨hne, hother⟩ := eq_of_getElem?_set ht'
    · obtain ⟨-, hserved, rfl⟩ := hwf.of_finish hlocked i
      exact .inr (.inr (.inr ⟨_, rfl, rfl, hserved, fun signal =>
        ⟨RingThread.phase_finished_ne_parked _ _ _ _ signal, RingThread.phase_finished_iff.mp⟩⟩))
    · exact .inr (.inl ⟨hother, by simp [turnsOf, hne]⟩)

theorem Step.signalling (hstep : Step w i turn w') (ht : w.threads[j]? = some t)
    (hphase : t.phase = .signalling signal) :
    w'.threads[j]? = some t ∨
    ∀ (k : ℕ) (u : RingThread α), w'.threads[k]? = some u → u.phase ≠ .parked signal := by
  cases hstep with
  | @signal v signal' hv hphase' =>
    by_cases hij : i = j
    · subst hij
      obtain rfl := Option.some.inj (hv.symm.trans ht)
      obtain rfl := Phase.signalling.inj (hphase'.symm.trans hphase)
      refine .inr fun k u hu => ?_
      rw [List.getElem?_map] at hu
      obtain ⟨x, -, rfl⟩ := Option.map_eq_some_iff.mp hu
      exact x.phase_wake_ne signal'
    · have hawake : t.phase ≠ .parked signal' := by
        rw [hphase]
        exact nofun
      left
      rw [List.getElem?_map, List.getElem?_set_ne hij, ht, Option.map_some,
        RingThread.wake_of_ne hawake]
  | wait hv hready =>
    have hij : i ≠ j := ne_of_phase_ne hv ht (by simp [hready, hphase])
    exact .inl (by rwa [List.getElem?_set_ne hij])
  | finish hv hready =>
    have hij : i ≠ j := ne_of_phase_ne hv ht (by simp [hready, hphase])
    exact .inl (by rwa [List.getElem?_set_ne hij])

def Signalling (w : SharedRing α) (signal : Signal) : Prop :=
  ∃ (i : ℕ) (t : RingThread α), w.threads[i]? = some t ∧ t.phase = .signalling signal

/-- A parked thread has a call that still has to wait, or another is about to signal. -/
def Alert (w : SharedRing α) : Prop :=
  ∀ (i : ℕ) (t : RingThread α) (signal : Signal),
    w.threads[i]? = some t → t.phase = .parked signal →
      ∃ call, t.calls.head? = some call ∧ w.ring.queue.MayWait call signal ∧
      (w.ring.queue.Waits call signal ∨ w.Signalling signal)

theorem Step.alert (hstep : Step w i turn w') (hwf : w.ring.WellFormed) (h : w.Alert) :
    w'.Alert := by
  intro j t' signal ht' hphase
  obtain hready | ⟨ht, -⟩ | ⟨call, other, hcall, hparked, hring, hwaits⟩ | ⟨_, _, _, _, hne⟩ :=
    hstep.thread_cases hwf ht'
  · rw [hready] at hphase
    cases hphase
  · obtain ⟨call, hcall, hmay, hwaits⟩ := h j t' signal ht hphase
    obtain ⟨hmay', hwaits'⟩ : w'.ring.queue.MayWait call signal ∧
        (w.ring.queue.Waits call signal →
          w'.ring.queue.Waits call signal ∨ w'.Signalling signal) := by
      obtain ⟨-, hring⟩ | ⟨last, -, -, hserved, howed⟩ := hstep.ring_cases hwf
      · rw [hring]
        exact ⟨hmay, .inl⟩
      · exact ⟨hmay.of_served hserved, fun hwaits =>
          (hwaits.of_served hserved).imp_right fun hdue => ⟨i, howed signal hdue⟩⟩
    refine ⟨call, hcall, hmay', hwaits.elim hwaits' ?_⟩
    rintro ⟨k, u, hu, hsignalling⟩
    obtain hu' | hnone := hstep.signalling hu hsignalling
    · exact .inr ⟨k, u, hu', hsignalling⟩
    · exact absurd hphase (hnone j t' ht')
  · obtain rfl := Phase.parked.inj (hparked.symm.trans hphase)
    exact ⟨call, hcall, hring ▸ hwaits.mayWait, .inl (hring ▸ hwaits)⟩
  · exact absurd hphase (hne signal).1

/-- Some thread can give its signal, or end its call. -/
def Advances (w : SharedRing α) : Prop :=
  ∃ i turn w', Step w i turn w' ∧ ∀ (t : RingThread α) (signal : Signal),
    w'.threads[i]? = some t → t.phase ≠ .parked signal

theorem advances_of_signalling (ht : w.threads[i]? = some t)
    (hphase : t.phase = .signalling signal) : w.Advances := by
  refine ⟨i, none, _, .signal ht hphase, fun t' other ht' => ?_⟩
  have hawake : RingThread.wake { t with phase := .ready } signal = { t with phase := .ready } :=
    RingThread.wake_of_ne (nofun : Phase.ready ≠ .parked signal)
  rw [List.getElem?_map, List.getElem?_set_self (List.getElem?_eq_some_iff.mp ht).1,
    Option.map_some, hawake] at ht'
  obtain rfl := Option.some.inj ht'
  exact nofun

theorem Alert.advances {call : RingCall α} (h : w.Alert) (hwf : w.ring.WellFormed)
    (ht : w.threads[i]? = some t) (hcall : t.calls.head? = some call)
    (hfree : ∀ signal, ¬ w.ring.queue.Waits call signal) : w.Advances := by
  cases hphase : t.phase with
  | ready =>
    obtain ⟨signal, -, hwaits⟩ | ⟨s, reply, transfer, hend, -⟩ := hwf.locked_cases call
    · exact absurd hwaits (hfree signal)
    · refine ⟨i, some _, _, .finish ht hphase hcall hend, fun t' signal ht' => ?_⟩
      obtain ⟨-, rfl⟩ | ⟨hne, -⟩ := eq_of_getElem?_set ht'
      · exact RingThread.phase_finished_ne_parked _ _ _ _ signal
      · exact absurd rfl hne
  | parked signal =>
    obtain ⟨call', hcall', -, hwaits | ⟨j, u, hu, hsignalling⟩⟩ := h i t signal ht hphase
    · obtain rfl := Option.some.inj (hcall'.symm.trans hcall)
      exact absurd hwaits (hfree signal)
    · exact advances_of_signalling hu hsignalling
  | signalling signal => exact advances_of_signalling ht hphase

/-- A thread is out of the lock after a turn that owes the signal, and has still to give it. -/
def SignalPending (w : SharedRing α) (log : List (Turn α)) (signal : Signal) : Prop :=
  ∃ (i : ℕ) (t : RingThread α) (turn : Turn α), w.threads[i]? = some t ∧
    t.phase = .signalling signal ∧ (turnsOf log i).getLast? = some turn ∧ turn.Owes signal

section Run

variable {ring : PartRing α} {scripts : List (List (RingCall α))} {log : List (Turn α)}

theorem phase_of_start (ht : (start ring scripts).threads[i]? = some t) : t.phase = .ready := by
  rw [start, List.getElem?_map] at ht
  obtain ⟨calls, -, rfl⟩ := Option.map_eq_some_iff.mp ht
  rfl

theorem Run.alert (hrun : Run (start ring scripts) log w) (hring : ring.WellFormed) :
    w.Alert := by
  induction hrun with
  | refl =>
    intro i t signal ht hphase
    rw [phase_of_start ht] at hphase
    cases hphase
  | step hrun hstep ih => exact hstep.alert (hrun.serves hring).1 ih
  | @rouse log w k v woken hrun hv hparked ih =>
    intro i t signal ht hphase
    obtain ⟨-, rfl⟩ | ⟨-, hother⟩ := eq_of_getElem?_set ht
    · cases hphase
    · obtain ⟨call, hcall, hmay, hwaits⟩ := ih i t signal hother hphase
      refine ⟨call, hcall, hmay, hwaits.imp_right ?_⟩
      rintro ⟨j, u, hu, hsignalling⟩
      have hkj : k ≠ j := ne_of_phase_ne hv hu (by simp [hparked, hsignalling])
      exact ⟨j, u, by rwa [List.getElem?_set_ne hkj], hsignalling⟩

theorem Run.owes (hrun : Run (start ring scripts) log w) (hring : ring.WellFormed)
    (ht : w.threads[i]? = some t) (hphase : t.phase = .signalling signal) :
    ∃ turn, (turnsOf log i).getLast? = some turn ∧ turn.Owes signal := by
  induction hrun generalizing t with
  | refl =>
    rw [phase_of_start ht] at hphase
    cases hphase
  | step hrun hstep ih =>
    obtain hready | ⟨hv, hnone⟩ | ⟨call, other, -, hparked, -⟩ | ⟨last, rfl, rfl, hserved, hlast⟩ :=
      hstep.thread_cases (hrun.serves hring).1 ht
    · rw [hready] at hphase
      cases hphase
    · rw [turnsOf_append, hnone, List.append_nil]
      exact ih hv hphase
    · rw [hparked] at hphase
      cases hphase
    · refine ⟨last, ?_, hserved.owes ((hlast signal).2 hphase)⟩
      simp [turnsOf]
  | rouse hrun hv hparked ih =>
    obtain ⟨-, rfl⟩ | ⟨-, hother⟩ := eq_of_getElem?_set ht
    · cases hphase
    · exact ih hother hphase

end Run

/--
No signal is lost: whoever waits for what is there already has a signal to come, from a thread whose
last turn owes it. When no such signal is to come, all who wait for it have to.
-/
theorem Run.signal_pending [Inhabited α] {parts partSize : ℕ} {ring : PartRing α}
    (hmake : PartRing.make parts partSize = .ok ring) {scripts : List (List (RingCall α))}
    {log : List (Turn α)} (hrun : Run (start ring scripts) log w) :
    (∀ (i : ℕ) (t : RingThread α), w.threads[i]? = some t → t.phase = .parked .data →
      t.calls.head? = some .readWaiting ∧
        (w.ring.isEmpty = false → w.SignalPending log .data)) ∧
    (∀ (i : ℕ) (t : RingThread α), w.threads[i]? = some t → t.phase = .parked .space →
      ∃ values, t.calls.head? = some (.storeWaiting values) ∧
        batchFault? parts partSize values.length = none ∧
        (values.length / partSize ≤ w.ring.room → w.SignalPending log .space)) ∧
    (∀ signal, ¬ w.SignalPending log signal → ∀ (i : ℕ) (t : RingThread α),
      w.threads[i]? = some t → t.phase = .parked signal →
        ∃ call, t.calls.head? = some call ∧ w.ring.queue.Waits call signal) := by
  obtain ⟨hring, hempty⟩ := PartRing.make_eq_ok hmake
  have hserves : (PartQueue.empty parts partSize).Serves log w.ring.queue :=
    hempty ▸ (hrun.serves hring).2
  obtain ⟨hparts, hsize⟩ : w.ring.parts = parts ∧ w.ring.partSize = partSize := hserves.sizes
  subst hparts hsize
  have halert (i : ℕ) (t : RingThread α) (signal : Signal) (ht : w.threads[i]? = some t)
      (hphase : t.phase = .parked signal) : ∃ call, t.calls.head? = some call ∧
        w.ring.queue.MayWait call signal ∧
        (w.ring.queue.Waits call signal ∨ w.SignalPending log signal) := by
    obtain ⟨call, hcall, hmay, hwaits⟩ := hrun.alert hring i t signal ht hphase
    refine ⟨call, hcall, hmay, hwaits.imp_right ?_⟩
    rintro ⟨j, u, hu, hsignalling⟩
    obtain ⟨turn, hturn, howes⟩ := hrun.owes hring hu hsignalling
    exact ⟨j, u, turn, hu, hsignalling, hturn, howes⟩
  refine ⟨fun i t ht hphase => ?_, fun i t ht hphase => ?_, fun signal hnone i t ht hphase => ?_⟩
  · obtain ⟨call, hcall, hmay, hwaits⟩ := halert i t .data ht hphase
    cases hmay
    refine ⟨hcall, fun hdata => hwaits.resolve_left fun hwaits => ?_⟩
    cases hwaits with
    | data hnil =>
      rw [PartRing.isEmpty, PartRing.content_eq_nil_iff.mp hnil] at hdata
      cases hdata
  · obtain ⟨call, hcall, hmay, hwaits⟩ := halert i t .space ht hphase
    cases hmay with
    | @space values hfault =>
      refine ⟨values, hcall, hfault, fun hroom => hwaits.resolve_left fun hwaits => ?_⟩
      cases hwaits with
      | space _ hfull => exact absurd hroom (Nat.not_le.mpr (w.ring.room_queue ▸ hfull))
  · obtain ⟨call, hcall, -, hwaits⟩ := halert i t signal ht hphase
    exact ⟨call, hcall, hwaits.resolve_right hnone⟩

theorem signal_pending_parked_reader :
    ∃ (ring : PartRing ℕ) (log : List (Turn ℕ)) (w : SharedRing ℕ),
      PartRing.make 2 2 = .ok ring ∧
      Run (start ring [[.readWaiting], [.store [1, 2]]]) log w ∧
      w.threads.map RingThread.phase = [.parked .data, .signalling .data] ∧
      w.ring.content = [[1, 2]] ∧ w.SignalPending log .data := by
  let ring : PartRing ℕ := ⟨Array.replicate 4 0, 2, 2, 0, 0⟩
  have hmake : PartRing.make 2 2 = .ok ring := rfl
  have hend : runFor 2 (start ring [[.readWaiting], [.store [1, 2]]]) =
      ⟨⟨#[1, 2, 0, 0], 2, 2, 0, 1⟩,
        [⟨[.readWaiting], .parked .data, [], []⟩, ⟨[], .signalling .data, [.done], []⟩]⟩ := by
    cbv
  obtain ⟨log, hrun⟩ := exists_run_runFor (start ring [[.readWaiting], [.store [1, 2]]]) 2
  rw [hend] at hrun
  obtain ⟨hdata, -⟩ := hrun.signal_pending hmake
  exact ⟨ring, log, _, hmake, hrun, rfl, rfl, (hdata 0 _ rfl rfl).2 rfl⟩

end SharedRing

end PackedStream
