import PackedStream.PartRing.Shared
import PackedStream.Proofs.Blocks

namespace PackedStream

def batchFault? (parts partSize length : ℕ) : Option StreamError :=
  if length % partSize ≠ 0 then some (.partSizeMismatch length partSize)
  else if parts * partSize < length then some (.capacityExceeded length (parts * partSize))
  else none

theorem batchFault?_eq_none_iff {parts partSize length : ℕ} :
    batchFault? parts partSize length = none ↔
      length % partSize = 0 ∧ length ≤ parts * partSize := by
  unfold batchFault?
  split
  case isTrue h => simp [h]
  case isFalse h =>
    split
    case isTrue h' => simp [h']
    case isFalse h' => simp [not_ne_iff.mp h, Nat.le_of_not_lt h']

structure PartQueue (α : Type) where
  parts : ℕ
  partSize : ℕ
  content : List (List α)

namespace PartQueue

variable {α : Type}

def empty (parts partSize : ℕ) : PartQueue α := ⟨parts, partSize, []⟩

variable (q : PartQueue α)

def room : ℕ := q.parts - q.content.length

def store (values : List α) : Except StreamError (Bool × PartQueue α) :=
  match batchFault? q.parts q.partSize values.length with
  | some e => .error e
  | none =>
    if q.room < values.length / q.partSize then .ok (false, q)
    else .ok (true, { q with content := q.content ++ pieces q.partSize values })

def read : Option (List α × PartQueue α) :=
  match q.content with
  | [] => none
  | part :: rest => some (part, { q with content := rest })

def readAll : Option (List α × PartQueue α) :=
  match q.content with
  | [] => none
  | part :: rest => some ((part :: rest).flatten, { q with content := [] })

variable {q} {q' : PartQueue α} {values : List α}

theorem store_of_fault {e : StreamError}
    (hfault : batchFault? q.parts q.partSize values.length = some e) :
    q.store values = .error e := by
  rw [store, hfault]

theorem store_of_lt (hfault : batchFault? q.parts q.partSize values.length = none)
    (hlt : q.room < values.length / q.partSize) : q.store values = .ok (false, q) := by
  rw [store, hfault]
  exact if_pos hlt

theorem store_of_le (hfault : batchFault? q.parts q.partSize values.length = none)
    (hle : values.length / q.partSize ≤ q.room) : q.store values =
      .ok (true, { q with content := q.content ++ pieces q.partSize values }) := by
  rw [store, hfault]
  exact if_neg (Nat.not_lt.mpr hle)

section Sizes

theorem sizes_of_store {stored : Bool} (hstore : q.store values = .ok (stored, q')) :
    q'.parts = q.parts ∧ q'.partSize = q.partSize := by
  unfold store at hstore
  split at hstore
  · cases hstore
  · split at hstore <;> cases hstore <;> exact ⟨rfl, rfl⟩

theorem sizes_of_read (hread : q.read = some (values, q')) :
    q'.parts = q.parts ∧ q'.partSize = q.partSize := by
  unfold read at hread
  split at hread <;> cases hread
  exact ⟨rfl, rfl⟩

theorem sizes_of_readAll (hread : q.readAll = some (values, q')) :
    q'.parts = q.parts ∧ q'.partSize = q.partSize := by
  unfold readAll at hread
  split at hread <;> cases hread
  exact ⟨rfl, rfl⟩

end Sizes

end PartQueue

structure Turn (α : Type) where
  thread : ℕ
  call : RingCall α
  reply : RingReply
  transfer : Transfer α

namespace Turn

variable {α : Type}

def accepted (turn : Turn α) : Option (List α) :=
  match turn.call, turn.reply with
  | .store values, .done => some values
  | .storeWaiting values, .done => some values
  | _, _ => none

def moved (turn : Turn α) : List α := turn.transfer.received

def arrived (partSize : ℕ) (turn : Turn α) : List (List α) :=
  turn.accepted.toList.flatMap (pieces partSize)

theorem flatMap_arrived (partSize : ℕ) (turns : List (Turn α)) :
    turns.flatMap (arrived partSize) = (turns.filterMap accepted).flatMap (pieces partSize) := by
  rw [List.filterMap_eq_flatMap_toList, List.flatMap_assoc]
  rfl

end Turn

namespace PartQueue

variable {α : Type}

inductive Served (q : PartQueue α) : Turn α → PartQueue α → Prop
  | refused {i : ℕ} {call : RingCall α} {values : List α} {e : StreamError}
      (hcall : call = .store values ∨ call = .storeWaiting values)
      (hstore : q.store values = .error e) : Served q ⟨i, call, .refused e, .none⟩ q
  | full {i : ℕ} {values : List α} {q' : PartQueue α} (hstore : q.store values = .ok (false, q')) :
      Served q ⟨i, .store values, .notDone, .none⟩ q
  | stored {i : ℕ} {call : RingCall α} {values : List α} {q' : PartQueue α}
      (hcall : call = .store values ∨ call = .storeWaiting values)
      (hstore : q.store values = .ok (true, q')) : Served q ⟨i, call, .done, .stored values⟩ q'
  | missing {i : ℕ} {call : RingCall α} (hcall : call = .read ∨ call = .readAll)
      (hempty : q.content = []) : Served q ⟨i, call, .notDone, .none⟩ q
  | read {i : ℕ} {call : RingCall α} {part : List α} {q' : PartQueue α}
      (hcall : call = .read ∨ call = .readWaiting) (hread : q.read = some (part, q')) :
      Served q ⟨i, call, .done, .moved part⟩ q'
  | readAll {i : ℕ} {values : List α} {q' : PartQueue α} (hread : q.readAll = some (values, q')) :
      Served q ⟨i, .readAll, .done, .moved values⟩ q'

inductive MayWait (q : PartQueue α) : RingCall α → Signal → Prop
  | space {values : List α} (hfault : batchFault? q.parts q.partSize values.length = none) :
      MayWait q (.storeWaiting values) .space
  | data : MayWait q .readWaiting .data

inductive Waits (q : PartQueue α) : RingCall α → Signal → Prop
  | space {values : List α} (hfault : batchFault? q.parts q.partSize values.length = none)
      (hroom : q.room < values.length / q.partSize) : Waits q (.storeWaiting values) .space
  | data (hempty : q.content = []) : Waits q .readWaiting .data

inductive Serves (q : PartQueue α) : List (Turn α) → PartQueue α → Prop
  | nil : Serves q [] q
  | snoc {log : List (Turn α)} {turn : Turn α} {q' q'' : PartQueue α} (hlog : Serves q log q')
      (hturn : q'.Served turn q'') : Serves q (log ++ [turn]) q''

variable {q q' : PartQueue α} {values : List α}

theorem store_eq_ok_true_iff : q.store values = .ok (true, q') ↔
    batchFault? q.parts q.partSize values.length = none ∧
      values.length / q.partSize ≤ q.room ∧
      q' = { q with content := q.content ++ pieces q.partSize values } := by
  cases hfault : batchFault? q.parts q.partSize values.length with
  | some e => simp [store_of_fault hfault]
  | none =>
    by_cases hroom : values.length / q.partSize ≤ q.room
    · simp [store_of_le hfault hroom, hroom, eq_comm]
    · simp [store_of_lt hfault (Nat.lt_of_not_le hroom), hroom]

theorem store_eq_ok_false_iff : q.store values = .ok (false, q') ↔
    batchFault? q.parts q.partSize values.length = none ∧
      q.room < values.length / q.partSize ∧ q' = q := by
  cases hfault : batchFault? q.parts q.partSize values.length with
  | some e => simp [store_of_fault hfault]
  | none =>
    by_cases hroom : q.room < values.length / q.partSize
    · simp [store_of_lt hfault hroom, hroom, eq_comm]
    · simp [store_of_le hfault (Nat.le_of_not_lt hroom), hroom]

theorem store_eq_error_iff {e : StreamError} : q.store values = .error e ↔
    batchFault? q.parts q.partSize values.length = some e := by
  cases hfault : batchFault? q.parts q.partSize values.length with
  | some e' => simp [store_of_fault hfault]
  | none =>
    by_cases hroom : q.room < values.length / q.partSize
    · simp [store_of_lt hfault hroom]
    · simp [store_of_le hfault (Nat.le_of_not_lt hroom)]

theorem content_of_read (hread : q.read = some (values, q')) :
    q.content = values :: q'.content := by
  unfold read at hread
  split at hread
  · cases hread
  case h_2 hcontent =>
    cases hread
    exact hcontent

theorem content_of_readAll (hread : q.readAll = some (values, q')) :
    q.content ≠ [] ∧ values = q.content.flatten ∧ q'.content = [] := by
  unfold readAll at hread
  split at hread
  · cases hread
  case h_2 hcontent =>
    cases hread
    exact ⟨hcontent ▸ List.cons_ne_nil _ _, hcontent ▸ rfl, rfl⟩

theorem Served.conserved {turn : Turn α} (h : q.Served turn q') (hpos : 0 < q.partSize)
    (hlen : ∀ part ∈ q.content, part.length = q.partSize) :
    q.content ++ turn.arrived q.partSize = pieces q.partSize turn.moved ++ q'.content := by
  cases h with
  | refused hcall =>
    obtain rfl | rfl := hcall <;>
      simp [Turn.arrived, Turn.accepted, Turn.moved, Transfer.received]
  | full => simp [Turn.arrived, Turn.accepted, Turn.moved, Transfer.received]
  | stored hcall hstore =>
    obtain ⟨-, -, rfl⟩ := store_eq_ok_true_iff.mp hstore
    obtain rfl | rfl := hcall <;>
      simp [Turn.arrived, Turn.accepted, Turn.moved, Transfer.received]
  | missing hcall =>
    obtain rfl | rfl := hcall <;>
      simp [Turn.arrived, Turn.accepted, Turn.moved, Transfer.received]
  | @read i call part q' hcall hread =>
    have hcontent := content_of_read hread
    have hpart : pieces q.partSize part = [part] :=
      pieces_of_length hpos (hlen part (hcontent ▸ List.mem_cons_self))
    obtain rfl | rfl := hcall <;>
      simp [Turn.arrived, Turn.accepted, Turn.moved, Transfer.received, hpart, hcontent]
  | readAll hread =>
    obtain ⟨-, rfl, hempty⟩ := content_of_readAll hread
    simp [Turn.arrived, Turn.accepted, Turn.moved, Transfer.received,
      pieces_flatten_of_length hpos hlen, hempty]

theorem Served.sizes {turn : Turn α} (h : q.Served turn q') :
    q'.parts = q.parts ∧ q'.partSize = q.partSize := by
  cases h with
  | refused => exact ⟨rfl, rfl⟩
  | full => exact ⟨rfl, rfl⟩
  | stored _ hstore => exact sizes_of_store hstore
  | missing => exact ⟨rfl, rfl⟩
  | read _ hread => exact sizes_of_read hread
  | readAll hread => exact sizes_of_readAll hread

theorem Serves.sizes {log : List (Turn α)} (h : q.Serves log q') :
    q'.parts = q.parts ∧ q'.partSize = q.partSize := by
  induction h with
  | nil => exact ⟨rfl, rfl⟩
  | snoc _ hturn ih => exact ⟨hturn.sizes.1.trans ih.1, hturn.sizes.2.trans ih.2⟩

theorem Served.storeWaiting_cases {i : ℕ} {reply : RingReply} {transfer : Transfer α}
    (h : q.Served ⟨i, .storeWaiting values, reply, transfer⟩ q') :
    (∃ e, batchFault? q.parts q.partSize values.length = some e ∧ reply = .refused e ∧
      transfer = .none ∧ q' = q) ∨
    (batchFault? q.parts q.partSize values.length = none ∧ reply = .done ∧
      transfer = .stored values ∧ values.length / q.partSize ≤ q.room ∧
      q'.content = q.content ++ pieces q.partSize values) := by
  cases h with
  | refused hcall hstore =>
    obtain h | h := hcall <;> cases h
    exact .inl ⟨_, store_eq_error_iff.mp hstore, rfl, rfl, rfl⟩
  | stored hcall hstore =>
    obtain h | h := hcall <;> cases h
    obtain ⟨hfault, hroom, rfl⟩ := store_eq_ok_true_iff.mp hstore
    exact .inr ⟨hfault, rfl, rfl, hroom, rfl⟩
  | missing hcall => obtain h | h := hcall <;> cases h
  | read hcall => obtain h | h := hcall <;> cases h

theorem Served.eq_of_readWaiting {i : ℕ} {reply : RingReply} {transfer : Transfer α}
    (h : q.Served ⟨i, .readWaiting, reply, transfer⟩ q') :
    ∃ part, reply = .done ∧ transfer = .moved part ∧ q.content = part :: q'.content := by
  cases h with
  | refused hcall => obtain h | h := hcall <;> cases h
  | stored hcall => obtain h | h := hcall <;> cases h
  | missing hcall => obtain h | h := hcall <;> cases h
  | read _ hread => exact ⟨_, rfl, rfl, content_of_read hread⟩

end PartQueue

end PackedStream
