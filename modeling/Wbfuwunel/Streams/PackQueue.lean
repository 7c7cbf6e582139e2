import Mathlib.Algebra.BigOperators.Group.List.Basic
import Wbfuwunel.Foundation.Bytes
import Wbfuwunel.Streams.Push

/-! One connection's send queue: a bounded channel, and a budget of bytes that is booked before a pack joins the channel
and given back when the pack is dropped. From `streams/mod.rs`.

A call is a step at each point where another can come between: it books, and it joins the channel. The semaphore is the
number of its permits and the channel the list of what waits in it; nothing ever closes the semaphore.
-/

set_option autoImplicit false

namespace Wbfuwunel.Streams
open Foundation List

inductive Outgoing where
  | pack (bytes : Bytes)
  | close (code : UInt16) (reason : String)
  deriving DecidableEq

/-- A close frame can always be queued. -/
def Outgoing.queuedBytes : Outgoing → Nat
  | .pack bytes => bytes.length
  | .close _ _ => 0

structure Queued where
  outgoing : Outgoing
  room : Option Nat
  booked : room.getD 0 = outgoing.queuedBytes
  deriving DecidableEq

/-- A `send` or `try_send` that has booked its room. Only a `send` waits for the channel. -/
structure Sending where
  item : Queued
  waits : Bool
  deriving DecidableEq

structure PackQueue where
  capacityBytes : Nat
  capacityPacks : Nat
  /-- The permits of the budget. -/
  available : Nat
  sending : List Sending
  packs : List Queued
  /-- What the receiver has taken out and not dropped. -/
  received : List Queued
  isOpen : Bool

namespace PackQueue

/-- Above `usize::MAX >> 3`, the most permits a semaphore has, `new` panics. -/
def new (packs bytes : Nat) : PackQueue where
  capacityBytes := max bytes 1
  capacityPacks := max packs 1
  available := max bytes 1
  sending := []
  packs := []
  received := []
  isOpen := true

variable (queue : PackQueue)

/-- The permits that some bytes need, none if they cost nothing. -/
def bookable (bytes : Nat) : Except QueueError { room : Option Nat // room.getD 0 = bytes } :=
  if free : bytes = 0 then .ok ⟨none, free.symm⟩
  else if queue.capacityBytes < bytes then .error .tooLargeForBudget
  else if bytes < 2 ^ 32 then .ok ⟨some bytes, rfl⟩
  else .error .tooLargeForBudget

/-- `book` for a `send`, `book_now` for a `try_send`. No answer means that the call goes on. -/
def book (outgoing : Outgoing) (waits : Bool) : PackQueue × Option (Except QueueError Unit) :=
  match queue.bookable outgoing.queuedBytes with
  | .error error => (queue, some (.error error))
  | .ok ⟨room, booked⟩ =>
    if room.getD 0 ≤ queue.available then
      ({ queue with
          available := queue.available - room.getD 0
          sending := ⟨⟨outgoing, room, booked⟩, waits⟩ :: queue.sending }, none)
    else (queue, if waits then none else some (.error .full))

def giveBack (item : Queued) : PackQueue :=
  { queue with available := queue.available + item.room.getD 0 }

def join (call : Sending) : PackQueue × Option (Except QueueError Unit) :=
  let ended := { queue with sending := queue.sending.erase call }
  if queue.isOpen then
    if queue.packs.length < queue.capacityPacks then
      ({ ended with packs := queue.packs ++ [call.item] }, some (.ok ()))
    else if call.waits then (queue, none)
    else (ended.giveBack call.item, some (.error .full))
  else (ended.giveBack call.item, some (.error .gone))

def cancel (call : Sending) : PackQueue :=
  { queue with sending := queue.sending.erase call }.giveBack call.item

def receive : PackQueue :=
  match queue.packs with
  | [] => queue
  | item :: rest => { queue with packs := rest, received := item :: queue.received }

def dropReceived (item : Queued) : PackQueue :=
  { queue with received := queue.received.erase item }.giveBack item

def dropReceiver : PackQueue :=
  { queue.packs.foldl giveBack queue with packs := [], isOpen := false }

inductive Event where
  | book (outgoing : Outgoing) (waits : Bool)
  | join (call : Sending)
  | cancel (call : Sending)
  | receive
  | dropReceived (item : Queued)
  | dropReceiver

def next : Event → PackQueue × Option (Except QueueError Unit)
  | .book outgoing waits => queue.book outgoing waits
  | .join call => if call ∈ queue.sending then queue.join call else (queue, none)
  | .cancel call => (if call ∈ queue.sending ∧ call.waits then queue.cancel call else queue, none)
  | .receive => (queue.receive, none)
  | .dropReceived item => (if item ∈ queue.received then queue.dropReceived item else queue, none)
  | .dropReceiver => (queue.dropReceiver, none)

def step (event : Event) : PackQueue := (queue.next event).1

/-! ## Bytes and permits -/

def bytesOf (items : List Queued) : Nat := (items.map fun item => item.outgoing.queuedBytes).sum

def sendingBytes : Nat := bytesOf (queue.sending.map Sending.item)

@[simp] theorem bytesOf_nil : bytesOf [] = 0 := rfl

@[simp] theorem bytesOf_cons (item : Queued) (items : List Queued) :
    bytesOf (item :: items) = item.outgoing.queuedBytes + bytesOf items := rfl

@[simp] theorem bytesOf_append (a b : List Queued) : bytesOf (a ++ b) = bytesOf a + bytesOf b := by
  simp [bytesOf]

variable {item : Queued} {queue : PackQueue} {call : Sending}

theorem bytesOf_erase {items : List Queued} (mem : item ∈ items) :
    item.outgoing.queuedBytes + bytesOf (items.erase item) = bytesOf items :=
  sum_map_erase (fun item : Queued => item.outgoing.queuedBytes) mem

theorem sendingBytes_erase (mem : call ∈ queue.sending) :
    call.item.outgoing.queuedBytes + bytesOf ((queue.sending.erase call).map Sending.item) = queue.sendingBytes := by
  have split := sum_map_erase (fun call : Sending => call.item.outgoing.queuedBytes) mem
  simpa [sendingBytes, bytesOf, Function.comp_def] using split

@[simp] theorem giveBack_available (queue : PackQueue) (item : Queued) :
    (queue.giveBack item).available = queue.available + item.outgoing.queuedBytes := by
  rw [giveBack, item.booked]

theorem foldl_giveBack (items : List Queued) (queue : PackQueue) :
    items.foldl giveBack queue = { queue with available := queue.available + bytesOf items } := by
  induction items generalizing queue with
  | nil => rfl
  | cons item items ih =>
    rw [foldl_cons, ih, giveBack_available]
    simp [giveBack, Nat.add_assoc]

def Balanced (queue : PackQueue) : Prop :=
  queue.available + queue.sendingBytes + bytesOf queue.packs + bytesOf queue.received = queue.capacityBytes

theorem balanced_giveBack : (queue.giveBack item).Balanced ↔
      queue.available + item.outgoing.queuedBytes + queue.sendingBytes + bytesOf queue.packs + bytesOf queue.received =
        queue.capacityBytes := by
  rw [Balanced, giveBack_available]
  rfl

theorem balanced_new (packs bytes : Nat) : (new packs bytes).Balanced := rfl

section

variable (balanced : queue.Balanced)
include balanced

theorem Balanced.book (outgoing : Outgoing) (waits : Bool) : (queue.book outgoing waits).1.Balanced := by
  unfold PackQueue.book
  cases queue.bookable outgoing.queuedBytes with
  | error error => exact balanced
  | ok got =>
    obtain ⟨r, booked⟩ := got
    dsimp only
    split
    next enough =>
      unfold Balanced at balanced ⊢
      simp only [sendingBytes, map_cons, bytesOf_cons] at balanced ⊢
      omega
    · exact balanced

theorem Balanced.join (mem : call ∈ queue.sending) : (queue.join call).1.Balanced := by
  have split := sendingBytes_erase mem
  unfold Balanced at balanced
  unfold PackQueue.join
  split
  · split
    · simp only [Balanced, sendingBytes, bytesOf_append, bytesOf_cons, bytesOf_nil]
      omega
    · split
      · exact balanced
      · simp only [balanced_giveBack, sendingBytes]
        omega
  · simp only [balanced_giveBack, sendingBytes]
    omega

theorem Balanced.cancel (mem : call ∈ queue.sending) : (queue.cancel call).Balanced := by
  have split := sendingBytes_erase mem
  unfold Balanced at balanced
  simp only [PackQueue.cancel, balanced_giveBack, sendingBytes]
  omega

theorem Balanced.receive : queue.receive.Balanced := by
  unfold Balanced at balanced
  unfold PackQueue.receive
  split
  · exact balanced
  next item rest a =>
    rw [a] at balanced
    simp only [Balanced, bytesOf_cons, sendingBytes] at balanced ⊢
    omega

theorem Balanced.dropReceived (mem : item ∈ queue.received) : (queue.dropReceived item).Balanced := by
  have split := bytesOf_erase mem
  unfold Balanced at balanced
  simp only [PackQueue.dropReceived, balanced_giveBack, sendingBytes] at balanced ⊢
  omega

theorem Balanced.dropReceiver : queue.dropReceiver.Balanced := by
  simp only [PackQueue.dropReceiver, foldl_giveBack, Balanced, sendingBytes, bytesOf_nil] at balanced ⊢
  omega

theorem Balanced.step (e : Event) : (queue.step e).Balanced := by
  unfold PackQueue.step
  cases e with
  | book outgoing waits => exact balanced.book outgoing waits
  | join call =>
    simp only [next]
    split
    · exact balanced.join ‹_›
    · exact balanced
  | cancel call =>
    simp only [next]
    split
    next enabled =>
      exact balanced.cancel enabled.1
    · exact balanced
  | receive => exact balanced.receive
  | dropReceived item =>
    simp only [next]
    split
    · exact balanced.dropReceived ‹_›
    · exact balanced
  | dropReceiver => exact balanced.dropReceiver

end

/-! ## The budget in every run -/

def bookedBy : Event → Nat
  | .join call => call.item.outgoing.queuedBytes
  | _ => 0

/-- A call that fails gives back what it booked and queues nothing. -/
def FailsClean (queue : PackQueue) : Prop :=
  ∀ event error, (queue.next event).2 = some (.error error) →
    (queue.step event).available = queue.available + bookedBy event ∧ (queue.step event).packs = queue.packs ∧
      (queue.step event).received = queue.received

theorem failsClean (queue : PackQueue) : queue.FailsClean := by
  intro e error failed
  cases e with
  | book outgoing waits =>
    simp only [next, PackQueue.step, PackQueue.book] at failed ⊢
    cases got : queue.bookable outgoing.queuedBytes with
    | error refused => simp [bookedBy]
    | ok r =>
      simp only [got] at failed ⊢
      split at failed
      · cases failed
      · simp [*, bookedBy]
  | join call =>
    simp only [next, PackQueue.step, PackQueue.join] at failed ⊢
    split at failed
    · split at failed
      · split at failed
        · cases failed
        · split at failed
          · cases failed
          · simp [*, bookedBy, giveBack, call.item.booked]
      · simp [*, bookedBy, giveBack, call.item.booked]
    · cases failed
  | cancel call => cases failed
  | receive => cases failed
  | dropReceived item => cases failed
  | dropReceiver => cases failed

theorem capacityBytes_book (queue : PackQueue) (outgoing : Outgoing) (waits : Bool) :
    (queue.book outgoing waits).1.capacityBytes = queue.capacityBytes := by
  unfold PackQueue.book
  split
  · rfl
  · split <;> rfl

theorem capacityBytes_join (queue : PackQueue) (call : Sending) :
    (queue.join call).1.capacityBytes = queue.capacityBytes := by
  unfold PackQueue.join
  split
  · split
    · rfl
    · split <;> rfl
  · rfl

theorem capacityBytes_step (queue : PackQueue) (e : Event) : (queue.step e).capacityBytes = queue.capacityBytes := by
  unfold PackQueue.step
  cases e with
  | book outgoing waits => exact queue.capacityBytes_book outgoing waits
  | join call =>
    simp only [next]
    split
    · exact queue.capacityBytes_join call
    · rfl
  | cancel call =>
    simp only [next]
    split <;> rfl
  | receive =>
    simp only [next, PackQueue.receive]
    split <;> rfl
  | dropReceived item =>
    simp only [next]
    split <;> rfl
  | dropReceiver => simp [next, PackQueue.dropReceiver, foldl_giveBack]

structure Budgeted (capacity : Nat) (queue : PackQueue) : Prop where
  within : bytesOf queue.packs + bytesOf queue.received ≤ capacity
  failsClean : queue.FailsClean
  /-- What is not free is booked by something that still exists. -/
  free : queue.available + queue.sendingBytes + bytesOf queue.packs + bytesOf queue.received = capacity
  whole : queue.sending = [] → queue.packs = [] → queue.received = [] → queue.available = capacity

theorem Balanced.budgeted (balanced : queue.Balanced) : queue.Budgeted queue.capacityBytes where
  within := by
    unfold Balanced at balanced
    omega
  failsClean := queue.failsClean
  free := balanced
  whole sending packs got := by
    simpa [Balanced, sendingBytes, sending, packs, got] using balanced

/-- In every run of a queue made for some packs and bytes. -/
theorem packQueue_budgeted (packs bytes : Nat) (events : List Event) :
    Along step (Budgeted (max bytes 1)) (new packs bytes) events := by
  have always : Admits step (fun _ _ => True) (new packs bytes) events := admits_of_forall fun _ _ _ => trivial
  have kept : Along step (fun queue => queue.Balanced ∧ queue.capacityBytes = max bytes 1) (new packs bytes) events :=
    along_of_keeps (fun queue e kept _ => ⟨kept.1.step e, (queue.capacityBytes_step e).trans kept.2⟩)
      ⟨balanced_new packs bytes, rfl⟩ always
  exact kept.imp fun queue ⟨balanced, capacity⟩ => capacity ▸ balanced.budgeted

end PackQueue

end Wbfuwunel.Streams
