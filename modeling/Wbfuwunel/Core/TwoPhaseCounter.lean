import Mathlib.Algebra.Group.Nat.Defs
import Mathlib.Order.Nat
import Wbfuwunel.Foundation.Search

/-! The counter behind every sequence number: `core/utils/two_phase_counter.rs`, with the channel of `globals/data.rs`
that its retirements are told on.

A number is dispatched under a permit, and retired when the permit is dropped. Readers may see up to the number before
the oldest one that is pending.
-/

set_option autoImplicit false

namespace Wbfuwunel.Core

open Foundation

structure Counter where
  dispatched : Nat
  pending : List Nat
  deriving DecidableEq, Repr

inductive Commit where
  | stored
  | failed
  | unwound
  deriving DecidableEq

namespace Counter

def new (dispatched : Nat) : Counter := ⟨dispatched, []⟩

variable (counter : Counter)

def retired : Nat :=
  match counter.pending with
  | [] => counter.dispatched
  | val :: _ => val - 1

def current : Nat := counter.retired

def dispatch (commit : Commit) : Option (Nat × Nat) × Counter :=
  let dispatched := counter.dispatched + 1
  if dispatched < 2 ^ 64 then
    match commit with
    | .stored => (some (counter.retired, dispatched), ⟨dispatched, counter.pending ++ [dispatched]⟩)
    | .failed | .unwound => (none, counter)
  else (none, counter)

def pendingIndex (id : Nat) : Option Nat := binarySearch counter.pending id

def retire (id : Nat) : Counter × Option Nat :=
  match counter.pendingIndex id with
  | none => (counter, none)
  | some index =>
    let pending := counter.pending.eraseIdx index
    -- Only the oldest number releases; the value is not read off the numbers that are left.
    if index ≠ 0 then (⟨counter.dispatched, pending⟩, none)
    else (⟨counter.dispatched, pending⟩, some (if pending.isEmpty then counter.dispatched else id))

end Counter

/-! ## Permits and the channel -/

/-- The counter with the value last sent on its channel, and the history of its permits: the numbers handed out, in
order, and those whose permit was dropped. -/
structure Globals where
  counter : Counter
  retires : Nat
  handed : List Nat
  dropped : List Nat

namespace Globals

def new (count : Nat) : Globals := ⟨.new count, count, [], []⟩

variable (globals : Globals)

def nextCount (commit : Commit) : Globals :=
  match globals.counter.dispatch commit with
  | (none, counter) => { globals with counter }
  | (some (_, id), counter) => { globals with counter, handed := globals.handed ++ [id] }

def handleRetire (count : Nat) : Globals := { globals with retires := count }

def dropPermit (id : Nat) : Globals :=
  if id ∈ globals.handed ∧ id ∉ globals.dropped then
    let (counter, released) := globals.counter.retire id
    let globals := { globals with counter, dropped := id :: globals.dropped }
    released.elim globals globals.handleRetire
  else globals

/-- Whether a reader that waits for `count` is let through: it looks at the value last sent. -/
def waitCount (count : Nat) : Bool := globals.retires ≥ count

inductive Event where
  | next (commit : Commit)
  | drop (id : Nat)
  deriving DecidableEq

def step : Event → Globals
  | .next commit => globals.nextCount commit
  | .drop id => globals.dropPermit id

end Globals

end Wbfuwunel.Core
