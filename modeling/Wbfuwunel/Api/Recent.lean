import Wbfuwunel.Core.RawId
import Wbfuwunel.Foundation.Merge
import Wbfuwunel.Wire.Events

/-! `Event/Recent`: one window of the newest events of some rooms, merged by their counts, and a client that asks for
the next window as long as the last one was cut short. From `api/client/wbf/recent.rs`. -/

set_option autoImplicit false

namespace Wbfuwunel.Api
open Foundation Core Wire

variable {Room Pdu Error : Type}

/-- Counts are compared by this number, the event's `g_seq`. -/
def signed (count : Count) : Int := count.intoSigned.toInt

structure RecentRequest where
  limit : Nat
  cgSeq : Option Count
  before : Option Count

structure WindowEvent where
  gSeq : Int64
  json : Bytes
  deriving DecidableEq, Repr

structure Window where
  events : List WindowEvent
  isCutShort : Bool
  deriving DecidableEq, Repr

def Window.ls (window : Window) : Int64 := (window.events.getLast?.map WindowEvent.gSeq).getD 0

/-- The server as one user finds it: the reverse stream of each room, the two filters, what is served of an event, and
the two limits on bytes. -/
structure Reader (Room Pdu Error : Type) where
  pdusRev : Room → Option Count → List (Except Error (Count × Pdu))
  isIgnored : Pdu → Bool
  canSee : Pdu → Bool
  bundleAggregations : Pdu → Pdu
  toFormat : Pdu → Bytes
  windowMaxBytes : Nat
  dataMax : Nat

def isNewerThanAfter (count : Count) (cgSeq : Option Count) : Bool := cgSeq.all fun cgSeq => signed cgSeq < signed count

def insertOnce [DecidableEq Room] (seen : List Room) (room : Room) : List Room :=
  if room ∈ seen then seen else seen ++ [room]

/-- Each room once, where it is named first. -/
def once [DecidableEq Room] (rooms : List Room) : List Room := rooms.foldl insertOnce []

namespace Reader

variable (reader : Reader Room Pdu Error) (item : Count × Pdu)

def ignoredFilter : Option (Count × Pdu) :=
  if reader.isIgnored item.2 then none else some item

def visibilityFilter : Option (Count × Pdu) :=
  if reader.canSee item.2 then some item else none

/-- The loop of a window. Every round draws one event from the streams, so that `rounds` need not exceed their number. -/
def collectLoop (reader : Reader Room Pdu Error) (cgSeq : Option Count) :
    (rounds : Nat) → Merge Error Count Pdu → WindowBudget → List WindowEvent → Window
  | 0, _, budget, window => ⟨window, budget.isCutShort⟩
  | rounds + 1, merge, budget, window =>
    if budget.isCountFull then ⟨window, budget.isCutShort⟩
    else
      match popMax signed merge.heap with
      | none => ⟨window, budget.isCutShort⟩
      | some (head, heap) =>
        -- The heap is descending: everything left is at or below the watermark.
        if !isNewerThanAfter head.key cgSeq then ⟨window, budget.isCutShort⟩
        else
          match Merge.advance ⟨merge.lanes, heap⟩ head.stream with
          | none => ⟨window, budget.isCutShort⟩
          | some (item, merge) =>
            match (reader.ignoredFilter item).bind reader.visibilityFilter with
            | none => reader.collectLoop cgSeq rounds merge budget window
            | some (_, pdu) =>
              let json := reader.toFormat (reader.bundleAggregations pdu)
              if reader.dataMax < framedLen json.length then reader.collectLoop cgSeq rounds merge budget window
              else
                let tried := budget.tryAdmit json.length
                if tried.1 then
                  reader.collectLoop cgSeq rounds merge tried.2 (window ++ [⟨head.key.intoSigned, json⟩])
                -- This event is the next window's first.
                else ⟨window, tried.2.isCutShort⟩

def collectWindow [DecidableEq Room] (rooms : List Room) (request : RecentRequest) : Window :=
  let merge := Merge.start ((once rooms).map fun room => reader.pdusRev room request.before)
  reader.collectLoop request.cgSeq (merge.left.length + 1) merge (.new request.limit reader.windowMaxBytes) []

/-- A client that pages: from the `ls` of each window that was cut short it asks for the next. -/
def session [DecidableEq Room] (reader : Reader Room Pdu Error) (rooms : List Room) (limit : Nat) (cgSeq : Option Count) :
    (requests : Nat) → (before : Option Count) → Option (List Window)
  | 0, _ => none
  | requests + 1, before =>
    let window := reader.collectWindow rooms ⟨limit, cgSeq, before⟩
    if window.isCutShort then
      (reader.session rooms limit cgSeq requests (some (.fromSigned window.ls))).map fun windows => window :: windows
    else some [window]

/-! ## What should be served -/

def isOlderThan (count : Count) (before : Option Count) : Bool := before.all fun before => signed count < signed before

def serves : Option WindowEvent :=
  let json := reader.toFormat (reader.bundleAggregations item.2)
  if reader.isIgnored item.2 || !reader.canSee item.2 || decide (reader.dataMax < framedLen json.length) then none
  else some ⟨item.1.intoSigned, json⟩

/-- The rooms do not change: each stream gives its room's events below any bound, newest first, and no two events share
a `g_seq`. -/
structure Steady (reader : Reader Room Pdu Error) (rooms : List Room) (events : Room → List (Count × Pdu)) : Prop where
  yields : ∀ room ∈ rooms, ∀ before,
    goodItems (reader.pdusRev room before) = (events room).filter fun event => isOlderThan event.1 before
  descending : ∀ room ∈ rooms, (events room).Pairwise fun first second => signed second.1 < signed first.1
  apart : ∀ room ∈ rooms, ∀ other ∈ rooms, room ≠ other →
    ∀ event ∈ events room, ∀ event' ∈ events other, signed event.1 ≠ signed event'.1

end Reader
end Wbfuwunel.Api
