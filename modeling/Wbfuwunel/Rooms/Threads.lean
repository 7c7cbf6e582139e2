import Wbfuwunel.Rooms.Confinement

/-! The thread list of a room: `threads_until`, read off the activity rows that match their root's pointer. -/

set_option autoImplicit false

namespace Wbfuwunel.Rooms

open Foundation List

namespace Server

/-- Where the scan starts. Activity rows have normal counts, and every such key lies above a backfilled one. -/
def scanCount : PduCount → Nat
  | .normal count => count
  | .backfilled _ => 0

variable (server : Server)

def isParticipant (rootId : PduId) (user : UserId) : Bool :=
  (server.threadidUserids rootId).any fun users => users.contains user

def liveThread (user : UserId) (participated : Bool) (row : (Nat ×ₗ Nat) × PduId) : Option (PduCount × Pdu) :=
  let count := (ofLex row.1).2
  match server.threadrootidLatestcount row.2 with
  | none => none
  | some pointer =>
    if count ≠ pointer then none
    else if participated && !server.isParticipant row.2 user then none
    else (server.pduidPdu row.2).map fun pdu => (.normal count, pdu)

def activityUntil (short : Nat) (count : PduCount) : List ((Nat ×ₗ Nat) × PduId) :=
  (server.threadactivityidRootid.rowsDownFrom (toLex (short, scanCount count))).takeWhile fun row =>
    (ofLex row.1).1 = short

def threadsUntil (user : UserId) (room : RoomId) (count : PduCount) (participated : Bool) :
    Except Error (List (PduCount × Pdu)) :=
  match server.roomidShortroomid room with
  | none => .error (.notFound "Room not found")
  | some short =>
    .ok ((server.activityUntil short (count.saturatingSub 1)).filterMap (server.liveThread user participated))

def reap (key : Nat ×ₗ Nat) : Server :=
  match (server.threadactivityidRootid.find key).bind server.threadrootidLatestcount with
  | none => server
  | some pointer =>
    if (ofLex key).2 < pointer then { server with threadactivityidRootid := server.threadactivityidRootid.del key }
    else server

/-! ## Reading the scan -/

theorem activityUntil_eq_filter (k : Nat) (n : PduCount) :
    server.activityUntil k n = server.threadactivityidRootid.rows.reverse.filter fun row =>
      (ofLex row.1).1 = k ∧ (ofLex row.1).2 ≤ scanCount n := by
  unfold activityUntil
  rw [Store.rowsDownFrom_eq_filter]
  have descending := pairwise_reverse.mpr server.threadactivityidRootid.ordered
  -- below the start, the rows of the room come first
  rw [takeWhile_eq_filter, filter_filter]
  · refine filter_congr fun row _ => ?_
    rw [Bool.eq_iff_iff]
    simp only [Bool.and_eq_true, decide_eq_true_eq, Bool.not_eq_true', decide_eq_false_iff_not, not_lt, Prod.Lex.le_iff,
      ofLex_toLex]
    omega
  · refine List.Pairwise.imp_of_mem ?_ (descending.filter _)
    intro a b mem _ larger eq
    have lt := (mem_filter.mp mem).2
    simp only [Bool.not_eq_true', decide_eq_false_iff_not, not_lt, Prod.Lex.le_iff, ofLex_toLex] at lt
    simp only [Prod.Lex.lt_iff] at larger
    simp only [decide_eq_true_eq] at eq ⊢
    omega

variable {server : Server} {row : (Nat ×ₗ Nat) × PduId}

theorem mem_activityUntil {k : Nat} {n : PduCount} :
    row ∈ server.activityUntil k n ↔ server.threadactivityidRootid.find row.1 = some row.2 ∧
      (ofLex row.1).1 = k ∧ (ofLex row.1).2 ≤ scanCount n := by
  rw [activityUntil_eq_filter, Store.find_eq_some_iff]
  simp

theorem activityUntil_descending (server : Server) (k : Nat) (n : PduCount) :
    (server.activityUntil k n).Pairwise fun a b => (ofLex b.1).2 < (ofLex a.1).2 := by
  rw [activityUntil_eq_filter]
  have descending := (pairwise_reverse.mpr server.threadactivityidRootid.ordered).filter fun row =>
    decide ((ofLex row.1).1 = k ∧ (ofLex row.1).2 ≤ scanCount n)
  refine List.Pairwise.imp_of_mem ?_ descending
  intro a b mem beside larger
  have one := (mem_filter.mp mem).2
  have two := (mem_filter.mp beside).2
  simp only [decide_eq_true_eq] at one two
  simp only [Prod.Lex.lt_iff] at larger
  omega

theorem liveThread_all {u : UserId} {x : PduCount × Pdu} :
    server.liveThread u false row = some x ↔ server.threadrootidLatestcount row.2 = some (ofLex row.1).2 ∧
      server.pduidPdu row.2 = some x.2 ∧ x.1 = .normal (ofLex row.1).2 := by
  unfold liveThread
  cases server.threadrootidLatestcount row.2 with
  | none => simp
  | some pointer =>
    by_cases eq : (ofLex row.1).2 = pointer
    · cases server.pduidPdu row.2 <;> simp [Prod.ext_iff, eq_comm, and_comm]
    · simp [eq, Ne.symm eq]

end Server

end Wbfuwunel.Rooms
