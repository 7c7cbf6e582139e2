import Wbfuwunel.Api.Recent
import Wbfuwunel.Foundation.Store

/-! The windows of a paging session are the events that should be served, cut where the budget says. -/

set_option autoImplicit false

namespace Wbfuwunel.Api
open Foundation Core Wire List Option WindowBudget

variable {Room Pdu Error : Type}

/-! ## The merge gives the events in order -/

section Once

variable [DecidableEq Room]

theorem mem_foldl_insertOnce {room : Room} (rooms seen : List Room) :
    room ∈ rooms.foldl insertOnce seen ↔ room ∈ seen ∨ room ∈ rooms := by
  induction rooms generalizing seen with
  | nil => simp
  | cons a rest ih =>
    rw [foldl_cons, insertOnce]
    grind

theorem nodup_foldl_insertOnce (rooms : List Room) {seen : List Room} (distinct : seen.Nodup) :
    (rooms.foldl insertOnce seen).Nodup := by
  induction rooms generalizing seen with
  | nil => exact distinct
  | cons a rest ih =>
    refine ih ?_
    unfold insertOnce
    split
    case isTrue => exact distinct
    case isFalse fresh => exact nodup_append.mpr ⟨distinct, by simp, by grind⟩

theorem mem_once {rooms : List Room} {room : Room} : room ∈ once rooms ↔ room ∈ rooms := by
  simp [once, mem_foldl_insertOnce]

theorem nodup_once (rooms : List Room) : (once rooms).Nodup := nodup_foldl_insertOnce rooms .nil

end Once

abbrev Descending (items : List (Count × Pdu)) : Prop :=
  items.Pairwise fun first second => signed second.1 < signed first.1

instance newestFirst_total : Std.Total fun first second : Count × Pdu => signed second.1 ≤ signed first.1 :=
  ⟨fun _ _ => le_total _ _⟩

instance newestFirst_trans : IsTrans (Count × Pdu) fun first second => signed second.1 ≤ signed first.1 :=
  ⟨fun _ _ _ le le' => le'.trans le⟩

theorem descending_of_perm {items sorted : List (Count × Pdu)}
    (ord : sorted.Pairwise fun first second => signed second.1 ≤ signed first.1) (perm : sorted.Perm items)
    (apart : items.Pairwise fun first second => signed first.1 ≠ signed second.1) : Descending sorted :=
  (ord.and ((perm.pairwise_iff Ne.symm).mpr apart)).imp fun ⟨le, differ⟩ => lt_of_le_of_ne le differ.symm

namespace Reader

variable {reader : Reader Room Pdu Error} {cgSeq : Option Count}

def consume (reader : Reader Room Pdu Error) (cgSeq : Option Count) :
    List (Count × Pdu) → WindowBudget → List WindowEvent → Window
  | [], budget, window => ⟨window, budget.isCutShort⟩
  | item :: rest, budget, window =>
    if budget.isCountFull then ⟨window, budget.isCutShort⟩
    else if !isNewerThanAfter item.1 cgSeq then ⟨window, budget.isCutShort⟩
    else
      match reader.serves item with
      | none => reader.consume cgSeq rest budget window
      | some event =>
        let tried := budget.tryAdmit event.json.length
        if tried.1 then reader.consume cgSeq rest tried.2 (window ++ [event]) else ⟨window, tried.2.isCutShort⟩

variable {item : Count × Pdu} {items : List (Count × Pdu)} {event : WindowEvent}

theorem first_eq {left rest : List (Count × Pdu)} {a : Count × Pdu} {others : List (Count × Pdu)}
    (descending : Descending (a :: rest)) (perm : left.Perm (a :: rest)) (drawn : left.Perm (item :: others))
    (greatest : ∀ o ∈ left, signed o.1 ≤ signed item.1) : item = a := by
  have mem : item ∈ a :: rest := perm.mem_iff.mp (drawn.mem_iff.mpr mem_cons_self)
  rcases mem_cons.mp mem with eq | behind
  · exact eq
  · have lt := (pairwise_cons.mp descending).1 item behind
    have gt := greatest a (perm.mem_iff.mpr mem_cons_self)
    omega

theorem collectLoop_eq_consume (descending : Descending items) {merge : Merge Error Count Pdu}
    (ok : merge.Ready signed) (perm : merge.left.Perm items) {rounds : Nat} (enough : items.length < rounds)
    (budget : WindowBudget) (window : List WindowEvent) :
    reader.collectLoop cgSeq rounds merge budget window = reader.consume cgSeq items budget window := by
  induction items generalizing merge rounds budget window with
  | nil =>
    obtain ⟨rounds, rfl⟩ := Nat.exists_eq_add_one_of_ne_zero (Nat.ne_of_gt enough)
    have empty := (popMax_eq_none signed).mpr (ok.left_eq_nil.mp (perm_nil.mp perm))
    simp [collectLoop, consume, empty]
  | cons a rest ih =>
    obtain ⟨rounds, rfl⟩ := Nat.exists_eq_add_one_of_ne_zero (Nat.ne_of_gt (Nat.zero_lt_of_lt enough))
    cases popped : popMax signed merge.heap with
    | none =>
      have empty := ok.left_eq_nil.mpr ((popMax_eq_none signed).mp popped)
      rw [empty] at perm
      exact absurd perm.symm (not_perm_nil_cons _ _ ·.symm)
    | some popped' =>
      obtain ⟨head, heap⟩ := popped'
      obtain ⟨item, next, drawn, k, ok', perm'⟩ := ok.advance popped
      have greatest : ∀ o ∈ merge.left, signed o.1 ≤ signed item.1 := fun o mem =>
        k ▸ ok.le_of_pop popped mem
      obtain rfl := first_eq descending perm perm' greatest
      have again := fun budget window => ih (pairwise_cons.mp descending).2 ok'
        ((perm_cons _).mp (perm'.symm.trans perm)) (Nat.lt_of_succ_lt_succ enough) budget window
      simp only [collectLoop, consume, popped, drawn, k, again]
      split
      · rfl
      · split
        · rfl
        · cases ignored : reader.isIgnored item.2 with
          | true => simp [ignoredFilter, serves, ignored]
          | false =>
            cases sees : reader.canSee item.2 with
            | false => simp [ignoredFilter, visibilityFilter, serves, ignored, sees]
            | true =>
              by_cases wide : reader.dataMax < framedLen (reader.toFormat (reader.bundleAggregations item.2)).length
              · simp [ignoredFilter, visibilityFilter, serves, ignored, sees, wide]
              · simp [ignoredFilter, visibilityFilter, serves, ignored, sees, wide]

/-! ## Where a window ends -/

def served (reader : Reader Room Pdu Error) (cgSeq : Option Count) (items : List (Count × Pdu)) : List WindowEvent :=
  (items.filter fun item => isNewerThanAfter item.1 cgSeq).filterMap reader.serves

theorem served_cons (item : Count × Pdu) (rest : List (Count × Pdu)) : reader.served cgSeq (item :: rest) =
      (if isNewerThanAfter item.1 cgSeq then (reader.serves item).toList else []) ++ reader.served cgSeq rest := by
  unfold served
  rw [filter_cons]
  split
  · cases got : reader.serves item <;> simp [got]
  · rfl

theorem served_eq_nil {rest : List (Count × Pdu)} (descending : Descending (item :: rest))
    (known : isNewerThanAfter item.1 cgSeq = false) : reader.served cgSeq (item :: rest) = [] := by
  have none : (item :: rest).filter (fun item => isNewerThanAfter item.1 cgSeq) = [] := by
    refine filter_eq_nil_iff.mpr fun o among newer => ?_
    cases cgSeq with
    | none => cases known
    | some cgSeq =>
      simp only [isNewerThanAfter, all_some, decide_eq_false_iff_not, decide_eq_true_eq] at known newer
      rcases mem_cons.mp among with rfl | behind
      · exact known newer
      · have := (pairwise_cons.mp descending).1 o behind
        omega
  rw [served, none, filterMap_nil]

/-- The window goes on with the first so many of the events: all of them unless it is cut short, and if it is, there was
or is something in it. -/
def Continues (window events : List WindowEvent) (budget : WindowBudget) (result : Window) : Prop :=
  ∃ count, result.events = window ++ events.take count ∧ (result.isCutShort = false → events.take count = events) ∧
    (result.isCutShort → 0 < budget.count ∨ events.take count ≠ [])

theorem Continues.stop {window es : List WindowEvent} {budget : WindowBudget} {isCutShort : Bool}
    (finished : isCutShort = false → es = []) (ok : isCutShort → 0 < budget.count) :
    Continues window es budget ⟨window, isCutShort⟩ := by
  refine ⟨0, by simp, fun uncut => ?_, fun cut => .inl (ok cut)⟩
  rw [finished uncut, take_nil]

theorem Continues.join {window es : List WindowEvent} {budget next : WindowBudget} {result : Window}
    (continues : Continues (window ++ [event]) es next result) :
    Continues window (event :: es) budget result := by
  obtain ⟨n, eq, finished, -⟩ := continues
  refine ⟨n + 1, by simp [eq], fun uncut => ?_, fun _ => .inr (by simp)⟩
  rw [take_succ_cons, finished uncut]

theorem consume_continues (descending : Descending items) {budget : WindowBudget} (isOpen : budget.isClosed = false)
    (asked : 0 < budget.countMax) (window : List WindowEvent) :
    Continues window (reader.served cgSeq items) budget (reader.consume cgSeq items budget window) := by
  induction items generalizing budget window with
  | nil =>
    refine .stop (fun _ => rfl) fun cut => ?_
    rw [isCutShort_eq asked, isOpen, Bool.false_or, isCountFull, decide_eq_true_eq] at cut
    omega
  | cons item rest ih =>
    have ih := @ih (pairwise_cons.mp descending).2
    have cutShort : budget.isCutShort = budget.isCountFull := by
      rw [isCutShort_eq asked, isOpen, Bool.false_or]
    unfold consume
    split
    case isTrue full =>
      refine .stop (fun uncut => ?_) fun _ => ?_
      · rw [cutShort, full] at uncut
        cases uncut
      · rw [isCountFull, decide_eq_true_eq] at full
        omega
    case isFalse r =>
      rw [Bool.not_eq_true] at r
      rw [r] at cutShort
      split
      case isTrue known =>
        refine .stop (fun _ => served_eq_nil descending (by simpa using known)) fun cut => ?_
        rw [cutShort] at cut
        cases cut
      case isFalse newer =>
        rw [served_cons, if_pos (by simpa using newer)]
        cases got : reader.serves item with
        | none => exact ih isOpen asked window
        | some event =>
          rcases tried : budget.tryAdmit event.json.length with ⟨_ | _, next⟩
          · obtain ⟨ok, closed, same⟩ := of_refused isOpen r tried
            simp only [tried]
            refine .stop (fun uncut => ?_) fun _ => ok
            rw [isCutShort_eq (same ▸ asked), closed] at uncut
            cases uncut
          · obtain ⟨isOpen, -, same⟩ := of_admitted tried
            simp only [tried]
            exact (ih isOpen (same ▸ asked) _).join

theorem signed_fromSigned (gSeq : Int64) : signed (.fromSigned gSeq) = gSeq.toInt := by
  unfold signed Count.fromSigned
  split
  · rfl
  · simp [Count.intoSigned]

theorem gSeq_of_serves (got : reader.serves item = some event) : event.gSeq.toInt = signed item.1 := by
  simp only [serves] at got
  split at got
  · cases got
  · cases got
    rfl

theorem mem_served : event ∈ reader.served cgSeq items ↔
    ∃ item ∈ items, isNewerThanAfter item.1 cgSeq ∧ reader.serves item = some event := by
  simp [served, and_assoc]

abbrev NewestFirst (events : List WindowEvent) : Prop :=
  events.Pairwise fun first second => second.gSeq.toInt < first.gSeq.toInt

theorem newestFirst_served (descending : Descending items) : NewestFirst (reader.served cgSeq items) := by
  refine (descending.filter _).filterMap _ fun a b lt event got event' got' => ?_
  rw [gSeq_of_serves got, gSeq_of_serves got']
  exact lt

def newness (event : WindowEvent) : Intᵒᵈ := .toDual event.gSeq.toInt

theorem NewestFirst.mem_drop {es : List WindowEvent} (ordered : NewestFirst es) {n : Nat} {last : WindowEvent}
    (ends : (es.take n).getLast? = some last) :
    event ∈ es.drop n ↔ event ∈ es ∧ event.gSeq.toInt < last.gSeq.toInt := by
  have split := take_append_drop n es
  rw [← split] at ordered
  have behind := (@mem_iff_of_ascending _ _ _ newness _ _ _ ordered ends event).2
  rw [split] at behind
  exact behind

/-! ## One window -/

variable {rooms : List Room} {events : Room → List (Count × Pdu)}

section Windows

variable [DecidableEq Room]

def timeline (rooms : List Room) (events : Room → List (Count × Pdu)) : List (Count × Pdu) :=
  ((once rooms).flatMap events).insertionSort fun first second => signed second.1 ≤ signed first.1

theorem timeline_perm (rooms : List Room) (events : Room → List (Count × Pdu)) :
    (timeline rooms events).Perm ((once rooms).flatMap events) := perm_insertionSort _ _

theorem mem_timeline {item : Count × Pdu} : item ∈ timeline rooms events ↔ ∃ r ∈ rooms, item ∈ events r := by
  rw [(timeline_perm rooms events).mem_iff]
  simp [mem_once]

variable (steady : reader.Steady rooms events)
include steady

theorem Steady.descending_timeline : Descending (timeline rooms events) := by
  have apart : ((once rooms).flatMap events).Pairwise fun a b => signed a.1 ≠ signed b.1 := by
    refine pairwise_flatMap.mpr ⟨fun r mem => ?_, ?_⟩
    · exact (steady.descending r (mem_once.mp mem)).imp fun lt => (ne_of_lt lt).symm
    · refine (nodup_once rooms).imp_of_mem fun mem mem' differ => ?_
      exact steady.apart _ (mem_once.mp mem) _ (mem_once.mp mem') differ
  exact descending_of_perm (pairwise_insertionSort _ _) (timeline_perm rooms events) apart

def due (reader : Reader Room Pdu Error) (rooms : List Room) (events : Room → List (Count × Pdu)) (cgSeq : Option Count)
    (before : Option Count) : List WindowEvent :=
  reader.served cgSeq ((timeline rooms events).filter fun item => isOlderThan item.1 before)

theorem Steady.collectWindow_continues {limit : Nat} (asked : 0 < limit) (cgSeq before : Option Count) :
    Continues [] (reader.due rooms events cgSeq before) (.new limit reader.windowMaxBytes)
      (reader.collectWindow rooms ⟨limit, cgSeq, before⟩) := by
  let merge := Merge.start ((once rooms).map fun r => reader.pdusRev r before)
  have descending : Descending ((timeline rooms events).filter fun item => isOlderThan item.1 before) :=
    steady.descending_timeline.filter _
  have ok : merge.Ready signed := by
    refine Merge.start_ready fun stream among => ?_
    obtain ⟨r, mem, rfl⟩ := mem_map.mp among
    rw [steady.yields r (mem_once.mp mem)]
    exact (steady.descending r (mem_once.mp mem)).filter _
  have left : merge.left = ((once rooms).flatMap events).filter fun item => isOlderThan item.1 before := by
    rw [Merge.start_left, flatMap_map, filter_flatMap]
    exact flatMap_congr fun r mem => steady.yields r (mem_once.mp mem) before
  have perm : merge.left.Perm ((timeline rooms events).filter fun item => isOlderThan item.1 before) := by
    rw [left]
    exact (timeline_perm rooms events).symm.filter _
  rw [collectWindow, collectLoop_eq_consume descending ok perm (by rw [perm.length_eq]; exact Nat.lt_succ_self _)]
  exact consume_continues descending rfl asked []

/-! ## The session -/

omit steady in
theorem mem_due {old : Option Count} {event : WindowEvent} : event ∈ reader.due rooms events cgSeq old ↔
    ∃ r ∈ rooms, ∃ item ∈ events r, isNewerThanAfter item.1 cgSeq ∧ isOlderThan item.1 old ∧
      reader.serves item = some event := by
  simp only [due, mem_served, mem_filter, mem_timeline]
  grind

theorem Steady.newestFirst_due (cgSeq old : Option Count) : NewestFirst (reader.due rooms events cgSeq old) :=
  newestFirst_served (steady.descending_timeline.filter _)

theorem Steady.due_next {old : Option Count} {n : Nat} {last : WindowEvent}
    (ends : ((reader.due rooms events cgSeq old).take n).getLast? = some last) :
    reader.due rooms events cgSeq (some (.fromSigned last.gSeq)) = (reader.due rooms events cgSeq old).drop n := by
  have ordered := steady.newestFirst_due cgSeq old
  refine @eq_of_ascending _ _ _ newness _ _ (steady.newestFirst_due cgSeq _) (List.Pairwise.drop ordered) fun event => ?_
  rw [ordered.mem_drop ends, mem_due, mem_due]
  have bounded : isOlderThan (.fromSigned last.gSeq) old := by
    obtain ⟨_, _, _, _, _, older, found⟩ := mem_due.mp (mem_of_mem_take (mem_of_getLast? ends))
    cases old with
    | none => rfl
    | some old =>
      simp only [isOlderThan, signed_fromSigned, gSeq_of_serves found] at older ⊢
      exact older
  constructor
  · rintro ⟨r, mem, item, among, newer, older, found⟩
    simp only [isOlderThan, all_some, decide_eq_true_eq, signed_fromSigned] at older
    refine ⟨⟨r, mem, item, among, newer, ?_, found⟩, gSeq_of_serves found ▸ older⟩
    cases old with
    | none => rfl
    | some old =>
      simp only [isOlderThan, all_some, decide_eq_true_eq, signed_fromSigned] at bounded ⊢
      omega
  · rintro ⟨⟨r, mem, item, among, newer, -, found⟩, lt⟩
    refine ⟨r, mem, item, among, newer, ?_, found⟩
    simp only [isOlderThan, all_some, decide_eq_true_eq, signed_fromSigned]
    exact gSeq_of_serves found ▸ lt

theorem Steady.session_eq {limit : Nat} (asked : 0 < limit) (cgSeq old : Option Count) :
    ∃ windows, reader.session rooms limit cgSeq windows.length old = some windows ∧
      windows.flatMap Window.events = reader.due rooms events cgSeq old ∧
      ∀ window ∈ windows, window.isCutShort → window.events ≠ [] := by
  induction size : (reader.due rooms events cgSeq old).length using Nat.strongRecOn generalizing old with
  | ind length ih =>
    obtain ⟨n, eq, finished, nonempty⟩ := steady.collectWindow_continues asked cgSeq old
    let window := reader.collectWindow rooms ⟨limit, cgSeq, old⟩
    have pre : window.events = (reader.due rooms events cgSeq old).take n := eq
    have some : window.isCutShort → window.events ≠ [] := fun cut =>
      pre ▸ (nonempty cut).resolve_left (Nat.lt_irrefl 0)
    cases cut : window.isCutShort with
    | false =>
      refine ⟨[window], ?_, ?_, by simpa using some⟩
      · simp [session, window, cut]
      · simpa [pre] using finished cut
    | true =>
      -- The rest of the session is that of a client that begins with the next page.
      obtain ⟨last, ends⟩ := isSome_iff_exists.mp (getLast?_isSome.mpr (some cut))
      have next : reader.due rooms events cgSeq (Option.some (.fromSigned window.ls)) =
          (reader.due rooms events cgSeq old).drop n := by
        rw [Window.ls, ends]
        exact steady.due_next (pre ▸ ends)
      have shorter : ((reader.due rooms events cgSeq old).drop n).length < length := by
        have := some cut
        rw [pre, Ne, take_eq_nil_iff] at this
        rw [length_drop]
        have := length_pos_iff.mpr fun empty => this (.inr empty)
        omega
      obtain ⟨windows, session, whole, all⟩ := ih _ shorter _ (by rw [next])
      refine ⟨window :: windows, ?_, ?_, ?_⟩
      · simp only [Reader.session, length_cons]
        rw [if_pos cut]
        exact map_eq_some_iff.mpr ⟨windows, session, rfl⟩
      · rw [flatMap_cons, whole, next, pre, take_append_drop]
      · exact forall_mem_cons.mpr ⟨some, all⟩

end Windows

/-- Whatever the rooms named, the watermark, the bound, the limit and the budget: a client that pages until no more is
promised has every event that is to be served, each once, newest first. -/
theorem recent_paging [DecidableEq Room] (reader : Reader Room Pdu Error) {rooms : List Room}
    {events : Room → List (Count × Pdu)} (steady : reader.Steady rooms events) {limit : Nat} (asked : 0 < limit)
    (cgSeq before : Option Count) :
    ∃ windows, reader.session rooms limit cgSeq windows.length before = some windows ∧
      NewestFirst (windows.flatMap Window.events) ∧
      (∀ event, event ∈ windows.flatMap Window.events ↔ ∃ room ∈ rooms, ∃ item ∈ events room,
        isNewerThanAfter item.1 cgSeq ∧ isOlderThan item.1 before ∧ reader.serves item = some event) ∧
      ∀ window ∈ windows, window.isCutShort → window.events ≠ [] := by
  obtain ⟨windows, session, whole, some⟩ := steady.session_eq asked cgSeq before
  refine ⟨windows, session, ?_, fun event => ?_, some⟩
  · exact whole ▸ steady.newestFirst_due cgSeq before
  · rw [whole]
    exact mem_due

def twoRooms : Bool → List (Count × Nat)
  | false => [(.normal 5, 50), (.normal 2, 20)]
  | true => [(.normal 4, 40), (.backfilled (-3), 30)]

/-- The user ignores the event of length 20, and each stream begins with a row that does not decode. -/
def pocket : Reader Bool Nat Unit where
  pdusRev room before := .error () :: ((twoRooms room).filter fun event => isOlderThan event.1 before).map .ok
  isIgnored pdu := pdu == 20
  canSee _ := true
  bundleAggregations := id
  toFormat pdu := List.replicate pdu 0
  windowMaxBytes := 80
  dataMax := 60

theorem pocket_steady : pocket.Steady [true, false, true] twoRooms where
  yields r _ old := by
    have good (items : List (Count × Nat)) : goodItems (.error () :: items.map Except.ok) = items := by
      induction items with
      | nil => rfl
      | cons item items ih => exact congrArg (item :: ·) ih
    exact good _
  descending := by decide
  apart := by decide

/-- The first window holds one event for its bytes, the second two. -/
theorem recent_paging_pocket : ∃ windows, pocket.session [true, false, true] 2 none windows.length none = some windows ∧
      NewestFirst (windows.flatMap Window.events) ∧
      (∀ event, event ∈ windows.flatMap Window.events ↔ ∃ room ∈ [true, false, true], ∃ item ∈ twoRooms room,
        isNewerThanAfter item.1 none ∧ isOlderThan item.1 none ∧ pocket.serves item = some event) ∧
      ∀ window ∈ windows, window.isCutShort → window.events ≠ [] :=
  recent_paging pocket pocket_steady (by decide) none none

end Reader
end Wbfuwunel.Api
