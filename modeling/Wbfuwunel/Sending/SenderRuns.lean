import Wbfuwunel.Sending.Sender

/-! What the active rows of a destination are, and how they leave. -/

set_option autoImplicit false

namespace Wbfuwunel.Sending

open Foundation List Option Store

theorem mem_putAll {table : Store Bytes (Option Payload)} {items : List QueueItem} (distinct : (items.map Prod.fst).Nodup)
    {row : QueueItem} :
    row ∈ (putAll table items).rows ↔ row ∈ items ∨ row ∈ table.rows ∧ row.1 ∉ items.map Prod.fst := by
  induction items generalizing table with
  | nil => simp [putAll]
  | cons item items ih =>
    obtain ⟨fresh, distinct⟩ := nodup_cons.mp distinct
    rw [putAll, foldl_cons, ← putAll, ih distinct, mem_put]
    have apart : row = item → row.1 ∉ items.map Prod.fst := by
      rintro rfl
      exact fresh
    simp only [map_cons, mem_cons, not_or, Prod.mk.eta]
    tauto

namespace Sender

variable (kind : DestinationKind)

def Fits : Option TransactionStatus → Prop
  | some (.failed _) => kind = .push
  | _ => True

def Busy : Option TransactionStatus → Prop
  | some .running | some .runningForceRetry => True
  | some (.retrying _) => kind = .push
  | some (.failed _) | none => False

structure Made (transaction : Transaction) : Prop where
  contains : ∀ row ∈ transaction.rows, eventOf row ∈ transaction.events
  pdus : ∀ id, .pdu id ∈ transaction.events → (id, none) ∈ transaction.rows

structure Sound (sender : Sender) : Prop where
  single : sender.futures.length ≤ 1
  fits : sender.working → Fits kind sender.status
  busy : sender.working → sender.futures ≠ [] → Busy kind sender.status
  idle : sender.working → sender.futures = [] → ¬Busy kind sender.status
  empty : sender.working → sender.status = none → sender.active.rows = []
  exact : ∀ transaction ∈ sender.futures, ∀ row, row ∈ sender.active.rows ↔ transaction.cleaned = false ∧ row ∈ transaction.rows
  made : ∀ transaction ∈ sender.futures, Made transaction

def FreshEdus (sender : Sender) (edus : EduSelection) : Prop :=
  (edus.durable.map Prod.fst).Nodup ∧ ∀ key ∈ edus.durable.map Prod.fst, sender.queued.contains key = false

section Compose

variable {kind : DestinationKind} {sender : Sender} {edus : EduSelection} {items : List QueueItem}

theorem eventOf_eq_pdu {row : QueueItem} {id : Bytes} : eventOf row = .pdu id ↔ row = (id, none) := by
  obtain ⟨key, value⟩ := row
  cases value <;> simp [eventOf]

theorem made_map (rows : List QueueItem) : Made ⟨rows.map eventOf, rows, false⟩ where
  contains row mem := mem_map_of_mem mem
  pdus id mem := by
    obtain ⟨row, member, named⟩ := mem_map.mp mem
    exact eventOf_eq_pdu.mp named ▸ member

@[simp] theorem active_scheduleEvents (sender : Sender) (tx : Transaction) :
    (sender.scheduleEvents tx).active = sender.active := by
  rw [scheduleEvents]
  split <;> rfl

structure Composed (sender : Sender) (made : Sender × Transaction) : Prop where
  same : made.1.status = sender.status ∧ made.1.futures = sender.futures ∧ made.1.working = sender.working
  whole : made.2.cleaned = false
  exact : ∀ row, row ∈ made.1.active.rows ↔ row ∈ made.2.rows
  made : Made made.2

theorem composed (none : sender.active.rows = []) (distinct : (items.map Prod.fst).Nodup)
    (waiting : ∀ item ∈ items, sender.queued.contains item.1) (fresh : sender.FreshEdus edus) :
    Composed sender ((sender.markAsActive items).selectEdus kind edus items) := by
  have marked : ∀ row, row ∈ (putAll sender.active items).rows ↔ row ∈ items := by
    intro row
    rw [mem_putAll distinct, none]
    simp
  rw [selectEdus]
  split
  · have keys : (eduItems edus.durable).map Prod.fst = edus.durable.map Prod.fst := by simp [eduItems, Function.comp_def]
    constructor
    case same => exact ⟨rfl, rfl, rfl⟩
    case whole => rfl
    case exact =>
      intro row
      have apart : row ∈ items → row.1 ∉ (eduItems edus.durable).map Prod.fst := by
        intro mem new
        have absent := fresh.2 row.1 (keys ▸ new)
        simp [waiting row mem] at absent
      simp only [markAsActive, mem_putAll (keys ▸ fresh.1 : ((eduItems edus.durable).map Prod.fst).Nodup), marked,
        mem_append]
      tauto
    case made =>
      constructor
      · intro row mem
        exact mem_append_left _ (mem_map_of_mem mem)
      · intro id mem
        rcases mem_append.mp mem with mem | mem
        · obtain ⟨row, member, named⟩ := mem_map.mp mem
          exact eventOf_eq_pdu.mp named ▸ member
        · obtain ⟨edu, -, impossible⟩ := mem_map.mp mem
          cases impossible
  · exact ⟨⟨rfl, rfl, rfl⟩, rfl, marked, made_map items⟩

theorem Composed.send {status : Option TransactionStatus} {made : Sender × Transaction} (composed : Composed sender made)
    (none : sender.futures = []) (busy : Busy kind status) (fits : Fits kind status) :
    Sound kind (scheduleEvents { made.1 with status := status } made.2) := by
  obtain ⟨-, futures, -⟩ := composed.same
  rw [none] at futures
  rw [scheduleEvents]
  split
  next nothing =>
    have rows : made.1.active.rows = [] := by
      refine eq_nil_iff_forall_not_mem.mpr fun row mem => ?_
      have contained := composed.made.contains row ((composed.exact row).mp mem)
      rw [isEmpty_iff.mp nothing] at contained
      cases contained
    constructor <;> simp [futures, rows, Busy, Fits]
  · constructor
    case single => simp [futures]
    case fits => exact fun _ => fits
    case busy => exact fun _ _ => busy
    case idle => simp [futures]
    case empty =>
      intro _ missing
      simp only at missing
      rw [missing] at busy
      exact busy.elim
    case exact => simpa [futures, composed.whole] using composed.exact
    case made => simpa [futures] using composed.made

end Compose

/-! ## Selecting -/

section Select

variable {kind : DestinationKind} {sender : Sender} {conditions : Conditions} {newEvents : List QueueItem} {force : Bool}

theorem selectEventsCurrent_cases {status : Option TransactionStatus} (fits : Fits kind status) :
    Fits kind (selectEventsCurrent kind conditions force status).2.2 ∧
    ((selectEventsCurrent kind conditions force status).1 = false ∧
        (Busy kind (selectEventsCurrent kind conditions force status).2.2 ↔ Busy kind status) ∧
        ((selectEventsCurrent kind conditions force status).2.2 = none → status = none) ∨
      (selectEventsCurrent kind conditions force status).1 ∧ ¬Busy kind status ∧
        Busy kind (selectEventsCurrent kind conditions force status).2.2 ∧
        ((selectEventsCurrent kind conditions force status).2.1 ∨
          (selectEventsCurrent kind conditions force status).2.1 = false ∧ status = none)) := by
  unfold selectEventsCurrent
  split
  · exact ⟨fits, .inl ⟨rfl, Iff.rfl, id⟩⟩
  cases status with
  | none => simp [Busy, Fits]
  | some status =>
    cases status with
    | running => cases force <;> simp [Busy, Fits]
    | runningForceRetry => simp [Busy, Fits]
    | failed tries =>
      have push : kind = .push := fits
      dsimp only
      split <;> simp [Busy, Fits, push]
    | retrying tries =>
      dsimp only
      split
      · simp [Busy, Fits]
      next other =>
        simp [Busy, Fits, other]

theorem Sound.selectAndSchedule (h : Sound kind sender) (working : sender.working)
    (distinct : (newEvents.map Prod.fst).Nodup) (fresh : sender.FreshEdus conditions.edus) :
    Sound kind (sender.selectAndSchedule kind conditions newEvents force) ∧
      ∀ row ∈ sender.active.rows, row ∈ (sender.selectAndSchedule kind conditions newEvents force).active.rows := by
  obtain ⟨fits, refused | ⟨ok, idle, busy, again | ⟨anew, vacant⟩⟩⟩ :=
    @selectEventsCurrent_cases kind conditions force sender.status (h.fits working)
  · obtain ⟨refused, busy, none⟩ := refused
    have eq : sender.selectAndSchedule kind conditions newEvents force =
        { sender with status := (selectEventsCurrent kind conditions force sender.status).2.2 } := by
      simp [Sender.selectAndSchedule, selectEvents, refused]
    rw [eq]
    refine ⟨?_, fun row mem => mem⟩
    exact { h with
      fits := fun _ => fits
      busy := fun _ some => busy.mpr (h.busy working some)
      idle := fun _ none => fun now => h.idle working none (busy.mp now)
      empty := fun _ missing => h.empty working (none missing) }
  · have quiet : sender.futures = [] := by
      by_contra some
      exact idle (h.busy working some)
    have eq : sender.selectAndSchedule kind conditions newEvents force =
        scheduleEvents { sender with status := (selectEventsCurrent kind conditions force sender.status).2.2 }
          ⟨sender.active.rows.map eventOf, sender.active.rows, false⟩ := by
      simp [Sender.selectAndSchedule, selectEvents, ok, again]
    have composed : Composed sender (sender, ⟨sender.active.rows.map eventOf, sender.active.rows, false⟩) :=
      ⟨⟨rfl, rfl, rfl⟩, rfl, fun _ => Iff.rfl, made_map _⟩
    rw [eq]
    exact ⟨composed.send quiet busy fits, fun row mem => by rwa [active_scheduleEvents]⟩
  · have quiet : sender.futures = [] := by
      by_contra some
      exact idle (h.busy working some)
    have none := h.empty working vacant
    set status := (selectEventsCurrent kind conditions force sender.status).2.2
    set items := retainQueued { sender with status := status } newEvents
    set made := (markAsActive { sender with status := status } items).selectEdus kind conditions.edus items
    have eq : sender.selectAndSchedule kind conditions newEvents force = scheduleEvents made.1 made.2 := by
      simp [Sender.selectAndSchedule, selectEvents, ok, anew, status, items, made]
    have composed : Composed { sender with status := status } made := by
      refine composed none ?_ (fun item mem => (mem_filter.mp mem).2) fresh
      exact distinct.sublist (filter_sublist.map _)
    have after : made.1.status = status := composed.same.1
    have sent : Sound kind (scheduleEvents made.1 made.2) :=
      composed.send quiet (by rw [after]; exact busy) (by rw [after]; exact fits)
    rw [eq]
    exact ⟨sent, by simp [none]⟩

theorem Sound.handleRequest (h : Sound kind sender) (working : sender.working)
    (fresh : sender.FreshEdus conditions.edus) (msg : Msg) :
    Sound kind (sender.handleRequest kind conditions msg) ∧
      ∀ row ∈ sender.active.rows, row ∈ (sender.handleRequest kind conditions msg).active.rows := by
  cases msg with
  | queued item => exact h.selectAndSchedule working (by simp) fresh
  | flush => exact h.selectAndSchedule working (by simp) fresh
  | badge =>
    refine h.selectAndSchedule working ?_ fresh
    split
    · simp
    · exact sender.queued.nodup_keys.sublist ((take_sublist _ _).map _)

theorem Sound.handleWake (h : Sound kind sender) (working : sender.working) (fresh : sender.FreshEdus conditions.edus) :
    Sound kind (sender.handleWake kind conditions) ∧
      ∀ row ∈ sender.active.rows, row ∈ (sender.handleWake kind conditions).active.rows := by
  have stays : Sound kind sender ∧ ∀ row ∈ sender.active.rows, row ∈ sender.active.rows := ⟨h, fun _ mem => mem⟩
  have retries : Sound kind (sender.handleForceRetry kind conditions) ∧
      ∀ row ∈ sender.active.rows, row ∈ (sender.handleForceRetry kind conditions).active.rows :=
    h.selectAndSchedule working (by simp) fresh
  unfold Sender.handleWake
  split
  · exact stays
  · exact stays
  · exact stays
  · split
    · exact stays
    · exact retries
  · exact retries
  · split
    · exact h.handleRequest working fresh .flush
    · exact stays
  · exact stays

end Select

/-! ## Leaving -/

/-- What a transaction that ended did about a row: it succeeded; or for a pusher, the event was delivered, refused for good,
redacted or gone, or it was not pushed because its pusher was gone or pushes are suppressed. -/
def Settled (kind : DestinationKind) (fate : Fate) (row : QueueItem) : Prop :=
  match kind with
  | .push => fate.pusher = .missing ∨ fate.pusher = .found ∧
    match row with
    | (key, none) => fate.suppressed ∨ fate.pdu key ≠ .pushed .transientError
    | (_, some .badgeRefresh) => fate.badge ≠ .transientError
    | _ => True
  | _ => fate.success

def Leaves (kind : DestinationKind) (sender : Sender) (event : SenderEvent) (row : QueueItem) : Prop :=
  match event with
  | .response _ fate | .finish fate =>
    ∃ transaction ∈ sender.futures, row ∈ transaction.rows ∧ eventOf row ∈ transaction.events ∧ Settled kind fate row
  | .cleanup => kind ≠ .federation
  | .restart _ keep _ => keep ≥ 0 ∧ row ∈ sender.active.rows.drop keep.toNat
  | _ => False

def Allowed (sender : Sender) : SenderEvent → Prop
  | .request conditions | .response conditions _ | .wake conditions => sender.FreshEdus conditions.edus
  | .restart netburst keep conditions => (netburst ∨ sender.keptRows keep = []) ∧ sender.FreshEdus conditions.edus
  | _ => True

section Respond

variable {kind : DestinationKind} {sender : Sender} {conditions : Conditions} {fate : Fate} {tx : Transaction}
  {row : QueueItem}

theorem settled_of_success (made : Made tx) (success : (sendEvents kind tx.events fate).1)
    (mem : row ∈ tx.rows) : Settled kind fate row := by
  have contained := made.contains row mem
  cases kind with
  | appservice => exact success
  | federation => exact success
  | push =>
    simp only [sendEvents, sendEventsDestPush] at success
    split at success
    · cases success
    next missing =>
      exact .inl missing
    next got =>
      refine .inr ⟨got, ?_⟩
      split at success
      · cases success
      rename_i badge
      obtain ⟨key, value⟩ := row
      cases value with
      | none =>
        split at success
        next suppressed =>
          exact .inl suppressed
        split at success
        next unfailed =>
          refine .inr fun transient => ?_
          have failed : key ∈ (tx.events.filterMap SendingEvent.pduId).filter fun id =>
              fate.pdu id = .pushed .transientError :=
            mem_filter.mpr ⟨mem_filterMap.mpr ⟨_, contained, rfl⟩, by simpa using transient⟩
          rw [isEmpty_iff.mp unfailed] at failed
          cases failed
        · cases success
      | some payload =>
        cases payload with
        | badgeRefresh => exact fun transient => badge ⟨contained, transient⟩
        | _ => trivial

theorem settled_of_done {id : Bytes} (mem : id ∈ (sendEvents kind tx.events fate).2) :
    .pdu id ∈ tx.events ∧ Settled kind fate (id, none) := by
  cases kind with
  | appservice => cases mem
  | federation => cases mem
  | push =>
    simp only [sendEvents, sendEventsDestPush] at mem
    split at mem
    · cases mem
    · cases mem
    next got =>
      split at mem
      · cases mem
      split at mem
      · cases mem
      split at mem
      · cases mem
      obtain ⟨pdu, done⟩ := mem_filter.mp mem
      obtain ⟨event, member, named⟩ := mem_filterMap.mp pdu
      have eq : event = .pdu id := by
        cases event with
        | pdu id' => rw [some.inj named]
        | payload => cases named
      refine ⟨eq ▸ member, .inr ⟨got, .inr fun transient => ?_⟩⟩
      simp [pdu, transient] at done

theorem mem_foldl_del {table : Store Bytes (Option Payload)} {keys : List Bytes} :
    row ∈ (keys.foldl Store.del table).rows ↔ row ∈ table.rows ∧ row.1 ∉ keys := by
  obtain ⟨key, value⟩ := row
  rw [← find_eq_some_iff, find_foldl_del, ← find_eq_some_iff]
  split <;> simp_all

theorem Sound.leaves_done (h : Sound kind sender) (inFlight : tx ∈ sender.futures)
    (mem : row ∈ sender.active.rows)
    (out : row ∉ ((sendEvents kind tx.events fate).2.foldl Store.del sender.active).rows) :
    row ∈ tx.rows ∧ eventOf row ∈ tx.events ∧ Settled kind fate row := by
  have done : row.1 ∈ (sendEvents kind tx.events fate).2 := by
    by_contra kept
    exact out (mem_foldl_del.mpr ⟨mem, kept⟩)
  obtain ⟨whole, member⟩ := (h.exact tx inFlight row).mp mem
  obtain ⟨contained, settled⟩ := settled_of_done done
  -- The key is that of a PDU of the transaction, so the row is this PDU's.
  have pdu := (h.exact tx inFlight (row.1, none)).mpr ⟨whole, (h.made tx inFlight).pdus _ contained⟩
  have eq : row.2 = none := by
    rw [← find_eq_some_iff] at pdu
    have got := find_eq_some_iff.mpr mem
    rw [pdu] at got
    exact (some.inj got).symm
  obtain ⟨key, value⟩ := row
  obtain rfl : value = none := eq
  exact ⟨member, (h.made tx inFlight).contains _ member, settled⟩

theorem handleResponseErr_spec {status : Option TransactionStatus} (busy : Busy kind status) :
    ¬Busy kind (handleResponseErr kind status).1 ∧ Fits kind (handleResponseErr kind status).1 ∧
      (handleResponseErr kind status).1 ≠ none := by
  cases kind <;> cases status with
  | none => exact busy.elim
  | some status => cases status <;> simp_all [handleResponseErr, Busy, Fits]

theorem Sound.handleResponseOk (quiet : sender.futures = []) (some : sender.status ≠ none)
    (fresh : sender.FreshEdus conditions.edus) : Sound kind (sender.handleResponseOk kind conditions) := by
  set items := sender.queued.rows.take DEQUEUE_LIMIT
  set made := (sender.deleteAllActiveRequests.markAsActive items).selectEdus kind conditions.edus items
  have eq : sender.handleResponseOk kind conditions =
      scheduleEvents { made.1 with status := made.1.status.map fun _ => .running } made.2 := rfl
  have composed : Composed sender.deleteAllActiveRequests made := by
    refine composed rfl (sender.queued.nodup_keys.sublist ((take_sublist _ _).map _)) (fun item mem => ?_) fresh
    have found := find_eq_some_iff.mpr (mem_of_mem_take mem)
    simp [deleteAllActiveRequests, Store.contains, found]
  have status : made.1.status.map (fun _ => TransactionStatus.running) = Option.some .running := by
    rw [composed.same.1]
    obtain ⟨status, found⟩ := ne_none_iff_exists'.mp some
    simp [deleteAllActiveRequests, found]
  rw [eq, status]
  exact composed.send quiet trivial trivial

theorem Sound.alone (h : Sound kind sender) {tx : Transaction} {futures : List Transaction}
    (inFlight : sender.futures = tx :: futures) : futures = [] := by
  have single := h.single
  rw [inFlight, length_cons] at single
  exact length_eq_zero_iff.mp (by omega)

theorem Sound.succeeded (h : Sound kind sender) {tx : Transaction} (hit : tx ∈ sender.futures)
    (success : (sendEvents kind tx.events fate).1) {row : QueueItem} (mem : row ∈ sender.active.rows) :
    row ∈ tx.rows ∧ eventOf row ∈ tx.events ∧ Settled kind fate row := by
  obtain ⟨-, member⟩ := (h.exact tx hit row).mp mem
  have made := h.made tx hit
  exact ⟨member, made.contains row member, settled_of_success made success member⟩

theorem Sound.handleResponse (h : Sound kind sender) (working : sender.working)
    (fresh : sender.FreshEdus conditions.edus) :
    Sound kind (sender.handleResponse kind conditions fate) ∧
      ∀ row ∈ sender.active.rows, row ∉ (sender.handleResponse kind conditions fate).active.rows →
        ∃ tx ∈ sender.futures, row ∈ tx.rows ∧ eventOf row ∈ tx.events ∧ Settled kind fate row := by
  rw [Sender.handleResponse]
  split
  · exact ⟨h, fun row mem out => absurd mem out⟩
  next tx futures inFlight =>
    have inside : tx ∈ sender.futures := inFlight ▸ mem_cons_self
    have busy := h.busy working (by simp [inFlight])
    obtain rfl := h.alone inFlight
    dsimp only
    split
    next success =>
      refine ⟨Sound.handleResponseOk rfl (fun missing => ?_) fresh, fun row mem _ =>
        ⟨tx, inside, h.succeeded inside success mem⟩⟩
      rw [show sender.status = none from missing] at busy
      exact busy
    · obtain ⟨idle, fits, some⟩ := handleResponseErr_spec busy
      have failed : Sound kind { sender with
          futures := []
          status := (handleResponseErr kind sender.status).1
          active := (sendEvents kind tx.events fate).2.foldl Store.del sender.active } := by
        constructor <;> simp [idle, fits, some]
      split
      · obtain ⟨retried, kept⟩ := @Sound.selectAndSchedule kind _ conditions [] false failed working (by simp) fresh
        refine ⟨retried, fun row mem out => ⟨tx, inside, ?_⟩⟩
        exact h.leaves_done inside mem fun still => out (kept row still)
      · exact ⟨failed, fun row mem out => ⟨tx, inside, h.leaves_done inside mem out⟩⟩

theorem Sound.finishResponse (h : Sound kind sender) (down : sender.working = false) :
    Sound kind (sender.finishResponse kind fate) ∧
      ∀ row ∈ sender.active.rows, row ∉ (sender.finishResponse kind fate).active.rows →
        ∃ tx ∈ sender.futures, row ∈ tx.rows ∧ eventOf row ∈ tx.events ∧ Settled kind fate row := by
  rw [Sender.finishResponse]
  split
  · exact ⟨h, fun row mem out => absurd mem out⟩
  next tx futures inFlight =>
    have inside : tx ∈ sender.futures := inFlight ▸ mem_cons_self
    obtain rfl := h.alone inFlight
    dsimp only
    split
    next success =>
      exact ⟨by constructor <;> simp [deleteAllActiveRequests, down], fun row mem _ =>
        ⟨tx, inside, h.succeeded inside success mem⟩⟩
    · refine ⟨by constructor <;> simp [down], fun row mem out => ⟨tx, inside, ?_⟩⟩
      exact h.leaves_done inside mem out

end Respond

/-! ## Starting and cleaning up -/

section Start

variable {kind : DestinationKind} {sender : Sender} {conditions : Conditions} {netburst : Bool} {keep : Int}
  {row : QueueItem}

theorem keptRows_subset (mem : row ∈ sender.keptRows keep) : row ∈ sender.active.rows := by
  rw [keptRows] at mem
  split at mem
  · exact mem_of_mem_take mem
  · exact mem

theorem dropped_of_not_kept (mem : row ∈ sender.active.rows) (out : row ∉ sender.keptRows keep) :
    keep ≥ 0 ∧ row ∈ sender.active.rows.drop keep.toNat := by
  rw [keptRows] at out
  split at out
  next limited =>
    rw [← take_append_drop keep.toNat sender.active.rows] at mem
    exact ⟨limited, (mem_append.mp mem).resolve_left out⟩
  · exact absurd mem out

theorem mem_active_resumeActive : row ∈ (sender.resumeActive netburst keep).active.rows ↔ row ∈ sender.keptRows keep := by
  rw [resumeActive, mem_keep]
  simp only [Prod.mk.eta, decide_eq_true_eq, and_iff_right_iff_imp]
  exact keptRows_subset

theorem sound_resumeActive (all : netburst ∨ sender.keptRows keep = []) :
    Sound kind (sender.resumeActive netburst keep) := by
  have rows := fun row => @mem_active_resumeActive sender netburst keep row
  by_cases nothing : sender.keptRows keep = []
  · have empty : (sender.resumeActive netburst keep).active.rows = [] := by
      refine eq_nil_iff_forall_not_mem.mpr fun row mem => ?_
      rw [rows, nothing] at mem
      cases mem
    have status : (sender.resumeActive netburst keep).status = none := by simp [resumeActive, nothing]
    have futures : (sender.resumeActive netburst keep).futures = [] := by simp [resumeActive, nothing]
    constructor <;> simp [status, futures, empty, Fits, Busy]
  · have on : netburst := all.resolve_right nothing
    have status : (sender.resumeActive netburst keep).status = some .running := by simp [resumeActive, nothing, on]
    have futures : (sender.resumeActive netburst keep).futures =
        [⟨(sender.keptRows keep).map eventOf, sender.keptRows keep, false⟩] := by simp [resumeActive, nothing, on]
    constructor
    case exact => simpa [futures] using fun key v => rows (key, v)
    case made => simpa [futures] using made_map (sender.keptRows keep)
    all_goals simp [status, futures, Fits, Busy]

theorem startupNetburst_spec (all : netburst ∨ sender.keptRows keep = []) (fresh : sender.FreshEdus conditions.edus) :
    Sound kind (sender.startupNetburst kind netburst keep conditions) ∧
      ∀ row ∈ sender.keptRows keep, row ∈ (sender.startupNetburst kind netburst keep conditions).active.rows := by
  have h : Sound kind (sender.resumeActive netburst keep) := sound_resumeActive all
  rw [startupNetburst]
  split
  · obtain ⟨after, kept⟩ := h.handleRequest rfl fresh .badge
    exact ⟨after, fun row mem => kept row (mem_active_resumeActive.mpr mem)⟩
  · exact ⟨h, fun row mem => mem_active_resumeActive.mpr mem⟩

theorem Sound.cleanupEvents (h : Sound kind sender) : Sound kind (sender.cleanupEvents kind) := by
  rw [Sender.cleanupEvents]
  split
  · exact h
  · constructor
    case single => simpa using h.single
    case fits => exact h.fits
    case busy => simpa using h.busy
    case idle => simpa using h.idle
    case empty => simp [Store.empty]
    case exact => simp [Store.empty]
    case made =>
      intro tx mem
      obtain ⟨old, member, rfl⟩ := mem_map.mp mem
      exact ⟨(h.made old member).contains, (h.made old member).pdus⟩

end Start

/-! ## Runs -/

variable {kind : DestinationKind}

theorem Sound.step {sender : Sender} (h : Sound kind sender) {event : SenderEvent} (ok : sender.Allowed event) :
    Sound kind (sender.step kind event) ∧
      ∀ row ∈ sender.active.rows, row ∉ (sender.step kind event).active.rows → Leaves kind sender event row := by
  have stays {next : Sender} (kept : Sound kind next ∧ ∀ row ∈ sender.active.rows, row ∈ next.active.rows) :
      Sound kind next ∧ ∀ row ∈ sender.active.rows, row ∉ next.active.rows → Leaves kind sender event row :=
    ⟨kept.1, fun row mem out => absurd (kept.2 row mem) out⟩
  cases event <;> simp only [Sender.step]
  case queue item => exact stays ⟨{ h with }, fun _ mem => mem⟩
  case flush =>
    refine stays ?_
    split
    · exact ⟨{ h with }, fun _ mem => mem⟩
    · exact ⟨h, fun _ mem => mem⟩
  case request conditions =>
    refine stays ?_
    split
    next working =>
      split
      · exact ⟨h, fun _ mem => mem⟩
      next msg channel _ =>
        have taken : Sound kind { sender with channel := channel } := { h with }
        exact taken.handleRequest working ok msg
    · exact ⟨h, fun _ mem => mem⟩
  case response conditions fate =>
    split
    next working =>
      exact h.handleResponse working ok
    · exact stays ⟨h, fun _ mem => mem⟩
  case wake conditions =>
    refine stays ?_
    split
    next working =>
      exact h.handleWake working ok
    · exact ⟨h, fun _ mem => mem⟩
  case cleanup =>
    refine ⟨h.cleanupEvents, fun row mem out federation => ?_⟩
    simp [Sender.cleanupEvents, federation, mem] at out
  case shutdown =>
    refine stays ⟨?_, fun _ mem => mem⟩
    exact ⟨h.single, by simp, by simp, by simp, by simp,
      h.exact, h.made⟩
  case finish fate =>
    split
    · exact stays ⟨h, fun _ mem => mem⟩
    next down =>
      exact h.finishResponse (by simpa using down)
  case restart netburst keep conditions =>
    obtain ⟨after, kept⟩ := @startupNetburst_spec kind sender conditions netburst keep ok.1 ok.2
    exact ⟨after, fun row mem out => dropped_of_not_kept mem fun still => out (kept row still)⟩

theorem sound_down (queued active : Store Bytes (Option Payload)) : Sound kind (down queued active) := by
  constructor <;> simp [down]

/-- At most one transaction is under way, the active rows are its rows unless the destination was cleaned up, and a row
leaves only when it is settled, dropped at a start, or cleaned up. -/
theorem active_rows_leave {queued active : Store Bytes (Option Payload)} {events : List SenderEvent}
    (admits : Admits (step kind) Allowed (down queued active) events) :
    Along (step kind)
      (fun sender => sender.futures.length ≤ 1 ∧ ∀ transaction ∈ sender.futures, ∀ row,
        row ∈ sender.active.rows ↔ transaction.cleaned = false ∧ row ∈ transaction.rows)
      (down queued active) events ∧
    Admits (step kind)
      (fun sender event => ∀ row ∈ sender.active.rows, row ∉ (sender.step kind event).active.rows →
        Leaves kind sender event row)
      (down queued active) events := by
  have keeps (sender : Sender) (event : SenderEvent) (h : Sound kind sender) (ok : sender.Allowed event) :
      Sound kind (sender.step kind event) := (h.step ok).1
  constructor
  · exact (along_of_keeps keeps (sound_down queued active) admits).imp fun sender h => ⟨h.single, h.exact⟩
  · exact admits.imp_of_keeps keeps (fun sender event h ok => (h.step ok).2) (sound_down queued active)

def quiet : Conditions := ⟨true, false, false, ⟨[], [], []⟩⟩

def arrives : Fate := ⟨true, .found, .delivered, false, fun _ => .pushed .delivered⟩

theorem freshEdus_quiet (sender : Sender) : sender.FreshEdus quiet.edus := ⟨nodup_nil, by simp [quiet]⟩

/-- There is a receipt to tell of. -/
def talking : Conditions := { quiet with edus := ⟨[([9], "receipt".toUTF8.toList)], [], []⟩ }

def resent : List SenderEvent :=
  [.restart true 50 quiet, .queue ([1], none), .request talking, .restart true 50 quiet, .response quiet arrives]

/-- A transaction that was under way when the server stopped is sent again, and its rows leave then: an event's, and that of
a receipt selected with it. -/
theorem active_rows_leave_resent :
    (run (step .federation) (down Store.empty Store.empty) (resent.take 3)).active.rows =
      [([1], none), ([9], some (.edu "receipt".toUTF8.toList))] ∧
    Along (step .federation)
      (fun sender => sender.futures.length ≤ 1 ∧ ∀ transaction ∈ sender.futures, ∀ row,
        row ∈ sender.active.rows ↔ transaction.cleaned = false ∧ row ∈ transaction.rows)
      (down Store.empty Store.empty) resent ∧
    Admits (step .federation)
      (fun sender event => ∀ row ∈ sender.active.rows, row ∉ (sender.step .federation event).active.rows →
        Leaves .federation sender event row)
      (down Store.empty Store.empty) resent :=
  ⟨by decide +kernel, active_rows_leave ⟨⟨.inl rfl, freshEdus_quiet _⟩, trivial, ⟨by decide, by decide +kernel⟩,
    ⟨.inl rfl, freshEdus_quiet _⟩, freshEdus_quiet _, trivial⟩⟩

def heldBack : Fate := ⟨true, .found, .delivered, true, fun _ => .pushed .transientError⟩

def pushing : Sender :=
  run (step .push) (down Store.empty Store.empty) [.restart true 50 quiet, .queue ([1], none), .request quiet]

def burstless : Sender :=
  run (step .federation) (down Store.empty Store.empty)
    [.restart true 50 quiet, .queue ([1], none), .request quiet, .restart false 50 quiet, .queue ([2], none), .request quiet]

def cleanedUp : Sender :=
  run (step .appservice) (down Store.empty Store.empty)
    [.restart true 50 quiet, .queue ([1], none), .request quiet, .cleanup]

/-- A push that is suppressed leaves although nothing was delivered. A row left from before a start without a burst leaves
with the success of a transaction that did not have it. Clean-up empties the active rows under a transaction. -/
theorem active_rows_leave_otherwise :
    (pushing.active.rows = [([1], none)] ∧ (pushing.step .push (.response quiet heldBack)).active.rows = [] ∧
      heldBack.pdu [1] = .pushed .transientError) ∧
    (burstless.active.rows = [([1], none), ([2], none)] ∧ burstless.futures.map Transaction.rows = [[([2], none)]] ∧
      (burstless.step .federation (.response quiet arrives)).active.rows = []) ∧
    cleanedUp.active.rows = [] ∧ cleanedUp.futures.map Transaction.rows = [[([1], none)]] := by
  decide +kernel

/-- No destination waits for a transaction that is not there: a working sender is busy exactly while one is under way, and
without a status it has no active rows. -/
theorem busy_iff_under_way {queued active : Store Bytes (Option Payload)} {events : List SenderEvent}
    (admits : Admits (step kind) Allowed (down queued active) events) :
    Along (step kind)
      (fun sender => sender.working →
        (Busy kind sender.status ↔ sender.futures ≠ []) ∧ (sender.status = none → sender.active.rows = []))
      (down queued active) events :=
  (along_of_keeps (fun _ _ h ok => (h.step ok).1) (sound_down queued active) admits).imp fun _ h works =>
    ⟨⟨fun busy none => h.idle works none busy, h.busy works⟩, h.empty works⟩

theorem busy_iff_under_way_sending :
    let sender := run (step .federation) (down Store.empty Store.empty)
      [.restart true 50 quiet, .queue ([1], none), .request talking]
    sender.active.rows.length = 2 ∧ (Busy .federation sender.status ↔ sender.futures ≠ []) := by
  refine ⟨by decide +kernel, ((busy_iff_under_way ?_).last rfl).1⟩
  exact ⟨⟨.inl rfl, freshEdus_quiet _⟩, trivial, ⟨by decide, by decide +kernel⟩, trivial⟩

end Sender

end Wbfuwunel.Sending
