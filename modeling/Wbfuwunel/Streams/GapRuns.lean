import Wbfuwunel.Streams.Push

/-! Each conversation of a registry under any number of pushes is one of `Conversation`: the entry has its counters and
the pushes hold the packs that are not settled. So what an orderly one says of its losses, the registry's flag says. -/

set_option autoImplicit false

namespace Wbfuwunel.Streams
open Foundation Conversation List Function Registry

variable {Topic User Queue Pack PackError : Type}

/-! ## The entry of one connection -/

namespace Registry

variable {registry : Registry Topic User Queue} {connection : ConnectionId}

def gapOf (registry : Registry Topic User Queue) (connection : ConnectionId) : Bool :=
  ((registry.subscribers connection).map Subscriber.gap).getD false

theorem subscribers_takeTarget_other {candidate : ConnectionId} (ne : connection ≠ candidate)
    (targets : List (Target Queue)) :
    (takeTarget (registry, targets) candidate).1.subscribers connection = registry.subscribers connection := by
  unfold takeTarget
  cases registry.subscribers candidate <;> simp [modify, ne]

theorem takeTarget_self {subscriber : Subscriber User Queue} (got : registry.subscribers connection = some subscriber) :
    (takeTarget (registry, []) connection).2 =
        [⟨connection, subscriber.queue, subscriber.id, subscriber.seq, subscriber.gap⟩] ∧
      (takeTarget (registry, []) connection).1.subscribers connection =
        some { subscriber.advance with gap := false } := by
  simp [takeTarget, got, modify]

theorem connection_of_mem_takeTarget {candidate : ConnectionId} {t : Target Queue}
    (taken : t ∈ (takeTarget (registry, []) candidate).2) : t.connection = candidate := by
  unfold takeTarget at taken
  cases got : registry.subscribers candidate with
  | none => simp [got] at taken
  | some s =>
    simp only [got, nil_append, mem_singleton] at taken
    rw [taken]

theorem subscribers_markGap (cs : List ConnectionId) : (registry.markGap cs).subscribers connection =
      if connection ∈ cs then (registry.subscribers connection).map fun existing => { existing with gap := true }
      else registry.subscribers connection := by
  induction cs generalizing registry with
  | nil => rfl
  | cons a rest ih =>
    rw [show registry.markGap (a :: rest) =
      (registry.modify a fun existing => { existing with gap := true }).markGap rest from rfl, ih]
    by_cases same : connection = a
    · subst same
      cases got : registry.subscribers connection <;> simp [modify, got]
    · simp [modify, same]

end Registry

namespace Pushing

variable {world : Pushing Topic User Queue Pack PackError} {connection : ConnectionId} {push : Push Queue Pack PackError}
  {name turn : Nat} {first : UInt32}

section Reading

variable (world : Pushing Topic User Queue Pack PackError) (connection : ConnectionId)

def targetsOf (name : Nat) : List (Target Queue × Nat) :=
  (((world.pushes name).map Push.targets).getD []).filter fun pair => pair.1.connection = connection

def droppedOf (name : Nat) : List (ConnectionId × Nat) :=
  ((world.pushes name).map Push.dropped).getD []

def AtRest : Prop :=
  ∀ name, world.targetsOf connection name = [] ∧ ∀ turn, (connection, turn) ∉ world.droppedOf name

end Reading

section Invariants

variable (connection : ConnectionId) (world : Pushing Topic User Queue Pack PackError)

def Orderly (moment : Moment Topic Pack PackError) : Prop :=
  ∀ beat ∈ ((world.step moment).log connection).drop (world.log connection).length,
    (after (world.log connection)).Orderly beat

/-- No two packs share a `seq`, a flag at rest stands for a loss that is outstanding, and whatever gets through past one
says so. -/
structure Announces : Prop where
  distinct : (seqs (world.log connection)).Nodup
  flag : world.AtRest connection → (world.registry.gapOf connection ↔ ∃ turn, Outstanding (world.log connection) turn)
  announced : Announced (world.log connection)

structure Reflects (first : UInt32) :
    Prop where
  entry : ∃ subscriber, world.registry.subscribers connection = some subscriber ∧
    subscriber.gap = (after (world.log connection)).gap ∧
    subscriber.seq = first + .ofNat (after (world.log connection)).count
  seqs : seqs (world.log connection) =
    (List.range (after (world.log connection)).count).map fun turn => first + .ofNat turn
  pending : ∀ name, (world.targetsOf connection name).map Prod.snd = (after (world.log connection)).pending name
  bits : ∀ name, ∀ pair ∈ world.targetsOf connection name, (after (world.log connection)).bit pair.2 = pair.1.gap
  dropped : ∀ name turn, (connection, turn) ∈ world.droppedOf name ↔
    (after (world.log connection)).fate turn = .dropped name

end Invariants

theorem targetsOf_update (pushes : Nat → Option (Push Queue Pack PackError)) (g : Registry Topic User Queue)
    (log : ConnectionId → List Beat) (held : Option (Push Queue Pack PackError)) (o : Nat) :
    targetsOf ⟨g, update pushes name held, log⟩ connection o =
      if o = name then ((held.map Push.targets).getD []).filter fun pair => pair.1.connection = connection
      else targetsOf ⟨g, pushes, log⟩ connection o := by
  unfold targetsOf
  split <;> simp_all

theorem droppedOf_update (pushes : Nat → Option (Push Queue Pack PackError)) (g : Registry Topic User Queue)
    (log : ConnectionId → List Beat) (held : Option (Push Queue Pack PackError)) (o : Nat) :
    droppedOf ⟨g, update pushes name held, log⟩ o =
      if o = name then (held.map Push.dropped).getD [] else droppedOf ⟨g, pushes, log⟩ o := by
  unfold droppedOf
  split <;> simp_all

theorem droppedOf_take (here : world.pushes name = some push) (candidate : ConnectionId) (rest : List ConnectionId)
    (o : Nat) : (world.take name push candidate rest).droppedOf o = world.droppedOf o := by
  simp only [Pushing.take, droppedOf_update]
  split
  case isTrue same => simp [droppedOf, same, here]
  case isFalse => rfl

namespace Reflects

theorem idle {g : Registry Topic User Queue} {s : Subscriber User Queue}
    (got : g.subscribers connection = some s) (clear : s.gap = false) :
    (idle g : Pushing Topic User Queue Pack PackError).Reflects connection s.seq where
  entry := ⟨s, got, clear, by simp [Pushing.idle, opened]⟩
  seqs := rfl
  pending := by simp [Pushing.idle, targetsOf, Conversation.pending, opened]
  bits := by simp [Pushing.idle, targetsOf]
  dropped := by simp [Pushing.idle, droppedOf, opened]

variable (reflects : world.Reflects connection first)
include reflects

theorem same {other : Pushing Topic User Queue Pack PackError}
    (eq : other.registry.subscribers connection = world.registry.subscribers connection)
    (log : other.log connection = world.log connection)
    (targets : ∀ name, other.targetsOf connection name = world.targetsOf connection name)
    (dropped : ∀ name turn, (connection, turn) ∈ other.droppedOf name ↔ (connection, turn) ∈ world.droppedOf name) :
    other.Reflects connection first := by
  obtain ⟨x, seqs, pending, bits, lost⟩ := reflects
  rw [← eq] at x
  rw [← log] at x seqs pending bits lost
  refine ⟨x, seqs, fun name => ?_, fun name => ?_, fun name turn => ?_⟩
  · rw [targets, pending]
  · rw [targets]
    exact bits name
  · rw [dropped, lost]

theorem fate_of_mem {pair : Target Queue × Nat} (held : pair ∈ world.targetsOf connection name) :
    pair.2 < (after (world.log connection)).count ∧ (after (world.log connection)).fate pair.2 = .underWay name := by
  have listed := mem_map_of_mem (f := Prod.snd) held
  rw [reflects.pending] at listed
  exact mem_pending.mp listed

/-! ## Take -/

theorem take (kept : (after (world.log connection)).Kept) (here : world.pushes name = some push)
    (rest : List ConnectionId) : (world.take name push connection rest).Reflects connection first ∧
      ∃ beat, (world.take name push connection rest).log connection = world.log connection ++ [beat] ∧
        (after (world.log connection)).Legal beat := by
  obtain ⟨s, got, gap, seq⟩ := reflects.entry
  obtain ⟨taken, entry⟩ := takeTarget_self got
  have log : (world.take name push connection rest).log connection =
      world.log connection ++ [.take name s.seq s.gap] := by simp [Pushing.take, taken]
  have step : after ((world.take name push connection rest).log connection) =
      (after (world.log connection)).follow (.take name s.seq s.gap) := by rw [log, after_concat]
  have untaken := (kept.untaken _).mpr (Nat.le_refl _)
  have targets : ∀ o, (world.take name push connection rest).targetsOf connection o =
      world.targetsOf connection o ++ if o = name then
        [(⟨connection, s.queue, s.id, s.seq, s.gap⟩, (after (world.log connection)).count)] else [] := by
    intro o
    simp only [Pushing.take, targetsOf_update, taken]
    split
    case isTrue same => simp [targetsOf, same, here]
    case isFalse => simp [targetsOf]
  refine ⟨⟨⟨_, entry, ?_, ?_⟩, ?_, fun o => ?_, fun o pair held => ?_, fun o lost => ?_⟩, _, log, gap⟩
  · rw [step]
    rfl
  · rw [step]
    simp [Subscriber.advance, follow, seq, UInt32.add_assoc]
  · rw [step, log, seqs_concat, reflects.seqs, seq]
    simp [Conversation.seqs, follow, range_succ]
  · rw [targets, step, map_append, reflects.pending, pending_take]
    split <;> rfl
  · rw [step]
    rw [targets, mem_append] at held
    rcases held with held | held
    · rw [← reflects.bits o pair held]
      exact update_of_ne (Nat.ne_of_lt (reflects.fate_of_mem held).1) ..
    · split at held
      · rw [mem_singleton] at held
        simp [held, follow]
      · cases held
  · rw [droppedOf_take here, reflects.dropped, step]
    by_cases same : lost = (after (world.log connection)).count
    · simp [same, untaken, follow]
    · simp [same, follow]

theorem take_other (here : world.pushes name = some push) {candidate : ConnectionId} (ne : connection ≠ candidate)
    (rest : List ConnectionId) : (world.take name push candidate rest).Reflects connection first ∧
      (world.take name push candidate rest).log connection = world.log connection := by
  have log : (world.take name push candidate rest).log connection = world.log connection :=
    update_of_ne ne ..
  refine ⟨reflects.same (subscribers_takeTarget_other ne _) log (fun held => ?_) fun held turn => ?_, log⟩
  · simp only [Pushing.take, targetsOf_update]
    split
    case isTrue same =>
      -- The new target is the candidate's own.
      simp only [targetsOf, same, here, Option.map_some, Option.getD_some, filter_append]
      refine append_right_eq_self.mpr (filter_eq_nil_iff.mpr fun pair taken => ?_)
      obtain ⟨t, drawn, rfl⟩ := mem_map.mp taken
      simpa [connection_of_mem_takeTarget drawn] using Ne.symm ne
    case isFalse => rfl
  · rw [droppedOf_take here]

/-! ## Send -/

variable {t : Target Queue} {rest : List (Target Queue × Nat)}

theorem settle (here : world.pushes name = some push) (whose : t.connection = connection)
    (waiting : push.targets = (t, turn) :: rest) {left : Push Queue Pack PackError} (sent : left.targets = rest)
    {beat : Beat} {fate : Fate}
    (follows : (after (world.log connection)).follow beat = (after (world.log connection)).settle turn fate)
    (settled : ∀ push, fate ≠ .underWay push) (untaking : Conversation.seqs [beat] = [])
    (lost : ∀ o, (connection, o) ∈ left.dropped ↔ (connection, o) ∈ push.dropped ∨ o = turn ∧ fate = .dropped name)
    (own : ∀ push, fate = .dropped push → push = name) :
    (world.settle name left connection beat).Reflects connection first := by
  have log : (world.settle name left connection beat).log connection = world.log connection ++ [beat] := by
    simp [Pushing.settle]
  have step : after ((world.settle name left connection beat).log connection) =
      (after (world.log connection)).settle turn fate := by rw [log, after_concat, follows]
  have held : world.targetsOf connection name = (t, turn) :: left.targets.filter fun pair =>
      pair.1.connection = connection := by simp [targetsOf, here, waiting, whose, sent]
  have queue : (after (world.log connection)).pending name = turn :: (left.targets.filter fun pair =>
      pair.1.connection = connection).map Prod.snd := by rw [← reflects.pending, held, map_cons]
  obtain ⟨-, under⟩ := mem_pending.mp (queue ▸ mem_cons_self)
  have targets : ∀ o, (world.settle name left connection beat).targetsOf connection o =
      if o = name then left.targets.filter fun pair => pair.1.connection = connection
      else world.targetsOf connection o := fun o => targetsOf_update ..
  refine ⟨?_, ?_, fun o => ?_, fun o pair among => ?_, fun o turn' => ?_⟩
  · rw [step]
    exact reflects.entry
  · rw [step, log, seqs_concat, untaking, append_nil]
    exact reflects.seqs
  · rw [targets, step]
    split
    case isTrue same => rw [same, pending_settle queue settled]
    case isFalse ne => rw [reflects.pending, pending_settle_other under settled ne]
  · rw [step]
    refine reflects.bits o pair ?_
    rw [targets] at among
    split at among
    case isTrue same =>
      rw [same, held]
      exact mem_cons_of_mem _ among
    case isFalse => exact among
  · rw [step, fate_settle]
    have dropped : (connection, turn') ∈ (world.settle name left connection beat).droppedOf o ↔
        (connection, turn') ∈ world.droppedOf o ∨ o = name ∧ turn' = turn ∧ fate = .dropped name := by
      rw [Pushing.settle, droppedOf_update]
      split
      case isTrue same => simp [same, lost, droppedOf, here]
      case isFalse ne => simp [ne, droppedOf]
    rw [dropped, reflects.dropped]
    by_cases same : turn' = turn
    · subst same
      simp only [under, reduceCtorEq, true_and, false_or]
      constructor
      · rintro ⟨rfl, now⟩
        exact now
      · intro now
        have same := own o now
        exact ⟨same, same ▸ now⟩
    · simp [same]

theorem settle_other (here : world.pushes name = some push) (whose : t.connection ≠ connection)
    (waiting : push.targets = (t, turn) :: rest) (left : Push Queue Pack PackError) (sent : left.targets = rest)
    (lost : ∀ o, (connection, o) ∈ left.dropped ↔ (connection, o) ∈ push.dropped) (beat : Beat) :
    (world.settle name left t.connection beat).Reflects connection first ∧
      (world.settle name left t.connection beat).log connection = world.log connection := by
  have log : (world.settle name left t.connection beat).log connection = world.log connection :=
    update_of_ne whose.symm ..
  refine ⟨reflects.same rfl log (fun held => ?_) fun held turn => ?_, log⟩
  · rw [Pushing.settle, targetsOf_update]
    split
    case isTrue same => simp [targetsOf, same, here, waiting, sent, whose]
    case isFalse => rfl
  · rw [Pushing.settle, droppedOf_update]
    split
    case isTrue same => simp [droppedOf, same, here, lost]
    case isFalse => rfl

theorem send (here : world.pushes name = some push) (waiting : push.targets = (t, turn) :: rest)
    (answer : Except QueueError Unit) : (world.send name push t turn rest answer).Reflects connection first ∧
      ((world.send name push t turn rest answer).log connection = world.log connection ∨
        ∃ beat, (world.send name push t turn rest answer).log connection = world.log connection ++ [beat] ∧
          (after (world.log connection)).Legal beat) := by
  by_cases whose : t.connection = connection
  · have held : (t, turn) ∈ world.targetsOf connection name := by simp [targetsOf, here, waiting, whose]
    obtain ⟨-, under⟩ := reflects.fate_of_mem held
    have bit := reflects.bits name _ held
    cases tried : push.makePack.tried t answer with
    | queued =>
      simp only [Pushing.send, tried, whose]
      refine ⟨reflects.settle here whose waiting rfl (follow_queue _) (by simp) rfl (by simp) (by simp),
        .inr ⟨.queue turn t.gap, ?_, ?_⟩⟩
      · simp [Pushing.settle]
      · exact ⟨⟨name, under⟩, bit⟩
    | dropped =>
      simp only [Pushing.send, tried, whose]
      refine ⟨reflects.settle here whose waiting rfl follow_drop (by simp) rfl (by simp) fun push same => ?_,
        .inr ⟨.drop name turn, ?_, under⟩⟩
      · cases same
        rfl
      · simp [Pushing.settle]
    | gone =>
      simp only [Pushing.send, tried, whose]
      refine ⟨reflects.settle here whose waiting rfl follow_gone (by simp) rfl (by simp) (by simp),
        .inr ⟨.gone turn, ?_, name, under⟩⟩
      simp [Pushing.settle]
  · cases tried : push.makePack.tried t answer <;> simp only [Pushing.send, tried]
    case queued | gone =>
      obtain ⟨reflects, log⟩ := reflects.settle_other here whose waiting { push with targets := rest } rfl
        (fun _ => Iff.rfl) _
      exact ⟨reflects, .inl log⟩
    case dropped =>
      obtain ⟨reflects, log⟩ := reflects.settle_other here whose waiting
        { push with targets := rest, dropped := push.dropped ++ [(t.connection, turn)] } rfl
        (by simp [Ne.symm whose]) _
      exact ⟨reflects, .inl log⟩

/-! ## Mark -/

section

variable (kept : (after (world.log connection)).Kept)
include kept

theorem mark (here : world.pushes name = some push) (sent : push.targets = []) :
    (world.mark name push).Reflects connection first ∧ ((world.mark name push).log connection = world.log connection ∨
        ∃ beat, (world.mark name push).log connection = world.log connection ++ [beat] ∧
          (after (world.log connection)).Legal beat) := by
  have held : ∀ turn, (connection, turn) ∈ push.dropped ↔ (after (world.log connection)).fate turn = .dropped name := by
    intro turn
    rw [← reflects.dropped]
    simp [droppedOf, here]
  have targets : ∀ o, (world.mark name push).targetsOf connection o = world.targetsOf connection o := by
    intro o
    rw [Pushing.mark, targetsOf_update]
    split
    case isTrue same => simp [targetsOf, same, here, sent]
    case isFalse => rfl
  have dropped : ∀ o, (world.mark name push).droppedOf o = if o = name then [] else world.droppedOf o :=
    fun o => droppedOf_update ..
  have g : (world.mark name push).registry.subscribers connection = if connection ∈ push.dropped.map Prod.fst then
        (world.registry.subscribers connection).map fun existing => { existing with gap := true }
      else world.registry.subscribers connection := subscribers_markGap _
  by_cases among : connection ∈ push.dropped.map Prod.fst
  · have log : (world.mark name push).log connection = world.log connection ++ [.mark name] := if_pos among
    have step : after ((world.mark name push).log connection) = (after (world.log connection)).follow (.mark name) := by
      rw [log, after_concat]
    obtain ⟨s, got, -, seq⟩ := reflects.entry
    rw [if_pos among, got] at g
    refine ⟨⟨⟨_, g, ?_, ?_⟩, ?_, fun o => ?_, fun o => ?_, fun o turn => ?_⟩, .inr ⟨_, log, trivial⟩⟩
    · obtain ⟨⟨_, turn⟩, lost, rfl⟩ := mem_map.mp among
      have owed := owes_iff.mpr ⟨turn, kept.lt_count turn (by simp [(held turn).mp lost]), (held turn).mp lost⟩
      rw [step]
      simp [follow, owed]
    · rw [step]
      exact seq
    · rw [step, log, seqs_concat]
      exact (append_nil _).trans reflects.seqs
    · rw [targets, reflects.pending, step, pending_mark]
    · rw [targets, step]
      exact reflects.bits o
    · rw [dropped, step]
      by_cases lost : (after (world.log connection)).fate turn = .dropped name
      · by_cases same : o = name
        · simp [same, follow, lost]
        · simp [Ne.symm same, follow, lost, reflects.dropped]
      · by_cases same : o = name
        · simp [same, follow, lost]
        · simp [same, follow, lost, reflects.dropped]
  · have log : (world.mark name push).log connection = world.log connection := if_neg among
    refine ⟨reflects.same (g.trans (if_neg among)) log targets fun o turn => ?_, .inl log⟩
    rw [dropped]
    split
    case isTrue same =>
      have : (connection, turn) ∉ push.dropped := fun lost => among (mem_map_of_mem (f := Prod.fst) lost)
      simp [droppedOf, same, here, this]
    case isFalse => rfl

/-! ## Runs -/

theorem step (moment : Moment Topic Pack PackError) : (world.step moment).Reflects connection first ∧
      ((world.step moment).log connection = world.log connection ∨
        ∃ beat, (world.step moment).log connection = world.log connection ++ [beat] ∧
          (after (world.log connection)).Legal beat) := by
  cases moment with
  | start name topic cs makePack =>
    cases here : world.pushes name with
    | some push => simpa [Pushing.step, here] using reflects
    | none =>
      simp only [Pushing.step, here]
      refine ⟨reflects.same rfl rfl (fun o => ?_) fun o turn => ?_, .inl trivial⟩
      · rw [targetsOf_update]
        split
        case isTrue same => simp [targetsOf, same, here]
        case isFalse => rfl
      · rw [droppedOf_update]
        split
        case isTrue same => simp [droppedOf, same, here]
        case isFalse => rfl
  | take name =>
    rcases world.step_take name with same | ⟨push, candidate, rest, here, -, next⟩
    · rw [same]
      exact ⟨reflects, .inl rfl⟩
    rw [next]
    by_cases whose : connection = candidate
    · subst whose
      obtain ⟨reflects, added⟩ := reflects.take kept here rest
      exact ⟨reflects, .inr added⟩
    · obtain ⟨reflects, log⟩ := reflects.take_other here whose rest
      exact ⟨reflects, .inl log⟩
  | send name answer =>
    cases here : world.pushes name with
    | none => simpa [Pushing.step, here] using reflects
    | some push =>
      cases waiting : push.candidates with
      | cons candidate rest => simpa [Pushing.step, here, waiting] using reflects
      | nil =>
        cases held : push.targets with
        | nil => simpa [Pushing.step, here, held] using reflects
        | cons pair rest =>
          simp only [Pushing.step, here, waiting, held]
          exact reflects.send here held answer
  | mark name =>
    rcases world.step_mark name with same | ⟨push, here, -, held, next⟩
    · rw [same]
      exact ⟨reflects, .inl rfl⟩
    · rw [next]
      exact reflects.mark kept here held

theorem settled (rest : world.AtRest connection) : (after (world.log connection)).Settled := by
  intro turn name
  constructor
  · intro under
    have listed := mem_pending.mpr ⟨kept.lt_count turn (by simp [under]), under⟩
    rw [← reflects.pending, (rest name).1] at listed
    cases listed
  · exact fun dropped => (rest name).2 turn ((reflects.dropped name turn).mpr dropped)

end

theorem gapOf_eq : world.registry.gapOf connection = (after (world.log connection)).gap := by
  obtain ⟨s, got, gap, -⟩ := reflects.entry
  simp [gapOf, got, gap]

theorem nodup_seqs (few : (after (world.log connection)).count ≤ 2 ^ 32) :
    (Conversation.seqs (world.log connection)).Nodup := by
  rw [reflects.seqs]
  refine nodup_range.map_on fun turn listed o listed' same => ?_
  have equal := (UInt32.add_right_inj first).mp same
  rw [mem_range] at listed listed'
  have := congrArg UInt32.toNat equal
  simp only [UInt32.toNat_ofNat'] at this
  omega

end Reflects

structure Sound (connection : ConnectionId) (first : UInt32) (world : Pushing Topic User Queue Pack PackError) :
    Prop where
  reflects : world.Reflects connection first
  log : Conversation.Sound (world.log connection)
  few : (after (world.log connection)).count ≤ 2 ^ 32

theorem Sound.step (sound : world.Sound connection first) {moment : Moment Topic Pack PackError}
    (orderly : world.Orderly connection moment) : (world.step moment).Sound connection first := by
  obtain ⟨reflects, same | ⟨beat, log, legal⟩⟩ := sound.reflects.step sound.log.kept moment
  · exact ⟨reflects, same ▸ sound.log, same ▸ sound.few⟩
  · have inOrder : (after (world.log connection)).Orderly beat := orderly beat (by simp [log])
    refine ⟨reflects, log ▸ sound.log.concat legal inOrder, ?_⟩
    rw [log, after_concat]
    exact inOrder.count_le sound.few

theorem Sound.announces (sound : world.Sound connection first) : world.Announces connection where
  distinct := sound.reflects.nodup_seqs sound.few
  flag rest := by
    rw [sound.reflects.gapOf_eq]
    exact sound.log.gap_iff (sound.reflects.settled sound.log.kept rest)
  announced := sound.log.announced

/-- Where pushes keep to the order, however they overlap, each loss is told by the next pack that gets through. -/
theorem losses_announced {registry : Registry Topic User Queue} {subscriber : Subscriber User Queue}
    (found : registry.subscribers connection = some subscriber) (clear : subscriber.gap = false)
    {moments : List (Moment Topic Pack PackError)}
    (orderly : Admits step (Orderly connection) (idle registry) moments) :
    Along step (Announces connection) (idle registry) moments := by
  have start : (idle registry : Pushing Topic User Queue Pack PackError).Sound connection subscriber.seq :=
    ⟨.idle found clear, .nil, Nat.zero_le _⟩
  have throughout : Along step (Sound connection subscriber.seq) (idle registry) moments :=
    along_of_keeps (fun _ _ sound orderly => sound.step orderly) start orderly
  exact throughout.imp fun _ sound => sound.announces

def listening : Registry Unit Unit Unit := (new.subscribe .many 7 () () 42 [()]).1

def pushTo7 (push : Nat) : Moment Unit Unit Unit := .start push (some ()) [7] fun _ _ _ => .ok ()

/-- Two pushes overlap and both fail, the second with the news of the first; then two overlap and both get through, the
first taken with the news of both. -/
theorem losses_announced_overlapping : let moments : List (Moment Unit Unit Unit) :=
      [pushTo7 0, pushTo7 1, .take 0, .send 0 (.error .full), .mark 0, .take 1, pushTo7 2, .send 1 (.error .full),
        .mark 1, pushTo7 3, .take 2, .take 3, .send 2 (.ok ()), .send 3 (.ok ()), .mark 3, .mark 2]
    (run step (idle listening) moments).log 7 = [.take 0 0 false, .drop 0 0, .mark 0, .take 1 1 true, .drop 1 1,
      .mark 1, .take 2 2 true, .take 3 3 false, .queue 2 true, .queue 3 false] ∧
      Along step (Announces 7) (idle listening) moments := by
  intro moments
  have got : listening.subscribers 7 = some (.opened () () 42) := by rfl
  refine ⟨by decide, losses_announced got rfl ?_⟩
  unfold moments
  simp only [Admits, Orderly]
  decide

/-- The queue is full for the first pack and has room again for the second, which was taken before the loss was marked:
it goes through without a word, and the flag is left for a third that may never come. -/
theorem loss_overtaken : let moments : List (Moment Unit Unit Unit) :=
      [pushTo7 0, pushTo7 1, .take 0, .take 1, .send 0 (.error .full), .mark 0, .send 1 (.ok ()), .mark 1]
    let world := run step (idle listening) moments
    world.AtRest 7 ∧ world.registry.gapOf 7 ∧ (¬∃ turn, Outstanding (world.log 7) turn) ∧ ¬Announced (world.log 7) := by
  intro moments world
  have finished : ∀ name, world.pushes name = none := by
    intro name
    rcases name with _ | _ | name <;> rfl
  have log : world.log 7 =
      [] ++ [.take 0 0 false] ++ [.take 1 1 false] ++ [.drop 0 0] ++ [.mark 0] ++ [.queue 1 false] := by decide
  refine ⟨fun name => ?_, by decide, ?_, ?_⟩
  · simp [targetsOf, droppedOf, finished]
  · rw [log]
    simp only [outstanding_concat, not_outstanding_nil, Beat.QueuesAfter]
    simp
  · rw [log, announced_concat]
    rintro ⟨-, last⟩
    have outstanding : Outstanding ([] ++ [.take 0 0 false] ++ [.take 1 1 false] ++ [.drop 0 0] ++ [.mark 0]) 0 := by
      simp only [outstanding_concat, Beat.QueuesAfter]
      simp
    cases last 1 false rfl 0 Nat.one_pos outstanding

end Pushing
end Wbfuwunel.Streams
