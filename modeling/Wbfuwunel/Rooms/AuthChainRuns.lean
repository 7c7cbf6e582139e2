import Wbfuwunel.Rooms.AuthChainReturns
import Wbfuwunel.Rooms.AuthChainWalk

/-! What the cache of auth chains holds in every state, and what a call returns. -/

set_option autoImplicit false

namespace Wbfuwunel.Rooms.AuthChain

open Foundation List Service Chunk

/-! ## Chains that are built -/

namespace Building

def Sound (events : Events) (tables : Tables) (room : RoomId) (sure : Prop) (event : EventId) : Building → Prop
  | asking => sure → Known events tables room event
  | walking walk => walk.Sound events tables room sure event
  | built chain complete => (complete → Exact events tables [event] chain) ∧ (sure → complete)

variable {es : Events} {t next : Tables} {r : RoomId} {sure : Prop} {building : Building}

theorem Sound.mono {e : EventId} (h : Sound es t r sure e building)
    (ext' : t.Extends next) : Sound es next r sure e building := by
  cases building with
  | asking => exact fun certain => (h certain).mono ext'
  | walking walk => exact Walk.Sound.mono h ext'
  | built chain complete => exact ⟨fun whole => (h.1 whole).mono ext', h.2⟩

theorem Sound.step {starting : Starting} (h : Sound es t r sure starting.2 building)
    (numbered : t.short starting.2 = some starting.1) (ok : Coherent es t) (action : BuildAction)
    (unused : ∀ n ∈ action.count, t.Unused n) :
    let after := building.step es r t starting action
    Coherent es after.1 ∧ t.Extends after.1 ∧ Sound es after.1 r sure starting.2 after.2 := by
  have alone : ∀ start ∈ [starting], t.short start.2 = some start.1 := by simpa using numbered
  cases action with
  | lookup =>
    unfold Building.step
    dsimp only
    split
    · split
      next chain cached =>
        exact ⟨ok, .refl t, fun _ => ok.hit alone cached, fun _ => rfl⟩
      · exact ⟨ok, .refl t, Walk.sound_start h⟩
    · exact ⟨ok, .refl t, h⟩
  | walk action =>
    unfold Building.step
    dsimp only
    split
    · exact Walk.Sound.step h ok action unused
    · exact ⟨ok, .refl t, h⟩
  | finish =>
    unfold Building.step
    dsimp only
    split
    next walk =>
      split
      next ended =>
        rw [Bool.and_eq_true, List.isEmpty_iff, List.isEmpty_iff] at ended
        have exact : walk.complete → Exact es t [starting.2] walk.chain :=
          fun complete => Walk.Sound.exact h complete ended.1 ended.2
        have sure : _ → walk.complete := fun certain => ((h : walk.Sound ..).sure certain).2.1
        split
        next complete =>
          exact ⟨ok.put alone (exact complete), extends_put .., fun _ => (exact complete).mono (extends_put ..), sure⟩
        · exact ⟨ok, .refl t, exact, sure⟩
      · exact ⟨ok, .refl t, h⟩
    · exact ⟨ok, .refl t, h⟩

end Building

namespace Chunk

def StageSound (events : Events) (tables : Tables) (room : RoomId) (sure : Prop) (starting : List Starting) :
    ChunkStage → Prop
  | .asking => True
  | .building builders => builders.map Prod.fst = starting ∧
    ∀ builder ∈ builders, builder.2.Sound events tables room sure builder.1.2
  | .done chain => sure → Exact events tables (starting.map Prod.snd) chain

structure Sound (events : Events) (tables : Tables) (room : RoomId) (sure : Prop) (chunk : Chunk) : Prop where
  numbered : ∀ start ∈ chunk.starting, tables.short start.2 = some start.1
  known : sure → ∀ start ∈ chunk.starting, Known events tables room start.2
  stage : StageSound events tables room sure chunk.starting chunk.stage

variable {es : Events} {t next : Tables} {r : RoomId} {sure : Prop} {chunk : Chunk} (h : Sound es t r sure chunk)
include h

theorem Sound.mono (ext' : t.Extends next) : Sound es next r sure chunk where
  numbered start mem := ext'.shorts (h.numbered start mem)
  known certain start mem := (h.known certain start mem).mono ext'
  stage := by
    have stage := h.stage
    cases eq : chunk.stage <;> rw [eq] at stage
    · exact stage
    · exact ⟨stage.1, fun builder mem => (stage.2 builder mem).mono ext'⟩
    · exact fun certain => (stage certain).mono ext'

omit h in
@[simp] theorem starting_step (action : ChunkAction) : (chunk.step es r t action).2.starting = chunk.starting := by
  cases action <;> rw [step] <;> repeat' (first | rfl | split)

variable {builders : List (Starting × Building)}

theorem Sound.build (stage : chunk.stage = .building builders) {pos : Nat} {builder : Starting × Building}
    (stands : builders[pos]? = some builder) (ext' : t.Extends next) {building : Building}
    (after : building.Sound es next r sure builder.1.2) :
    Sound es next r sure { chunk with stage := .building (builders.set pos (builder.1, building)) } := by
  have before : StageSound es t r sure chunk.starting (.building builders) := stage ▸ h.stage
  refine ⟨(h.mono ext').numbered, (h.mono ext').known, ?_, fun o mem => ?_⟩
  · exact (map_set_of_eq Prod.fst (builder.1, building) stands rfl).trans before.1
  · rcases mem_or_eq_of_mem_set mem with old | rfl
    · exact (before.2 o old).mono ext'
    · exact after

theorem Sound.exact (stage : chunk.stage = .building builders) (built : ∀ builder ∈ builders, builder.2.isBuilt = true)
    (complete : ∀ builder ∈ builders, builder.2.complete) :
    Exact es t (chunk.starting.map Prod.snd) (collectChains (builders.map fun builder => builder.2.chain)) := by
  have old : StageSound es t r sure chunk.starting (.building builders) := stage ▸ h.stage
  have parts : ∀ part ∈ builders.map fun builder => ([builder.1.2], builder.2.chain), Exact es t part.1 part.2 := by
    intro part mem
    obtain ⟨⟨start, building⟩, member, rfl⟩ := mem_map.mp mem
    have one := old.2 _ member
    cases building with
    | asking => cases built _ member
    | walking walk => cases built _ member
    | built chain whole => exact one.1 (complete _ member)
  have exact := @exact_collectChains es t (chunk.starting.map Prod.snd) _ (by simp [← old.1]) parts
  rwa [map_map] at exact

theorem Sound.step (ok : Coherent es t) (action : ChunkAction)
    (unused : ∀ n ∈ action.count, t.Unused n) : let after := chunk.step es r t action
    Coherent es after.1 ∧ t.Extends after.1 ∧ Sound es after.1 r sure after.2 := by
  cases action with
  | lookup =>
    rw [Chunk.step]
    split
    · split
      next chain cached =>
        exact ⟨ok, .refl t, h.numbered, h.known, fun _ => ok.hit h.numbered cached⟩
      · refine ⟨ok, .refl t, h.numbered, h.known, by simp [Function.comp_def], fun builder mem => ?_⟩
        obtain ⟨start, member, rfl⟩ := mem_map.mp mem
        exact fun certain => h.known certain start member
    · exact ⟨ok, .refl t, h⟩
  | build pos action =>
    rw [Chunk.step]
    split
    next builders stage =>
      split
      next builder stands =>
        have old : StageSound es t r sure chunk.starting (.building builders) := stage ▸ h.stage
        have mem : builder ∈ builders := mem_of_getElem? stands
        have start : builder.1 ∈ chunk.starting := old.1 ▸ mem_map_of_mem mem
        obtain ⟨after, ext', built⟩ :=
          (old.2 builder mem).step (h.numbered _ start) ok action unused
        exact ⟨after, ext', h.build stage stands ext' built⟩
      · exact ⟨ok, .refl t, h⟩
    · exact ⟨ok, .refl t, h⟩
  | finish =>
    rw [Chunk.step]
    split
    next builders stage =>
      have old : StageSound es t r sure chunk.starting (.building builders) := stage ▸ h.stage
      split
      next built =>
        rw [all_eq_true] at built
        split
        next complete =>
          rw [all_eq_true] at complete
          have exact := h.exact stage built complete
          have after := h.mono (extends_put t chunk.key (collectChains (builders.map fun builder => builder.2.chain)))
          exact ⟨ok.put h.numbered exact, extends_put .., after.numbered, after.known,
            fun _ => exact.mono (extends_put ..)⟩
        next incomplete =>
          refine ⟨ok, .refl t, h.numbered, h.known, fun certain => (incomplete ?_).elim⟩
          rw [all_eq_true]
          intro builder mem
          have one := old.2 builder mem
          obtain ⟨start, building⟩ := builder
          cases building with
          | asking => rfl
          | walking walk => rfl
          | built chain whole => exact one.2 certain
      · exact ⟨ok, .refl t, h⟩
    · exact ⟨ok, .refl t, h⟩

end Chunk

/-! ## Calls -/

namespace Call

def StageSound (events : Events) (tables : Tables) (room : RoomId) (sure : Prop) (startingEvents : List EventId) :
    CallStage → Prop
  | .bucketing rest buckets => buckets.length = NUM_BUCKETS ∧ (∀ event ∈ rest, event ∈ startingEvents) ∧
    (∀ event ∈ startingEvents, event ∈ rest ∨ ∃ bucket ∈ buckets, ∃ short, toLex (short, event) ∈ bucket) ∧
    ∀ bucket ∈ buckets, ∀ start ∈ bucket, (ofLex start).2 ∈ startingEvents ∧
      tables.short (ofLex start).2 = some (ofLex start).1
  | .collecting chunks => (∀ event, event ∈ startingEvents ↔ ∃ chunk ∈ chunks, event ∈ chunk.starting.map Prod.snd) ∧
    ∀ chunk ∈ chunks, chunk.Sound events tables room sure
  | .done chain => chain.Pairwise (· < ·) ∧ (sure → Exact events tables startingEvents chain)
  | .dropped => True

structure Sound (events : Events) (tables : Tables) (sure : Prop) (call : Call) : Prop where
  known : sure → ∀ event ∈ call.startingEvents, Known events tables call.roomId event
  stage : StageSound events tables call.roomId sure call.startingEvents call.stage

variable {es : Events} {t next : Tables} {sure : Prop} {c : Call} (h : Sound es t sure c)
include h

theorem Sound.mono (ext' : t.Extends next) : Sound es next sure c where
  known certain e mem := (h.known certain e mem).mono ext'
  stage := by
    have stage := h.stage
    cases eq : c.stage <;> rw [eq] at stage
    · exact ⟨stage.1, stage.2.1, stage.2.2.1, fun bucket mem start member =>
        ⟨(stage.2.2.2 bucket mem start member).1, ext'.shorts (stage.2.2.2 bucket mem start member).2⟩⟩
    · exact ⟨stage.1, fun chunk mem => (stage.2 chunk mem).mono ext'⟩
    · exact ⟨stage.1, fun certain => (stage.2 certain).mono ext'⟩
    · trivial

omit h in
theorem sound_start (r : RoomId) (startingEvents : List EventId) (known : sure → ∀ e ∈ startingEvents, Known es t r e) :
    Sound es t sure (start r startingEvents) where
  known := known
  stage := by
    refine ⟨length_replicate, fun _ mem => mem, fun _ mem => .inl mem, fun bucket mem start member => ?_⟩
    rw [eq_of_mem_replicate mem] at member
    simp at member

variable {buckets : List Bucket} {chunks : List Chunk}

theorem Sound.bucket {event : EventId} {rest : List EventId} (stage : c.stage = .bucketing (event :: rest) buckets)
    (ext' : t.Extends next) {k : ShortEventId} (ok : next.short event = some k) :
    Sound es next sure { c with
      stage := .bucketing rest (buckets.modify (k.toNat % NUM_BUCKETS) (insert (toLex (k, event)))) } := by
  have after := h.mono ext'
  refine ⟨after.known, ?_⟩
  have before : StageSound es next c.roomId sure c.startingEvents (.bucketing (event :: rest) buckets) :=
    stage ▸ after.stage
  obtain ⟨length, fewer, placed, inBucket⟩ := before
  have pos : k.toNat % NUM_BUCKETS < buckets.length := by
    rw [length]
    exact Nat.mod_lt _ (by decide)
  refine ⟨by simpa using length, fun o mem => fewer o (by simp [mem]), fun o mem => ?_, fun bucket mem start member => ?_⟩
  · -- What was in a bucket is still there, and the event is in its own.
    have kept (bucket : Bucket) (old : bucket ∈ buckets) : ∃ larger ∈ buckets.modify (k.toNat % NUM_BUCKETS)
        (insert (toLex (k, event))), bucket ⊆ larger := by
      obtain ⟨i, stands⟩ := mem_iff_getElem?.mp old
      refine ⟨if k.toNat % NUM_BUCKETS = i then insert (toLex (k, event)) bucket else bucket,
        mem_iff_getElem?.mpr ⟨i, ?_⟩, ?_⟩
      · rw [getElem?_modify, stands]
        split <;> rfl
      · split
        · exact Finset.subset_insert _ _
        · exact Finset.Subset.refl _
    rcases placed o mem with wait | ⟨bucket, old, given, member⟩
    · rcases mem_cons.mp wait with rfl | later
      · refine .inr ⟨insert (toLex (k, o)) buckets[k.toNat % NUM_BUCKETS], mem_iff_getElem?.mpr
          ⟨k.toNat % NUM_BUCKETS, ?_⟩, k, Finset.mem_insert_self _ _⟩
        simp [getElem?_eq_getElem pos]
      · exact .inl later
    · obtain ⟨larger, still, subset⟩ := kept bucket old
      exact .inr ⟨larger, still, given, subset member⟩
  · obtain ⟨i, stands⟩ := mem_iff_getElem?.mp mem
    rw [getElem?_modify, Option.map_eq_map, Option.map_eq_some_iff] at stands
    obtain ⟨old, held, rfl⟩ := stands
    have known := inBucket old (mem_of_getElem? held)
    split at member
    · rcases Finset.mem_insert.mp member with rfl | before
      · exact ⟨fewer event (by simp), ok⟩
      · exact known start before
    · exact known start member

theorem Sound.collect (stage : c.stage = .bucketing [] buckets) : Sound es t sure { c with
      stage := .collecting (buckets.map fun bucket => ⟨bucket.starting, .asking⟩) } := by
  have before : StageSound es t c.roomId sure c.startingEvents (.bucketing [] buckets) := stage ▸ h.stage
  obtain ⟨-, -, placed, inBucket⟩ := before
  have members (bucket : Bucket) (start : Starting) : start ∈ bucket.starting ↔ toLex start ∈ bucket := by
    simp [Bucket.starting]
  refine ⟨h.known, fun e => ⟨fun mem => ?_, ?_⟩, fun chunk mem => ?_⟩
  · obtain ⟨bucket, old, k, member⟩ := (placed e mem).resolve_left (by simp)
    exact ⟨_, mem_map_of_mem old, mem_map.mpr ⟨(k, e), (members bucket _).mpr member, rfl⟩⟩
  · rintro ⟨chunk, mem, member⟩
    obtain ⟨bucket, old, rfl⟩ := mem_map.mp mem
    obtain ⟨start, ls, rfl⟩ := mem_map.mp member
    exact (inBucket bucket old _ ((members bucket start).mp ls)).1
  · obtain ⟨bucket, old, rfl⟩ := mem_map.mp mem
    have known (start : Starting) (ls : start ∈ bucket.starting) := inBucket bucket old _ ((members bucket start).mp ls)
    exact ⟨fun start ls => (known start ls).2, fun certain start ls => h.known certain _ (known start ls).1, trivial⟩

theorem Sound.chunk (stage : c.stage = .collecting chunks) {pos : Nat} {chunk changed : Chunk}
    (stands : chunks[pos]? = some chunk) (eq : changed.starting = chunk.starting) (ext' : t.Extends next)
    (after : changed.Sound es next c.roomId sure) :
    Sound es next sure { c with stage := .collecting (chunks.set pos changed) } := by
  have later := h.mono ext'
  have before : StageSound es next c.roomId sure c.startingEvents (.collecting chunks) := stage ▸ later.stage
  refine ⟨later.known, fun e => (before.1 e).trans ?_, fun o mem => ?_⟩
  · rw [← mem_flatMap, ← mem_flatMap, flatMap_def, flatMap_def,
      map_set_of_eq _ changed stands (congrArg (List.map Prod.snd) eq)]
  · rcases mem_or_eq_of_mem_set mem with old | rfl
    · exact before.2 o old
    · exact after

theorem Sound.finish (stage : c.stage = .collecting chunks) (done : ∀ chunk ∈ chunks, chunk.isDone) :
    Sound es t sure { c with stage := .done (collectChains (chunks.map chain)) } := by
  have old : StageSound es t c.roomId sure c.startingEvents (.collecting chunks) := stage ▸ h.stage
  refine ⟨h.known, pairwise_collectChains _, fun certain => ?_⟩
  have parts : ∀ part ∈ chunks.map fun chunk => (chunk.starting.map Prod.snd, chunk.chain), Exact es t part.1 part.2 := by
    intro part mem
    obtain ⟨chunk, member, rfl⟩ := mem_map.mp mem
    have finished := done chunk member
    have exact := (old.2 chunk member).stage
    rw [isDone] at finished
    rw [chain]
    split at finished
    next chain eq =>
      rw [eq] at exact
      exact exact certain
    · cases finished
  have exact := exact_collectChains (fun e => (old.1 e).trans (by simp)) parts
  rwa [map_map] at exact

omit h in
theorem same_step (c : Call) (action : CallAction) : (c.step es t action).2.roomId = c.roomId ∧
    (c.step es t action).2.startingEvents = c.startingEvents := by
  cases action <;> unfold Call.step <;> repeat' (first | exact ⟨rfl, rfl⟩ | split)

theorem Sound.step (ok : Coherent es t) (action : CallAction)
    (unused : ∀ n ∈ action.count, t.Unused n) : let after := c.step es t action
    Coherent es after.1 ∧ t.Extends after.1 ∧ Sound es after.1 sure after.2 := by
  cases action with
  | bucket n =>
    unfold Call.step
    dsimp only
    split
    next e rest buckets stage =>
      obtain ⟨after, ext', numbered⟩ := getOrCreateShorteventid_spec ok (unused n rfl) e
      exact ⟨after, ext', h.bucket stage ext' numbered⟩
    · exact ⟨ok, .refl t, h⟩
  | collect =>
    unfold Call.step
    dsimp only
    split
    next buckets stage =>
      exact ⟨ok, .refl t, h.collect stage⟩
    · exact ⟨ok, .refl t, h⟩
  | chunk pos action =>
    unfold Call.step
    dsimp only
    split
    next chunks stage =>
      split
      next chunk stands =>
        have old : StageSound es t c.roomId sure c.startingEvents (.collecting chunks) := stage ▸ h.stage
        obtain ⟨after, ext', later⟩ := (old.2 chunk (mem_of_getElem? stands)).step ok action unused
        exact ⟨after, ext', h.chunk stage stands (starting_step action) ext' later⟩
      · exact ⟨ok, .refl t, h⟩
    · exact ⟨ok, .refl t, h⟩
  | finish =>
    unfold Call.step
    dsimp only
    split
    next chunks stage =>
      split
      next done =>
        exact ⟨ok, .refl t, h.finish stage (all_eq_true.mp done)⟩
      · exact ⟨ok, .refl t, h⟩
    · exact ⟨ok, .refl t, h⟩

end Call

/-! ## Runs -/

namespace Service

/-- The numbers that are drawn are new. -/
def Allowed (service : Service) : Event → Prop
  | .tick _ action => ∀ count ∈ action.count, service.tables.Unused count
  | _ => True

structure Sound (events : Events) (service : Service) : Prop where
  coherent : Coherent events service.tables
  calls : ∀ call ∈ service.calls, call.Sound events service.tables False

structure Sure (events : Events) (position : Nat) (room : RoomId) (startingEvents : List EventId) (service : Service) :
    Prop where
  sound : service.Sound events
  call : ∃ call, service.calls[position]? = some call ∧ call.roomId = room ∧ call.startingEvents = startingEvents ∧
    call.Sound events service.tables True

variable {es : Events} {v : Service}

theorem sound_empty : Sound es empty where
  coherent := ⟨by simp [empty, Tables.short, Store.empty, Store.find], by simp [empty, Store.empty]⟩
  calls := by simp [empty]

variable {e : Event}

theorem extends_step (h : v.Sound es) (ok : v.Allowed e) :
    Coherent es (v.step es e).tables ∧ v.tables.Extends (v.step es e).tables := by
  have eq {cache : Store Bytes Bytes} (fewer : ∀ row ∈ cache.rows, row ∈ v.tables.authchainkeyAuthchain.rows) :
      Coherent es { v.tables with authchainkeyAuthchain := cache } ∧
        v.tables.Extends { v.tables with authchainkeyAuthchain := cache } :=
    have ext' : v.tables.Extends { v.tables with authchainkeyAuthchain := cache } :=
      ⟨fun _ mem => mem, fun eq => eq⟩
    ⟨h.coherent.rows_mono ext' h.coherent.distinct fewer, ext'⟩
  cases e with
  | store e =>
    have ext' : v.tables.Extends { v.tables with stored := insert e v.tables.stored } :=
      ⟨Finset.subset_insert _ _, fun eq => eq⟩
    exact ⟨h.coherent.rows_mono ext' h.coherent.distinct fun _ mem => mem, ext'⟩
  | getAuthChain r startingEvents => exact ⟨h.coherent, .refl _⟩
  | tick pos action =>
    rw [step]
    split
    next c stands =>
      obtain ⟨after, ext', -⟩ :=
        (h.calls c (mem_of_getElem? stands)).step h.coherent action ok
      exact ⟨after, ext'⟩
    · exact ⟨h.coherent, .refl _⟩
  | drop pos => exact ⟨h.coherent, .refl _⟩
  | evict k => exact eq fun row mem => (Store.mem_keep.mp mem).1
  | clearCache => exact eq fun row mem => by cases mem

theorem calls_step (h : v.Sound es) (ok : v.Allowed e) {sure : Prop} {pos : Nat}
    {call : Call} (stands : v.calls[pos]? = some call) (old : call.Sound es v.tables sure) :
    ∃ after, (v.step es e).calls[pos]? = some after ∧ after.roomId = call.roomId ∧
      after.startingEvents = call.startingEvents ∧ after.Sound es (v.step es e).tables sure := by
  have ext' := (extends_step h ok).2
  have kept (eq : (v.step es e).calls[pos]? = some call) :
      ∃ after, (v.step es e).calls[pos]? = some after ∧ after.roomId = call.roomId ∧
        after.startingEvents = call.startingEvents ∧ after.Sound es (v.step es e).tables sure :=
    ⟨call, eq, rfl, rfl, old.mono ext'⟩
  cases e with
  | store | evict | clearCache => exact kept stands
  | getAuthChain r startingEvents =>
    refine kept ?_
    rw [step, List.getElem?_append_left (List.getElem?_eq_some_iff.mp stands).1, stands]
  | tick i action =>
    by_cases this : i = pos
    · subst this
      obtain ⟨-, -, after⟩ := old.step h.coherent action ok
      rw [step, stands]
      exact ⟨_, List.getElem?_set_self (List.getElem?_eq_some_iff.mp stands).1, (call.same_step action).1,
        (call.same_step action).2, after⟩
    · refine kept ?_
      rw [step]
      split
      · rw [getElem?_set_ne this, stands]
      · exact stands
  | drop i =>
    by_cases this : i = pos
    · subst this
      exact ⟨{ call with stage := .dropped }, by simp [step, stands], rfl, rfl, (old.mono ext').known, trivial⟩
    · refine kept ?_
      simp [step, this, stands]

theorem Sound.step (sound : v.Sound es) (ok : v.Allowed e) : (v.step es e).Sound es where
  coherent := (extends_step sound ok).1
  calls c mem := by
    obtain ⟨pos, stands⟩ := mem_iff_getElem?.mp mem
    -- A call was there before, or it is the one just made.
    cases before : v.calls[pos]? with
    | some old =>
      obtain ⟨after, eq, -, -, sound⟩ :=
        calls_step sound ok before (sound.calls old (mem_of_getElem? before))
      cases stands.symm.trans eq
      exact sound
    | none =>
      have beyond := getElem?_eq_none_iff.mp before
      have length := (List.getElem?_eq_some_iff.mp stands).1
      cases e with
      | getAuthChain r startingEvents =>
        rw [step, getElem?_append_right beyond] at stands
        rw [mem_singleton.mp (mem_of_getElem? stands)]
        exact Call.sound_start r startingEvents fun impossible => impossible.elim
      | tick i action =>
        rw [step] at length
        split at length
        · rw [length_set] at length
          omega
        · omega
      | drop i =>
        rw [step, length_modify] at length
        omega
      | store | evict | clearCache => exact absurd length (by simpa [step] using beyond)

variable {history : List Event}

theorem along_sound (h : v.Sound es) (admits : Admits (step es) Allowed v history) :
    Along (step es) (Sound es) v history :=
  along_of_keeps (fun _ _ h ok => Sound.step h ok) h admits

theorem sure_of_run (pos : Nat) {r : RoomId} {startingEvents : List EventId}
    (sure : Sure es pos r startingEvents v) (admits : Admits (step es) Allowed v history) :
    Sure es pos r startingEvents (run (step es) v history) := by
  have keeps (v : Service) (e : Event) (sure : Sure es pos r startingEvents v)
      (ok : v.Allowed e) : Sure es pos r startingEvents (v.step es e) := by
    obtain ⟨h, c, stands, rfl, rfl, known⟩ := sure
    obtain ⟨after, got, sameRoom, sameStarting, later⟩ := calls_step h ok stands known
    exact ⟨h.step ok, after, got, sameRoom, sameStarting, later⟩
  exact (along_of_keeps keeps sure admits).last

end Service

section Claims

variable (events : Events)

def Lists (event other : EventId) : Prop := ∃ pdu, events.pdu event = some pdu ∧ other ∈ pdu.authEvents

def Ancestor (event other : EventId) : Prop := Relation.TransGen (Lists events) event other

variable {events} {t : Tables} {r : RoomId} {e o : EventId}

theorem known_of_held (held : ∀ o, Relation.ReflTransGen (Lists events) e o → Held events t r o) : Known events t r e :=
  fun o hit => held o (hit.lift id fun _ _ follows => follows.2)

/-- The walk misses nothing behind the event it leaves out. -/
theorem found_iff_ancestor (held : ∀ o, Relation.ReflTransGen (Lists events) e o → Held events t r o) :
    Found events e o ↔ Ancestor events e o ∧ events.create r ≠ some o := by
  rw [(known_of_held held).found_iff]
  constructor
  · intro got
    obtain ⟨_, -, edge⟩ := Relation.TransGen.tail'_iff.mp got
    exact ⟨got.lift id fun _ _ follows => follows.2, edge.1⟩
  · rintro ⟨ancestor, kept⟩
    induction ancestor with
    | single edge => exact .single ⟨kept, edge⟩
    | @tail middle last path edge ih =>
      by_cases create : events.create r = some middle
      · obtain ⟨-, ls, stands, same⟩ := held last (path.tail edge).to_reflTransGen
        obtain ⟨a, pre, mem⟩ := edge
        rw [Events.create] at create
        split at create
        next v =>
          exact absurd same (events.create_first v create pre mem stands)
        · cases create
      · exact (ih create).tail ⟨kept, edge⟩

end Claims

namespace Service

variable {events : Events}

def result (service : Service) (position : Nat) : Option (List ShortEventId) :=
  service.calls[position]?.bind Call.result

/-- Whatever came before and comes in between: a call made when all ancestors are stored and of the room gives just their
numbers, each once and without the create event where that names the room, and it returns when it is not dropped. What
the cache holds is always whole. -/
theorem get_auth_chain_returns_ancestors {before after : List Event} {room : RoomId} {startingEvents : List EventId}
    (admits : Admits (step events) Allowed empty (before ++ .getAuthChain room startingEvents :: after))
    (held : ∀ start ∈ startingEvents, ∀ other, Relation.ReflTransGen (Lists events) start other →
      Held events (run (step events) empty before).tables room other) :
    let service := run (step events) empty (before ++ .getAuthChain room startingEvents :: after)
    let pos := (run (step events) empty before).calls.length
    (∀ chain, service.result pos = some chain → chain.Pairwise (· < ·) ∧
      (∀ k ∈ chain, ∃ other, service.tables.short other = some k ∧ events.create room ≠ some other ∧
        ∃ start ∈ startingEvents, Ancestor events start other) ∧
      ∀ start ∈ startingEvents, ∀ other, Ancestor events start other → events.create room ≠ some other →
        ∃ k ∈ chain, service.tables.short other = some k) ∧
    ((∀ c ∈ service.calls[pos]?, c.stage ≠ .dropped) → ∀ draw, ∃ actions chain,
      Admits (step events) (Own pos draw) service actions ∧ (run (step events) service actions).result pos = some chain) ∧
    Along (step events) (fun service => Coherent events service.tables) empty
      (before ++ .getAuthChain room startingEvents :: after) := by
  intro service pos
  have along : Along (step events) (Sound events) empty _ := along_sound sound_empty admits
  obtain ⟨a, ok, rest⟩ := admits_append.mp admits
  have h : Sound events (run (step events) empty before) := (along_sound sound_empty a).last
  have made : Sure events pos room startingEvents
      ((run (step events) empty before).step events (.getAuthChain room startingEvents)) := by
    refine ⟨h.step trivial, Call.start room startingEvents, by simp [step, pos], rfl, rfl, ?_⟩
    exact Call.sound_start room startingEvents fun _ start mem => known_of_held (held start mem)
  have sure : Sure events pos room startingEvents service := by
    have later := sure_of_run pos made rest
    rwa [← run_cons, ← run_append] at later
  obtain ⟨-, c, stands, rfl, rfl, known⟩ := sure
  refine ⟨fun chain result => ?_, fun runs draw => ?_, along.imp fun _ h => h.coherent⟩
  · have got (start other : EventId) (mem : start ∈ c.startingEvents) := @found_iff_ancestor events _ _ start other
      (held start mem)
    rw [Service.result, stands, Option.bind_some, Call.result] at result
    have stage := known.stage
    split at result
    next eq =>
      cases result
      rw [eq] at stage
      obtain ⟨ord, exact⟩ := stage
      refine ⟨ord, fun k mem => ?_, fun start mem other ancestor kept => ?_⟩
      · obtain ⟨start, starting, other, hit, numbered⟩ := (exact trivial).sound k mem
        obtain ⟨ancestor, kept⟩ := (got start other starting).mp hit
        exact ⟨other, numbered, kept, start, starting, ancestor⟩
      · exact (exact trivial).covers start mem other ((got start other mem).mpr ⟨ancestor, kept⟩)
    · cases result
  · obtain ⟨actions, own, last, chain, ends, result⟩ := returns events draw stands (runs c (by simp [stands]))
    exact ⟨actions, chain, own, by simp [Service.result, ends, result]⟩

/-- A room named by its create event. -/
def topicEvents : Events where
  pdu event :=
    if event = "$topic" then some ⟨["$member", "$create"], "!create"⟩
    else if event = "$member" then some ⟨["$create"], "!create"⟩
    else if event = "$create" then some ⟨[], "!create"⟩
    else none
  roomCreateEventIdAsRoomId room := room = "!create"
  asEventId room := if room = "!create" then some "$create" else none
  create_first _ named _ _ _ stands listed := by
    split at named <;> cases named
    obtain rfl := Option.some.inj stands
    cases listed

variable {o : EventId}

theorem topicEvents_reached (hit : Relation.ReflTransGen (Lists topicEvents) "$topic" o) :
    o = "$topic" ∨ o = "$member" ∨ o = "$create" := by
  induction hit with
  | refl => exact .inl rfl
  | tail _ edge known =>
    obtain ⟨pdu, stands, mem⟩ := edge
    rcases known with rfl | rfl | rfl <;> simp [topicEvents] at stands <;> subst stands <;> simp at mem <;> tauto

def askedEarly : List Event :=
  [.store "$topic", .getAuthChain "!create" ["$topic"], .tick 0 (.bucket 7), .store "$create", .store "$member"]

theorem askedEarly_held (hit : Relation.ReflTransGen (Lists topicEvents) "$topic" o) :
    Held topicEvents (run (step topicEvents) empty askedEarly).tables "!create" o := by
  rcases topicEvents_reached hit with rfl | rfl | rfl <;> exact ⟨by decide, _, rfl, rfl⟩

theorem askedEarly_admits :
    Admits (step topicEvents) Allowed empty (askedEarly ++ .getAuthChain "!create" ["$topic"] :: [.tick 1 (.bucket 8)]) := by
  refine ⟨trivial, trivial, ?_, trivial, trivial, trivial, ?_, trivial⟩
  · rintro _ ⟨⟩ e impossible
    cases impossible
  · rintro _ ⟨⟩ e stands
    obtain ⟨-, impossible⟩ := Prod.mk.inj (mem_singleton.mp (Store.find_eq_some_iff.mp stands))
    cases impossible

/-- Asked for again, the chain is whole. -/
theorem get_auth_chain_returns_ancestors_later : ∃ actions chain, Admits (step topicEvents) (Own 1 fun _ => 9)
        (run (step topicEvents) empty (askedEarly ++ .getAuthChain "!create" ["$topic"] :: [.tick 1 (.bucket 8)])) actions ∧
      (run (step topicEvents)
        (run (step topicEvents) empty (askedEarly ++ .getAuthChain "!create" ["$topic"] :: [.tick 1 (.bucket 8)]))
        actions).result 1 = some chain := by
  have held : ∀ start ∈ ["$topic"], ∀ o, Relation.ReflTransGen (Lists topicEvents) start o →
      Held topicEvents (run (step topicEvents) empty askedEarly).tables "!create" o := by
    intro start mem o hit
    cases mem_singleton.mp mem
    exact askedEarly_held hit
  refine (get_auth_chain_returns_ancestors askedEarly_admits held).2.1 ?_ fun _ => 9
  rintro _ ⟨⟩ ⟨⟩

end Service

end Wbfuwunel.Rooms.AuthChain
