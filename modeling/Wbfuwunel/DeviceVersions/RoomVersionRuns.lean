import Wbfuwunel.DeviceVersions.RoomVersions
import Wbfuwunel.Foundation.Runs

/-! What the change counter gives, over every interleaving.

A bump writes the new version, moves the counter and removes the entries, in this order. So a computation either has read
what is stored, or a bump it missed has still to move the counter, or the counter has moved since it was loaded. The
comparison tells the third case from the others; what happens between the comparison and the insertion goes unseen.
-/

set_option autoImplicit false

namespace Wbfuwunel.DeviceVersions

open Foundation Rooms Function Option World

/-! ## What a computation depends on -/

def Joined (events : List MemberEvent) (user : UserId) : Prop :=
  ∃ event ∈ events, event.membership = some .join ∧ event.user = some user

variable {event : MemberEvent} {user : UserId}

theorem joined_of_counted (counts : counted event = .ok (some (user, .join))) :
    event.membership = some .join ∧ event.user = some user := by
  unfold counted at counts
  cases membership : event.membership with
  | none => simp [membership] at counts
  | some v =>
    cases named : event.user with
    | none => cases v <;> simp [membership, named, isMembershipCounted] at counts
    | some name => cases v <;> simp_all [isMembershipCounted]

theorem gather_congr {a b : UserId → Except Error DeviceVersion} {es : List MemberEvent}
    (eq : ∀ user, Joined es user → a user = b user) (items : List (UserId × Bytes)) :
    gather a items es = gather b items es := by
  induction es generalizing items with
  | nil => rfl
  | cons event left ih =>
    have later : ∀ user, Joined left user → a user = b user := by
      rintro user ⟨member, mem, joins⟩
      exact eq user ⟨member, by simp [mem], joins⟩
    simp only [gather]
    cases counts : counted event with
    | error error => rfl
    | ok got =>
      cases got with
      | none => exact ih later items
      | some pair =>
        obtain ⟨user, membership⟩ := pair
        simp only
        split_ifs with joins
        · subst joins
          rw [eq user ⟨event, by simp, joined_of_counted counts⟩]
          cases b user with
          | error error => rfl
          | ok v => exact ih later _
        · exact ih later _

theorem gather_join {lookup : UserId → Except Error DeviceVersion} {v : DeviceVersion}
    (counts : counted event = .ok (some (user, .join))) (got : lookup user = .ok v)
    (items : List (UserId × Bytes)) (left : List MemberEvent) :
    gather lookup items (event :: left) = gather lookup (items ++ [(user, joinItem v)]) left := by
  simp [gather, counts, got]

def Task.outdates : Task → Bool
  | advancing _ | removing _ => true
  | _ => false

namespace World

variable (env : Env) (world : World)

def Written (user : UserId) : Prop := ∃ id, world.tasks id = some (.advancing user)

def Stale (user : UserId) : Prop :=
  ∃ id, world.tasks id = some (.advancing user) ∨ world.tasks id = some (.removing user)

variable (reading : Reading)

/-- What a computation has read may be outdated, and the counter tells or is about to tell. -/
def Disturbed : Prop :=
  ∃ user, Joined (env.memberEvents reading.state) user ∧ (world.changes user ≠ reading.since user ∨ world.Written user)

/-- Going on from here gives what starting over would give. -/
def OnTrack (left : List MemberEvent) : Prop := ∀ fresh,
  gather (world.lookup fresh) reading.items left = gather (world.lookup fresh) [] (env.memberEvents reading.state)

def Current (state : ShortStateHash) (version : UInt64) : Prop := ∀ fresh,
  computeRoomDeviceVersion env.sha256 (world.lookup fresh) (env.memberEvents state) = .ok version

structure Begun : Prop where
  ofRoom : env.shortstatehash reading.room = some reading.state
  since : ∀ user, reading.since user ≤ world.changes user

structure Reads (left : List MemberEvent) : Prop where
  begun : world.Begun env reading
  suffix : left <:+ env.memberEvents reading.state
  onTrack : world.Disturbed env reading ∨ world.OnTrack env reading left

structure Settled (version : UInt64) : Prop where
  begun : world.Begun env reading
  current : world.Disturbed env reading ∨ world.Current env reading.state version

def Sound : Task → Prop
  | .loading room state => env.shortstatehash room = some state
  | .gathering reading left => world.Reads env reading left
  | .locking reading user left | .rereading reading user left =>
    ∃ event, counted event = .ok (some (user, .join)) ∧ world.Reads env reading (event :: left)
  | .writing reading user left => world.versions user = none ∧
    ∃ event, counted event = .ok (some (user, .join)) ∧ world.Reads env reading (event :: left)
  | .comparing reading version | .inserting reading version => world.Settled env reading version
  | _ => True

structure Fits (id : Nat) (task : Task) : Prop where
  owned : ∀ user, task.holds = some user → world.userLocks user = some id
  sound : world.Sound env task

structure Kept (room : RoomId) (state : ShortStateHash) (version : UInt64) : Prop where
  ofRoom : env.shortstatehash room = some state
  current : world.Current env state version ∨ ∃ user, Joined (env.memberEvents state) user ∧ world.Stale user

structure Holds : Prop where
  fits : ∀ id task, world.tasks id = some task → world.Fits env id task
  kept : ∀ room state version, world.roomVersions room = some (state, version) → world.Kept env room state version

/-! ## What another task's moment leaves -/

variable {env} {world next : World} {id : Nat}

/-- The counter never goes back, a bump that has written moves it before it does anything else, and a version changes
only by a bump, unless there was none. -/
structure Evolves (world next : World) : Prop where
  changes : ∀ user, world.changes user ≤ next.changes user
  written : ∀ user, world.Written user → next.Written user ∨ world.changes user < next.changes user
  versions : ∀ user, next.versions user = world.versions user ∨
    (world.versions user = none ∧ ∃ version, next.versions user = some (some version)) ∨ next.Written user

theorem Evolves.lookup (evolves : world.Evolves next) (es : List MemberEvent) :
    (∃ user, Joined es user ∧ next.Written user) ∨ ∀ fresh, ∃ old, ∀ user, Joined es user →
      next.lookup fresh user = world.lookup old user := by
  by_cases bumped : ∃ user, Joined es user ∧ next.Written user
  · exact .inl bumped
  · refine .inr fun fresh => ⟨fun user => (next.versions user).join.getD (fresh user), fun user joined => ?_⟩
    rcases evolves.versions user with eq | ⟨none, v, got⟩ | written
    · simp only [World.lookup, eq]
      split <;> simp_all
    · simp [World.lookup, none, got]
    · exact absurd ⟨user, joined, written⟩ bumped

variable {reading : Reading} {left : List MemberEvent} {version : UInt64} {task : Task} {user : UserId}

theorem Begun.evolves (begun : world.Begun env reading) (evolves : world.Evolves next) : next.Begun env reading :=
  ⟨begun.ofRoom, fun user => (begun.since user).trans (evolves.changes user)⟩

theorem Disturbed.of_bumped (bumped : ∃ user, Joined (env.memberEvents reading.state) user ∧ world.Written user) :
    world.Disturbed env reading := by
  obtain ⟨user, joined, written⟩ := bumped
  exact ⟨user, joined, .inr written⟩

theorem Disturbed.evolves (disturbed : world.Disturbed env reading) (begun : world.Begun env reading)
    (evolves : world.Evolves next) : next.Disturbed env reading := by
  obtain ⟨user, joined, disturbed⟩ := disturbed
  have onward := evolves.changes user
  have since := begun.since user
  refine ⟨user, joined, ?_⟩
  rcases disturbed with moved | written
  · exact .inl (by omega)
  · rcases evolves.written user written with written | moved
    · exact .inr written
    · exact .inl (by omega)

theorem Reads.evolves (reads : world.Reads env reading left) (evolves : world.Evolves next) :
    next.Reads env reading left := by
  refine ⟨reads.begun.evolves evolves, reads.suffix, ?_⟩
  rcases reads.onTrack with disturbed | onTrack
  · exact .inl (disturbed.evolves reads.begun evolves)
  · rcases evolves.lookup (env.memberEvents reading.state) with bumped | same
    · exact .inl (.of_bumped bumped)
    · refine .inr fun fresh => ?_
      obtain ⟨old, same⟩ := same fresh
      have here : ∀ user, Joined left user → next.lookup fresh user = world.lookup old user := by
        rintro user ⟨event, mem, joins⟩
        exact same user ⟨event, reads.suffix.subset mem, joins⟩
      rw [gather_congr here, gather_congr same]
      exact onTrack old

variable {state : ShortStateHash}

theorem Current.evolves (current : world.Current env state version) (evolves : world.Evolves next) :
    next.Current env state version ∨ ∃ user, Joined (env.memberEvents state) user ∧ next.Written user := by
  rcases evolves.lookup (env.memberEvents state) with bumped | same
  · exact .inr bumped
  · refine .inl fun fresh => ?_
    obtain ⟨old, same⟩ := same fresh
    rw [computeRoomDeviceVersion, gather_congr same]
    exact current old

theorem Settled.evolves (settled : world.Settled env reading version) (evolves : world.Evolves next) :
    next.Settled env reading version := by
  refine ⟨settled.begun.evolves evolves, ?_⟩
  rcases settled.current with disturbed | current
  · exact .inl (disturbed.evolves settled.begun evolves)
  · rcases current.evolves evolves with current | bumped
    · exact .inr current
    · exact .inl (.of_bumped bumped)

theorem Sound.evolves (h : world.Sound env task) (evolves : world.Evolves next)
    (blank : ∀ reading user left, task = .writing reading user left → next.versions user = none) :
    next.Sound env task := by
  cases task with
  | gathering reading left => exact Reads.evolves h evolves
  | locking reading user left | rereading reading user left =>
    obtain ⟨event, counts, reads⟩ := h
    exact ⟨event, counts, reads.evolves evolves⟩
  | writing reading user left =>
    obtain ⟨-, event, counts, reads⟩ := h
    exact ⟨blank reading user left rfl, event, counts, reads.evolves evolves⟩
  | comparing reading version | inserting reading version => exact Settled.evolves h evolves
  | _ => exact h

theorem Written.stale (written : world.Written user) : world.Stale user := by
  obtain ⟨id, running⟩ := written
  exact ⟨id, .inl running⟩

theorem Kept.evolves {r : RoomId} (kept : world.Kept env r state version) (evolves : world.Evolves next)
    (stale : ∀ user, world.Stale user → next.Stale user) : next.Kept env r state version := by
  refine ⟨kept.ofRoom, ?_⟩
  rcases kept.current with current | ⟨user, joined, outdated⟩
  · rcases current.evolves evolves with current | ⟨user, joined, written⟩
    · exact .inl current
    · exact .inr ⟨user, joined, written.stale⟩
  · exact .inr ⟨user, joined, stale user outdated⟩

theorem Holds.moment (h : world.Holds env) (evolves : world.Evolves next)
    (tasks : ∀ o, o ≠ id → next.tasks o = world.tasks o)
    (locks : ∀ o user, o ≠ id → world.userLocks user = some o → next.userLocks user = some o)
    (blank : ∀ o reading user left, o ≠ id → world.tasks o = some (.writing reading user left) →
      next.versions user = none)
    (own : ∀ task, next.tasks id = some task → next.Fits env id task)
    (kept : ∀ r state version, next.roomVersions r = some (state, version) → next.Kept env r state version) :
    next.Holds env := by
  refine ⟨fun o task runs => ?_, kept⟩
  by_cases eq : o = id
  · subst eq
    exact own task runs
  · rw [tasks o eq] at runs
    have fits := h.fits o task runs
    refine ⟨fun user holding => locks o user eq (fits.owned user holding), fits.sound.evolves evolves ?_⟩
    rintro reading user left rfl
    exact blank o reading user left eq runs

def Plain (world : World) (id : Nat) : Prop := ∀ task, world.tasks id = some task → task.outdates = false

theorem Plain.of_running (runs : world.tasks id = some task) (plain : task.outdates = false) : world.Plain id := by
  intro o eq
  obtain rfl : task = o := some.inj (runs.symm.trans eq)
  exact plain

theorem Plain.of_free (free : world.tasks id = none) : world.Plain id := by
  intro task runs
  rw [free] at runs
  cases runs

theorem Plain.written (plain : world.Plain id) (tasks : ∀ o, o ≠ id → next.tasks o = world.tasks o)
    (written : world.Written user) : next.Written user := by
  obtain ⟨o, running⟩ := written
  refine ⟨o, ?_⟩
  rw [tasks o (by rintro rfl; cases plain _ running), running]

theorem Plain.stale (plain : world.Plain id) (tasks : ∀ o, o ≠ id → next.tasks o = world.tasks o)
    (stale : world.Stale user) : next.Stale user := by
  obtain ⟨o, running⟩ := stale
  refine ⟨o, ?_⟩
  rw [tasks o]
  · exact running
  · rintro rfl
    rcases running with running | running <;> cases plain _ running

theorem become_tasks (world : World) (id : Nat) (task : Option Task) (o : Nat) (ne : o ≠ id) :
    (world.become id task).tasks o = world.tasks o :=
  update_of_ne ne _ _

section

variable (holds : world.Holds env)
include holds

variable {userLocks : UserId → Option Nat} {event : MemberEvent}

theorem Holds.quiet (plain : world.Plain id) {task : Option Task}
    (locks : ∀ o user, o ≠ id → world.userLocks user = some o → userLocks user = some o)
    (own : ∀ new, task = some new → (∀ user, new.holds = some user → userLocks user = some id) ∧ world.Sound env new) :
    ({ world with userLocks := userLocks }.become id task).Holds env := by
  have tasks := become_tasks { world with userLocks := userLocks } id task
  have evolves : world.Evolves ({ world with userLocks := userLocks }.become id task) :=
    ⟨fun _ => le_rfl, fun user written => .inl (plain.written tasks written), fun user => .inl rfl⟩
  refine holds.moment evolves tasks locks (fun o reading user left _ runs => (holds.fits o _ runs).sound.1)
    (fun new runs => ?_) fun r state version got => (holds.kept r state version got).evolves evolves fun user =>
      plain.stale tasks
  have becomes : task = some new := by simpa [become] using runs
  obtain ⟨owned, sound⟩ := own new becomes
  refine ⟨owned, sound.evolves evolves ?_⟩
  rintro reading user left rfl
  exact sound.1

theorem Holds.go (plain : world.Plain id) {task : Option Task}
    (own : ∀ new, task = some new → (∀ user, new.holds = some user → world.userLocks user = some id) ∧ world.Sound env new)
    : (world.become id task).Holds env :=
  holds.quiet plain (fun _ _ _ own => own) own

theorem Holds.take (plain : world.Plain id) {new : Task} (holding : new.holds = some user) (h : world.Sound env new) :
    (world.take id user new).Holds env := by
  unfold World.take
  split_ifs with free
  · refine holds.quiet plain (fun o account ne owned => ?_) ?_
    · rw [update_of_ne]
      · exact owned
      · rintro rfl
        rw [free] at owned
        cases owned
    · rintro _ ⟨⟩
      refine ⟨fun account held => ?_, h⟩
      obtain rfl : user = account := some.inj (holding.symm.trans held)
      exact update_self ..
  · exact holds

theorem Holds.release (plain : world.Plain id) (owned : world.userLocks user = some id) {task : Option Task}
    (own : ∀ new, task = some new → new.holds = none ∧ world.Sound env new) :
    ((world.unlock user).become id task).Holds env := by
  refine holds.quiet plain (fun o account ne held => ?_) fun new becomes => ?_
  · rw [update_of_ne]
    · exact held
    · rintro rfl
      exact ne (some.inj (held.symm.trans owned))
  · obtain ⟨none, sound⟩ := own new becomes
    refine ⟨fun account held => ?_, sound⟩
    rw [none] at held
    cases held

/-! ## One moment -/

omit holds in
theorem lookup_of_found {version : DeviceVersion} (got : world.versions user = some (some version))
    (fresh : UserId → DeviceVersion) : world.lookup fresh user = .ok version := by
  simp [lookup, got]

omit holds in
theorem Reads.past (reads : world.Reads env reading (event :: left)) {items : List (UserId × Bytes)}
    (done : ∀ fresh, gather (world.lookup fresh) reading.items (event :: left) = gather (world.lookup fresh) items left) :
    world.Reads env { reading with items } left where
  begun := ⟨reads.begun.ofRoom, reads.begun.since⟩
  suffix := (List.suffix_cons event left).trans reads.suffix
  onTrack := reads.onTrack.imp id fun onTrack fresh => (done fresh).symm.trans (onTrack fresh)

theorem Holds.gatherNext (runs : world.tasks id = some (.gathering reading (event :: left))) :
    (world.gatherNext id reading event left).Holds env := by
  have plain : world.Plain id := .of_running runs rfl
  have reads : world.Reads env reading (event :: left) := (holds.fits id _ runs).sound
  unfold World.gatherNext
  cases counts : counted event with
  | error error => exact holds.go plain (by rintro _ ⟨⟩)
  | ok got =>
    cases got with
    | none =>
      refine holds.go plain ?_
      rintro _ ⟨⟩
      exact ⟨by rintro _ ⟨⟩, reads.past fun fresh => by simp only [gather, counts]⟩
    | some pair =>
      obtain ⟨user, membership⟩ := pair
      simp only
      split_ifs with joins
      · subst joins
        cases got : world.versions user with
        | none =>
          refine holds.go plain ?_
          rintro _ ⟨⟩
          exact ⟨by rintro _ ⟨⟩, event, counts, reads⟩
        | some stored =>
          cases stored with
          | none => exact holds.go plain (by rintro _ ⟨⟩)
          | some version =>
            refine holds.go plain ?_
            rintro _ ⟨⟩
            exact ⟨by rintro _ ⟨⟩, reads.past fun fresh => gather_join counts (lookup_of_found got fresh) _ _⟩
      · refine holds.go plain ?_
        rintro _ ⟨⟩
        exact ⟨by rintro _ ⟨⟩, reads.past fun fresh => by simp only [gather, counts, if_neg joins]⟩

theorem Holds.reread (runs : world.tasks id = some (.rereading reading user left)) :
    (world.reread id reading user left).Holds env := by
  have plain : world.Plain id := .of_running runs rfl
  have owned := (holds.fits id _ runs).owned user rfl
  obtain ⟨event, counts, reads⟩ := (holds.fits id _ runs).sound
  unfold World.reread
  cases got : world.versions user with
  | none =>
    refine holds.go plain ?_
    rintro _ ⟨⟩
    refine ⟨?_, got, event, counts, reads⟩
    rintro _ ⟨⟩
    exact owned
  | some stored =>
    cases stored with
    | none => exact holds.release plain owned (by rintro _ ⟨⟩)
    | some version =>
      refine holds.release plain owned ?_
      rintro _ ⟨⟩
      exact ⟨rfl, reads.past fun fresh => gather_join counts (lookup_of_found got fresh) _ _⟩

theorem Holds.not_writing (owned : world.userLocks user = some id) {o : Nat} (ne : o ≠ id) :
    world.tasks o ≠ some (.writing reading user left) := by
  intro runs
  have held := (holds.fits o _ runs).owned user rfl
  exact ne (some.inj (held.symm.trans owned))

theorem Holds.put (plain : world.Plain id) (owned : world.userLocks user = some id) {version : DeviceVersion}
    (locks : ∀ o account, o ≠ id → world.userLocks account = some o → userLocks account = some o)
    (same : world.versions user = none ∨ task = .advancing user)
    (own : world.Evolves ({ world.put user version with userLocks }.become id (some task)) →
      ({ world.put user version with userLocks }.become id (some task)).Fits env id task) :
    ({ world.put user version with userLocks }.become id (some task)).Holds env := by
  have tasks := become_tasks { world.put user version with userLocks } id (some task)
  have evolves : world.Evolves ({ world.put user version with userLocks }.become id (some task)) := by
    refine ⟨fun _ => le_rfl, fun account written => .inl (plain.written tasks written), fun account => ?_⟩
    by_cases eq : account = user
    · subst eq
      rcases same with none | rfl
      · exact .inr (.inl ⟨none, version, update_self ..⟩)
      · exact .inr (.inr ⟨id, update_self ..⟩)
    · exact .inl (update_of_ne eq _ _)
  refine holds.moment evolves tasks locks (fun o reading account left ne runs => ?_) (fun new becomes => ?_)
    fun r state version got => (holds.kept r state version got).evolves evolves fun account => plain.stale tasks
  · have apart : account ≠ user := by
      rintro rfl
      exact holds.not_writing owned ne runs
    exact (update_of_ne apart _ _).trans (holds.fits o _ runs).sound.1
  · obtain rfl : task = new := by simpa [become] using becomes
    exact own evolves

theorem Holds.write (runs : world.tasks id = some (.writing reading user left)) (version : DeviceVersion) :
    (((world.put user version).unlock user).become id
      (some (.gathering (reading.add (user, joinItem version)) left))).Holds env := by
  have plain : world.Plain id := .of_running runs rfl
  have owned := (holds.fits id _ runs).owned user rfl
  obtain ⟨none, event, counts, reads⟩ := (holds.fits id _ runs).sound
  refine holds.put plain owned (fun o account ne held => ?_) (.inl none) fun evolves => ?_
  · refine (update_of_ne ?_ _ _).trans held
    rintro rfl
    exact ne (some.inj (held.symm.trans owned))
  · refine ⟨by rintro _ ⟨⟩, (reads.evolves evolves).past fun fresh => gather_join counts (lookup_of_found ?_ fresh) _ _⟩
    exact update_self ..

theorem Holds.store {seq pos : UInt64} (runs : world.tasks id = some (.storing user seq pos)) (version : DeviceVersion) :
    ((world.put user version).become id (some (.advancing user))).Holds env := by
  have plain : world.Plain id := .of_running runs rfl
  have owned := (holds.fits id _ runs).owned user rfl
  refine holds.put plain owned (fun _ _ _ held => held) (.inr rfl) fun _ => ⟨?_, trivial⟩
  rintro _ ⟨⟩
  exact owned

/-- No bump of a member has moved the counter since the computation began: then at most one that has yet to move it is
missed. -/
theorem Holds.insert (runs : world.tasks id = some (.inserting reading version))
    (unmoved : ∀ user, Joined (env.memberEvents reading.state) user → world.changes user = reading.since user) : ({ world with
      roomVersions := update world.roomVersions reading.room (some (reading.state, version)) }.become id
      none).Holds env := by
  have plain : world.Plain id := .of_running runs rfl
  have settled : world.Settled env reading version := (holds.fits id _ runs).sound
  have tasks := become_tasks { world with
    roomVersions := update world.roomVersions reading.room (some (reading.state, version)) } id none
  have evolves : world.Evolves ({ world with
      roomVersions := update world.roomVersions reading.room (some (reading.state, version)) }.become id none) :=
    ⟨fun _ => le_rfl, fun user written => .inl (plain.written tasks written), fun user => .inl rfl⟩
  have entered : world.Kept env reading.room reading.state version := by
    refine ⟨settled.begun.ofRoom, ?_⟩
    rcases settled.current with moved | current
    · obtain ⟨user, joined, moved | written⟩ := moved
      · exact absurd (unmoved user joined) moved
      · exact .inr ⟨user, joined, written.stale⟩
    · exact .inl current
  refine holds.moment evolves tasks (fun _ _ _ held => held)
    (fun o reading user left _ runs => (holds.fits o _ runs).sound.1)
    (fun new becomes => by simp [become] at becomes) fun r state x got => ?_
  simp only [become, update_apply] at got
  refine Kept.evolves ?_ evolves fun user => plain.stale tasks
  split at got
  next eq =>
    cases got
    exact eq ▸ entered
  · exact holds.kept r state x got

theorem Holds.advanceCounter (runs : world.tasks id = some (.advancing user)) (deviceChanges : UInt64) :
    ({ world with deviceChanges, changes := update world.changes user (world.changes user + 1) }.become id
      (some (.removing user))).Holds env := by
  have owned := (holds.fits id _ runs).owned user rfl
  set moved := update world.changes user (world.changes user + 1) with eq
  have tasks := become_tasks { world with deviceChanges, changes := moved } id (some (.removing user))
  have evolves : world.Evolves ({ world with deviceChanges, changes := moved }.become id (some (.removing user))) := by
    refine ⟨fun account => ?_, ?_, fun _ => .inl rfl⟩
    · show world.changes account ≤ moved account
      rw [eq, update_apply]
      split
      next same => exact same ▸ Nat.le_succ _
      · exact le_rfl
    · rintro account ⟨o, written⟩
      by_cases same : account = user
      · refine .inr ?_
        show world.changes account < moved account
        rw [eq, same, update_self]
        exact Nat.lt_succ_self _
      · refine .inl ⟨o, (tasks o ?_).trans written⟩
        rintro rfl
        rw [runs] at written
        cases written
        exact same rfl
  refine holds.moment evolves tasks (fun _ _ _ held => held)
    (fun o reading user left _ runs => (holds.fits o _ runs).sound.1) (fun new becomes => ?_)
    fun r state x got => (holds.kept r state x got).evolves evolves ?_
  · obtain rfl : Task.removing user = new := by simpa [become] using becomes
    refine ⟨?_, trivial⟩
    rintro _ ⟨⟩
    exact owned
  · -- the entries it outdates are still to be removed
    rintro account ⟨o, outdates⟩
    by_cases eq : o = id
    · subst eq
      rw [runs] at outdates
      obtain rfl : user = account := by simpa using outdates
      exact ⟨o, .inr (update_self ..)⟩
    · exact ⟨o, by rwa [tasks o eq]⟩

theorem Holds.remove (runs : world.tasks id = some (.removing user)) : ({ world with
      roomVersions := fun r => if r ∈ env.roomsJoined user then none else world.roomVersions r }.become id
      (some (.announcing user))).Holds env := by
  have owned := (holds.fits id _ runs).owned user rfl
  have tasks := become_tasks { world with
    roomVersions := fun r => if r ∈ env.roomsJoined user then none else world.roomVersions r } id
    (some (.announcing user))
  have evolves : world.Evolves ({ world with
      roomVersions := fun r => if r ∈ env.roomsJoined user then none else world.roomVersions r }.become id
      (some (.announcing user))) := by
    refine ⟨fun _ => le_rfl, ?_, fun _ => .inl rfl⟩
    rintro account ⟨o, written⟩
    refine .inl ⟨o, ?_⟩
    rw [tasks o (by rintro rfl; rw [runs] at written; cases written)]
    exact written
  refine holds.moment evolves tasks (fun _ _ _ held => held)
    (fun o reading user left _ runs => (holds.fits o _ runs).sound.1) (fun new becomes => ?_)
    fun r state x got => ?_
  · obtain rfl : Task.announcing user = new := by simpa [become] using becomes
    refine ⟨?_, trivial⟩
    rintro _ ⟨⟩
    exact owned
  · simp only [become] at got
    split at got
    · cases got
    next unlisted =>
      have kept := holds.kept r state x got
      refine ⟨kept.ofRoom, ?_⟩
      rcases kept.current with current | ⟨account, joined, o, outdates⟩
      · rcases current.evolves evolves with current | ⟨account, joined, written⟩
        · exact .inl current
        · exact .inr ⟨account, joined, written.stale⟩
      · refine .inr ⟨account, joined, o, ?_⟩
        rw [tasks o]
        · exact outdates
        · rintro rfl
          rw [runs] at outdates
          obtain rfl : user = account := by simpa using outdates
          exact unlisted (env.listed r state user kept.ofRoom joined)

/-- A version is inserted only while no bump of a member has moved the counter since the computation began. -/
def Calm (env : Env) (world : World) : Moment → Prop
  | .advance id _ _ =>
    match world.tasks id with
    | some (.inserting reading _) =>
      ∀ user, Joined (env.memberEvents reading.state) user → world.changes user = reading.since user
    | _ => True
  | _ => True

theorem Holds.advance (running : world.tasks id = some task) (hash : String) (lastChange : UInt64)
    (calm : world.Calm env (.advance id hash lastChange)) : (world.advance env id hash lastChange task).Holds env := by
  have fits := holds.fits id task running
  have plain : task.outdates = false → world.Plain id := .of_running running
  cases task with
  | loading r state =>
    refine holds.go (plain rfl) ?_
    rintro _ ⟨⟩
    exact ⟨by rintro _ ⟨⟩, ⟨fits.sound, fun _ => le_rfl⟩, List.suffix_rfl, .inr fun _ => rfl⟩
  | gathering reading left =>
    cases left with
    | cons event left => exact holds.gatherNext running
    | nil =>
      have reads : world.Reads env reading [] := fits.sound
      simp only [advance]
      cases hashed : toRoomVersionHash env.sha256 reading.items with
      | error error => exact holds.go (plain rfl) (by rintro _ ⟨⟩)
      | ok version =>
        refine holds.go (plain rfl) ?_
        rintro _ ⟨⟩
        refine ⟨by rintro _ ⟨⟩, reads.begun, reads.onTrack.imp_right fun onTrack fresh => ?_⟩
        rw [computeRoomDeviceVersion, ← onTrack fresh]
        exact hashed
  | locking reading user left =>
    exact holds.take (plain rfl) rfl fits.sound
  | rereading reading user left => exact holds.reread running
  | writing reading user left => exact holds.write running _
  | comparing reading version =>
    simp only [advance]
    split_ifs
    · refine holds.go (plain rfl) ?_
      rintro _ ⟨⟩
      exact ⟨by rintro _ ⟨⟩, fits.sound⟩
    · exact holds.go (plain rfl) (by rintro _ ⟨⟩)
  | inserting reading version =>
    refine holds.insert running ?_
    simpa only [Calm, running] using calm
  | waiting user pos => exact holds.take (plain rfl) rfl trivial
  | sizing user pos =>
    refine holds.go (plain rfl) ?_
    rintro _ ⟨⟩
    exact ⟨fits.owned, trivial⟩
  | storing user seq pos => exact holds.store running _
  | advancing user => exact holds.advanceCounter running _
  | removing user => exact holds.remove running
  | announcing user =>
    exact holds.release (plain rfl) (fits.owned user rfl) (by rintro _ ⟨⟩)

theorem Holds.start (unlocked : task.holds = none) (h : world.Sound env task) : (world.start id task).Holds env := by
  unfold World.start
  split_ifs with free
  · refine holds.go (.of_free free) ?_
    rintro _ ⟨⟩
    refine ⟨fun user held => ?_, h⟩
    rw [unlocked] at held
    cases held
  · exact holds

theorem Holds.step {moment : Moment} (calm : world.Calm env moment) : (world.step env moment).Holds env := by
  cases moment with
  | read id r =>
    simp only [World.step]
    cases known : env.shortstatehash r with
    | none => exact holds
    | some state =>
      simp only
      split_ifs
      · exact holds
      · exact holds.start rfl known
  | bump id user pos => exact holds.start rfl trivial
  | advance id hash lastChange =>
    simp only [World.step]
    cases runs : world.tasks id with
    | none => exact holds
    | some task => exact holds.advance runs hash lastChange calm

def Fresh (env : Env) (world : World) : Prop := (∀ id task, world.tasks id = some task → task.isBump = false) →
  ∀ room state version, world.roomVersions room = some (state, version) → world.Current env state version

theorem Holds.fresh : world.Fresh env := by
  intro quiet r state version got
  rcases (holds.kept r state version got).current with current | ⟨user, -, o, runs | runs⟩
  · exact current
  · cases quiet o _ runs
  · cases quiet o _ runs

end

/-- Over every interleaving in which versions are inserted only while no member's bump has moved the counter, the cache is
fresh whenever no bump is under way. -/
theorem room_versions_fresh (env : Env) (versions : UserId → Option (Option DeviceVersion)) (moments : List Moment)
    (calm : Admits (step env) (Calm env) (resting versions) moments) :
    Along (step env) (Fresh env) (resting versions) moments := by
  have initially : (resting versions).Holds env := ⟨by rintro _ _ ⟨⟩, by rintro _ _ _ ⟨⟩⟩
  have keeps (world : World) (moment : Moment) (h : world.Holds env) (calm : world.Calm env moment) :
      (world.step env moment).Holds env := h.step calm
  exact (along_of_keeps keeps initially calm).imp fun world => Holds.fresh

/-! ## Bob's room -/

def bobsRoom : Env where
  shortstatehash room := if room = "!r:localhost" then some 9 else none
  memberEvents _ := [⟨"$join", some .join, some "@bob:localhost"⟩]
  roomsJoined user := if user = "@bob:localhost" then ["!r:localhost"] else []
  sha256 bytes := bytes.reverse
  listed room state user known joined := by
    obtain ⟨event, inside, -, named⟩ := joined
    obtain rfl : event = ⟨"$join", some .join, some "@bob:localhost"⟩ := by simpa using inside
    obtain rfl : "@bob:localhost" = user := some.inj named
    split_ifs at known with same
    simp [same]

def bobsVersion (user : UserId) : Option (Option DeviceVersion) :=
  if user = "@bob:localhost" then some (some ⟨1, "a", 10⟩) else none

def computing : List Moment :=
  [.read 0 "!r:localhost", .advance 0 "" 0, .advance 0 "" 0, .advance 0 "" 0, .advance 0 "" 0]

def bumping (id : Nat) (user : UserId) : List Moment :=
  [.bump id user 20, .advance id "" 0, .advance id "" 0, .advance id "b" 0, .advance id "" 0, .advance id "" 0,
    .advance id "" 0]

/-- Carol, who is not in the room, moves the counter before the version is inserted; then Bob's change removes it. -/
theorem room_versions_fresh_bob : Along (step bobsRoom) (Fresh bobsRoom) (resting bobsVersion)
      (computing ++ bumping 1 "@carol:localhost" ++ [.advance 0 "" 0] ++ bumping 2 "@bob:localhost") := by
  refine room_versions_fresh bobsRoom bobsVersion _ ?_
  refine ⟨trivial, trivial, trivial, trivial, trivial, trivial, trivial, trivial, trivial, trivial, trivial, trivial, ?_,
    trivial, trivial, trivial, trivial, trivial, trivial, trivial, trivial⟩
  rintro user ⟨event, inside, -, named⟩
  obtain rfl : event = ⟨"$join", some .join, some "@bob:localhost"⟩ := by simpa [bobsRoom] using inside
  cases named
  rfl

/-- The counter is compared, Bob's keys change, and then the old version is inserted. -/
theorem bob_inserted_late : ¬Fresh bobsRoom (run (step bobsRoom) (resting bobsVersion)
    (computing ++ bumping 1 "@bob:localhost" ++ [.advance 0 "" 0])) := by
  intro fresh
  have quiet : ∀ id task, (run (step bobsRoom) (resting bobsVersion)
      (computing ++ bumping 1 "@bob:localhost" ++ [.advance 0 "" 0])).tasks id = some task → task.isBump = false := by
    intro id task runs
    match id with
    | 0 => cases runs
    | 1 => cases runs
    | _ + 2 => cases runs
  have stale := fresh quiet "!r:localhost" 9 _ rfl fun _ => ⟨1, "", 0⟩
  revert stale
  decide

end World

end Wbfuwunel.DeviceVersions
