import Wbfuwunel.Api.InviteList

/-! The counts of a room's invites, in every order of the updates' steps: whatever is known of a room is older than the
update of it that is under way, and what an update has still to tell is what the tables say. -/

set_option autoImplicit false

namespace Wbfuwunel.Api
open Foundation Core Streams Database Rooms List Function Option Updating StateCache

variable {Queue Pack PackError : Type}

/-! ## Notices -/

namespace Notice

variable (notice : Notice)

def row : Option Nat := if notice.isPending then some notice.is else none

def Precedes (other : Notice) : Prop :=
  notice.is < other.is ∨ notice.is = other.is ∧ notice.isPending = other.isPending

theorem Precedes.refl : notice.Precedes notice := .inr ⟨rfl, rfl⟩

theorem isSome_row : notice.row.isSome = notice.isPending := by
  unfold row
  cases notice.isPending <;> rfl

theorem row_eq_some {notice : Notice} {n : Nat} (eq : notice.row = some n) : notice.isPending ∧ notice.is = n := by
  unfold row at eq
  cases pending : notice.isPending with
  | false => simp [pending] at eq
  | true => exact ⟨rfl, by simpa [pending] using eq⟩

end Notice

variable {α : Type} {list : List α} {i : Nat}

theorem getElem?_set_cases {other : Nat} {v got : α} (here : (list.set i v)[other]? = some got) :
    other = i ∧ got = v ∨ other ≠ i ∧ list[other]? = some got := by
  by_cases eq : other = i
  · subst eq
    rw [getElem?_set_self'] at here
    cases hit : list[other]? with
    | none => simp [hit] at here
    | some old => exact .inl ⟨rfl, by simpa [hit] using here.symm⟩
  · rw [getElem?_set_ne (Ne.symm eq)] at here
    exact .inr ⟨eq, here⟩

theorem getElem?_set_here {old : α} (here : list[i]? = some old) (v : α) : (list.set i v)[i]? = some v := by
  obtain ⟨mem, -⟩ := List.getElem?_eq_some_iff.mp here
  exact getElem?_set_self mem

namespace Inviting

variable (setting : InviteSetting Queue) (world : Inviting Queue Pack PackError)

def row (room : RoomId) : Option Nat := (world.cache.getInviteCount setting.user room).map UInt64.toNat

def found : List Notice := world.pass.toList.flatMap Pass.found

def heard : List Notice := world.inbox.map Prod.fst ++ world.found

def Known (notice : Notice) : Prop :=
  notice ∈ world.heard ∨ notice.isPending ∧ world.row setting notice.room = some notice.is

def Tells (notice : Notice) : Prop :=
  ∃ (name : Nat) (updating : Updating), world.updates[name]? = some updating ∧ updating.isActive ∧ notice = updating.notice

structure Numbered : Prop where
  known : ∀ notice, world.Known setting notice → notice.is ≤ world.globals.counter.dispatched
  drawn : ∀ (name : Nat) (updating : Updating), world.updates[name]? = some updating →
    updating.update.userId = setting.user ∧ updating.notice.is ≤ world.globals.counter.dispatched
  apart : ∀ (name other : Nat) (first second : Updating), world.updates[name]? = some first → world.updates[other]? = some second →
    first.isActive → second.isActive → first.room = second.room → name = other
  older : ∀ (name : Nat) (updating : Updating), world.updates[name]? = some updating → updating.isActive →
    ∀ notice, world.Known setting notice → notice.room = updating.room → notice.Precedes updating.notice

variable (next : Inviting Queue Pack PackError)

structure Fresh (updating : Updating) : Prop where
  userId : updating.update.userId = setting.user
  newer : world.globals.counter.dispatched < updating.notice.is
  drawn : updating.notice.is ≤ next.globals.counter.dispatched
  alone : ∀ (name : Nat) (other : Updating), world.updates[name]? = some other → other.isActive → other.room ≠ updating.room

structure Moves : Prop where
  dispatched : world.globals.counter.dispatched ≤ next.globals.counter.dispatched
  updates : ∀ (name : Nat) (updating : Updating), next.updates[name]? = some updating →
    (∃ before : Updating, world.updates[name]? = some before ∧ updating.update = before.update ∧
      (updating.isActive → before.isActive)) ∨
    name = world.updates.length ∧ world.Fresh setting next updating
  known : ∀ notice, next.Known setting notice → world.Known setting notice ∨ world.Tells notice

variable {setting} {world} {next : Inviting Queue Pack PackError} {updating : Updating} {name : Nat}
  {old : Updating} {wasInvited : Bool}

theorem notice_eq (eq : updating.update = old.update) : updating.notice = old.notice := by
  simp [notice, room, eq]

theorem room_eq (eq : updating.update = old.update) : updating.room = old.room := by
  simp [room, eq]

theorem Numbered.moves (ok : world.Numbered setting) (moves : world.Moves setting next) : next.Numbered setting := by
  have bounded : ∀ notice, next.Known setting notice → notice.is ≤ world.globals.counter.dispatched := by
    intro notice known
    rcases moves.known notice known with old | ⟨name, updating, here, -, rfl⟩
    · exact ok.known notice old
    · exact (ok.drawn name updating here).2
  refine ⟨fun notice known => (bounded notice known).trans moves.dispatched, ?_, ?_, ?_⟩
  · intro name updating here
    rcases moves.updates name updating here with ⟨old, there, eq, -⟩ | ⟨-, fresh⟩
    · rw [notice_eq eq, eq]
      exact (ok.drawn name old there).imp_right (·.trans moves.dispatched)
    · exact ⟨fresh.userId, fresh.drawn⟩
  · intro name o a b here there active active' r
    rcases moves.updates name a here with ⟨old, here, eq, was⟩ | ⟨rfl, fresh⟩
    · rcases moves.updates o b there with ⟨old', there, eq', was'⟩ | ⟨rfl, fresh'⟩
      · refine ok.apart name o old old' here there (was active) (was' active') ?_
        rw [← room_eq eq, ← room_eq eq', r]
      · refine absurd ?_ (fresh'.alone name old here (was active))
        rw [← room_eq eq, r]
    · rcases moves.updates o b there with ⟨old', there, eq', was'⟩ | ⟨rfl, -⟩
      · refine absurd ?_ (fresh.alone o old' there (was' active'))
        rw [← room_eq eq', r]
      · rfl
  · intro name updating here active notice known r
    rcases moves.updates name updating here with ⟨old, here, eq, was⟩ | ⟨-, fresh⟩
    · rw [notice_eq eq]
      rw [room_eq eq] at r
      rcases moves.known notice known with old' | ⟨o, teller, there, active', rfl⟩
      · exact ok.older name old here (was active) notice old' r
      · -- Only one update of the room is under way.
        obtain rfl := ok.apart name o old teller here there (was active) active' r.symm
        obtain rfl := some.inj (here.symm.trans there)
        exact .refl _
    · exact .inl ((bounded notice known).trans_lt fresh.newer)

/-! ## Stages -/

/-- What the row is for an update that has come so far. -/
def StageHolds (row : Option Nat) (updating : Updating) : Prop :=
  match updating.stage with
  | .begun wasInvited => wasInvited = row.isSome
  | .entered _ => updating.announces → row = updating.notice.row
  | .listened => row = updating.notice.row ∧ updating.notice.isPending
  | .pushing _ => row = updating.notice.row
  | .drawn | .announced | .returned | .released => True

theorem stageHolds_of_not_isActive {row : Option Nat} (ended : updating.isActive = false) : StageHolds row updating := by
  unfold isActive at ended
  unfold StageHolds
  cases stage : updating.stage with
  | returned | released => trivial
  | _ => simp [stage] at ended

def Owns (world : Inviting Queue Pack PackError) (push : Nat) : Prop :=
  ∃ (name : Nat) (updating : Updating), world.updates[name]? = some updating ∧ updating.stage = .pushing push ∧
    world.carries push = updating.notice

structure Orderly (setting : InviteSetting Queue) (world : Inviting Queue Pack PackError) : Prop where
  sorted : world.cache.Sorted
  numbered : world.Numbered setting
  stages : ∀ (name : Nat) (updating : Updating), world.updates[name]? = some updating → StageHolds (world.row setting updating.room) updating
  owned : ∀ push, world.isOver push = false → world.Owns push

theorem Orderly.isSome_row (ok : world.Orderly setting) (r : RoomId) :
    (world.row setting r).isSome = world.cache.isInvited setting.user r := by
  rw [row, isSome_map, ok.sorted.isSome_getInviteCount]

theorem orderly_start (g : Registry UserId UserId Queue) (count : Nat) :
    (start g count : Inviting Queue Pack PackError).Orderly setting where
  sorted := sorted_empty
  numbered := by
    refine ⟨fun notice known => ?_, by simp [start], by simp [start], by simp [start]⟩
    rcases known with mem | ⟨-, none⟩
    · simp [heard, found, start] at mem
    · cases none
  stages := by simp [start]
  owned := by simp [isOver, start, Pushing.idle]

theorem Orderly.of_same (ok : world.Orderly setting) (updates : next.updates = world.updates)
    (carries : next.carries = world.carries) (ended : ∀ push, world.isOver push → next.isOver push)
    (rows : ∀ r, next.row setting r = world.row setting r) (sorted : next.cache.Sorted)
    (dispatched : next.globals.counter.dispatched = world.globals.counter.dispatched)
    (heard : ∀ notice ∈ next.heard, world.Known setting notice ∨ world.Tells notice) : next.Orderly setting where
  sorted := sorted
  numbered := by
    refine ok.numbered.moves ⟨dispatched.ge, ?_, ?_⟩
    · intro name updating here
      rw [updates] at here
      exact .inl ⟨updating, here, rfl, id⟩
    · rintro notice (mem | ⟨pending, row⟩)
      · exact heard notice mem
      · exact .inl (.inr ⟨pending, (rows _).symm.trans row⟩)
  stages name updating here := by
    rw [updates] at here
    rw [rows]
    exact ok.stages name updating here
  owned push live := by
    have old : world.isOver push = false := by
      by_contra done
      rw [ended push (by simpa using done)] at live
      cases live
    rw [Owns, updates, carries]
    exact ok.owned push old

theorem Orderly.setStage (ok : world.Orderly setting) (here : world.updates[name]? = some updating)
    (stage : UpdateStage) (active : { updating with stage }.isActive → updating.isActive)
    (h : StageHolds (world.row setting updating.room) { updating with stage })
    (ended : ∀ push, updating.stage = .pushing push → world.isOver push) :
    (world.setStage name updating stage).Orderly setting where
  sorted := ok.sorted
  numbered := by
    refine ok.numbered.moves ⟨le_rfl, fun o got there => ?_, fun notice known => .inl known⟩
    rcases getElem?_set_cases there with ⟨rfl, rfl⟩ | ⟨-, there⟩
    · exact .inl ⟨updating, here, rfl, active⟩
    · exact .inl ⟨got, there, rfl, id⟩
  stages o got there := by
    rcases getElem?_set_cases there with ⟨rfl, rfl⟩ | ⟨-, there⟩
    · exact h
    · exact ok.stages o got there
  owned push live := by
    obtain ⟨o, owner, there, pushes, carries⟩ := ok.owned push live
    refine ⟨o, owner, ?_, pushes, carries⟩
    have differ : o ≠ name := by
      rintro rfl
      obtain rfl := some.inj (here.symm.trans there)
      have done := ended push pushes
      rw [show world.isOver push = false from live] at done
      cases done
    exact (getElem?_set_ne differ.symm).trans there

/-! ## The updates' own steps -/

theorem dispatched_dropPermit (globals : Globals) (id : Nat) :
    (globals.dropPermit id).counter.dispatched = globals.counter.dispatched := by
  unfold Globals.dropPermit Counter.retire
  split
  · cases globals.counter.pendingIndex id with
    | none => rfl
    | some i => by_cases a : i = 0 <;> simp [a, Globals.handleRetire]
  · rfl

theorem Orderly.draw (ok : world.Orderly setting) (update : MembershipUpdate)
    (alone : ∀ (name : Nat) (o : Updating), world.updates[name]? = some o → o.isActive → o.room ≠ update.roomId) :
    (world.draw setting update).Orderly setting := by
  unfold Inviting.draw
  simp only
  split
  case isFalse => exact ok
  case isTrue fits =>
    have drawn : (world.globals.nextCount .stored).counter.dispatched = world.globals.counter.dispatched + 1 := by
      simp only [Globals.nextCount, Counter.dispatch, if_pos fits]
    have n : (UInt64.ofNat (world.globals.counter.dispatched + 1)).toNat = world.globals.counter.dispatched + 1 :=
      UInt64.toNat_ofNat_of_lt' fits
    have cases {name : Nat} {last got : Updating} (there : (world.updates ++ [last])[name]? = some got) :
        world.updates[name]? = some got ∨ name = world.updates.length ∧ got = last := by
      rw [getElem?_append] at there
      split at there
      · exact .inl there
      next out =>
        obtain ⟨mem, same⟩ := List.getElem?_eq_some_iff.mp there
        simp only [length_singleton] at mem
        exact .inr ⟨by omega, by simpa [mem] using same.symm⟩
    refine ⟨ok.sorted, ok.numbered.moves ⟨?_, ?_, fun notice known => .inl known⟩, ?_, ?_⟩
    · rw [drawn]
      exact Nat.le_succ _
    · intro name got there
      rcases cases there with old | ⟨rfl, rfl⟩
      · exact .inl ⟨got, old, rfl, id⟩
      · refine .inr ⟨rfl, rfl, ?_, ?_, alone⟩
        · exact (Nat.lt_succ_self _).trans_eq n.symm
        · exact n.le.trans_eq drawn.symm
    · intro name got there
      rcases cases there with old | ⟨rfl, rfl⟩
      · exact ok.stages name got old
      · trivial
    · intro push live
      obtain ⟨o, owner, there, rest⟩ := ok.owned push live
      refine ⟨o, owner, ?_, rest⟩
      obtain ⟨mem, -⟩ := List.getElem?_eq_some_iff.mp there
      exact (getElem?_append_left mem).trans there

theorem row_enterMembership (eq : updating.update.userId = setting.user)
    (ensured : setting.services.ensureRemoteUser updating.update.userId = .ok ())
    (goesOn : (world.cache.enterMembership setting.services updating.update).1 = .ok true) (r : RoomId) :
    ((world.cache.enterMembership setting.services updating.update).2.getInviteCount setting.user r).map UInt64.toNat =
      if r = updating.room then
        if updating.update.membership = .invite then some updating.notice.is
        else if isInviteEndedBy updating.update.membership then none
        else world.row setting r
      else world.row setting r := by
  rw [getInviteCount_of_goesOn setting.services ensured goesOn, eq]
  by_cases own : r = updating.room
  · simp only [own, room, and_self, if_true]
    split
    · rfl
    · split <;> rfl
  · simp only [show ¬r = updating.update.roomId from own, if_neg own]
    rfl

theorem row_of_announces {old : Option Nat} (announces : { updating with stage := .entered wasInvited }.announces) :
    (if updating.update.membership = .invite then some updating.notice.is
      else if isInviteEndedBy updating.update.membership then none else old) = updating.notice.row := by
  by_cases invite : updating.update.membership = .invite
  · simp [invite, Notice.row, notice]
  · simp only [Updating.announces, invite, decide_false, Bool.false_or, Bool.and_eq_true] at announces
    simp [announces.2, Notice.row, Updating.notice]

theorem Orderly.enter (orderly : world.Orderly setting) {update : MembershipUpdate}
    (here : world.updates[name]? = some ⟨update, .begun wasInvited⟩) :
    (world.enter setting name ⟨update, .begun wasInvited⟩ wasInvited).Orderly setting := by
  have u : update.userId = setting.user := (orderly.numbered.drawn name _ here).1
  have idle : ∀ push, UpdateStage.begun wasInvited = .pushing push → world.isOver push := by simp
  have returned := orderly.setStage here .returned (fun active => by cases active) trivial idle
  unfold Inviting.enter
  cases ensured : setting.services.ensureRemoteUser setting.user with
  | error error => exact returned
  | ok done =>
    rw [← u] at ensured
    have ord := orderly.sorted.enterMembership setting.services ensured
    have early := @StateCache.getInviteCount_of_endsEarly world.cache setting.user
    simp only
    split
    case h_1 c entered =>
      have rows := @row_enterMembership _ _ _ setting world ⟨update, .begun wasInvited⟩ u ensured (by rw [entered])
      rw [entered] at rows ord
      refine ⟨ord, orderly.numbered.moves ⟨le_rfl, fun o got there => ?_, ?_⟩, ?_, ?_⟩
      · rcases getElem?_set_cases there with ⟨rfl, rfl⟩ | ⟨-, there⟩
        · exact .inl ⟨_, here, rfl, fun _ => rfl⟩
        · exact .inl ⟨got, there, rfl, id⟩
      · rintro notice (mem | ⟨pending, row⟩)
        · exact .inl (.inl mem)
        · rw [Inviting.row, rows] at row
          split_ifs at row with own invite ended
          · refine .inr ⟨name, _, here, rfl, ?_⟩
            obtain ⟨r, is, isPending⟩ := notice
            simp_all [notice]
          · exact .inl (.inr ⟨pending, row⟩)
          · exact .inl (.inr ⟨pending, row⟩)
      · intro o got there
        rcases getElem?_set_cases there with ⟨rfl, rfl⟩ | ⟨differ, there⟩
        · intro announces
          rw [Inviting.row, rows]
          exact (if_pos rfl).trans (row_of_announces announces)
        · by_cases active : got.isActive
          · have away : got.room ≠ room ⟨update, .begun wasInvited⟩ := fun eq =>
              differ (orderly.numbered.apart o name got _ there here active rfl eq)
            rw [Inviting.row, rows, if_neg away]
            exact orderly.stages o got there
          · exact stageHolds_of_not_isActive (by simpa using active)
      · intro push live
        obtain ⟨o, owner, there, pushes, carries⟩ := orderly.owned push live
        refine ⟨o, owner, ?_, pushes, carries⟩
        have differ : o ≠ name := by
          rintro rfl
          obtain rfl := some.inj (here.symm.trans there)
          cases pushes
        exact (getElem?_set_ne differ.symm).trans there
    all_goals
      rename_i entered
      refine returned.of_same rfl rfl (fun _ => id) (fun r => ?_) (by rw [entered] at ord; exact ord) rfl
        fun notice mem => .inl (.inl mem)
      have eq := @early r setting.services update ensured (by rw [entered]; simp)
      rw [entered] at eq
      simp only [Inviting.row, Inviting.setStage, eq]

theorem Orderly.announce (ok : world.Orderly setting) {push : Nat} (here : world.updates[name]? = some updating)
    (active : updating.isActive) (idle : ∀ push, updating.stage ≠ .pushing push)
    (h : world.row setting updating.room = updating.notice.row) (ended : world.isOver push)
    (makePack : MakePack Pack PackError) : (world.announce setting name push updating makePack).Orderly setting := by
  have none : ∀ push, updating.stage = .pushing push → world.isOver push :=
    fun push pushes => absurd pushes (idle push)
  have fresh : world.pushing.pushes push = .none := isNone_iff_eq_none.mp ended
  unfold Inviting.announce
  simp only
  split
  case isTrue => exact ok.setStage here .announced (fun _ => active) trivial none
  case isFalse =>
    have went := ok.setStage here (.pushing push) (fun _ => active) h none
    refine ⟨went.sorted, ?_, went.stages, fun o live => ?_⟩
    · exact went.numbered.moves ⟨le_rfl, fun _ got there => .inl ⟨got, there, rfl, id⟩, fun notice known => .inl known⟩
    · by_cases eq : o = push
      · subst eq
        exact ⟨name, _, getElem?_set_here here _, rfl, update_self ..⟩
      · simp only [isOver, Pushing.step_start fresh, update_of_ne eq] at live
        obtain ⟨owner, got, there, pushes, carries⟩ := went.owned o live
        exact ⟨owner, got, there, pushes, (update_of_ne eq ..).trans carries⟩

end Inviting
end Wbfuwunel.Api
