import Wbfuwunel.MediaRefs.Collect
import Wbfuwunel.MediaRefs.Listing

/-! What the lock of a media gives, over every interleaving.

Whoever adds a holder has the media's lock, but for a retained original that takes its event's media over. So a media
that was found to have no holder has none when it is removed. The lock is taken after the attachments were looked up,
and what happened in between goes unseen.
-/

set_option autoImplicit false

namespace Wbfuwunel.MediaRefs

open Foundation Database List Function Option Store Task World Tables

/-! ## Media without a holder -/

namespace Tables

variable {t : Tables} {mxc : String}

theorem hasHolders_eq_false_iff : t.hasHolders mxc = false ↔
    ∀ k, serializeKey [.str mxc, .interfix] <+: k → t.mxcHolder.find k = none := by
  rw [hasHolders, Bool.not_eq_false', List.isEmpty_iff, List.eq_nil_iff_forall_not_mem]
  simp only [mem_rowsBeginning, not_and]
  constructor
  · intro none k pre
    refine eq_none_iff_forall_ne_some.mpr fun v got => ?_
    exact none (k, v) (find_eq_some_iff.mp got) pre
  · intro none row mem pre
    have got := find_eq_some_iff.mpr (show (row.1, row.2) ∈ t.mxcHolder.rows from mem)
    rw [none row.1 pre] at got
    cases got

variable (free : t.hasHolders mxc = false)
include free

theorem hasHolders_hold {o : String} (ne : mxc ≠ o) (x : Holder) : (t.hold o x).hasHolders mxc = false := by
  rw [hasHolders_eq_false_iff] at free ⊢
  intro k pre
  have apart : k ≠ x.mxcHolderKey o := by
    rintro rfl
    exact ne (Holder.interfix_begins_mxcHolderKey.mp pre)
  exact (find_put_of_ne _ _ apart).trans (free k pre)

theorem hasHolders_delHolderRows (o : String) (x : Holder) : (t.delHolderRows o x).hasHolders mxc = false := by
  rw [hasHolders_eq_false_iff] at free ⊢
  intro k pre
  simp only [delHolderRows, find_del, free k pre, ite_self]

variable {media : List String}

theorem hasHolders_foldl_hold (apart : mxc ∉ media) (x : Holder) :
    (media.foldl (fun t o => t.hold o x) t).hasHolders mxc = false := by
  refine foldlRecOn (motive := (hasHolders · mxc = false)) media _ free fun t free o mem => ?_
  exact hasHolders_hold free (ne_of_mem_of_not_mem mem apart).symm x

theorem hasHolders_foldl_del {α : Type} (rows : List α) (o : α → String) (x : α → Holder) :
    (rows.foldl (fun t row => t.delHolderRows (o row) (x row)) t).hasHolders mxc = false :=
  foldlRecOn (motive := (hasHolders · mxc = false)) rows _ free fun _ free _ _ => hasHolders_delHolderRows free _ _

theorem hasHolders_foldl_swap (apart : mxc ∉ media) (source target : Holder) :
    (media.foldl (fun t o => t.swap o source target) t).hasHolders mxc = false := by
  refine foldlRecOn (motive := (hasHolders · mxc = false)) media _ free fun t free o mem => ?_
  exact hasHolders_hold (hasHolders_delHolderRows free _ _) (ne_of_mem_of_not_mem mem apart).symm target

theorem hasHolders_forgetMedia (o : String) : (t.forgetMedia o).hasHolders mxc = false := by
  exact hasHolders_foldl_del (by exact free) _ (fun _ => o) id

theorem hasHolders_setAvatarRef {new : Option String} (apart : mxc ∉ new.toList) (x : Holder) (held : List String) :
    (t.setAvatarRef x new held).hasHolders mxc = false := by
  have dropped := hasHolders_foldl_del free (held.filter (some · ≠ new)) id (fun _ => x)
  cases new with
  | none => exact dropped
  | some new =>
    rw [toList_some, mem_singleton] at apart
    exact hasHolders_hold dropped apart x

end Tables

/-! ## The invariant -/

def Task.Shaped : Task → Prop
  | .checking send checked todo => ∀ mxc ∈ send.declared, mxc ∈ checked ∨ mxc ∈ todo
  | .locking send checked _ _ => ∀ mxc ∈ send.declared, mxc ∈ checked
  | _ => True

/-- What a task relies on: its locks are its own, what it found stored is stored, and what it found without a holder has
none. -/
structure World.Fits (world : World) (id : Nat) (task : Task) : Prop where
  owned : ∀ mxc ∈ task.locked, world.mxcLocks mxc = some id
  kept : ∀ mxc ∈ task.checked, world.stored mxc
  free : ∀ mxc rest, task = .removing mxc .decided rest → world.tables.hasHolders mxc = false
  shaped : task.Shaped

def World.Holds (world : World) : Prop := ∀ id task, world.tasks id = some task → world.Fits id task

def Task.Plain : Task → Prop
  | .checking .. | .locking .. | .removing _ .decided _ => False
  | _ => True

namespace World

variable {env : GcEnv} {world next : World} {id : Nat} {task : Task}

theorem Fits.of_plain (plain : task.Plain) (owned : ∀ mxc ∈ task.locked, world.mxcLocks mxc = some id) :
    world.Fits id task := by
  refine ⟨owned, ?_, ?_, ?_⟩
  · cases task <;> simp_all [checked, Task.Plain]
  · rintro mxc rest rfl
    exact plain.elim
  · cases task <;> simp_all [Task.Shaped, Task.Plain]

theorem Fits.frame (fits : world.Fits id task) (locks : ∀ mxc, world.mxcLocks mxc = some id → next.mxcLocks mxc = some id)
    (got : ∀ mxc ∈ task.checked, world.stored mxc → next.stored mxc)
    (all : ∀ mxc rest, task = .removing mxc .decided rest → world.tables.hasHolders mxc = false →
      next.tables.hasHolders mxc = false) : next.Fits id task where
  owned mxc mem := locks mxc (fits.owned mxc mem)
  kept mxc mem := got mxc mem (fits.kept mxc mem)
  free mxc rest decided := all mxc rest decided (fits.free mxc rest decided)
  shaped := fits.shaped

variable {base : World} {new : Option Task} {mxc : String}

theorem Holds.become (others : ∀ o task, o ≠ id → base.tasks o = some task → base.Fits o task)
    (own : ∀ task, new = some task → base.Fits id task) : (base.become id new).Holds := by
  intro o task runs
  simp only [World.become, update_apply] at runs
  have fits : base.Fits o task := by
    split at runs
    next eq =>
      exact eq ▸ own task runs
    next ne =>
      exact others o task ne runs
  exact ⟨fits.owned, fits.kept, fits.free, fits.shaped⟩

section

variable (h : world.Holds)
include h

theorem Holds.move (own : ∀ task, new = some task → world.Fits id task) : (world.become id new).Holds :=
  Holds.become (fun o task _ runs => h o task runs) own

theorem Holds.take (runs : world.tasks id = some task) {new : Task}
    (fits : ∀ next : World, next.stored = world.stored → (∀ o ∈ task.locked, next.mxcLocks o = some id) →
      next.mxcLocks mxc = some id → next.Fits id new) : (world.take id mxc new).Holds := by
  unfold World.take
  split
  next unowned =>
    have kept : ∀ o owner, world.mxcLocks o = some owner → update world.mxcLocks mxc (some id) o = some owner := by
      intro o owner own
      rw [update_of_ne]
      · exact own
      · rintro rfl
        rw [unowned] at own
        cases own
    refine Holds.become (fun o task _ runs => ?_) ?_
    · exact (h o task runs).frame (fun mxc => kept mxc o) (fun _ _ got => got) (fun _ _ _ free => free)
    · rintro _ ⟨⟩
      exact fits _ rfl (fun o mem => kept o id ((h id task runs).owned o mem)) (update_self ..)
  · exact h

theorem Holds.unlock {locked : List String} (owned : ∀ mxc ∈ locked, world.mxcLocks mxc = some id) {o : Nat}
    (ne : o ≠ id) (runs : world.tasks o = some task) : (world.unlock locked).Fits o task := by
  refine (h o task runs).frame (fun mxc own => ?_) (fun _ _ got => got) (fun _ _ _ free => free)
  have absent : mxc ∉ locked := by
    intro mem
    rw [owned mxc mem] at own
    exact ne (some.inj own).symm
  exact (if_neg absent).trans own

theorem Holds.not_removing (runs : world.tasks id = some task) (mem : mxc ∈ task.locked)
    (otherwise : ∀ rest, task ≠ .removing mxc .decided rest) (o : Nat) (rest : List String) :
    world.tasks o ≠ some (.removing mxc .decided rest) := by
  intro removing
  have own := (h id task runs).owned mxc mem
  rw [(h o _ removing).owned mxc (by simp [locked])] at own
  obtain rfl := some.inj own
  rw [runs] at removing
  exact otherwise rest (some.inj removing)

theorem Holds.commit {tables : Tables} {released : List String}
    (free : ∀ o mxc rest, world.tasks o = some (.removing mxc .decided rest) →
      world.tables.hasHolders mxc = false → tables.hasHolders mxc = false) :
    { world with tables := tables, released := released }.Holds := by
  intro o task runs
  refine (h o task runs).frame (fun _ own => own) (fun _ _ got => got) ?_
  rintro mxc rest rfl
  exact free o mxc rest runs

end

theorem Holds.removeNext (others : ∀ o task, o ≠ id → base.tasks o = some task → base.Fits o task)
    (rest : List String) : (base.removeNext id rest).Holds := by
  cases rest with
  | nil => exact Holds.become others (by rintro task ⟨⟩)
  | cons mxc rest =>
    refine Holds.become others ?_
    rintro task ⟨⟩
    exact .of_plain trivial (by simp [locked])

/-! ## One moment -/

/-- A media is removed while no send that found it stored is still under way; and an original takes no media over that
somebody has just found without a holder. -/
def CalmTask (env : GcEnv) (world : World) : Task → Prop
  | .removing mxc .decided _ =>
    env.mediaGcEnabled → ∀ other task, world.tasks other = some task → mxc ∉ task.checked
  | .moving _ (some _) held => ∀ mxc ∈ held, ∀ other rest, world.tasks other ≠ some (.removing mxc .decided rest)
  | _ => True

def Calm (env : GcEnv) (world : World) : Moment → Prop
  | .advance id => ∀ task, world.tasks id = some task → CalmTask env world task
  | _ => True

section Advance

variable (h : world.Holds)

include h

variable {mxc : String} {send : Send} {checked held rest : List String} {stage : Stage}

theorem Holds.checkNext {todo : List String} (runs : world.tasks id = some (.checking send checked (mxc :: todo))) :
    (world.checkNext env id send checked mxc todo).Holds := by
  have fits := h id _ runs
  have shaped : ∀ other ∈ send.declared, other ∈ checked ∨ other = mxc ∨ other ∈ todo := by
    simpa [Task.Shaped] using fits.shaped
  unfold World.checkNext
  split_ifs with known acc
  · refine h.move ?_
    rintro _ ⟨⟩
    refine ⟨by simp [locked], fits.kept, by rintro _ _ ⟨⟩, fun other mem => ?_⟩
    rcases shaped other mem with done | rfl | later
    · exact .inl done
    · exact .inl known
    · exact .inr later
  · have got : world.stored mxc := by
      simp only [accepts, Bool.and_eq_true] at acc
      exact acc.1.2
    refine h.move ?_
    rintro _ ⟨⟩
    refine ⟨by simp [locked], ?_, by rintro _ _ ⟨⟩, fun other mem => ?_⟩
    · intro other mem
      rcases mem_append.mp mem with done | new
      · exact fits.kept other done
      · exact mem_singleton.mp new ▸ got
    · rcases shaped other mem with done | rfl | later
      · exact .inl (by simp [done])
      · exact .inl (by simp)
      · exact .inr later
  · exact h.move (by rintro _ ⟨⟩)

theorem Holds.commitSend {locked : List String} (runs : world.tasks id = some (.locking send checked locked [])) :
    (world.commitSend id send locked).Holds := by
  have fits := h id _ runs
  have committed : { world with
      tables := locked.foldl (fun tables mxc => tables.hold mxc send.holder) world.tables
      released := world.released }.Holds := by
    -- A media about to be removed is locked by the remover, so the send cannot have locked it.
    refine h.commit fun o mxc rest removing free => hasHolders_foldl_hold free (fun mem => ?_) _
    exact h.not_removing runs mem (fun _ => by rintro ⟨⟩) o rest removing
  refine committed.move ?_
  rintro _ ⟨⟩
  exact .of_plain trivial fits.owned

theorem Holds.commitAvatar {x : Holder} {new : Option String} (runs : world.tasks id = some (.settingAvatar x new held)) :
    (world.commitAvatar id x new held).Holds := by
  have fits := h id _ runs
  refine (h.commit ?_).move ?_
  · intro o mxc rest removing free
    refine hasHolders_setAvatarRef free (fun mem => ?_) x held
    exact h.not_removing runs mem (fun _ => by rintro ⟨⟩) o rest removing
  · rintro _ ⟨⟩
    exact .of_plain trivial fits.owned

theorem Holds.commitMove {source : Holder} {t : Option Holder}
    (calm : CalmTask env world (.moving source t held)) : (world.commitMove id source t held).Holds := by
  cases t with
  | some t =>
    have committed : { world with
        tables := held.foldl (fun tables mxc => tables.swap mxc source t) world.tables
        released := world.released }.Holds :=
      h.commit fun o mxc rest removing free =>
        hasHolders_foldl_swap free (fun mem => calm mxc mem o rest removing) _ _
    exact committed.move (by rintro _ ⟨⟩)
  | none =>
    refine (h.commit ?_).move (by rintro _ ⟨⟩)
    intro o mxc rest _ free
    exact hasHolders_foldl_del free held (fun o => o) (fun _ => source)

theorem Holds.unlockNext (has : stage ≠ .waiting) (running : world.tasks id = some (.removing mxc stage rest)) :
    ((world.unlock [mxc]).removeNext id rest).Holds := by
  have fits := h id _ running
  have owned : ∀ o ∈ [mxc], world.mxcLocks o = some id := by
    cases stage with
    | waiting => exact absurd rfl has
    | locked | decided | removed => exact fits.owned
  exact Holds.removeNext (fun o task ne running => h.unlock owned ne running) rest

theorem Holds.advanceRemoval (running : world.tasks id = some (.removing mxc stage rest))
    (calm : CalmTask env world (.removing mxc stage rest)) : (world.advanceRemoval env id mxc rest stage).Holds := by
  have fits := h id _ running
  cases stage with
  | waiting =>
    refine h.take running fun next _ _ own => .of_plain trivial ?_
    simpa [locked] using own
  | locked =>
    simp only [advanceRemoval]
    split_ifs with removable
    · refine h.move ?_
      rintro _ ⟨⟩
      refine ⟨fits.owned, by simp [checked], ?_, trivial⟩
      rintro _ _ ⟨⟩
      simpa [isRemovable] using (Bool.and_eq_true_iff.mp removable).2
    · exact h.unlockNext (by decide) running
  | decided =>
    simp only [advanceRemoval]
    split_ifs with enabled
    · refine Holds.become (fun o task _ moves => ?_) ?_
      -- The files go: a send that has found this one stored would be misled.
      · refine (h o task moves).frame (fun _ own => own) (fun checked mem got => ?_) (fun _ _ _ free => free)
        refine (update_of_ne ?_ _ _).trans got
        rintro rfl
        exact calm enabled o task moves mem
      · rintro _ ⟨⟩
        exact .of_plain trivial fits.owned
    · exact h.unlockNext (by decide) running
  | removed =>
    have forgotten : { world with
        tables := world.tables.forgetMedia mxc
        released := world.released }.Holds :=
      h.commit fun _ _ _ _ free => hasHolders_forgetMedia free mxc
    exact forgotten.unlockNext (by decide) running

theorem Holds.advance (runs : world.tasks id = some task) (calm : CalmTask env world task) :
    (world.advance env id task).Holds := by
  have fits := h id task runs
  cases task with
  | checking send checked todo =>
    cases todo with
    | nil =>
      refine h.move ?_
      rintro _ ⟨⟩
      exact ⟨by simp [locked], fits.kept, by rintro _ _ ⟨⟩, by simpa [Task.Shaped] using fits.shaped⟩
    | cons mxc todo => exact h.checkNext runs
  | locking send checked locked todo =>
    cases todo with
    | nil => exact h.commitSend runs
    | cons mxc todo =>
      refine h.take runs fun next got owned own => ⟨?_, ?_, by rintro _ _ ⟨⟩, fits.shaped⟩
      · intro o mem
        rcases mem_append.mp mem with old | new
        · exact owned o old
        · exact mem_singleton.mp new ▸ own
      · rw [got]
        exact fits.kept
  | unlocking locked =>
    exact Holds.become (fun o task ne runs => h.unlock fits.owned ne runs) (by rintro _ ⟨⟩)
  | lockingAvatar x new =>
    refine h.take runs fun next _ _ own => .of_plain trivial ?_
    simpa [locked] using own
  | readingAvatar x new =>
    refine h.move ?_
    rintro _ ⟨⟩
    exact .of_plain trivial fits.owned
  | settingAvatar x new held => exact h.commitAvatar runs
  | reading source t =>
    refine h.move ?_
    rintro _ ⟨⟩
    exact .of_plain trivial (by simp [locked])
  | moving source t held => exact h.commitMove calm
  | removing mxc stage rest => exact h.advanceRemoval runs calm

theorem Holds.start (fits : world.Fits id task) : (world.start id task).Holds := by
  unfold World.start
  split_ifs
  · refine h.move ?_
    rintro _ ⟨⟩
    exact fits
  · exact h

theorem Holds.step {moment : Moment} (calm : Calm env world moment) : (world.step env moment).Holds := by
  cases moment with
  | tick => exact fun o task runs =>
      (h o task runs).frame (fun _ own => own) (fun _ _ got => got) (fun _ _ _ free => free)
  | upload mxc uploader =>
    refine fun o task runs =>
      (h o task runs).frame (fun _ own => own) (fun checked _ got => ?_) (fun _ _ _ free => free)
    simp only [World.step, update_apply]
    split_ifs
    · rfl
    · exact got
  | send id send =>
    simp only [World.step]
    split_ifs
    · exact h
    · exact h.start ⟨by simp [locked], by simp [checked], by rintro _ _ ⟨⟩, fun mxc mem => .inr mem⟩
  | setAvatar id x new =>
    cases new with
    | some new => exact h.start (.of_plain trivial (by simp [locked]))
    | none => exact h.start (.of_plain trivial (by simp [locked]))
  | redact id source backup =>
    exact h.start (.of_plain trivial (by simp [locked]))
  | purge id x => exact h.start (.of_plain trivial (by simp [locked]))
  | collect id =>
    simp only [World.step]
    split
    · exact h
    · split_ifs
      · refine (h.commit fun _ _ _ _ free => free).move ?_
        rintro _ ⟨⟩
        exact .of_plain trivial (by simp [locked])
      · exact h
  | sweep id =>
    simp only [World.step]
    split_ifs
    · exact Holds.removeNext (fun o task _ runs => h o task runs) _
    · exact h
  | advance id =>
    simp only [World.step]
    cases runs : world.tasks id with
    | none => exact h
    | some task => exact h.advance runs (calm task runs)
  | abort id =>
    simp only [World.step]
    cases runs : world.tasks id with
    | none => exact h
    | some task =>
      exact Holds.become (fun o task ne moves => h.unlock (h id _ runs).owned ne moves) (by rintro _ ⟨⟩)

end Advance

/-! ## Every run -/

def SoundTask (env : GcEnv) (world : World) : Task → Prop
  | .removing mxc .decided _ => env.mediaGcEnabled → world.tables.hasHolders mxc = false
  | .locking send _ _ [] => ∀ mxc ∈ send.declared, world.stored mxc
  | _ => True

def Sound (env : GcEnv) (world : World) : Moment → Prop
  | .advance id => ∀ task, world.tasks id = some task → SoundTask env world task
  | _ => True

theorem Holds.sound (h : world.Holds) (moment : Moment) : Sound env world moment := by
  cases moment with
  | advance id =>
    intro task runs
    have fits := h id task runs
    cases task with
    | removing mxc stage rest =>
      cases stage with
      | decided => exact fun _ => fits.free mxc rest rfl
      | _ => trivial
    | locking send checked locked todo =>
      cases todo with
      | nil => exact fun mxc mem => fits.kept mxc (fits.shaped mxc mem)
      | cons mxc todo => trivial
    | _ => trivial
  | _ => trivial

/-- Over every interleaving of calm moments, from any tables and media. -/
theorem media_in_use_kept (env : GcEnv) (tables : Tables) (stored : String → Bool) (uploaderOf : String → Option String)
    (mxcManaged : Store String Nat) (now : Nat) (moments : List Moment)
    (calm : Admits (step env) (Calm env) (resting tables stored uploaderOf mxcManaged now) moments) :
    Admits (step env) (Sound env) (resting tables stored uploaderOf mxcManaged now) moments := by
  -- With no task under way there is nothing to rely on.
  have initially : (resting tables stored uploaderOf mxcManaged now).Holds := fun _ _ runs => by cases runs
  exact Admits.imp_of_keeps (fun world moment (h : world.Holds) calm => h.step calm)
    (fun world moment h _ => Holds.sound h moment) initially calm

/-! ## A photo -/

def openEnv : GcEnv where
  attachmentsMaxPerEvent := 10
  parses _ := true
  isLocal _ := true
  unreferencedGrace := 5
  mediaGcEnabled := true

def photo : String := "mxc://s/photo"

def album (tables : Tables) : World :=
  resting tables (· = photo) (fun _ => some "@alice:s") (Store.empty.put photo 0) 10

def message : Send := ⟨"@alice:s", [photo], [], .event "!r:s" 7⟩

/-- The sweep takes the photo after the send has looked it up and before it has locked it. -/
def sweptBetween : World := run (step openEnv) (album .empty)
  [.send 1 message, .advance 1, .sweep 2, .advance 2, .advance 2, .advance 2, .advance 2, .advance 1, .advance 1]

/-- The photo's event is purged after its redaction has looked up what it holds and before it has moved it. -/
def purgedBetween : World := run (step openEnv) (album (empty.hold photo (.event "!r:s" 7)))
  [.redact 1 (.event "!r:s" 7) (some (.backup "!r:s" 7)), .advance 1, .purge 2 (.event "!r:s" 7), .advance 2, .advance 2,
    .collect 3, .advance 3, .advance 3, .advance 1]

/-- The message is committed with a photo that is gone; and the photo goes while the retained original holds it. -/
theorem photo_lost :
    sweptBetween.tasks 1 = some (.locking message [photo] [photo] []) ∧ sweptBetween.stored photo = false ∧
      (sweptBetween.step openEnv (.advance 1)).tables.hasHolders photo ∧
    purgedBetween.tasks 3 = some (.removing photo .decided []) ∧ purgedBetween.tables.hasHolders photo ∧
      (purgedBetween.step openEnv (.advance 3)).stored photo = false :=
  ⟨rfl, by decide, by decide +kernel, rfl, by decide +kernel, by decide +kernel⟩

def sentThenSwept : List Moment :=
  [.send 1 message, .advance 1, .advance 1, .advance 1, .advance 1, .advance 1, .sweep 2, .advance 2, .advance 2]

theorem photo_kept : Admits (step openEnv) (Sound openEnv) (album .empty) sentThenSwept ∧
    (run (step openEnv) (album .empty) sentThenSwept).stored photo := by
  refine ⟨media_in_use_kept openEnv .empty _ _ _ 10 sentThenSwept ?_, by decide +kernel⟩
  refine ⟨trivial, ?_, ?_, ?_, ?_, ?_, trivial, ?_, ?_, trivial⟩
  all_goals
    intro task runs
    obtain rfl := some.inj runs
    trivial

end World

end Wbfuwunel.MediaRefs
