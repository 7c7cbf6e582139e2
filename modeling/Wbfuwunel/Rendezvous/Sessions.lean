import Mathlib.Data.List.MinMax
import Mathlib.Data.String.Basic
import Wbfuwunel.Foundation.Runs
import Wbfuwunel.Foundation.Store

/-! Rendezvous sessions: `service/rendezvous/mod.rs`. Every operation runs under the one lock; times are nanoseconds since
the epoch. -/

set_option autoImplicit false

namespace Wbfuwunel.Rendezvous

open Foundation List Function Option Store

/-- The text between the quotes. -/
structure Etag where
  value : String
  deriving DecidableEq, Repr

def Etag.asStr (etag : Etag) : String := "\"" ++ etag.value ++ "\""

structure Meta where
  etag : Etag
  expiresAt : Nat
  lastModified : Nat
  deriving DecidableEq, Repr

/-- A session and every etag it had; nothing reads those. -/
structure Session where
  etag : Etag
  data : Bytes
  created : Nat
  lastModified : Nat
  expiresAt : Nat
  etags : List Etag
  deriving DecidableEq, Repr

def Session.meta (session : Session) : Meta := ⟨session.etag, session.expiresAt, session.lastModified⟩

inductive Validator where
  | etag (candidate : String)
  | sequenceToken (candidate : String)
  deriving DecidableEq, Repr

inductive Get where
  | data (data : Bytes) (info : Meta)
  | notModified (info : Meta)
  | notFound
  deriving DecidableEq, Repr

inductive Put where
  | accepted (info : Meta)
  | preconditionFailed (info : Meta)
  | notFound
  deriving DecidableEq, Repr

def etagMatches (candidate : String) (etag : Etag) : Bool := candidate = "*" || candidate = etag.asStr

def Validator.matches (stored : Etag) : Validator → Bool
  | .etag candidate => etagMatches candidate stored
  | .sequenceToken candidate => candidate = stored.value

def expiresAt (now ttl : Nat) : Nat := min (now + ttl) (253402300799 * 1000000000)

def nextLastModified (now previous : Nat) : Nat := max now (previous + 1000000)

def millis (time : Nat) : UInt64 := .ofNat (min (time / 1000000) (2 ^ 64 - 1))

def getOutcome (session : Session) (ifNoneMatch : Option String) : Get :=
  if ifNoneMatch.any (etagMatches · session.etag) then .notModified session.meta else .data session.data session.meta

abbrev Sessions := Store String Session

inductive Event where
  | create (data : Bytes) (now ttl maxSessions : Nat) (draws : List String)
  | get (id : String) (ifNoneMatch : Option String) (now : Nat)
  | put (id : String) (validator : Validator) (data : Bytes) (now ttl : Nat)
  | delete (id : String)
  deriving DecidableEq, Repr

-- `encode` is the base64 of the SHA-256.
variable (encode : Bytes → String)

def etagOf (id : String) (data : Bytes) (lastModified : Nat) : Etag :=
  ⟨encode (utf8 id ++ data ++ toBeBytes64 (millis lastModified))⟩

namespace Sessions

variable (sessions : Sessions)

/-- The loop that removes the oldest sessions; each round removes one. -/
def evict (capacity : Nat) : Nat → Sessions → Sessions
  | 0, sessions => sessions
  | fuel + 1, sessions =>
    if sessions.rows.length < capacity then sessions
    else match sessions.rows.argmin (·.2.created) with
      | none => sessions
      | some row => evict capacity fuel (sessions.del row.1)

/-- No answer while every drawn id is taken. -/
def createAt (data : Bytes) (now ttl maxSessions : Nat) (draws : List String) : Option Sessions :=
  let live := sessions.keep fun _ session => now < session.expiresAt
  (draws.find? fun id => !live.contains id).map fun id =>
    (evict (max maxSessions 1) live.rows.length live).put id
      ⟨etagOf encode id data now, data, now, now, expiresAt now ttl, [etagOf encode id data now]⟩

def getAt (id : String) (ifNoneMatch : Option String) (now : Nat) : Sessions × Get :=
  match sessions.find id with
  | none => (sessions, .notFound)
  | some session =>
    if now < session.expiresAt then (sessions, getOutcome session ifNoneMatch) else (sessions.del id, .notFound)

def putWithAt (id : String) (validator : Validator) (data : Bytes) (now ttl : Nat) : Sessions × Put :=
  match sessions.find id with
  | none => (sessions, .notFound)
  | some session =>
    if session.expiresAt ≤ now then (sessions.del id, .notFound)
    else if validator.matches session.etag then
      let lastModified := nextLastModified now session.lastModified
      let etag := etagOf encode id data lastModified
      let next : Session := ⟨etag, data, session.created, lastModified, expiresAt now ttl, etag :: session.etags⟩
      (sessions.put id next, .accepted next.meta)
    else if data ≠ session.data then (sessions, .preconditionFailed session.meta)
    else
      let next := { session with expiresAt := expiresAt now ttl }
      (sessions.put id next, .accepted next.meta)

def step (sessions : Sessions) : Event → Sessions
  | .create data now ttl maxSessions draws => (createAt encode sessions data now ttl maxSessions draws).getD sessions
  | .get id ifNoneMatch now => (getAt sessions id ifNoneMatch now).1
  | .put id validator data now ttl => (putWithAt encode sessions id validator data now ttl).1
  | .delete id => sessions.del id

/-- The milliseconds of the times that are written fit in 64 bits. -/
def Fits (sessions : Sessions) : Event → Prop
  | .create _ now .. => now / 1000000 < 2 ^ 64
  | .put id _ _ now _ => ∀ session ∈ sessions.find id, nextLastModified now session.lastModified / 1000000 < 2 ^ 64
  | _ => True

variable {encode sessions} {id : String} {session : Session}

theorem evict_subset {capacity : Nat} (fuel : Nat) : (evict capacity fuel sessions).rows ⊆ sessions.rows := by
  induction fuel generalizing sessions with
  | zero => exact List.Subset.refl _
  | succ fuel ih =>
    unfold evict
    split
    · exact List.Subset.refl _
    · split
      · exact List.Subset.refl _
      · exact List.Subset.trans ih (filter_subset_self _)

theorem length_evict_lt {capacity fuel : Nat} (some : 0 < capacity) (enough : sessions.rows.length ≤ fuel) :
    (evict capacity fuel sessions).rows.length < capacity := by
  induction fuel generalizing sessions with
  | zero => exact (Nat.le_zero.mp enough).symm ▸ some
  | succ fuel ih =>
    unfold evict
    split
    · assumption
    case isFalse full =>
      split
      case h_1 none =>
        rw [argmin_eq_none.mp none] at full
        exact absurd some full
      case h_2 row got =>
        refine ih (Nat.le_of_lt_succ (lt_of_lt_of_le ?_ enough))
        exact length_filter_lt_length_iff_exists.mpr ⟨row, argmin_mem got, by simp⟩

/-- The etags of a session are made of its own id, and of times whose milliseconds are not behind its last. -/
structure Dated (encode : Bytes → String) (id : String) (session : Session) : Prop where
  current : session.etag ∈ session.etags
  made : ∀ etag ∈ session.etags, ∃ data time, etag = etagOf encode id data time ∧
    time / 1000000 ≤ session.lastModified / 1000000
  fits : session.lastModified / 1000000 < 2 ^ 64

theorem etagOf_ne (injective : Injective encode) {data data' : Bytes} {time time' : Nat}
    (lt : time / 1000000 < time' / 1000000) (fits : time' / 1000000 < 2 ^ 64) :
    etagOf encode id data time ≠ etagOf encode id data' time' := by
  intro eq
  have digested := injective (congrArg Etag.value eq)
  have stamped := congrArg UInt64.toNat (toBeBytes64_inj.mp (append_inj' digested (by simp)).2)
  simp only [millis, UInt64.toNat_ofNat'] at stamped
  omega

theorem Dated.etag_notMem (dated : Dated encode id session) (injective : Injective encode) {data : Bytes}
    {now : Nat} (fits : nextLastModified now session.lastModified / 1000000 < 2 ^ 64) :
    etagOf encode id data (nextLastModified now session.lastModified) ∉ session.etags := by
  intro mem
  obtain ⟨data', time, eq, le⟩ := dated.made _ mem
  have later : session.lastModified / 1000000 < nextLastModified now session.lastModified / 1000000 := by
    unfold nextLastModified
    omega
  exact etagOf_ne injective (lt_of_le_of_lt le later) fits eq.symm

def AllDated (encode : Bytes → String) (sessions : Sessions) : Prop := ∀ row ∈ sessions.rows, Dated encode row.1 row.2

theorem AllDated.put {next : Session} (dated : AllDated encode sessions) (new : Dated encode id next) :
    AllDated encode (sessions.put id next) := by
  intro row mem
  rcases mem_put.mp mem with rfl | ⟨old, -⟩
  · exact new
  · exact dated row old

theorem AllDated.step {e : Event} (dated : AllDated encode sessions) (fits : Fits sessions e) :
    AllDated encode (step encode sessions e) := by
  have removed {id : String} : AllDated encode (sessions.del id) := fun row mem => dated row (mem_keep.mp mem).1
  cases e with
  | create data now ttl maxSessions draws =>
    simp only [Sessions.step, createAt]
    cases draws.find? _ with
    | none => exact dated
    | some id =>
      refine AllDated.put (fun row mem => ?_) ⟨by simp, fun etag mem => ?_, fits⟩
      · exact dated row (mem_keep.mp (evict_subset _ mem)).1
      · exact ⟨data, now, mem_singleton.mp mem, le_rfl⟩
  | get id ifNoneMatch now =>
    simp only [Sessions.step, getAt]
    split
    · exact dated
    · split
      exacts [dated, removed]
  | put id validator data now ttl =>
    simp only [Sessions.step, putWithAt]
    split
    · exact dated
    case h_2 session hit =>
      have own := dated _ (find_eq_some_iff.mp hit)
      split
      · exact removed
      split
      · refine dated.put ⟨by simp, forall_mem_cons.mpr ⟨⟨data, _, rfl, le_rfl⟩, fun etag mem => ?_⟩, fits _ hit⟩
        obtain ⟨data', time, made, le⟩ := own.made etag mem
        refine ⟨data', time, made, le.trans (Nat.div_le_div_right ?_)⟩
        exact (Nat.le_add_right _ _).trans (Nat.le_max_right ..)
      split
      · exact dated
      · exact dated.put ⟨own.current, own.made, own.fits⟩
  | delete id => exact removed

/-- After every run: an accepted put under a passed validator has an etag that the session never had; a put that names an
etag or a token changes the data only if that is the current one; a create leaves at most the configured number of
sessions; and no answer comes from a session that has expired. -/
theorem rendezvous_sessions (injective : Injective encode) {events : List Event}
    (fits : Admits (step encode) Fits .empty events) :
    let sessions := run (step encode) .empty events
    (∀ id validator data now ttl session info, Fits sessions (.put id validator data now ttl) →
      sessions.find id = some session → validator.matches session.etag →
      (putWithAt encode sessions id validator data now ttl).2 = .accepted info →
        info.etag ∉ session.etags ∧ session.etag ∈ session.etags) ∧
    (∀ id validator data now ttl session next, validator ≠ .etag "*" → sessions.find id = some session →
      (putWithAt encode sessions id validator data now ttl).1.find id = some next → next.data ≠ session.data →
        validator = .etag session.etag.asStr ∨ validator = .sequenceToken session.etag.value) ∧
    (∀ data now ttl maxSessions draws next, createAt encode sessions data now ttl maxSessions draws = some next →
      next.rows.length ≤ max maxSessions 1) ∧
    (∀ id ifNoneMatch now, (getAt sessions id ifNoneMatch now).2 ≠ .notFound →
      ∃ session, sessions.find id = some session ∧ now < session.expiresAt) ∧
    ∀ id validator data now ttl, (putWithAt encode sessions id validator data now ttl).2 ≠ .notFound →
      ∃ session, sessions.find id = some session ∧ now < session.expiresAt := by
  intro sessions
  have dated : AllDated encode sessions := (along_of_keeps (fun _ _ => AllDated.step) (by simp [AllDated, Store.empty]) fits).last
  refine ⟨?_, ?_, ?_, ?_, ?_⟩
  · intro id validator data now ttl session info room hit passes acc
    have own := dated _ (find_eq_some_iff.mp hit)
    simp only [putWithAt, hit, passes, if_true] at acc
    split at acc
    · cases acc
    · obtain rfl := Put.accepted.inj acc
      exact ⟨own.etag_notMem injective (room _ hit), own.current⟩
  · intro id validator data now ttl session next concrete hit got changed
    by_contra apart
    have mismatch : validator.matches session.etag = false := by
      cases validator <;> simp_all [Validator.matches, etagMatches]
    simp only [putWithAt, hit, mismatch] at got
    split at got
    · simp at got
    · simp only [Bool.false_eq_true, if_false] at got
      split at got
      · exact changed (congrArg Session.data (some.inj (hit.symm.trans got))).symm
      · rw [find_put_self] at got
        exact changed (congrArg Session.data (some.inj got)).symm
  · intro data now ttl maxSessions draws next made
    obtain ⟨id, -, rfl⟩ := map_eq_some_iff.mp made
    exact (length_put_le ..).trans (length_evict_lt (by omega) le_rfl)
  · intro id ifNoneMatch now answered
    simp only [getAt] at answered
    split at answered
    · exact absurd rfl answered
    case h_2 session hit =>
      refine ⟨session, hit, ?_⟩
      by_contra expired
      exact answered (by rw [if_neg expired])
  · intro id validator data now ttl answered
    simp only [putWithAt] at answered
    split at answered
    · exact absurd rfl answered
    case h_2 session hit =>
      refine ⟨session, hit, ?_⟩
      by_contra expired
      exact answered (by rw [if_pos (not_lt.mp expired)])

def spell (bytes : Bytes) : String := String.ofList (bytes.map Char.ofUInt8)

theorem spell_injective : Injective spell := by
  intro a b eq
  refine map_injective_iff.mpr (fun x y same => ?_) (String.ofList_injective eq)
  exact UInt8.toUInt32_inj.mp (congrArg Char.val same)

def firstEtag : Etag := etagOf spell "a" [1] 5000000

/-- A session that was written once more, at a time before its creation. -/
def rewritten : List Event :=
  [.create [1] 5000000 9000000000 1 ["a"], .put "a" (.etag firstEtag.asStr) [2] 3000000 9000000000]

def rewrittenSession : Session :=
  ⟨etagOf spell "a" [2] 6000000, [2], 5000000, 6000000, 9003000000, [etagOf spell "a" [2] 6000000, firstEtag]⟩

/-- The clock goes back again: a put by the current etag has a new one, and a put by the stale etag leaves the data. -/
theorem rendezvous_sessions_of_rewritten : let sessions := run (step spell) .empty rewritten
    sessions.find "a" = some rewrittenSession ∧ etagOf spell "a" [3] 7000000 ∉ rewrittenSession.etags ∧
      ∀ next, (putWithAt spell sessions "a" (.etag firstEtag.asStr) [3] 1000000 9000000000).1.find "a" = some next →
        next.data = [2] := by
  intro sessions
  have found : sessions.find "a" = some rewrittenSession := by decide +kernel
  have fits : Admits (step spell) Fits .empty rewritten := by
    have created : (step spell .empty (.create [1] 5000000 9000000000 1 ["a"])).find "a" =
        some ⟨firstEtag, [1], 5000000, 5000000, 9005000000, [firstEtag]⟩ := by
      decide +kernel
    refine ⟨show 5000000 / 1000000 < 2 ^ 64 by decide, fun session hit => ?_, trivial⟩
    obtain rfl := some.inj (created.symm.trans hit)
    decide
  have law := rendezvous_sessions spell_injective fits
  refine ⟨found, ?_, fun next got => ?_⟩
  · refine (law.1 "a" (.etag rewrittenSession.etag.asStr) [3] 1000000 9000000000 rewrittenSession
      ⟨etagOf spell "a" [3] 7000000, 9001000000, 7000000⟩ ?_ found ?_ ?_).1
    · intro session hit
      obtain rfl := some.inj (found.symm.trans hit)
      decide
    · decide +kernel
    · decide +kernel
  · by_contra changed
    have current := law.2.1 "a" _ [3] 1000000 9000000000 rewrittenSession next ?_ found got changed
    · revert current
      decide +kernel
    · decide +kernel

end Sessions

end Wbfuwunel.Rendezvous
