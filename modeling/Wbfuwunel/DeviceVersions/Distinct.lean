import Wbfuwunel.DeviceVersions.RoomVersions
import Wbfuwunel.Foundation.Runs
import Wbfuwunel.Foundation.Store

/-! A version changes with what it stands for: a room's with its counted members, an account's with each change of its
keys. -/

set_option autoImplicit false

namespace Wbfuwunel.DeviceVersions

open Foundation Rooms List

/-! ## The version of a room -/

theorem lengthPrefixed_append_inj {a b a' b' rest rest' : Bytes}
    (framed : lengthPrefixed a = .ok a') (framed' : lengthPrefixed b = .ok b')
    (same : a' ++ rest = b' ++ rest') : a = b ∧ rest = rest' := by
  unfold lengthPrefixed at framed framed'
  split at framed <;> cases framed
  split at framed' <;> cases framed'
  next fits fits' =>
    rw [append_assoc, append_assoc] at same
    obtain ⟨lengths, same⟩ := append_inj same (by simp)
    have lengths := congrArg UInt32.toNat (toBeBytes32_inj.mp lengths)
    simp only [UInt32.toNat_ofNat', Nat.mod_eq_of_lt fits, Nat.mod_eq_of_lt fits'] at lengths
    exact append_inj same lengths

theorem lengthPrefixed_ne_nil (part : Bytes) : lengthPrefixed part ≠ .ok [] := by
  unfold lengthPrefixed
  split
  · intro empty
    have := congrArg List.length (Except.ok.inj empty)
    simp at this
  · simp

theorem exists_parts_of_frame {items : List (UserId × Bytes)} {framed : Bytes} (framing : frame items = .ok framed) :
    ∃ parts, List.Forall₂ (fun item part => ∃ u rest, lengthPrefixed (utf8 item.1) = .ok u ∧
      lengthPrefixed item.2 = .ok rest ∧ part = u ++ rest) items parts ∧ framed = parts.flatten := by
  induction items generalizing framed with
  | nil =>
    cases framing
    exact ⟨[], .nil, rfl⟩
  | cons head items ih =>
    unfold frame at framing
    split at framing <;> cases framing
    next u item rest ofUser ofItem ofRest =>
      obtain ⟨parts, each, rfl⟩ := ih ofRest
      exact ⟨(u ++ item) :: parts, .cons ⟨u, item, ofUser, ofItem, rfl⟩ each, rfl⟩

theorem frame_injective {a b : List (UserId × Bytes)} {framed : Bytes} (ofFirst : frame a = .ok framed)
    (ofSecond : frame b = .ok framed) : a = b := by
  obtain ⟨parts, each, rfl⟩ := exists_parts_of_frame ofFirst
  obtain ⟨parts', each', same⟩ := exists_parts_of_frame ofSecond
  refine eq_of_flatten_eq ?_ ?_ each each' same
  · rintro item item' _ _ rest rest' ⟨u, own, ofUser, ofItem, rfl⟩ ⟨u', own', ofUser', ofItem', rfl⟩ same
    rw [append_assoc, append_assoc] at same
    obtain ⟨users, same⟩ := lengthPrefixed_append_inj ofUser ofUser' same
    obtain ⟨items, same⟩ := lengthPrefixed_append_inj ofItem ofItem' same
    exact ⟨Prod.ext (utf8_injective users) items, same⟩
  · rintro item ⟨u, own, ofUser, -, empty⟩
    exact lengthPrefixed_ne_nil _ (ofUser.trans (congrArg _ (append_eq_nil_iff.mp empty.symm).1))

variable {sha256 : Bytes → Bytes} {first second : List (UserId × Bytes)}

theorem ascending_insertionSort {α : Type} {items : List (String × α)} (distinct : (items.map Prod.fst).Nodup) :
    (items.insertionSort fun left right => utf8 left.1 ≤ utf8 right.1).Pairwise
      fun old after => utf8 old.1 < utf8 after.1 := by
  have ord := pairwise_insertionSort (fun left right : String × α => utf8 left.1 ≤ utf8 right.1) items
  have perm := perm_insertionSort (fun left right : String × α => utf8 left.1 ≤ utf8 right.1) items
  have apart := pairwise_map.mp ((perm.map Prod.fst).nodup_iff.mpr distinct)
  exact (ord.and apart).imp fun both => lt_of_le_of_ne both.1 fun eq => both.2 (utf8_injective eq)

theorem framed_of_hash {v : UInt64} (hashed : toRoomVersionHash sha256 first = .ok v) : ∃ framed,
    frame (first.insertionSort fun left right => utf8 left.1 ≤ utf8 right.1) = .ok framed ∧
      (sha256 framed).take 8 = toBeBytes64 v := by
  unfold toRoomVersionHash at hashed
  split at hashed
  · cases hashed
  next framed framing =>
    dsimp only at hashed
    split at hashed <;> cases hashed
    exact ⟨framed, framing, (toBeBytes64_fromBeBytes64 (by simpa)).symm⟩

/-- Two lists of members have one version exactly if they list the same, in whatever order, while the heads of the two
hashes do not collide. -/
theorem room_version_hash_iff_perm (distinct : (first.map Prod.fst).Nodup) (distinct' : (second.map Prod.fst).Nodup)
    (collisionFree : ∀ framed framed' : Bytes,
      frame (first.insertionSort fun left right => utf8 left.1 ≤ utf8 right.1) = .ok framed →
      frame (second.insertionSort fun left right => utf8 left.1 ≤ utf8 right.1) = .ok framed' →
      (sha256 framed).take 8 = (sha256 framed').take 8 → framed = framed') :
    (first.Perm second → toRoomVersionHash sha256 first = toRoomVersionHash sha256 second) ∧
      ∀ version, toRoomVersionHash sha256 first = .ok version → toRoomVersionHash sha256 second = .ok version →
        first.Perm second := by
  constructor
  · intro perm
    have eq : first.insertionSort (fun left right => utf8 left.1 ≤ utf8 right.1) =
        second.insertionSort fun left right => utf8 left.1 ≤ utf8 right.1 := by
      refine @eq_of_ascending _ _ _ (fun item => utf8 item.1) _ _ (ascending_insertionSort distinct)
        (ascending_insertionSort distinct') fun item => ?_
      rw [mem_insertionSort, mem_insertionSort, perm.mem_iff]
    rw [toRoomVersionHash, toRoomVersionHash, eq]
  · intro version hashed hashed'
    obtain ⟨framed, framing, head⟩ := framed_of_hash hashed
    obtain ⟨framed', framing', head'⟩ := framed_of_hash hashed'
    obtain rfl := collisionFree framed framed' framing framing' (head.trans head'.symm)
    have eq := frame_injective framing framing'
    exact (perm_insertionSort _ first).symm.trans (eq ▸ perm_insertionSort _ second)

def aliceAndBob (bob : DeviceVersion) : List (UserId × Bytes) :=
  [("@a:l", joinItem ⟨3, "3f9a0c21bd", 7⟩), ("@b:l", joinItem bob)]

def framedOf (items : List (UserId × Bytes)) : Bytes :=
  (frame (items.insertionSort fun left right => utf8 left.1 ≤ utf8 right.1)).toOption.getD []

/-- SHA-256, for the texts of two lists of members. -/
def memberSha256 (text : Bytes) : Bytes :=
  if text = framedOf (aliceAndBob ⟨1, "90b1ee04d2", 5⟩) then
    [25, 150, 114, 176, 91, 129, 51, 229, 175, 103, 175, 227, 81, 207, 241, 145, 226, 115, 240, 246, 120, 112, 147, 185, 232,
      138, 215, 107, 27, 96, 155, 27]
  else if text = framedOf (aliceAndBob ⟨2, "0c44a97f13", 9⟩) then
    [238, 221, 118, 220, 230, 206, 4, 242, 141, 12, 111, 179, 126, 254, 35, 239, 237, 7, 7, 188, 152, 133, 47, 174, 53, 227,
      131, 212, 233, 105, 155, 116]
  else []

/-- The members in another order, and one of them with another device version. -/
theorem room_version_hash_iff_perm_of_two : let members := aliceAndBob ⟨1, "90b1ee04d2", 5⟩
    toRoomVersionHash memberSha256 members.reverse = .ok 1843787199229801445 ∧
      toRoomVersionHash memberSha256 (aliceAndBob ⟨2, "0c44a97f13", 9⟩) ≠ .ok 1843787199229801445 := by
  intro members
  have version : toRoomVersionHash memberSha256 members = .ok 1843787199229801445 := by rfl
  have text {items : List (UserId × Bytes)} {framed : Bytes}
      (framing : frame (items.insertionSort fun left right => utf8 left.1 ≤ utf8 right.1) = .ok framed) :
      framed = framedOf items := by
    rw [framedOf, framing]
    rfl
  constructor
  · rw [← version]
    refine (room_version_hash_iff_perm (by decide) (by decide) fun framed framed' framing framing' _ => ?_).1
      members.reverse_perm
    rw [text framing, text framing']
    decide +kernel
  · intro same
    have perm := (room_version_hash_iff_perm (by decide) (by decide) fun framed framed' framing framing' heads => ?_).2 _
      version same
    · exact absurd (perm.mem_iff.mp (mem_cons_of_mem _ mem_cons_self)) (by decide +kernel)
    · rw [text framing, text framing'] at heads
      exact absurd heads (by decide +kernel)

/-! ## The version of an account -/

/-- The changes of one account's keys. The ones in `waiting` have drawn their position and have still to get the account's
lock; `last` is the position of the last one that had it. -/
structure Account where
  count : UInt64
  waiting : List UInt64
  stored : Option DeviceVersion
  last : UInt64

inductive Change where
  | draw (own : Bool)
  | bump (pos : UInt64) (hash : String) (readable : Bool)
  | get (hash : String) (lastChange : UInt64)

namespace Account

def new (count : UInt64) : Account := ⟨count, [], none, 0⟩

variable (account : Account)

/-- What a bump under the lock writes; `readable` is whether it can read the row. -/
def bumped (pos : UInt64) (hash : String) (readable : Bool) : DeviceVersion :=
  let row := if readable then account.stored.map some else some none
  ⟨(World.resting fun _ => row).nextSeq "" pos, hash, pos⟩

/-- `get` is the `get_device_version` that finds no row. -/
def step : Change → Account
  | .draw own =>
    if account.count = 0xFFFFFFFFFFFFFFFF then account
    else { account with
      count := account.count + 1
      waiting := if own then account.waiting ++ [account.count + 1] else account.waiting }
  | .bump pos hash readable =>
    if pos ∈ account.waiting then { account with
      waiting := account.waiting.erase pos
      stored := some (account.bumped pos hash readable)
      last := pos }
    else account
  | .get hash lastChange => { account with stored := account.stored.or (some ⟨1, hash, lastChange⟩) }

def InOrder : Change → Prop
  | .bump pos _ _ => account.last < pos ∧ 1 < pos
  | _ => True

def Forward : Change → Prop
  | .bump pos hash readable => pos ∈ account.waiting → ∀ old ∈ account.stored,
      old.seq < (account.bumped pos hash readable).seq
  | _ => True

def Bounded : Prop := ∀ old ∈ account.stored, old.seq ≤ max 1 account.last

theorem bumped_seq {account : Account} (bounded : account.Bounded) {pos : UInt64}
    (ordered : max 1 account.last < pos) (hash : String) (readable : Bool) :
    (account.bumped pos hash readable).seq ≤ pos ∧ ∀ old ∈ account.stored, old.seq < (account.bumped pos hash readable).seq := by
  have lt (old : DeviceVersion) (got : old ∈ account.stored) : old.seq < pos := (bounded old got).trans_lt ordered
  cases readable with
  | false => exact ⟨le_rfl, lt⟩
  | true =>
    obtain ⟨n, wait, got, last⟩ := account
    cases got with
    | none => exact ⟨((le_max_left ..).trans_lt ordered).le, nofun⟩
    | some old =>
      refine ⟨saturatingAdd64_one_le (lt old rfl), ?_⟩
      rintro _ ⟨rfl⟩
      have small := lt old rfl
      have := pos.toNat_lt
      change old.seq < saturatingAdd64 old.seq 1
      rw [UInt64.lt_iff_toNat_lt] at small ⊢
      rw [saturatingAdd64_toNat, UInt64.toNat_one]
      omega

/-- The version of an account moves forward along every run whose changes get the lock in the order of their positions. -/
theorem device_version_moves_forward (count : UInt64) (changes : List Change)
    (ordered : Admits step InOrder (new count) changes) : Admits step Forward (new count) changes := by
  have keeps (account : Account) (change : Change) (bounded : account.Bounded) (ok : account.InOrder change) :
      (account.step change).Bounded := by
    cases change <;> simp only [step]
    case draw own => split <;> exact bounded
    case bump pos hash readable =>
      split
      · rintro _ ⟨rfl⟩
        exact (bumped_seq bounded (max_lt ok.2 ok.1) hash readable).1.trans (le_max_right ..)
      · exact bounded
    case get hash lastChange =>
      intro old got
      rcases Option.or_eq_some_iff.mp got with hit | ⟨-, fresh⟩
      · exact bounded old hit
      · cases fresh
        exact le_max_left ..
  refine ordered.imp_of_keeps keeps (fun account change bounded ok => ?_) nofun
  cases change with
  | bump pos hash readable => exact fun _ => (bumped_seq bounded (max_lt ok.2 ok.1) hash readable).2
  | _ => trivial

theorem device_version_moves_forward_twice :
    Admits step Forward (new 4) [.draw true, .draw true, .bump 5 "a" false, .bump 6 "b" true] :=
  device_version_moves_forward 4 _ ⟨trivial, trivial, ⟨by decide, by decide⟩, ⟨by decide, by decide⟩, trivial⟩

/-- Two changes that get the lock against the order of their positions, the second with a row it cannot read. -/
theorem device_version_falls_back :
    ¬Admits step Forward (new 4) [.draw true, .draw true, .bump 6 "a" false, .bump 5 "b" false] := by
  rintro ⟨-, -, -, forward, -⟩
  exact absurd (forward (by decide) _ rfl) (by decide)

end Account

end Wbfuwunel.DeviceVersions
