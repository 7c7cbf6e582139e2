import Mathlib.Algebra.BigOperators.Group.List.Lemmas
import Wbfuwunel.Users.OneTimeKeys

/-! What a device is told of its key supply, and its fallback keys: `service/users/keys.rs`. -/

set_option autoImplicit false

namespace Wbfuwunel.Users

open Foundation Database List Function Store

structure FallbackId where
  user : String
  device : String
  algorithm : String
  deriving DecidableEq, Repr

namespace FallbackId

def fields (id : FallbackId) : List Field := [.str id.user, .str id.device, .str id.algorithm]

def bytes (id : FallbackId) : Bytes := serializeTuple id.fields

theorem bytes_injective : Injective bytes := by
  rintro ⟨u, device, algorithm⟩ ⟨u', device', algorithm'⟩ eq
  simpa [fields] using eq_of_serializeTuple_eq eq rfl

instance idOrder : LinearOrder FallbackId := LinearOrder.lift' bytes bytes_injective

theorem lt_iff (a b : FallbackId) : a < b ↔ a.bytes < b.bytes := Iff.rfl

theorem begins_iff {u device : String} (id : FallbackId) :
    serializeTuple [.str u, .str device] <+: id.bytes ↔ u = id.user ∧ utf8 device <+: utf8 id.device := by
  have bytes_eq : id.bytes = utf8 id.user ++ SEP :: (utf8 id.device ++ SEP :: utf8 id.algorithm) := by
    simp [bytes, fields, serializeTuple, Field.element, Element.encode]
  rw [bytes_eq, pair_begins_iff]

end FallbackId

structure FallbackEntry where
  keyId : String
  key : String
  used : Bool
  deriving DecidableEq, Repr

/-! ## Reports -/

section Fallback

/-- The prefix has no `Interfix` behind the device. -/
def unusedFallbackKeyAlgorithms (table : Store FallbackId FallbackEntry) (user device : String) : List String :=
  ((table.rowsStarting FallbackId.bytes (serializeTuple [.str user, .str device])).filter fun row => !row.2.used).map
    (·.1.algorithm)

variable {table : Store FallbackId FallbackEntry} {u device : String}

/-- The algorithms of the device's own unused entries. -/
def ownAlgorithms (table : Store FallbackId FallbackEntry) (user device : String) : List String :=
  (table.rows.filter fun row => row.1.user = user ∧ row.1.device = device ∧ row.2.used = false).map (·.1.algorithm)

theorem mem_ownAlgorithms {algorithm : String} : algorithm ∈ ownAlgorithms table u device ↔
    ∃ entry, table.find ⟨u, device, algorithm⟩ = some entry ∧ entry.used = false := by
  simp only [ownAlgorithms, mem_map, mem_filter, decide_eq_true_eq, find_eq_some_iff]
  constructor
  · rintro ⟨⟨⟨_, _, _⟩, entry⟩, ⟨mem, rfl, rfl, unused⟩, rfl⟩
    exact ⟨entry, mem, unused⟩
  · rintro ⟨entry, mem, unused⟩
    exact ⟨_, ⟨mem, rfl, rfl, unused⟩, rfl⟩

theorem nodup_ownAlgorithms : (ownAlgorithms table u device).Nodup := by
  refine (table.nodup_keys.of_map.filter _).map_on ?_
  rintro ⟨⟨_, _, _⟩, entry⟩ mem ⟨⟨_, _, _⟩, entry'⟩ mem' eq
  simp only [mem_filter, decide_eq_true_eq] at mem mem' eq
  obtain ⟨hit, rfl, rfl, -⟩ := mem
  obtain ⟨hit', rfl, rfl, -⟩ := mem'
  subst eq
  rw [← find_eq_some_iff] at hit hit'
  rw [Option.some.inj (hit.symm.trans hit')]

theorem unused_exact_iff : ((unusedFallbackKeyAlgorithms table u device).Nodup ∧
      ∀ algorithm, algorithm ∈ unusedFallbackKeyAlgorithms table u device ↔
        ∃ entry, table.find ⟨u, device, algorithm⟩ = some entry ∧ entry.used = false) ↔
    ∀ row ∈ table.rows, u = row.1.user → utf8 device <+: utf8 row.1.device → row.2.used = false →
      row.1.device = device := by
  have wide : unusedFallbackKeyAlgorithms table u device = (table.rows.filter fun row =>
      u = row.1.user ∧ utf8 device <+: utf8 row.1.device ∧ row.2.used = false).map (·.1.algorithm) := by
    rw [unusedFallbackKeyAlgorithms, table.rowsStarting_eq_filter FallbackId.lt_iff, filter_filter]
    congr 2
    funext row
    rw [Bool.eq_iff_iff, Bool.and_eq_true, isPrefixOf_iff_prefix, FallbackId.begins_iff]
    simp only [Bool.not_eq_true', decide_eq_true_eq]
    tauto
  have narrower : ∀ row ∈ table.rows, decide (row.1.user = u ∧ row.1.device = device ∧ row.2.used = false) →
      decide (u = row.1.user ∧ utf8 device <+: utf8 row.1.device ∧ row.2.used = false) := by
    intro row _ own
    obtain ⟨rfl, rfl, unused⟩ := of_decide_eq_true own
    simp [unused]
  have meets : (∀ row ∈ table.rows, u = row.1.user → utf8 device <+: utf8 row.1.device → row.2.used = false →
      row.1.device = device) ↔ ∀ row ∈ table.rows,
      decide (u = row.1.user ∧ utf8 device <+: utf8 row.1.device ∧ row.2.used = false) →
        decide (row.1.user = u ∧ row.1.device = device ∧ row.2.used = false) := by
    refine forall₂_congr fun row _ => ?_
    simp only [decide_eq_true_eq, and_imp]
    exact ⟨fun h own pre unused => ⟨own.symm, h own pre unused, unused⟩, fun h own pre unused => (h own pre unused).2.1⟩
  rw [meets]
  simp only [← mem_ownAlgorithms]
  constructor
  · rintro ⟨distinct, eq⟩
    have perm := (perm_ext_iff_of_nodup distinct nodup_ownAlgorithms).mpr eq
    refine (length_filter_eq_iff narrower).mp ?_
    simpa [wide, ownAlgorithms] using perm.length_eq
  · intro agree
    have eq : unusedFallbackKeyAlgorithms table u device = ownAlgorithms table u device :=
      wide.trans ((map_filter_eq_iff _ narrower).mpr agree)
    rw [eq]
    exact ⟨nodup_ownAlgorithms, fun _ => Iff.rfl⟩

end Fallback

namespace OneTime.Pool

variable (user device : String)

/-- The map that the fold over the rows builds, with its saturating addition. -/
def algorithmCounts (rows : List (OtkRowKey × String)) : String → Option Nat :=
  rows.foldl (fun counts row => update counts row.1.algorithm
    (some (min ((counts row.1.algorithm).getD 0 + 1) uintMax))) fun _ => none

def completeOneTimeKeyCounts (counts : String → Option Nat) : String → Option Nat :=
  update counts "signed_curve25519" (some ((counts "signed_curve25519").getD 0))

def pruneOneTimeKeys (pool : Pool) (excess : Nat) : Pool :=
  ((pool.deviceRows user device).take excess).foldl (fun pool row => pool.del row.1) pool

def countOneTimeKeys (pool : Pool) (limit : Nat) : (String → Option Nat) × Pool :=
  let rows := pool.deviceRows user device
  let counts := algorithmCounts rows
  let total := ((rows.map (·.1.algorithm)).dedup.map fun algorithm => (counts algorithm).getD 0).sum
  (completeOneTimeKeyCounts counts, if limit < total then pool.pruneOneTimeKeys user device (total - limit) else pool)

variable {user device} {pool : Pool} {rows : List (OtkRowKey × String)}

theorem algorithmCounts_getD (algorithm : String) :
    (algorithmCounts rows algorithm).getD 0 = min ((rows.map (·.1.algorithm)).count algorithm) uintMax := by
  induction rows using List.reverseRecOn with
  | nil => simp [algorithmCounts]
  | append_singleton rows row ih =>
    have next : algorithmCounts (rows ++ [row]) = update (algorithmCounts rows) row.1.algorithm
        (some (min ((algorithmCounts rows row.1.algorithm).getD 0 + 1) uintMax)) := foldl_concat ..
    rw [next]
    rcases eq_or_ne algorithm row.1.algorithm with rfl | ne
    · simp
      omega
    · rw [update_of_ne ne, ih]
      simp [ne.symm]

theorem completeOneTimeKeyCounts_getD (counts : String → Option Nat) (algorithm : String) :
    (completeOneTimeKeyCounts counts algorithm).getD 0 = (counts algorithm).getD 0 := by
  rcases eq_or_ne algorithm "signed_curve25519" with rfl | ne
  · simp [completeOneTimeKeyCounts]
  · rw [completeOneTimeKeyCounts, update_of_ne ne]

theorem rows_foldl_del : (rows.foldl (fun pool row => pool.del row.1) pool).otk.rows =
    pool.otk.rows.filter fun row => row.1 ∉ rows.map Prod.fst := by
  induction rows generalizing pool with
  | nil => simp
  | cons row rows ih =>
    rw [foldl_cons, ih, del, Store.del, Store.keep, filter_filter]
    refine filter_congr fun o _ => ?_
    rw [Bool.eq_iff_iff]
    simp [and_comm]

theorem deviceRows_foldl_del : (rows.foldl (fun pool row => pool.del row.1) pool).deviceRows user device =
    (pool.deviceRows user device).filter fun row => row.1 ∉ rows.map Prod.fst := by
  rw [deviceRows_eq, rows_foldl_del, deviceRows_eq, filter_filter, filter_filter]
  exact filter_congr fun _ _ => Bool.and_comm ..

theorem counts_exact_iff {limit : Nat} (few : (pool.deviceRows user device).length ≤ uintMax) :
    (∀ algorithm, ((pool.countOneTimeKeys user device limit).1 algorithm).getD 0 =
      (((pool.countOneTimeKeys user device limit).2.deviceRows user device).map (·.1.algorithm)).count algorithm) ↔
    (pool.deviceRows user device).length ≤ limit := by
  have counts (algorithm : String) : (algorithmCounts (pool.deviceRows user device) algorithm).getD 0 =
      ((pool.deviceRows user device).map (·.1.algorithm)).count algorithm := by
    rw [algorithmCounts_getD, min_eq_left]
    refine count_le_length.trans ?_
    rwa [length_map]
  have total : (((pool.deviceRows user device).map (·.1.algorithm)).dedup.map fun algorithm =>
      (algorithmCounts (pool.deviceRows user device) algorithm).getD 0).sum = (pool.deviceRows user device).length := by
    simp only [counts, sum_map_count_dedup_eq_length, length_map]
  simp only [countOneTimeKeys, total]
  simp only [completeOneTimeKeyCounts_getD, counts]
  constructor
  · intro exact
    by_contra gt
    rw [not_le] at gt
    rw [if_pos gt, pruneOneTimeKeys, deviceRows_foldl_del] at exact
    -- Equal counts leave no row out, but the oldest row is pruned.
    have perm := (perm_iff_count.mpr exact).length_eq
    rw [length_map, length_map] at perm
    have whole := length_filter_eq_length_iff.mp perm.symm
    cases rows : pool.deviceRows user device with
    | nil => simp [rows] at gt
    | cons row rest =>
      obtain ⟨excess, size⟩ : ∃ excess, (pool.deviceRows user device).length - limit = excess + 1 :=
        ⟨_, (Nat.sub_add_cancel (by omega)).symm⟩
      have kept := whole row (by simp [rows])
      rw [size, rows] at kept
      simp at kept
  · intro lt algorithm
    rw [if_neg (not_lt.mpr lt)]

end OneTime.Pool

/-- Exactness of both reports. The fallback report is exact just if no device of the user whose id merely begins with this
one's has unused entries, the counts just if nothing is pruned. -/
theorem key_supply_exact_iff {table : Store FallbackId FallbackEntry} {pool : OneTime.Pool} {user device : String}
    {limit : Nat} (few : (pool.deviceRows user device).length ≤ uintMax) :
    (((unusedFallbackKeyAlgorithms table user device).Nodup ∧
      ∀ algorithm, algorithm ∈ unusedFallbackKeyAlgorithms table user device ↔
        ∃ entry, table.find ⟨user, device, algorithm⟩ = some entry ∧ entry.used = false) ↔
      ∀ row ∈ table.rows, user = row.1.user → utf8 device <+: utf8 row.1.device → row.2.used = false →
        row.1.device = device) ∧
    ((∀ algorithm, ((pool.countOneTimeKeys user device limit).1 algorithm).getD 0 =
        (((pool.countOneTimeKeys user device limit).2.deviceRows user device).map (·.1.algorithm)).count algorithm) ↔
      (pool.deviceRows user device).length ≤ limit) :=
  ⟨unused_exact_iff, OneTime.Pool.counts_exact_iff few⟩

/-- A device with two keys of one algorithm. -/
def twoKeys : OneTime.Pool :=
  ⟨(empty.put ⟨"@u:h", "A", 1, "a:1"⟩ "k").put ⟨"@u:h", "A", 2, "a:2"⟩ "l", 2, [], []⟩

theorem counts_exact_of_two_keys : ((twoKeys.countOneTimeKeys "@u:h" "A" 2).1 "a").getD 0 =
      (((twoKeys.countOneTimeKeys "@u:h" "A" 2).2.deviceRows "@u:h" "A").map (·.1.algorithm)).count "a" :=
  (@key_supply_exact_iff .empty twoKeys "@u:h" "A" 2 (by decide +kernel)).2.mpr (by decide +kernel) "a"

/-- Device A is told of AB's fallback key, and of two one-time keys where one is left. -/
theorem key_supply_misreported :
    unusedFallbackKeyAlgorithms (empty.put ⟨"@u:h", "AB", "a"⟩ ⟨"a:1", "k", false⟩) "@u:h" "A" = ["a"] ∧
    (twoKeys.countOneTimeKeys "@u:h" "A" 1).1 "a" = some 2 ∧
    ((twoKeys.countOneTimeKeys "@u:h" "A" 1).2.deviceRows "@u:h" "A").length = 1 := by
  decide +kernel

/-! ## Uploads and claims at the same time -/

structure FallbackUpload where
  keyId : String
  key : String
  deriving DecidableEq, Repr

/-- The entry of one device and algorithm, with the number of the upload it came with, and all uploads. Nothing reads the
numbers and the uploads. -/
structure Fallback where
  entry : Option (Nat × FallbackEntry)
  uploads : List FallbackUpload
  deriving DecidableEq

namespace Fallback

def empty : Fallback := ⟨none, []⟩

def addFallbackKey (upload : FallbackUpload) (table : Fallback) : Fallback :=
  ⟨some (table.uploads.length, ⟨upload.keyId, upload.key, false⟩), table.uploads ++ [upload]⟩

/-- `take_fallback_key`: the entry is read, and written back whole. -/
inductive Taking where
  | reading
  | writing (upload : Nat) (entry : FallbackEntry)
  | taken (upload : Nat) (key : FallbackUpload)
  | notFound (message : String)
  deriving DecidableEq, Repr

namespace Taking

variable (table : Fallback)

def advance : Taking → Fallback × Taking
  | .reading =>
    match table.entry with
    | none => (table, .notFound "No fallback key found")
    | some (upload, entry) => (table, .writing upload entry)
  | .writing upload entry =>
    ({ table with entry := some (upload, { entry with used := true }) }, .taken upload ⟨entry.keyId, entry.key⟩)
  | .taken upload key => (table, .taken upload key)
  | .notFound message => (table, .notFound message)

def returned : Taking → Option Nat
  | .taken upload _ => some upload
  | _ => none

/-- No upload has come since the entry was read. -/
def Undisturbed : Taking → Prop
  | .writing upload _ => table.entry.map Prod.fst = some upload
  | _ => True

/-- What it holds was uploaded under its number. -/
def Rightful : Taking → Prop
  | .writing upload entry => table.uploads[upload]? = some ⟨entry.keyId, entry.key⟩
  | .taken upload key => table.uploads[upload]? = some key
  | _ => True

end Taking

open Taking

def takeProtocol : Protocol Fallback Taking Unit Unit FallbackUpload where
  begin _ table := (table, .reading)
  advance _ := advance
  other := addFallbackKey

/-- The entry is the last upload, used just if that one was returned. -/
structure Latest (table : Fallback) (returned : Multiset Nat) : Prop where
  none : table.entry = none → table.uploads = []
  some : ∀ upload entry, table.entry = some (upload, entry) → upload + 1 = table.uploads.length ∧
    table.uploads[upload]? = some ⟨entry.keyId, entry.key⟩ ∧ (entry.used ↔ upload ∈ returned)
  known : ∀ upload ∈ returned, upload < table.uploads.length

variable {state : Calls Fallback Taking} {e : CallEvent Unit Unit FallbackUpload}

abbrev Sound : Calls Fallback Taking → Prop := Calls.Sound returned Latest fun _ => Taking.Rightful

theorem sound_step (h : Sound state) (undisturbed : Calls.Moves Taking.Undisturbed state e) :
    Sound (takeProtocol.step state e) := by
  cases e with
  | start _ => exact Protocol.sound_start h rfl h.shared trivial fun _ _ _ rightful => rightful
  | other upload =>
    refine Protocol.sound_other h ⟨nofun, ?_, fun n mem => ?_⟩ fun i call _ rightful => ?_
    · rintro n entry ⟨⟩
      refine ⟨by simp [takeProtocol, addFallbackKey], by simp [takeProtocol, addFallbackKey], ?_⟩
      simpa using fun mem => (h.shared.known _ mem).false
    · simpa [takeProtocol, addFallbackKey] using Nat.lt_succ_of_lt (h.shared.known n mem)
    · have kept {n : Nat} {key : FallbackUpload} (hit : state.shared.uploads[n]? = some key) :
          (state.shared.uploads ++ [upload])[n]? = some key := by
        rwa [List.getElem?_append_left (List.getElem?_eq_some_iff.mp hit).1]
      cases call with
      | writing n entry => exact kept rightful
      | taken n key => exact kept rightful
      | reading => trivial
      | notFound message => trivial
  | move i input =>
    refine Protocol.step_move_rule h fun call got moved => ?_
    have rightful := h.calls i call got
    cases call with
    | reading =>
      cases read : state.shared.entry with
      | none =>
        have next : takeProtocol.advance input state.shared .reading = (state.shared, .notFound "No fallback key found") := by
          simp only [takeProtocol, advance, read]
        exact Protocol.sound_pass h got rfl next h.shared trivial
      | some row =>
        have next : takeProtocol.advance input state.shared .reading = (state.shared, .writing row.1 row.2) := by
          simp only [takeProtocol, advance, read]
        exact Protocol.sound_pass h got rfl next h.shared (h.shared.some row.1 row.2 read).2.1
    | writing n entry =>
      obtain ⟨⟨_, old⟩, stored, rfl⟩ := Option.map_eq_some_iff.mp (undisturbed _ got)
      obtain ⟨last, -, -⟩ := h.shared.some _ old stored
      refine Protocol.sound_move h got rfl ⟨nofun, ?_, ?_⟩ rightful fun _ call _ _ rightful => ?_
      · rintro n entry ⟨⟩
        exact ⟨last, rightful, by simp [takeProtocol, advance, returned]⟩
      · intro n mem
        rcases Multiset.mem_add.mp mem with own | mem
        · obtain rfl : n = _ := by simpa [takeProtocol, advance, returned] using own
          exact last ▸ Nat.lt_succ_self _
        · exact h.shared.known n mem
      · cases call <;> exact rightful
    | taken n key => exact absurd rfl moved
    | notFound message => exact absurd rfl moved

/-- If no upload comes between a claim's read and its write, the stored key is the last upload, and used just if a claim
returned it. -/
theorem fallback_key_latest {events : List (CallEvent Unit Unit FallbackUpload)}
    (undisturbed : Admits takeProtocol.step (Calls.Moves Taking.Undisturbed) ⟨.empty, []⟩ events) :
    let state := run takeProtocol.step ⟨.empty, []⟩ events
    (state.shared.entry.map fun row => (⟨row.2.keyId, row.2.key⟩ : FallbackUpload)) = state.shared.uploads.getLast? ∧
    (∀ upload entry, state.shared.entry = some (upload, entry) → upload + 1 = state.shared.uploads.length ∧
      (entry.used ↔ ∃ key, .taken upload key ∈ state.calls)) ∧
    ∀ upload key, .taken upload key ∈ state.calls → state.shared.uploads[upload]? = some key := by
  intro state
  have h : Sound state :=
    (along_of_keeps (fun _ _ h => sound_step h) ⟨⟨fun _ => rfl, by simp [empty], by simp [Calls.outcomes]⟩, by simp⟩ undisturbed).last
  refine ⟨?_, fun n entry stored => ?_, fun n key mem => ?_⟩
  · cases stored : state.shared.entry with
    | none => simp [h.shared.none stored]
    | some row =>
      obtain ⟨last, own, -⟩ := h.shared.some row.1 row.2 stored
      rw [getLast?_eq_getElem?, ← last]
      exact own.symm
  · obtain ⟨last, -, used⟩ := h.shared.some n entry stored
    rw [used, Calls.mem_outcomes]
    refine ⟨last, ?_, ?_⟩
    · rintro ⟨call, mem, result⟩
      cases call <;> cases result
      exact ⟨_, mem⟩
    · rintro ⟨key, mem⟩
      exact ⟨_, mem, rfl⟩
  · obtain ⟨i, got⟩ := mem_iff_getElem?.mp mem
    exact h.calls i _ got

/-- A key is taken, and then replaced by one that is not used. -/
theorem fallback_key_latest_of_two :
    let events := [.other ⟨"a:1", "k"⟩, .start (), .move 0 (), .move 0 (), .other ⟨"a:2", "l"⟩]
    let state := run takeProtocol.step ⟨.empty, []⟩ events
    state.calls = [.taken 0 ⟨"a:1", "k"⟩] ∧ state.shared.entry = some (1, ⟨"a:2", "l", false⟩) ∧
      (state.shared.entry.map fun row => (⟨row.2.keyId, row.2.key⟩ : FallbackUpload)) = state.shared.uploads.getLast? ∧
      ∀ key, .taken 1 key ∉ state.calls := by
  have latest := @fallback_key_latest [.other ⟨"a:1", "k"⟩, .start (), .move 0 (), .move 0 (), .other ⟨"a:2", "l"⟩]
    ⟨trivial, trivial, by rintro _ ⟨⟩; trivial, by rintro _ ⟨⟩; rfl, trivial, trivial⟩
  refine ⟨by decide, by decide, latest.1, fun key taken => ?_⟩
  exact absurd ((latest.2.1 1 ⟨"a:2", "l", false⟩ (by decide)).2.mpr ⟨key, taken⟩) (by decide)

/-- The second key comes between the claim's read and its write. -/
theorem fallback_key_lost : let events := [.other ⟨"a:1", "k"⟩, .start (), .move 0 (), .other ⟨"a:2", "l"⟩, .move 0 ()]
    let state := run takeProtocol.step ⟨.empty, []⟩ events
    state.shared.entry = some (0, ⟨"a:1", "k", true⟩) ∧ state.shared.uploads = [⟨"a:1", "k"⟩, ⟨"a:2", "l"⟩] ∧
      state.calls = [.taken 0 ⟨"a:1", "k"⟩] := by
  decide +kernel

end Fallback

end Wbfuwunel.Users
