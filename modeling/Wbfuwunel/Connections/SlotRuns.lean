import Wbfuwunel.Connections.Slots
import Wbfuwunel.Foundation.Runs

/-! The tables against what is alive: every slot and guard that was handed out and not dropped yet. One lock guards
each table, so that a call and a drop are each one step. -/

set_option autoImplicit false

namespace Wbfuwunel.Connections
open Foundation List Function Tables
open Streams (ConnectionId)

variable {User Device : Type}

inductive Event (User Device : Type) where
  | takeSlot (user : User) (device : Device) (max : UInt32)
  | registerDeviceConnection (user : User) (device : Device) (connection : ConnectionId)
  | takeAddressSlot (address : IpAddr) (max : UInt32)
  | dropConnectionSlot (slot : ConnectionSlot User Device)
  | dropGuard (guard : DeviceConnectionGuard User Device)
  | dropAddressSlot (slot : AddressSlot)

/-- The tables, and the values their callers hold. Two equal values are two places. -/
structure World (User Device : Type) where
  tables : Tables User Device
  slots : List (ConnectionSlot User Device)
  guards : List (DeviceConnectionGuard User Device)
  addressSlots : List AddressSlot

namespace World

def new : World User Device := ⟨.new, [], [], []⟩

variable (world : World User Device)

def slotsOf [DecidableEq User] [DecidableEq Device] (key : User × Device) : Nat :=
  world.slots.count ⟨key⟩

def addressSlotsOf (group : IpAddr) : Nat := world.addressSlots.count ⟨group⟩

def ListsGuards : Prop :=
  ∀ key connection, connection ∈ (world.tables.device key).live ↔ ⟨key, connection⟩ ∈ world.guards

theorem listsGuards_new : (new : World User Device).ListsGuards := by
  intro k conn
  simp [new, Tables.new, Tables.device, DeviceConnections.none]

variable {world next : World User Device}

theorem ListsGuards.of_live (lists : world.ListsGuards)
    (live : ∀ k, (next.tables.device k).live = (world.tables.device k).live) (guards : next.guards = world.guards) :
    next.ListsGuards := by
  intro k conn
  rw [live, guards]
  exact lists k conn

variable [DecidableEq User] [DecidableEq Device]

/-- What is not alive cannot be dropped. -/
def step (world : World User Device) : Event User Device → World User Device
  | .takeSlot user device max =>
    let taken := world.tables.takeSlot user device max
    { world with tables := taken.1, slots := taken.2.join.toList ++ world.slots }
  | .registerDeviceConnection user device connection =>
    let registered := world.tables.registerDeviceConnection user device connection
    { world with tables := registered.1, guards := registered.2 :: world.guards }
  | .takeAddressSlot address max =>
    let taken := world.tables.takeAddressSlot address max
    { world with tables := taken.1, addressSlots := taken.2.join.toList ++ world.addressSlots }
  | .dropConnectionSlot slot =>
    if slot ∈ world.slots then
      { world with tables := world.tables.dropConnectionSlot slot, slots := world.slots.erase slot }
    else world
  | .dropGuard guard =>
    if guard ∈ world.guards then
      { world with tables := world.tables.dropGuard guard, guards := world.guards.erase guard }
    else world
  | .dropAddressSlot slot =>
    if slot ∈ world.addressSlots then
      { world with tables := world.tables.dropAddressSlot slot, addressSlots := world.addressSlots.erase slot }
    else world

structure Accounted (world : World User Device) : Prop where
  reserved : ∀ key, (world.tables.device key).reserved.toNat = world.slotsOf key
  addresses : ∀ group, (world.tables.countFor group).toNat = world.addressSlotsOf group
  noEmptyDevice : world.tables.Tight
  noEmptyAddress : ∀ group, world.tables.addresses group ≠ some 0

def Caps (world : World User Device) : Prop :=
  ∀ user device max, max ≠ 0 →
    ((world.tables.takeSlot user device max).2.isSome ↔ world.slotsOf (user, device) < max.toNat)

/-- A guard is dropped only as the last one of its connection for its device. -/
def DropsLastGuard (world : World User Device) : Event User Device → Prop
  | .dropGuard guard => world.guards.count guard ≤ 1
  | _ => True

theorem accounted_new : (new : World User Device).Accounted where
  reserved k := rfl
  addresses group := rfl
  noEmptyDevice k device hit := by cases hit
  noEmptyAddress group hit := by cases hit

/-! ## The counts -/

section

variable (ok : world.Accounted)
include ok

theorem Accounted.of_device (k : User × Device) (device : DeviceConnections) (tight : next.tables.Tight)
    (addresses : next.tables.addresses = world.tables.addresses) (eq : next.addressSlots = world.addressSlots)
    (changed : ∀ o, next.tables.device o = if o = k then device else world.tables.device o)
    (own : next.slotsOf k = device.reserved.toNat)
    (away : ∀ o, o ≠ k → next.slotsOf o = world.slotsOf o) : next.Accounted where
  reserved o := by
    rw [changed]
    split
    next here => rw [here, own]
    next apart => rw [away o apart, ok.reserved o]
  addresses group := by
    have n := ok.addresses group
    rwa [countFor, addresses, addressSlotsOf, eq]
  noEmptyDevice := tight
  noEmptyAddress group := by
    rw [addresses]
    exact ok.noEmptyAddress group

theorem Accounted.of_address (group : IpAddr) (row : Option UInt32) (something : row ≠ some 0)
    (devices : next.tables.slots = world.tables.slots) (eq : next.slots = world.slots)
    (changed : next.tables.addresses = update world.tables.addresses group row)
    (own : next.addressSlotsOf group = (row.getD 0).toNat)
    (away : ∀ o, o ≠ group → next.addressSlotsOf o = world.addressSlotsOf o) : next.Accounted where
  reserved k := by
    have n := ok.reserved k
    rwa [device, devices, slotsOf, eq]
  addresses o := by
    rw [countFor, changed]
    by_cases here : o = group
    · simp [here, own]
    · simpa [here, away o here, countFor] using ok.addresses o
  noEmptyDevice k device := by
    rw [devices]
    exact ok.noEmptyDevice k device
  noEmptyAddress o := by
    rw [changed]
    by_cases here : o = group
    · simpa [here] using something
    · simpa [here] using ok.noEmptyAddress o

omit ok in
theorem ne_zero_of_full {max n : UInt32} (limited : max ≠ 0) (full : max ≤ n) : n ≠ 0 := by
  rintro rfl
  exact limited (UInt32.toNat.inj (Nat.le_zero.mp (UInt32.le_iff_toNat_le.mp full)))

omit ok in
theorem toNat_add_one_of_room {max n : UInt32} (ne : ¬max ≤ n) : (n + 1).toNat = n.toNat + 1 := by
  have lt := max.toNat_lt
  rw [UInt32.le_iff_toNat_le] at ne
  rw [UInt32.toNat_add, UInt32.toNat_one]
  omega

theorem Accounted.takeSlot (u : User) (device : Device) (max : UInt32) :
    (world.step (.takeSlot u device max)).Accounted := by
  have n := ok.reserved (u, device)
  by_cases unlimited : max = 0
  · simpa [step, Tables.takeSlot, unlimited] using ok
  by_cases full : max ≤ (world.tables.device (u, device)).reserved
  · have refused : world.step (.takeSlot u device max) = { world with tables := world.tables.entry (u, device) id } := by
      simp [step, Tables.takeSlot, unlimited, full]
    have tight : (world.tables.entry (u, device) id).Tight :=
      ok.noEmptyDevice.entry (DeviceConnections.not_isEmpty_of_reserved (ne_zero_of_full unlimited full))
    rw [refused]
    exact ok.of_device (u, device) (world.tables.device (u, device)) tight rfl rfl
      (fun o => world.tables.device_entry _ o id) n.symm fun _ _ => rfl
  · have taken : world.step (.takeSlot u device max) =
        { world with tables := world.tables.entry (u, device) .reserve, slots := ⟨(u, device)⟩ :: world.slots } := by
      simp [step, Tables.takeSlot, unlimited, full]
    have raised : (world.tables.device (u, device)).reserve.reserved.toNat = world.slotsOf (u, device) + 1 := by
      have next := toNat_add_one_of_room full
      have fits := ((world.tables.device (u, device)).reserved + 1).toNat_lt
      rw [DeviceConnections.reserve, saturatingAdd32_toNat, UInt32.toNat_one]
      omega
    have something : ¬(world.tables.device (u, device)).reserve.isEmpty :=
      DeviceConnections.not_isEmpty_of_reserved fun zero => by simp [zero] at raised
    rw [taken]
    refine ok.of_device (u, device) (world.tables.device (u, device)).reserve
      (ok.noEmptyDevice.entry something) rfl rfl (fun o => world.tables.device_entry _ o _) ?_ ?_
    · simp [raised, slotsOf]
    · intro o apart
      simp [slotsOf, Ne.symm apart]

theorem Accounted.registerDeviceConnection (u : User) (device : Device) (conn : ConnectionId) :
    (world.step (.registerDeviceConnection u device conn)).Accounted := by
  have something : ¬((world.tables.device (u, device)).list conn).isEmpty := by
    rw [DeviceConnections.isEmpty_iff]
    intro nothing
    have mem : conn ∈ ((world.tables.device (u, device)).list conn).live := by
      simp [DeviceConnections.list]
    rw [nothing] at mem
    exact absurd mem (Finset.notMem_empty conn)
  have tight : (world.tables.entry (u, device) (·.list conn)).Tight := ok.noEmptyDevice.entry something
  exact ok.of_device (u, device) ((world.tables.device (u, device)).list conn) tight rfl rfl
    (fun o => world.tables.device_entry (u, device) o (·.list conn))
    (ok.reserved (u, device)).symm fun _ _ => rfl

theorem Accounted.takeAddressSlot (address : IpAddr) (max : UInt32) :
    (world.step (.takeAddressSlot address max)).Accounted := by
  have n := ok.addresses (toAddressGroup address)
  by_cases unlimited : max = 0
  · simpa [step, Tables.takeAddressSlot, unlimited] using ok
  by_cases full : max ≤ world.tables.countFor (toAddressGroup address)
  · have refused : world.step (.takeAddressSlot address max) = { world with
        tables.addresses := update world.tables.addresses (toAddressGroup address)
          (some (world.tables.countFor (toAddressGroup address))) } := by
      simp [step, Tables.takeAddressSlot, unlimited, full]
    rw [refused]
    exact ok.of_address (toAddressGroup address) _ (mt Option.some.inj (ne_zero_of_full unlimited full)) rfl rfl rfl
      n.symm fun _ _ => rfl
  · have taken : world.step (.takeAddressSlot address max) = { world with
        tables.addresses := update world.tables.addresses (toAddressGroup address)
          (some (world.tables.countFor (toAddressGroup address) + 1))
        addressSlots := ⟨toAddressGroup address⟩ :: world.addressSlots } := by
      simp [step, Tables.takeAddressSlot, unlimited, full]
    have raised := toNat_add_one_of_room full
    have something : some (world.tables.countFor (toAddressGroup address) + 1) ≠ some 0 := fun zero => by
      rw [Option.some.inj zero] at raised
      exact absurd raised (Nat.succ_ne_zero _).symm
    rw [taken]
    refine ok.of_address (toAddressGroup address) _ something rfl rfl rfl ?_ ?_
    · rw [Option.getD_some, raised, n]
      simp [addressSlotsOf]
    · intro o apart
      simp [addressSlotsOf, Ne.symm apart]

theorem Accounted.dropConnectionSlot (slot : ConnectionSlot User Device) :
    (world.step (.dropConnectionSlot slot)).Accounted := by
  by_cases alive : slot ∈ world.slots
  · have dropped : world.step (.dropConnectionSlot slot) =
        { world with tables := world.tables.settle slot.key .giveBack, slots := world.slots.erase slot } := by
      simp [step, alive, Tables.dropConnectionSlot]
    rw [dropped]
    refine ok.of_device slot.key (world.tables.device slot.key).giveBack
      (ok.noEmptyDevice.settle _ _) (world.tables.addresses_settle _ _) rfl
      (fun o => world.tables.device_settle _ o DeviceConnections.giveBack_none) ?_ fun o apart => ?_
    · rw [DeviceConnections.giveBack, saturatingSub32_toNat, ok.reserved slot.key]
      exact count_erase_self
    · exact count_erase_of_ne fun eq => apart (congrArg ConnectionSlot.key eq)
  · simpa [step, alive] using ok

omit ok in
theorem step_dropGuard {guard : DeviceConnectionGuard User Device} (alive : guard ∈ world.guards) :
    world.step (.dropGuard guard) =
      { world with tables := world.tables.settle guard.key (·.unlist guard.connection)
                   guards := world.guards.erase guard } := by
  simp [step, alive, dropGuard]

theorem Accounted.dropGuard (guard : DeviceConnectionGuard User Device) : (world.step (.dropGuard guard)).Accounted := by
  by_cases alive : guard ∈ world.guards
  · rw [step_dropGuard alive]
    exact ok.of_device guard.key ((world.tables.device guard.key).unlist guard.connection)
      (ok.noEmptyDevice.settle _ _) (world.tables.addresses_settle _ _) rfl
      (fun o => world.tables.device_settle _ o (DeviceConnections.unlist_none guard.connection))
      (ok.reserved guard.key).symm fun _ _ => rfl
  · simpa [step, alive] using ok

theorem Accounted.dropAddressSlot (slot : AddressSlot) : (world.step (.dropAddressSlot slot)).Accounted := by
  by_cases alive : slot ∈ world.addressSlots
  · have n := ok.addresses slot.group
    -- A live slot is counted, so that its group has a row.
    have counted : 0 < world.addressSlotsOf slot.group := count_pos_iff.mpr alive
    cases hit : world.tables.addresses slot.group with
    | none =>
      rw [Tables.countFor, hit] at n
      exact absurd n (Nat.ne_of_lt counted)
    | some number =>
      rw [Tables.countFor, hit, Option.getD_some] at n
      have dropped : world.step (.dropAddressSlot slot) = { world with
          tables.addresses := update world.tables.addresses slot.group (oneLess number)
          addressSlots := world.addressSlots.erase slot } := by
        simp [step, alive, Tables.dropAddressSlot, hit]
      rw [dropped]
      refine ok.of_address slot.group _ (oneLess_ne_zero number) rfl rfl rfl ?_ fun o apart => ?_
      · rw [oneLess_toNat, n]
        exact count_erase_self
      · exact count_erase_of_ne fun eq => apart (congrArg AddressSlot.group eq)
  · simpa [step, alive] using ok

theorem Accounted.step (e : Event User Device) : (world.step e).Accounted := by
  cases e with
  | takeSlot u device max => exact ok.takeSlot u device max
  | registerDeviceConnection u device conn => exact ok.registerDeviceConnection u device conn
  | takeAddressSlot address max => exact ok.takeAddressSlot address max
  | dropConnectionSlot slot => exact ok.dropConnectionSlot slot
  | dropGuard guard => exact ok.dropGuard guard
  | dropAddressSlot slot => exact ok.dropAddressSlot slot

theorem Accounted.caps : world.Caps := by
  intro u device max limited
  have n := ok.reserved (u, device)
  have order := UInt32.le_iff_toNat_le (a := max) (b := (world.tables.device (u, device)).reserved)
  simp only [Tables.takeSlot, limited, if_false]
  split
  next full =>
    have := order.mp full
    simp
    omega
  next free =>
    have : ¬max.toNat ≤ _ := fun less => free (order.mpr less)
    simp
    omega

end

/-! ## The connections listed -/

section

variable (lists : world.ListsGuards)
include lists

theorem ListsGuards.of_device (k : User × Device) (device : DeviceConnections)
    (changed : ∀ o, next.tables.device o = if o = k then device else world.tables.device o)
    (away : ∀ o conn, o ≠ k →
      ((⟨o, conn⟩ : DeviceConnectionGuard User Device) ∈ next.guards ↔ ⟨o, conn⟩ ∈ world.guards)) :
    next.ListsGuards ↔ ∀ conn, conn ∈ device.live ↔ ⟨k, conn⟩ ∈ next.guards := by
  constructor
  · intro ok conn
    simpa [changed] using ok k conn
  · intro ok o conn
    rw [changed]
    by_cases eq : o = k
    · subst eq
      simpa using ok conn
    · rw [if_neg eq, away o conn eq]
      exact lists o conn

theorem listsGuards_dropGuard (guard : DeviceConnectionGuard User Device) :
    (world.step (.dropGuard guard)).ListsGuards ↔ world.guards.count guard ≤ 1 := by
  by_cases alive : guard ∈ world.guards
  · have once : guard ∈ world.guards.erase guard ↔ 1 < world.guards.count guard := by
      rw [← count_pos_iff, count_erase_self]
      omega
    rw [step_dropGuard alive, lists.of_device guard.key ((world.tables.device guard.key).unlist guard.connection)
      (fun o => world.tables.device_settle _ o (DeviceConnections.unlist_none guard.connection))]
    · constructor
      · intro ok
        have gone := (ok guard.connection).not.mp (by simp [DeviceConnections.unlist])
        exact Nat.not_lt.mp (mt once.mpr gone)
      · intro last conn
        by_cases eq : conn = guard.connection
        · subst eq
          have gone : guard ∉ world.guards.erase guard := fun still => absurd (once.mp still) (Nat.not_lt.mpr last)
          exact iff_of_false (by simp [DeviceConnections.unlist]) gone
        · have apart : (⟨guard.key, conn⟩ : DeviceConnectionGuard User Device) ≠ guard :=
            fun equal => eq (congrArg DeviceConnectionGuard.connection equal)
          rw [DeviceConnections.unlist, Finset.mem_erase, mem_erase_of_ne apart, ← lists guard.key conn]
          exact and_iff_right eq
    · intro o conn apart
      exact mem_erase_of_ne fun equal => apart (congrArg DeviceConnectionGuard.key equal)
  · have none : world.guards.count guard = 0 := count_eq_zero.mpr alive
    simp [step, alive, lists, none]

theorem listsGuards_register (u : User) (device : Device) (conn : ConnectionId) :
    (world.step (.registerDeviceConnection u device conn)).ListsGuards := by
  refine (lists.of_device (u, device) ((world.tables.device (u, device)).list conn)
    (fun o => world.tables.device_entry (u, device) o (·.list conn)) ?_).mpr ?_
  · intro o got apart
    simp [step, registerDeviceConnection, apart]
  · intro got
    simp [step, registerDeviceConnection, DeviceConnections.list, lists (u, device) got]

/-- An event keeps the lists true just if it drops no guard that has a twin. -/
theorem listsGuards_step (e : Event User Device) : (world.step e).ListsGuards ↔ world.DropsLastGuard e := by
  cases e with
  | takeSlot u device max => exact iff_of_true (lists.of_live (live_takeSlot _ u device max) rfl) trivial
  | registerDeviceConnection u device conn =>
    exact iff_of_true (listsGuards_register lists u device conn) trivial
  | takeAddressSlot address max =>
    refine iff_of_true (lists.of_live (fun k => ?_) rfl) trivial
    exact congrArg DeviceConnections.live (congrFun (device_takeAddressSlot world.tables address max) k)
  | dropConnectionSlot slot =>
    refine iff_of_true ?_ trivial
    by_cases alive : slot ∈ world.slots
    · exact lists.of_live (fun k => by simpa [step, alive] using live_dropConnectionSlot world.tables slot k)
        (by simp [step, alive])
    · simpa [step, alive] using lists
  | dropGuard guard => exact listsGuards_dropGuard lists guard
  | dropAddressSlot slot =>
    refine iff_of_true ?_ trivial
    by_cases alive : slot ∈ world.addressSlots
    · exact lists.of_live (fun k => by simp [step, alive, device_dropAddressSlot]) (by simp [step, alive])
    · simpa [step, alive] using lists

end

/-! ## Whole runs -/

theorem accounted_run (es : List (Event User Device)) : Along step Accounted (new : World User Device) es := by
  have always : Admits step (fun _ _ => True) (new : World User Device) es := admits_of_forall fun _ _ _ => trivial
  exact along_of_keeps (fun _ e ok _ => ok.step e) accounted_new always

/-- In every run the counts are the numbers of live slots, no entry is empty and nothing is taken at the maximum; the
lists are the guards just if no guard is dropped before a twin of it. -/
theorem connections_accounted (events : List (Event User Device)) :
    Along step (fun world => world.Accounted ∧ world.Caps) (new : World User Device) events ∧
      (Along step ListsGuards (new : World User Device) events ↔
        Admits step DropsLastGuard (new : World User Device) events) := by
  constructor
  · exact (accounted_run events).imp fun world ok => ⟨ok, ok.caps⟩
  · have exactly (world : World User Device) (e : Event User Device) (lists : world.ListsGuards) :
        (world.step e).ListsGuards ↔ world.DropsLastGuard e := listsGuards_step lists e
    exact along_iff_admits_of_exact exactly listsGuards_new

/-- A connection that is registered twice for a device loses its entry with the first of the two guards; and where there
is no limit, a device may have as many connections as its maximum says. -/
theorem twin_guard_unlists :
    let world := run step (new : World Nat Nat) [.registerDeviceConnection 1 2 7, .registerDeviceConnection 1 2 7,
      .dropGuard ⟨(1, 2), 7⟩]
    ⟨(1, 2), 7⟩ ∈ world.guards ∧ 7 ∉ (world.tables.device (1, 2)).live ∧ world.slotsOf (1, 2) = (0 : UInt32).toNat ∧
      (world.tables.takeSlot 1 2 0).2 = some none := by
  decide

end World

end Wbfuwunel.Connections
