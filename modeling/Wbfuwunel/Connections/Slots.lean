import Wbfuwunel.Foundation.Saturating
import Wbfuwunel.Streams.Subscribers

/-! How many connections a device and an address have: places that are taken before a connection is accepted and given
back by a drop, and the connections that serve a device. From `service/connections.rs`. -/

set_option autoImplicit false

namespace Wbfuwunel.Connections
open Foundation Function Option
open Streams (ConnectionId)

/-! ## Addresses -/

/-- The bits of an address, the first octet highest. -/
inductive IpAddr where
  | v4 (bits : BitVec 32)
  | v6 (bits : BitVec 128)
  deriving DecidableEq, Repr

/-- `::ffff:a.b.c.d` is the IPv4 address in its last four octets. -/
def IpAddr.toCanonical : IpAddr → IpAddr
  | .v4 bits => .v4 bits
  | .v6 bits => if bits.extractLsb' 32 96 = 0xffff#96 then .v4 (bits.extractLsb' 0 32) else .v6 bits

/-- Everything below the /64 of an IPv6 address counts as one. -/
def toAddressGroup (address : IpAddr) : IpAddr :=
  match address.toCanonical with
  | .v4 bits => .v4 bits
  | .v6 bits => .v6 (bits.extractLsb' 64 64 ++ 0#64)

/-- One place given back; the last one takes the row with it. -/
def oneLess (count : UInt32) : Option UInt32 := if 1 < count then some (count - 1) else none

theorem oneLess_toNat (n : UInt32) : ((oneLess n).getD 0).toNat = n.toNat - 1 := by
  have order := UInt32.lt_iff_toNat_lt (a := 1) (b := n)
  rw [UInt32.toNat_one] at order
  unfold oneLess
  split
  next several =>
    rw [getD_some, UInt32.toNat_sub_of_le _ _ (UInt32.le_of_lt several), UInt32.toNat_one]
  next last =>
    have := mt order.mpr last
    simp only [getD_none, UInt32.toNat_zero]
    omega

theorem oneLess_ne_zero (n : UInt32) : oneLess n ≠ some 0 := by
  have order := UInt32.lt_iff_toNat_lt (a := 1) (b := n)
  have fewer := oneLess_toNat n
  rw [UInt32.toNat_one] at order
  intro zero
  rw [zero, getD_some, UInt32.toNat_zero] at fewer
  have last : ¬1 < n := fun several => by
    have := order.mp several
    omega
  simp [oneLess, last] at zero

/-! ## The tables -/

structure DeviceConnections where
  reserved : UInt32
  live : Finset ConnectionId
  deriving DecidableEq

namespace DeviceConnections

def none : DeviceConnections := ⟨0, ∅⟩

def isEmpty (device : DeviceConnections) : Bool := device.reserved = 0 && device.live = ∅

theorem isEmpty_iff {device : DeviceConnections} : device.isEmpty ↔ device = none := by
  cases device
  simp [isEmpty, none]

theorem not_isEmpty_of_reserved {device : DeviceConnections} (some : device.reserved ≠ 0) : ¬device.isEmpty := by
  rw [isEmpty_iff]
  rintro rfl
  exact some rfl

def kept (device : DeviceConnections) : Option DeviceConnections :=
  if device.isEmpty then Option.none else some device

@[simp] theorem getD_kept (device : DeviceConnections) : device.kept.getD none = device := by
  unfold kept
  split
  next nothing =>
    exact (isEmpty_iff.mp nothing).symm
  · rfl

theorem not_isEmpty_of_mem_kept {device got : DeviceConnections} (hit : device.kept = some got) : ¬got.isEmpty := by
  unfold kept at hit
  split at hit
  · cases hit
  · cases hit
    assumption

variable (device : DeviceConnections)

def reserve : DeviceConnections :=
  { device with reserved := saturatingAdd32 device.reserved 1 }

def giveBack : DeviceConnections :=
  { device with reserved := saturatingSub32 device.reserved 1 }

def list (connection : ConnectionId) : DeviceConnections :=
  { device with live := insert connection device.live }

def unlist (connection : ConnectionId) : DeviceConnections :=
  { device with live := device.live.erase connection }

@[simp] theorem giveBack_none : none.giveBack = none := by decide

@[simp] theorem unlist_none (conn : ConnectionId) : none.unlist conn = none := by simp [none, unlist]

end DeviceConnections

variable {User Device : Type}

structure Tables (User Device : Type) where
  slots : User × Device → Option DeviceConnections
  addresses : IpAddr → Option UInt32

structure ConnectionSlot (User Device : Type) where
  key : User × Device
  deriving DecidableEq

structure DeviceConnectionGuard (User Device : Type) where
  key : User × Device
  connection : ConnectionId
  deriving DecidableEq

structure AddressSlot where
  group : IpAddr
  deriving DecidableEq

namespace Tables

def new : Tables User Device := ⟨fun _ => none, fun _ => none⟩

variable (tables : Tables User Device)

def device (key : User × Device) : DeviceConnections :=
  (tables.slots key).getD .none

def countFor (group : IpAddr) : UInt32 := (tables.addresses group).getD 0

def takeAddressSlot (address : IpAddr) (max : UInt32) : Tables User Device × Option (Option AddressSlot) :=
  if max = 0 then (tables, some none)
  else
    let group := toAddressGroup address
    let count := tables.countFor group
    if max ≤ count then ({ tables with addresses := update tables.addresses group (some count) }, none)
    else
      ({ tables with addresses := update tables.addresses group (some (count + 1)) }, some (some ⟨group⟩))

def dropAddressSlot (slot : AddressSlot) : Tables User Device :=
  match tables.addresses slot.group with
  | none => { tables with addresses := update tables.addresses slot.group none }
  | some count => { tables with addresses := update tables.addresses slot.group (oneLess count) }

theorem device_takeAddressSlot (address : IpAddr) (max : UInt32) :
    (tables.takeAddressSlot address max).1.device = tables.device := by
  unfold takeAddressSlot
  split
  · rfl
  · dsimp only
    split <;> rfl

theorem device_dropAddressSlot (slot : AddressSlot) : (tables.dropAddressSlot slot).device = tables.device := by
  unfold dropAddressSlot
  split <;> rfl

variable [DecidableEq User] [DecidableEq Device]

def entry (tables : Tables User Device) (key : User × Device) (change : DeviceConnections → DeviceConnections) :
    Tables User Device :=
  { tables with slots := update tables.slots key (some (change (tables.device key))) }

/-- A drop changes an entry that is there, and removes it when this empties it. -/
def settle (key : User × Device) (change : DeviceConnections → DeviceConnections) : Tables User Device :=
  match tables.slots key with
  | none => tables
  | some device => { tables with slots := update tables.slots key (change device).kept }

/-- `none` refuses the connection; `some none` is a device without a limit, where nothing is counted. -/
def takeSlot (user : User) (device : Device) (max : UInt32) :
    Tables User Device × Option (Option (ConnectionSlot User Device)) :=
  if max = 0 then (tables, some none)
  -- The entry is there from here on, also for the refusal.
  else if max ≤ (tables.device (user, device)).reserved then (tables.entry (user, device) id, none)
  else (tables.entry (user, device) .reserve, some (some ⟨(user, device)⟩))

def registerDeviceConnection (user : User) (device : Device) (connection : ConnectionId) :
    Tables User Device × DeviceConnectionGuard User Device :=
  (tables.entry (user, device) (·.list connection), ⟨(user, device), connection⟩)

def dropConnectionSlot (slot : ConnectionSlot User Device) : Tables User Device :=
  tables.settle slot.key .giveBack

def dropGuard (guard : DeviceConnectionGuard User Device) : Tables User Device :=
  tables.settle guard.key (·.unlist guard.connection)

/-! ## What an operation does to one entry -/

theorem device_entry (k o : User × Device) (change : DeviceConnections → DeviceConnections) :
    (tables.entry k change).device o = if o = k then change (tables.device k) else tables.device o := by
  by_cases eq : o = k
  · subst eq
    simp [entry, device]
  · simp [entry, device, eq]

variable {change : DeviceConnections → DeviceConnections} {tables : Tables User Device}

theorem device_settle (tables : Tables User Device) (k o : User × Device) (idle : change .none = .none) :
    (tables.settle k change).device o = if o = k then change (tables.device k) else tables.device o := by
  unfold settle
  cases hit : tables.slots k with
  | none =>
    by_cases eq : o = k
    · subst eq
      simp [device, hit, idle]
    · simp [eq]
  | some got =>
    by_cases eq : o = k
    · subst eq
      simp [device, hit]
    · simp [device, eq]

theorem live_takeSlot (tables : Tables User Device) (u : User) (device : Device) (max : UInt32)
    (k : User × Device) : ((tables.takeSlot u device max).1.device k).live = (tables.device k).live := by
  unfold takeSlot
  split
  · rfl
  · split
    · rw [device_entry]
      split
      next eq =>
        rw [eq, id]
      · rfl
    · rw [device_entry]
      split
      next eq =>
        rw [eq, DeviceConnections.reserve]
      · rfl

theorem live_dropConnectionSlot (tables : Tables User Device) (slot : ConnectionSlot User Device)
    (k : User × Device) : ((tables.dropConnectionSlot slot).device k).live = (tables.device k).live := by
  rw [dropConnectionSlot, device_settle _ _ _ DeviceConnections.giveBack_none]
  split
  next eq =>
    rw [eq, DeviceConnections.giveBack]
  · rfl

def Tight (tables : Tables User Device) : Prop := ∀ key device, tables.slots key = some device → ¬device.isEmpty

theorem Tight.entry (tight : tables.Tight) {k : User × Device} (something : ¬(change (tables.device k)).isEmpty) :
    (tables.entry k change).Tight := by
  intro o device hit
  by_cases eq : o = k
  · subst eq
    obtain rfl : change (tables.device o) = device := by simpa [Tables.entry] using hit
    exact something
  · exact tight o device (by simpa [Tables.entry, eq] using hit)

theorem Tight.settle (tight : tables.Tight) (k : User × Device) (change : DeviceConnections → DeviceConnections) :
    (tables.settle k change).Tight := by
  unfold Tables.settle
  cases got : tables.slots k with
  | none => exact tight
  | some old =>
    intro o device hit
    by_cases eq : o = k
    · subst eq
      exact DeviceConnections.not_isEmpty_of_mem_kept (by simpa using hit : (change old).kept = some device)
    · exact tight o device (by simpa [eq] using hit)

@[simp] theorem addresses_settle (tables : Tables User Device) (k : User × Device)
    (change : DeviceConnections → DeviceConnections) : (tables.settle k change).addresses = tables.addresses := by
  unfold settle
  split <;> rfl

end Tables

end Wbfuwunel.Connections
