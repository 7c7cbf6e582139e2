import Wbfuwunel.DeviceVersions.Distinct
import Wbfuwunel.Foundation.Checks

/-! The hash half of a device version: `device_versions/keys_hash.rs`.

What only some see of a key is taken off before the keys are framed. The ids of the devices order their keys and are not
framed themselves.
-/

set_option autoImplicit false

namespace Wbfuwunel.DeviceVersions

open Foundation Rooms List Function

abbrev DeviceId := String

/-- A JSON value, as it is read: the members of an object have no order. -/
inductive Value where
  | string (text : String)
  | other (text : String)
  | array (values : List Value)
  | object (fields : String → Option Value)

/-- With no signature of the owner's nothing is left of the signatures, and the field goes. -/
def onlyOwn (owner : UserId) : Option Value → Option Value
  | some (.object signatures) => (signatures owner).map fun own => .object (update (fun _ => none) owner (some own))
  | signatures => signatures

def onlyWhatEveryoneSees (owner : UserId) : Value → Value
  | .object fields =>
    .object (update (update fields "unsigned" none) "signatures" (onlyOwn owner (fields "signatures")))
  | key => key

/-- `canonical_json`: the texts of different values differ, and none is empty. -/
structure CanonicalJson where
  text : Value → Except String Bytes
  injective : ∀ first second bytes, text first = .ok bytes → text second = .ok bytes → first = second
  nonempty : ∀ value, text value ≠ .ok []

/-- What is read of an account's keys. -/
structure KeysReading where
  masterKey : Option Value
  selfSigningKey : Option Value
  deviceKeys : List (DeviceId × Value)
  distinct : (deviceKeys.map Prod.fst).Nodup

section Hash

variable (owner : UserId) (json : CanonicalJson) (sha256 : Bytes → Bytes) (reading : KeysReading)

def KeysReading.devices : List (DeviceId × Value) :=
  reading.deviceKeys.insertionSort fun left right => utf8 left.1 ≤ utf8 right.1

/-- The items that are framed. -/
def KeysReading.items : List (Option Value) :=
  ([reading.masterKey, reading.selfSigningKey] ++ reading.devices.map fun device => some device.2).map
    (Option.map (onlyWhatEveryoneSees owner))

def frameKey (item : Option Value) : Except String Bytes := do
  let canonical ← (item.elim (.ok []) json.text).mapError fun error => s!"a key is not canonical JSON: {error}"
  (lengthPrefixed canonical).mapError fun _ => "a key too large to hash"

def frameKeys : List (Option Value) → Except String Bytes
  | [] => .ok []
  | item :: items => do
    let framed ← frameKey json item
    let rest ← frameKeys items
    return framed ++ rest

def toHex (digest : Bytes) : String := .ofList ((digest.take 5).flatMap fun byte => hexDigits 2 byte.toNat)

def deviceKeysHash : Except String String :=
  (frameKeys json (reading.items owner)).map fun framed => toHex (sha256 framed)

end Hash

/-! ## What may differ -/

variable {owner : UserId} {json : CanonicalJson} {sha256 : Bytes → Bytes} {reading first second : KeysReading}

/-- Of these signatures `own` is the owner's; without any the field may be missing. -/
def SignedBy (owner : UserId) (own : Option Value) : Option Value → Prop
  | none => own = none
  | some (.object signatures) => signatures owner = own
  | _ => False

/-- The keys differ in `unsigned` and in the signatures of others at most. -/
inductive AlikeKeys (owner : UserId) : Value → Value → Prop where
  | refl (key : Value) : AlikeKeys owner key key
  | object {fields others : String → Option Value} {own : Option Value}
      (rest : ∀ name, name ≠ "unsigned" → name ≠ "signatures" → fields name = others name)
      (signed : SignedBy owner own (fields "signatures")) (signed' : SignedBy owner own (others "signatures")) :
      AlikeKeys owner (.object fields) (.object others)
  | unsigned {fields others : String → Option Value} (rest : ∀ name, name ≠ "unsigned" → fields name = others name) :
      AlikeKeys owner (.object fields) (.object others)

/-- The readings list the same devices, and the keys are alike. -/
structure KeysReading.Alike (owner : UserId) (first second : KeysReading) : Prop where
  masterKey : Option.Rel (AlikeKeys owner) first.masterKey second.masterKey
  selfSigningKey : Option.Rel (AlikeKeys owner) first.selfSigningKey second.selfSigningKey
  forward : ∀ device ∈ first.deviceKeys, ∃ key, (device.1, key) ∈ second.deviceKeys ∧ AlikeKeys owner device.2 key
  backward : ∀ device ∈ second.deviceKeys, ∃ key, (device.1, key) ∈ first.deviceKeys ∧ AlikeKeys owner key device.2

theorem onlyOwn_of_signedBy {own signatures : Option Value} (signed : SignedBy owner own signatures) :
    onlyOwn owner signatures = own.map fun own => .object (update (fun _ => none) owner (some own)) := by
  cases signatures with
  | none =>
    cases signed
    rfl
  | some signatures =>
    cases signatures with
    | object signatures =>
      cases signed
      rfl
    | _ => cases signed

theorem AlikeKeys.seen {k k' : Value} (alike : AlikeKeys owner k k') :
    onlyWhatEveryoneSees owner k = onlyWhatEveryoneSees owner k' := by
  have both {fields others : String → Option Value}
      (rest : ∀ name, name ≠ "unsigned" → name ≠ "signatures" → fields name = others name)
      (own : onlyOwn owner (fields "signatures") = onlyOwn owner (others "signatures")) :
      onlyWhatEveryoneSees owner (.object fields) = onlyWhatEveryoneSees owner (.object others) := by
    refine congrArg Value.object (funext fun name => ?_)
    by_cases signatures : name = "signatures"
    · simp [signatures, own]
    · by_cases unsigned : name = "unsigned"
      · simp [unsigned]
      · simp [signatures, unsigned, rest name unsigned signatures]
  cases alike with
  | refl => rfl
  | object rest signed signed' => exact both rest ((onlyOwn_of_signedBy signed).trans (onlyOwn_of_signedBy signed').symm)
  | unsigned rest => exact both (fun name unsigned _ => rest name unsigned) (congrArg _ (rest _ (by decide)))

/-- The account shows everyone this key for the device. -/
def KeysReading.Shows (owner : UserId) (reading : KeysReading) (device : DeviceId) (key : Value) : Prop :=
  ∃ stored, (device, stored) ∈ reading.deviceKeys ∧ onlyWhatEveryoneSees owner stored = key

def KeysReading.shown (owner : UserId) (reading : KeysReading) : List (DeviceId × Value) :=
  reading.devices.map fun device => (device.1, onlyWhatEveryoneSees owner device.2)

theorem KeysReading.mem_shown {device : DeviceId} {key : Value} :
    (device, key) ∈ reading.shown owner ↔ reading.Shows owner device key := by
  simp [shown, devices, Shows]

theorem KeysReading.items_eq : reading.items owner = reading.masterKey.map (onlyWhatEveryoneSees owner) ::
    reading.selfSigningKey.map (onlyWhatEveryoneSees owner) :: (reading.shown owner).map fun device => some device.2 := by
  simp [items, shown]

theorem KeysReading.Alike.items (alike : first.Alike owner second) : first.items owner = second.items owner := by
  have mapped {k k' : Option Value} (alike : Option.Rel (AlikeKeys owner) k k') :
      k.map (onlyWhatEveryoneSees owner) = k'.map (onlyWhatEveryoneSees owner) := by
    cases alike with
    | some alike => exact congrArg some alike.seen
    | none => rfl
  have ascending (reading : KeysReading) : (reading.shown owner).Pairwise fun old after => utf8 old.1 < utf8 after.1 :=
    pairwise_map.mpr (ascending_insertionSort reading.distinct)
  have eq : first.shown owner = second.shown owner := by
    refine @eq_of_ascending _ _ _ (fun device => utf8 device.1) _ _ (ascending first) (ascending second) fun device => ?_
    rw [KeysReading.mem_shown, KeysReading.mem_shown]
    constructor
    · rintro ⟨got, mem, seen⟩
      obtain ⟨k, hit, alike⟩ := alike.forward _ mem
      exact ⟨k, hit, alike.seen.symm.trans seen⟩
    · rintro ⟨got, mem, seen⟩
      obtain ⟨k, hit, alike⟩ := alike.backward _ mem
      exact ⟨k, hit, alike.seen.trans seen⟩
  rw [KeysReading.items_eq, KeysReading.items_eq, mapped alike.masterKey, mapped alike.selfSigningKey, eq]

/-! ## What the hash tells -/

theorem frameKey_eq_ok {item : Option Value} {part : Bytes} : frameKey json item = .ok part ↔
    ∃ canonical, item.elim (.ok []) json.text = .ok canonical ∧ lengthPrefixed canonical = .ok part := by
  simp [frameKey, bind_eq_ok]

theorem exists_parts_of_frameKeys {items : List (Option Value)} {framed : Bytes} (framing : frameKeys json items = .ok framed) :
    ∃ parts, List.Forall₂ (fun item part => frameKey json item = .ok part) items parts ∧ framed = parts.flatten := by
  induction items generalizing framed with
  | nil =>
    cases framing
    exact ⟨[], .nil, rfl⟩
  | cons item items ih =>
    obtain ⟨part, here, framing⟩ := bind_eq_ok.mp framing
    obtain ⟨rest, later, framing⟩ := bind_eq_ok.mp framing
    cases framing
    obtain ⟨parts, each, rfl⟩ := ih later
    exact ⟨part :: parts, .cons here each, rfl⟩

theorem eq_of_elim {item item' : Option Value} {bytes : Bytes} (ofItem : item.elim (.ok []) json.text = .ok bytes)
    (ofItem' : item'.elim (.ok []) json.text = .ok bytes) : item = item' := by
  match item, item' with
  | none, none => rfl
  | none, some k => exact absurd (ofItem'.trans ofItem.symm) (json.nonempty k)
  | some k, none => exact absurd (ofItem.trans ofItem'.symm) (json.nonempty k)
  | some k, some k' => exact congrArg some (json.injective k k' bytes ofItem ofItem')

theorem frameKeys_injective {items items' : List (Option Value)} {framed : Bytes} (framing : frameKeys json items = .ok framed)
    (framing' : frameKeys json items' = .ok framed) : items = items' := by
  obtain ⟨parts, each, rfl⟩ := exists_parts_of_frameKeys framing
  obtain ⟨parts', each', same⟩ := exists_parts_of_frameKeys framing'
  refine eq_of_flatten_eq ?_ ?_ each each' same
  · intro item item' part part' rest rest' framed framed' same
    obtain ⟨canonical, ofItem, framed⟩ := frameKey_eq_ok.mp framed
    obtain ⟨canonical', ofItem', framed'⟩ := frameKey_eq_ok.mp framed'
    obtain ⟨rfl, same⟩ := lengthPrefixed_append_inj framed framed' same
    exact ⟨eq_of_elim ofItem ofItem', same⟩
  · intro item framed
    obtain ⟨canonical, -, framed⟩ := frameKey_eq_ok.mp framed
    exact lengthPrefixed_ne_nil _ framed

/-- The keys of a device carry its id where everyone sees it. -/
def KeysReading.Names (reading : KeysReading) : Prop :=
  ∀ device ∈ reading.deviceKeys, ∃ fields, device.2 = .object fields ∧ fields "device_id" = some (.string device.1)

def Value.deviceId : Value → DeviceId
  | .object fields =>
    match fields "device_id" with
    | some (.string device) => device
    | _ => ""
  | _ => ""

theorem KeysReading.Names.shown (names : reading.Names) :
    reading.shown owner = ((reading.shown owner).map Prod.snd).map fun key => (key.deviceId, key) := by
  rw [map_map, KeysReading.shown, map_map]
  refine map_congr_left fun device mem => ?_
  obtain ⟨fields, object, named⟩ := names device (by simpa [KeysReading.devices] using mem)
  simp [object, onlyWhatEveryoneSees, Value.deviceId, named]

/-- Readings that are alike have one hash. One hash tells the master key, the self-signing key and the list of the
devices' keys, as everyone sees them; and for each device its keys if these name it. -/
theorem device_keys_hash_tells (collisionFree : ∀ framed framed' : Bytes, frameKeys json (first.items owner) = .ok framed →
      frameKeys json (second.items owner) = .ok framed' → toHex (sha256 framed) = toHex (sha256 framed') → framed = framed') :
    (first.Alike owner second → deviceKeysHash owner json sha256 first = deviceKeysHash owner json sha256 second) ∧
      ∀ hash, deviceKeysHash owner json sha256 first = .ok hash → deviceKeysHash owner json sha256 second = .ok hash →
        first.items owner = second.items owner ∧
          (first.Names → second.Names → ∀ device key, first.Shows owner device key ↔ second.Shows owner device key) := by
  constructor
  · intro alike
    rw [deviceKeysHash, deviceKeysHash, alike.items]
  · intro hash hashed hashed'
    obtain ⟨framed, framing, hex⟩ := map_eq_ok.mp hashed
    obtain ⟨framed', framing', hex'⟩ := map_eq_ok.mp hashed'
    obtain rfl := collisionFree framed framed' framing framing' (hex.trans hex'.symm)
    have items := frameKeys_injective framing framing'
    refine ⟨items, fun names names' device key => ?_⟩
    have keys : (first.shown owner).map Prod.snd = (second.shown owner).map Prod.snd := by
      rw [KeysReading.items_eq, KeysReading.items_eq, List.cons.injEq, List.cons.injEq] at items
      refine map_injective_iff.mpr (Option.some_injective Value) ?_
      rw [map_map, map_map]
      exact items.2.2
    rw [← KeysReading.mem_shown, ← KeysReading.mem_shown, names.shown, names'.shown, keys]

section Phone

/-- Keys that are nothing but the id of their device. -/
def named (device : DeviceId) : Value := .object fun name => if name = "device_id" then some (.string device) else none

/-- For an id without anything to escape. -/
def namedText (device : DeviceId) : Bytes := utf8 "\x7b\"device_id\":\"" ++ utf8 device ++ utf8 "\"\x7d"

theorem namedText_injective {device other : DeviceId} (same : namedText device = namedText other) : device = other :=
  utf8_injective (append_cancel_left (append_cancel_right same))

theorem named_injective {device other : DeviceId} (same : named device = named other) : device = other := by
  simpa [named] using congrFun (Value.object.inj same) "device_id"

/-- Canonical JSON, as far as it is about such keys. -/
noncomputable def CanonicalJson.ofNamed : CanonicalJson where
  text value := open Classical in if is : ∃ device, value = named device then .ok (namedText is.choose) else .error "a float"
  injective first second bytes written written' := by
    split at written
    next is =>
      split at written'
      next is' =>
        rw [is.choose_spec, is'.choose_spec, namedText_injective (Except.ok.inj (written.trans written'.symm))]
      · cases written'
    · cases written
  nonempty value := by
    split
    · intro empty
      have start := (append_eq_nil_iff.mp (append_eq_nil_iff.mp (Except.ok.inj empty)).1).1
      exact absurd start (by decide)
    · simp

theorem text_named (device : DeviceId) : CanonicalJson.ofNamed.text (named device) = .ok (namedText device) := by
  have is : ∃ other, named device = named other := ⟨device, rfl⟩
  refine (dif_pos is).trans ?_
  rw [← named_injective is.choose_spec]

def phoneKeys (signatures : Option Value) : Value :=
  .object fun name => if name = "device_id" then some (.string "PHONE") else if name = "signatures" then signatures else none

def lone (device : DeviceId) (keys : Value) : KeysReading := ⟨none, none, [(device, keys)], by simp⟩

def byAlice : Value := .object fun signer => if signer = "@alice:s" then some (.string "YWxpY2U") else none

theorem alike_of_byAlice : (lone "PHONE" (phoneKeys none)).Alike "@bob:s" (lone "PHONE" (phoneKeys (some byAlice))) := by
  have alike : AlikeKeys "@bob:s" (phoneKeys none) (phoneKeys (some byAlice)) := by
    refine @AlikeKeys.object _ _ _ none (fun name _ apart => ?_) rfl rfl
    simp [apart]
  exact ⟨.none, .none, by simpa [lone] using alike, by simpa [lone] using alike⟩

theorem seen_phoneKeys : onlyWhatEveryoneSees "@bob:s" (phoneKeys none) = named "PHONE" := by
  refine congrArg Value.object (funext fun name => ?_)
  by_cases signatures : name = "signatures"
  · simp [signatures, onlyOwn]
  · by_cases unsigned : name = "unsigned"
    · simp [unsigned]
    · simp [signatures, unsigned]

def phoneFramed : Bytes := [0, 0, 0, 0, 0, 0, 0, 0, 0, 0, 0, 21] ++ namedText "PHONE"

/-- SHA-256, for the text of these keys. -/
def phoneSha256 (text : Bytes) : Bytes :=
  if text = phoneFramed then
    [88, 231, 171, 2, 95, 238, 44, 158, 91, 214, 56, 148, 1, 119, 233, 58, 105, 230, 234, 61, 66, 194, 78, 143, 140, 158, 236,
      77, 112, 12, 244, 233]
  else []

theorem phone_hash : deviceKeysHash "@bob:s" .ofNamed phoneSha256 (lone "PHONE" (phoneKeys none)) = .ok "58e7ab025f" := by
  have items : (lone "PHONE" (phoneKeys none)).items "@bob:s" = [none, none, some (named "PHONE")] := by
    rw [← seen_phoneKeys]
    rfl
  rw [deviceKeysHash, items]
  simp only [frameKeys, frameKey, Option.elim, text_named]
  decide +kernel

/-- The signature of another user does not count, and the keys that the hash tells are the phone's. -/
theorem device_keys_hash_tells_of_byAlice :
    deviceKeysHash "@bob:s" .ofNamed phoneSha256 (lone "PHONE" (phoneKeys (some byAlice))) = .ok "58e7ab025f" ∧
      (lone "PHONE" (phoneKeys (some byAlice))).Shows "@bob:s" "PHONE" (named "PHONE") := by
  have tells := @device_keys_hash_tells "@bob:s" .ofNamed phoneSha256 (lone "PHONE" (phoneKeys none))
    (lone "PHONE" (phoneKeys (some byAlice))) fun framed framed' framing framing' _ => ?_
  · have hash := (tells.1 alike_of_byAlice).symm.trans phone_hash
    have names (signatures : Option Value) : (lone "PHONE" (phoneKeys signatures)).Names := by
      rintro _ (_ | ⟨_, ⟨⟩⟩)
      exact ⟨_, rfl, rfl⟩
    exact ⟨hash, ((tells.2 _ phone_hash hash).2 (names _) (names _) "PHONE" _).mp ⟨_, mem_cons_self, seen_phoneKeys⟩⟩
  · rw [alike_of_byAlice.items] at framing
    exact Except.ok.inj (framing.symm.trans framing')

/-- The same keys under the ids of two devices have one hash. -/
theorem device_keys_hash_of_renamed :
    deviceKeysHash "@bob:s" .ofNamed phoneSha256 (lone "PHONE" (phoneKeys none)) = .ok "58e7ab025f" ∧
      deviceKeysHash "@bob:s" .ofNamed phoneSha256 (lone "LAPTOP" (phoneKeys none)) = .ok "58e7ab025f" ∧
      (lone "PHONE" (phoneKeys none)).Shows "@bob:s" "PHONE" (named "PHONE") ∧
      ¬∃ key, (lone "LAPTOP" (phoneKeys none)).Shows "@bob:s" "PHONE" key :=
  ⟨phone_hash, phone_hash, ⟨_, mem_cons_self, seen_phoneKeys⟩, by simp [lone, KeysReading.Shows]⟩

end Phone

end Wbfuwunel.DeviceVersions
