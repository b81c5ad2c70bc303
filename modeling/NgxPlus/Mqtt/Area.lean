import NgxPlus.Diversion.Types
import NgxPlus.Lib.AssocList

/-!
# The areas of `_data` (`mqtt.lua:186-216`)

| here | there |
| --- | --- |
| `Area`             | `_data[name]`: a table of the code's objects |
| `mqttGet`          | `MQTT.get(name,key)`, with `Got` for what comes out |
| `mqttSet`          | `MQTT.set(name,key,val)` |
| `setField`         | `MQTT.get(name,key).field = n` |

`MQTT.get` with a `nil` key returns the whole area. A session that is not connected has no
client id, so its `obj_tmp` is the area itself, and a field that it sets becomes a key of the
area with a number under it.
-/

namespace NgxPlus.Mqtt

open ByteMem
open NgxPlus.Diversion (ascii)

inductive AreaVal (α : Type)
  | object (obj : α)
  | number (n : Nat)

/-- A Lua table is the list of its bindings, as `pairs` walks it. -/
abbrev Area (α : Type) := AssocList Bytes (AreaVal α)

inductive Got (α : Type)
  | nil
  | area (tab : Area α)
  | entry (key : Bytes) (val : AreaVal α)

/-- The two fields that are set on what `MQTT.get` returned. -/
inductive AreaField
  | iswildcard
  | ismore
deriving DecidableEq, Repr

def AreaField.name : AreaField → Bytes
  | .iswildcard => ascii ['i', 's', 'w', 'i', 'l', 'd', 'c', 'a', 'r', 'd']
  | .ismore => ascii ['i', 's', 'm', 'o', 'r', 'e']

section

variable {α : Type}

def mqttGet (tab : Option (Area α)) (key : Option Bytes) : Got α :=
  match tab, key with
  | none, _ => .nil
  | some tab, none => .area tab
  | some tab, some key =>
    match AssocList.get tab key with
    | none => .nil
    | some val => .entry key val

/-- The table is made also when there is nothing to put into it. -/
def mqttSet (tab : Option (Area α)) (key : Bytes) (val : Option (AreaVal α)) : Option (Area α) :=
  let tab := tab.getD []
  match val with
  | none => some (AssocList.delete tab key)
  | some val => some (AssocList.set tab key val)

/-- The area afterwards, with `write` for the field of an object; `none` where it raises. -/
def setField (tab : Option (Area α)) (key : Option Bytes) (field : AreaField) (n : Nat) (write : α → α) :
    Option (Option (Area α)) :=
  match mqttGet tab key with
  | .nil | .entry _ (.number _) => none
  | .area tab => some (some (AssocList.set tab field.name (.number n)))
  | .entry key (.object obj) => some (mqttSet tab key (some (.object (write obj))))

/-- `MQTT.get` returns a table: the entry's, or the area. -/
def getsTable (tab : Option (Area α)) (key : Option Bytes) : Bool :=
  match mqttGet tab key with
  | .nil | .entry _ (.number _) => false
  | .area _ | .entry _ (.object _) => true

/-- A field can be set exactly where there is a table, and there is one afterwards. -/
theorem setField_of_table {tab : Option (Area α)} {key : Option Bytes} (h : getsTable tab key = true)
    (field : AreaField) (n : Nat) (write : α → α) :
    ∃ tab', setField tab key field n write = some tab' ∧ getsTable tab' key = true := by
  cases tab with
  | none => simp [getsTable, mqttGet] at h
  | some tab =>
    cases key with
    | none => exact ⟨_, rfl, rfl⟩
    | some key =>
      cases hg : AssocList.get tab key with
      | none => simp [getsTable, mqttGet, hg] at h
      | some val =>
        cases val with
        | number n => simp [getsTable, mqttGet, hg] at h
        | object obj =>
          refine ⟨mqttSet (some tab) key (some (.object (write obj))), ?_, ?_⟩
          · simp only [setField, mqttGet, hg]
          · simp [getsTable, mqttGet, mqttSet]

/-- The object under a key. -/
def objectOf (tab : Area α) (key : Bytes) : Option α :=
  match AssocList.get tab key with
  | some (.object obj) => some obj
  | _ => none

/-- No number is under any key. -/
def AllObjects (tab : Area α) : Prop := ∀ e ∈ tab, ∃ obj, e.2 = .object obj

theorem objectOf_eq_some {tab : Area α} {key : Bytes} {obj : α} :
    objectOf tab key = some obj ↔ AssocList.get tab key = some (.object obj) := by
  unfold objectOf
  split
  · next hg => rw [hg, Option.some.injEq, Option.some.injEq, AreaVal.object.injEq]
  · next hg => exact ⟨fun h => by simp at h, fun h => absurd h (hg obj)⟩

theorem nodup_mqttSet {tab tab' : Option (Area α)} (h : ∀ m, tab = some m → (m.map Prod.fst).Nodup) (key : Bytes)
    (val : Option (AreaVal α)) (hset : mqttSet tab key val = tab') : ∀ m, tab' = some m → (m.map Prod.fst).Nodup := by
  have hkeys : ((tab.getD []).map Prod.fst).Nodup := by
    cases tab with
    | none => exact List.nodup_nil
    | some m => exact h m rfl
  rintro m rfl
  cases val with
  | none =>
    obtain rfl := Option.some.inj hset
    exact AssocList.nodup_delete _ key hkeys
  | some val =>
    obtain rfl := Option.some.inj hset
    exact AssocList.nodup_set _ key val hkeys

end

end NgxPlus.Mqtt
