import NgxPlus.Diversion.LuaCodec
import NgxPlus.Mqtt.Arguments

/-!
# Opening a session (`parse_message_connect`, `mqtt.lua:726-858`)

| here | there |
| --- | --- |
| `Protocol`            | the fields of an `MQTT.protocol` that the function writes |
| `readField`           | a length of two bytes and as many bytes (`:798-799`, `:835-848`) |
| `splitClientId`       | the client id and its arguments (`:798-828`) |
| `readPayload`         | the will, the user name and the password (`:834-850`) |
| `parseMessageConnect` | the function, up to where it decides what to do with the client |
| `After`               | what that is: `:793-796`, `:852-860`, or the rest of the function |

The function keeps an index; each read depends only on what lies behind it, so the remaining
bytes are passed on here.

A `CONNECT` with a will has two fields for it, the topic and the message. The function reads one
(`:834-838`), so the will message is taken for the user name and the user name for the password
(`connect_iff`).
-/

namespace NgxPlus.Mqtt

open ByteMem Decode
open NgxPlus.Diversion (decodeUtf8 decodeUtf8_write utf8Bytes)

structure Protocol where
  websock : Bool
  clientId : Option Bytes
  username : Option Bytes
  password : Option Bytes
  willMessage : Option Bytes
  cleanSession : Bool
  willFlag : Bool
  willQos : Nat
  willRetain : Bool
deriving DecidableEq, Repr

inductive ConnectError
  /-- `Invalid remaining length: `. -/
  | remainingLength (n : Nat)
  /-- `Invalid protoName: `. -/
  | protoName (name : Bytes)
  /-- The texts of these two are never built: one appends `willQos`, a global that is `nil`, the
  other `passwordFlag`, a boolean. -/
  | willQos
  | passwordFlag
  /-- Arithmetic on `nil`. -/
  | arithNil
  /-- `bit.band(nil, ..)`. -/
  | argNil
deriving DecidableEq, Repr

/-- How the function goes on. -/
inductive After
  /-- There is no `websock` any more. -/
  | notServed
  /-- The return at `out.add(message)`, which is commented out. -/
  | incomplete
  | notAuthorized
  | proceed (protocolVersion : UInt8) (Subscribe : Numbers)

def version31 : UInt8 := 3
def version311 : UInt8 := 4

/-- `"MQIsdp"`. -/
def protoName : Bytes := [0x4d, 0x51, 0x49, 0x73, 0x64, 0x70]

def readField (message : Bytes) : Except ConnectError (Bytes × Bytes) :=
  match decodeUtf8 message with
  | .ok r => .ok r
  | .error _ => .error .arithNil

/-- One flag of the byte. -/
def flag (connFlags mask shift : UInt8) : Bool := (connFlags &&& mask) >>> shift = 1

/-- The table that the arguments are added to. -/
def defaultSubscribe : Numbers :=
  Function.update (Function.update (fun _ => none) nameMin (some (.int (-1)))) nameQos (some (.int 1))

def splitClientId (tonumber : Bytes → Option LuaNumber) (clientId : Bytes) : Bytes × Numbers :=
  let indexOf := luaUtilityIndexOf clientId ampersand
  if indexOf > -1 then
    -- one-based: `&` itself is at `indexOf + 1`
    let args := clientId.drop (indexOf.toNat - 1)
    (clientId.take indexOf.toNat, setMatches tonumber defaultSubscribe (argMatches args))
  else (clientId, defaultSubscribe)

/-- A field whose flag is set. -/
def readFieldIf (present : Bool) (message : Bytes) : Except ConnectError (Option Bytes × Bytes) :=
  if present then do
    let (field, message) ← readField message
    return (some field, message)
  else return (none, message)

def readPayload (self : Protocol) (userFlag passwordFlag : Bool) (message : Bytes) : Except ConnectError Protocol := do
  let (willMessage, message) ← readFieldIf self.willFlag message
  let (username, message) ← readFieldIf userFlag message
  let (password, _) ← readFieldIf passwordFlag message
  return { self with
    willMessage := willMessage.or self.willMessage
    username := username.or self.username
    password := password.or self.password }

/-- The flag byte: the user flag and the password flag are locals. -/
def readFlags (self : Protocol) (connFlags : UInt8) : Except ConnectError (Protocol × Bool × Bool) :=
  let willQos := ((connFlags &&& 0x18) >>> 3).toNat
  if willQos > 2 then .error .willQos
  else
    let passwordFlag := flag connFlags 0x40 6
    let userFlag := flag connFlags 0x80 7
    if ¬ userFlag ∧ passwordFlag then .error .passwordFlag
    else
      .ok ({ self with
        cleanSession := flag connFlags 0x02 1
        willFlag := flag connFlags 0x04 2
        willQos := willQos
        willRetain := flag connFlags 0x20 5 }, userFlag, passwordFlag)

/-- From the client id on. -/
def readIdentity (tonumber : Bytes → Option LuaNumber) (self : Protocol) (protocolVersion : UInt8)
    (userFlag passwordFlag : Bool) (message : Bytes) : Except ConnectError (Protocol × After) := do
  let (clientId, message) ← readField message
  let (clientId, Subscribe) := splitClientId tonumber clientId
  let self ← readPayload { self with clientId := some clientId } userFlag passwordFlag message
  if ¬ userFlag ∨ ¬ passwordFlag then return (self, .notAuthorized)
  else return (self, .proceed protocolVersion Subscribe)

/-- What an error leaves in the fields is not kept. -/
def parseMessageConnect (tonumber : Bytes → Option LuaNumber) (self : Protocol) (remainingLength : Nat)
    (message : Bytes) : Except ConnectError (Protocol × After) :=
  if ¬ self.websock then .ok (self, .notServed)
  else if remainingLength < 3 then .error (.remainingLength remainingLength)
  else do
    let (name, message) ← readField message
    if name ≠ protoName then .error (.protoName name)
    else
      match message with
      | protocolVersion :: connFlags :: message => do
        let (self, userFlag, passwordFlag) ← readFlags self connFlags
        match message with
        | _ :: _ :: message =>
          if (remainingLength = 12 ∧ protocolVersion = version31) ∨
              (remainingLength = 10 ∧ protocolVersion = version311) then
            return (self, .incomplete)
          else readIdentity tonumber self protocolVersion userFlag passwordFlag message
        | _ => .error .arithNil
      | _ => .error .argNil

/-! ## Well-formed packets -/

/-- What a client encodes. -/
structure ConnectPacket where
  version : UInt8
  cleanSession : Bool
  /-- Topic and message. -/
  will : Option (Bytes × Bytes)
  willQos : Fin 3
  willRetain : Bool
  keepAlive : Nat
  clientId : Bytes
  user : Option Bytes
  password : Option Bytes
  user_of_password : password.isSome → user.isSome
  clientId_le : clientId.length ≤ 65535
  clientId_plain : 0x26 ∉ clientId
  will_le : ∀ w ∈ will, w.1.length ≤ 65535 ∧ w.2.length ≤ 65535
  user_le : ∀ u ∈ user, u.length ≤ 65535
  password_le : ∀ pw ∈ password, pw.length ≤ 65535

def flagBit (b : Bool) (mask : UInt8) : UInt8 := if b then mask else 0

namespace ConnectPacket

variable (p : ConnectPacket)

def flags : UInt8 :=
  flagBit p.cleanSession 0x02 ||| flagBit p.will.isSome 0x04 ||| UInt8.ofNat (p.willQos * 8) |||
    flagBit p.willRetain 0x20 ||| flagBit p.password.isSome 0x40 ||| flagBit p.user.isSome 0x80

/-- The fields behind the client id. -/
def credentials : Bytes :=
  (p.will.elim [] fun w => utf8Bytes w.1 ++ utf8Bytes w.2) ++ p.user.elim [] utf8Bytes ++
    p.password.elim [] utf8Bytes

def message : Bytes :=
  utf8Bytes protoName ++ [p.version, p.flags] ++ utilityMqttWriteUint16 p.keepAlive ++
    utf8Bytes p.clientId ++ p.credentials

end ConnectPacket

/-- The flag byte from its parts. -/
theorem flags_parts : ∀ (cs w r pw u : Bool) (q : Fin 3),
    let c := flagBit cs 0x02 ||| flagBit w 0x04 ||| UInt8.ofNat (q * 8) |||
      flagBit r 0x20 ||| flagBit pw 0x40 ||| flagBit u 0x80
    flag c 0x02 1 = cs ∧ flag c 0x04 2 = w ∧ ((c &&& 0x18) >>> 3).toNat = q ∧ flag c 0x20 5 = r ∧
      flag c 0x40 6 = pw ∧ flag c 0x80 7 = u := by
  decide

theorem readField_utf8 {b : Bytes} (h : b.length ≤ 65535) (rest : Bytes) :
    readField (utf8Bytes b ++ rest) = .ok (b, rest) := by
  unfold readField utf8Bytes
  rw [decodeUtf8_write h]

theorem splitClientId_plain (tonumber : Bytes → Option LuaNumber) {clientId : Bytes} (h : 0x26 ∉ clientId) :
    splitClientId tonumber clientId = (clientId, defaultSubscribe) := by
  unfold splitClientId
  rw [indexOf_ampersand_none h]
  rfl

/-- What the function takes for the user name and the password. -/
def ConnectPacket.taken (p : ConnectPacket) : Option Bytes × Option Bytes :=
  match p.will with
  | none => (p.user, p.password)
  | some (_, willMessage) => (p.user.map fun _ => willMessage, p.password.bind fun _ => p.user)

theorem readFieldIf_utf8 {b : Bytes} (h : b.length ≤ 65535) (rest : Bytes) :
    readFieldIf true (utf8Bytes b ++ rest) = .ok (some b, rest) := by
  unfold readFieldIf
  rw [if_pos rfl, readField_utf8 h]
  rfl

theorem readFieldIf_elim {o : Option Bytes} (h : ∀ b ∈ o, b.length ≤ 65535) (rest : Bytes) :
    readFieldIf o.isSome (o.elim [] utf8Bytes ++ rest) = .ok (o, rest) := by
  cases o with
  | none => rfl
  | some b => exact readFieldIf_utf8 (h b rfl) rest

/-- The fields behind the will message are each read one field too late. -/
theorem readPayload_credentials (p : ConnectPacket) (self : Protocol) (hw : self.willFlag = p.will.isSome) :
    readPayload self p.user.isSome p.password.isSome p.credentials =
      .ok { self with
        willMessage := (p.will.map Prod.fst).or self.willMessage
        username := p.taken.1.or self.username
        password := p.taken.2.or self.password } := by
  unfold readPayload ConnectPacket.credentials ConnectPacket.taken
  rw [hw]
  cases hwill : p.will with
  | none =>
    have hpw := readFieldIf_elim p.password_le []
    rw [List.append_nil] at hpw
    simp only [Option.isSome_none, Option.elim_none, List.nil_append, Option.map_none, Option.none_or]
    have hskip (m : Bytes) : readFieldIf false m = .ok (none, m) := rfl
    rw [hskip, ok_bind, readFieldIf_elim p.user_le, ok_bind, hpw]
    rfl
  | some w =>
    obtain ⟨topic, willMessage⟩ := w
    obtain ⟨htopic, hmessage⟩ := p.will_le _ hwill
    simp only [Option.isSome_some, Option.elim_some, Option.map_some, List.append_assoc]
    rw [readFieldIf_utf8 htopic, ok_bind]
    cases huser : p.user with
    | none =>
      cases hpw : p.password with
      | none => rfl
      | some pw =>
        have := p.user_of_password
        simp [huser, hpw] at this
    | some u =>
      rw [Option.isSome_some, readFieldIf_utf8 hmessage, ok_bind]
      cases hpw : p.password with
      | none => rfl
      | some pw =>
        rw [Option.isSome_some, Option.elim_some, readFieldIf_utf8 (p.user_le u huser)]
        rfl

/-- What the function leaves after a well-formed packet. -/
def ConnectPacket.left (p : ConnectPacket) (self : Protocol) : Protocol :=
  { self with
    cleanSession := p.cleanSession
    willFlag := p.will.isSome
    willQos := p.willQos
    willRetain := p.willRetain
    clientId := some p.clientId
    willMessage := (p.will.map Prod.fst).or self.willMessage
    username := p.taken.1.or self.username
    password := p.taken.2.or self.password }

/-- The session goes on with a user name and a password only. -/
def ConnectPacket.after (p : ConnectPacket) : After :=
  if p.user.isSome ∧ p.password.isSome then .proceed p.version defaultSubscribe else .notAuthorized

theorem length_message (p : ConnectPacket) : 14 ≤ p.message.length := by
  have hlen : (utf8Bytes protoName).length = 8 := by decide
  have hid : 2 ≤ (utf8Bytes p.clientId).length := by simp [utf8Bytes, utilityMqttWriteUint16]
  simp only [ConnectPacket.message, List.length_append, hlen, List.length_cons, List.length_nil,
    utilityMqttWriteUint16]
  omega

theorem readFlags_flags (self : Protocol) (p : ConnectPacket) :
    readFlags self p.flags = .ok ({ self with
      cleanSession := p.cleanSession
      willFlag := p.will.isSome
      willQos := p.willQos
      willRetain := p.willRetain }, p.user.isSome, p.password.isSome) := by
  obtain ⟨hclean, hwill, hqos, hretain, hpass, huser⟩ :=
    flags_parts p.cleanSession p.will.isSome p.willRetain p.password.isSome p.user.isSome p.willQos
  have hq : ¬ (p.willQos : Nat) > 2 := by have := p.willQos.isLt; omega
  have hup : ¬ (¬ p.user.isSome ∧ p.password.isSome) := fun h => h.1 (p.user_of_password h.2)
  unfold readFlags ConnectPacket.flags
  simp only [hclean, hwill, hqos, hretain, hpass, huser, if_neg hq, if_neg hup]

theorem readIdentity_identity (tonumber : Bytes → Option LuaNumber) (self : Protocol) (p : ConnectPacket)
    (hw : self.willFlag = p.will.isSome) :
    readIdentity tonumber self p.version p.user.isSome p.password.isSome (utf8Bytes p.clientId ++ p.credentials) =
      .ok ({ self with
        clientId := some p.clientId
        willMessage := (p.will.map Prod.fst).or self.willMessage
        username := p.taken.1.or self.username
        password := p.taken.2.or self.password }, p.after) := by
  unfold readIdentity
  rw [readField_utf8 p.clientId_le, ok_bind]
  simp only [splitClientId_plain tonumber p.clientId_plain]
  rw [readPayload_credentials p { self with clientId := some p.clientId } hw, ok_bind]
  unfold ConnectPacket.after
  cases p.user with
  | none => rfl
  | some u =>
    cases p.password with
    | none => rfl
    | some pw => rfl

theorem parseMessageConnect_message (tonumber : Bytes → Option LuaNumber) (self : Protocol) (p : ConnectPacket)
    (hws : self.websock = true) :
    parseMessageConnect tonumber self p.message.length p.message = .ok (p.left self, p.after) := by
  have hlen := length_message p
  have hname : readField p.message = .ok (protoName, p.version :: p.flags ::
      (utilityMqttWriteUint16 p.keepAlive ++ (utf8Bytes p.clientId ++ p.credentials))) := by
    rw [← readField_utf8 (by decide) _]
    simp [ConnectPacket.message]
  have hlong : ¬ ((p.message.length = 12 ∧ p.version = version31) ∨
      (p.message.length = 10 ∧ p.version = version311)) := by omega
  unfold parseMessageConnect
  rw [if_neg (by simp [hws]), if_neg (by omega), hname, ok_bind]
  simp only [ne_eq, not_true_eq_false, if_false]
  rw [readFlags_flags, ok_bind]
  simp only [utilityMqttWriteUint16, List.cons_append, List.nil_append, if_neg hlong]
  exact readIdentity_identity tonumber _ p rfl

/-! ## What the function takes for whom -/

/-- The fields after the call. -/
def identity (r : Except ConnectError (Protocol × After)) : Option (Option Bytes × Option Bytes × Option Bytes) :=
  match r with
  | .ok (self, _) => some (self.clientId, self.username, self.password)
  | .error _ => none

/-- The session has the client id, the user name and the password of the packet. -/
def Extracts (tonumber : Bytes → Option LuaNumber) (self : Protocol) (p : ConnectPacket) : Prop :=
  identity (parseMessageConnect tonumber self p.message.length p.message) =
    some (some p.clientId, p.user.or self.username, p.password.or self.password)

/-- The field in the place of each one read is the same. -/
def WillIsUser (p : ConnectPacket) : Prop :=
  ∀ w ∈ p.will, ∀ u ∈ p.user, w.2 = u ∧ ∀ pw ∈ p.password, u = pw

theorem taken_iff (self : Protocol) (p : ConnectPacket) :
    (p.taken.1.or self.username = p.user.or self.username ∧
      p.taken.2.or self.password = p.password.or self.password) ↔ WillIsUser p := by
  unfold ConnectPacket.taken WillIsUser
  cases p.will with
  | none => simp
  | some w =>
    obtain ⟨topic, willMessage⟩ := w
    cases hu : p.user with
    | none =>
      cases hpw : p.password with
      | none => simp
      | some pw =>
        have := p.user_of_password
        simp [hu, hpw] at this
    | some u =>
      cases p.password with
      | none => simp
      | some pw => simp

/-- **The user name and the password are the packet's exactly if there is no will**, no user
name, or the fields in whose place they are read are the same. -/
theorem connect_iff (tonumber : Bytes → Option LuaNumber) (self : Protocol) (p : ConnectPacket)
    (hws : self.websock = true) : Extracts tonumber self p ↔ WillIsUser p := by
  rw [← taken_iff self p]
  unfold Extracts
  rw [parseMessageConnect_message tonumber self p hws]
  simp [identity, ConnectPacket.left]

/-- A session before its first packet. -/
def freshProtocol : Protocol := ⟨true, none, none, none, none, false, false, 0, false⟩

/-- Client `c` with user name `u` and password `p`. -/
def packetOf (will : Option (UInt8 × UInt8)) : ConnectPacket where
  version := version31
  cleanSession := true
  will := will.map fun w => ([w.1], [w.2])
  willQos := 0
  willRetain := false
  keepAlive := 60
  clientId := [0x63]
  user := some [0x75]
  password := some [0x70]
  user_of_password := by decide
  clientId_le := by decide
  clientId_plain := by decide
  will_le := by
    intro w hw
    obtain ⟨v, _, rfl⟩ := Option.map_eq_some_iff.1 hw
    simp
  user_le := by simp
  password_le := by simp

theorem connect_iff_without_will : Extracts decimalNumber freshProtocol (packetOf none) :=
  (connect_iff decimalNumber freshProtocol (packetOf none) rfl).2 (by intro w hw; simp [packetOf] at hw)

/-- The will message `m` becomes the user name. -/
theorem will_message_taken : ¬ ∀ (self : Protocol) (p : ConnectPacket), self.websock = true →
    Extracts decimalNumber self p := by
  intro h
  have hext := h freshProtocol (packetOf (some (0x74, 0x6d))) rfl
  revert hext
  unfold Extracts
  decide

end NgxPlus.Mqtt
