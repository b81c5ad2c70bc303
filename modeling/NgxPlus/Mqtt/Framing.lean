import NgxPlus.Mqtt.Subscribe
import Mathlib.Tactic.Ring

/-!
# Frames on the wire

| here | there |
| --- | --- |
| `encodeCommonHeader` | `encodeCommonHeader` (`mqtt.lua:706-717`) |
| `messageWrite`       | what `message_write` sends (`:583-627`); `none` where it sends nothing |
| `parseMessage`       | the dispatch of `parse_message` (`:642-692`), with `parse_message_conack` and `parse_message_pingresp` (`:987-1028`) |
| `handlerLoop`, `handler` | `handler` (`:522-572`) |
| `recvFrame`          | `recv_frame` of the TCP adapter (`mqtt_tcp_adapter.lua:54-94`) |

`encodeRemaining` and `luaRemaining` are the loops of `Subscribe.lean`. `handler` takes
`parse_message` as a function of the session that may raise, and keeps what it was called with:
nothing behind the packet whose call raises is looked at. The handlers that `parseMessage` only
calls are parameters. `sock:receive(n)` answers with `n` bytes, or not at all.
-/

namespace NgxPlus.Mqtt.Framing

open ByteMem Decode

/-! ## Writing -/

/-- `none` where `string.char` refuses the number. -/
def encodeCommonHeader (messageType qosLevel : Nat) (dupFlag retainFlag : Bool) : Option UInt8 :=
  let flags := 0
  let flags := if dupFlag then flags ||| 0x08 else flags
  let flags := if retainFlag then flags ||| 0x01 else flags
  let flags := flags ||| (qosLevel &&& 0x03) <<< 1
  let c := messageType <<< 4 ||| flags
  if c ≤ 255 then some (UInt8.ofNat c) else none

structure Packet where
  messageType : Nat
  qosLevel : Nat
  dupFlag : Bool
  retainFlag : Bool
  payload : Option Bytes
deriving DecidableEq, Repr

def messageWrite (maxPayloadLength : Nat) (p : Packet) : Option Bytes :=
  match encodeCommonHeader p.messageType p.qosLevel p.dupFlag p.retainFlag with
  | none => none
  | some c =>
    match p.payload with
    | none => some [c, 0]
    | some payload =>
      if payload.length > maxPayloadLength then none
      else some (c :: (encodeRemaining (payload.length + 1) payload.length ++ payload))

/-! ## The handler -/

/-- How a call ends early. -/
inductive Raised
  /-- `attempt to perform arithmetic on a nil value`. -/
  | arithNil
  | error (message : String)
deriving DecidableEq, Repr

/-- `message_type_flags`, `remaining_length` and `message`. -/
abbrev Call := UInt8 × Nat × Bytes

section Handler

variable {σ : Type}

structure HandlerOut (σ : Type) where
  calls : List Call
  self : σ
  raised : Option Raised
  /-- `Partial message received`. -/
  leftOver : Bool
deriving DecidableEq, Repr

/-- From `index` on; also the index it stops at. -/
def handlerLoop (parseMessage : σ → Call → Except Raised σ) (buffer : Bytes) :
    Nat → Nat → HandlerOut σ → HandlerOut σ × Nat
  | 0, index, out => (out, index)
  | fuel + 1, index, out =>
    if index < buffer.length then
      match buffer.drop (index - 1) with
      | [] => ({ out with raised := some .arithNil }, index)
      | messageTypeFlags :: rest =>
        match luaRemaining rest 1 0 (index + 1) with
        | none => ({ out with raised := some .arithNil }, index)
        | some (remainingLength, index) =>
          let message := (buffer.drop index).take remainingLength
          if message.length = remainingLength then
            let call := (messageTypeFlags, remainingLength, message)
            let out := { out with calls := out.calls ++ [call] }
            match parseMessage out.self call with
            | .error e => ({ out with raised := some e }, index)
            | .ok self => handlerLoop parseMessage buffer fuel (index + remainingLength + 1) { out with self }
          else handlerLoop parseMessage buffer fuel (index + remainingLength + 1) out
    else (out, index)

/-- Each round moves the index, so the length of the buffer bounds the rounds. -/
def handler (parseMessage : σ → Call → Except Raised σ) (self : σ) (buffer : Bytes) : HandlerOut σ :=
  if buffer.length > 0 then
    let (out, index) := handlerLoop parseMessage buffer buffer.length 1 ⟨[], self, none, false⟩
    match out.raised with
    | some _ => out
    | none => { out with leftOver := decide (index ≠ buffer.length + 1) }
  else ⟨[], self, none, false⟩

/-- The handlers that `parse_message` calls. -/
structure Handlers (σ : Type) where
  connect : σ → Call → Except Raised σ
  subscribe : σ → Call → Except Raised σ
  publish : σ → Call → Except Raised σ
  puback : σ → Call → Except Raised σ
  suback : σ → Call → Except Raised σ
  unsubscribe : σ → Call → Except Raised σ
  unsuback : σ → Call → Except Raised σ
  pingreq : σ → Call → Except Raised σ
  disconnect : σ → Except Raised σ
  reserved : σ → Call → Except Raised σ

def conackErrors : List String :=
  ["Unacceptable protocol version", "Identifer rejected", "Server unavailable", "Bad user name or password",
    "Not authorized"]

/-- The client id in front of a message is left out. -/
def parseMessageConack (self : σ) (call : Call) : Except Raised σ :=
  if call.2.1 ≠ 2 then .error (.error "MQTT.protocol:parse_message_conack(): Invalid remaining length")
  else
    match call.2.2[1]? with
    | none => .error .arithNil
    | some returnCode =>
      if returnCode ≠ 0 then
        .error (.error ("Connection refused: " ++ (conackErrors[returnCode.toNat - 1]?).getD "Unknown return code"))
      else .ok self

def parseMessagePingresp (self : σ) (call : Call) : Except Raised σ :=
  if call.2.1 ≠ 0 then .error (.error "MQTT.protocol:parse_message_pingresp(): Invalid remaining length")
  else .ok self

/-- An unknown type is logged (`MQTT.ERROR_TERMINATE` is false). -/
def parseMessage (H : Handlers σ) (self : σ) (call : Call) : Except Raised σ :=
  match (call.1 >>> 4).toNat with
  | 0x01 => H.connect self call
  | 0x02 => parseMessageConack self call
  | 0x08 => H.subscribe self call
  | 0x03 => H.publish self call
  | 0x04 => H.puback self call
  | 0x09 => H.suback self call
  | 0x0a => H.unsubscribe self call
  | 0x0b => H.unsuback self call
  | 0x0c => H.pingreq self call
  | 0x0d => parseMessagePingresp self call
  | 0x0e => H.disconnect self
  | 0x0f => H.reserved self call
  | _ => .ok self

end Handler

/-! ## The TCP adapter -/

inductive RecvError
  | firstByte
  | remainingByte
  | exceeding
  | payload
deriving DecidableEq, Repr

def receive (n : Nat) (sock : Bytes) : Option (Bytes × Bytes) :=
  if n ≤ sock.length then some (sock.take n, sock.drop n) else none

/-- The bytes of the remaining length one by one: it, the buffer with them, what is left. -/
def recvRemaining : Bytes → Nat → Nat → Bytes → Option (Nat × Bytes × Bytes)
  | [], _, _, _ => none
  | digit :: sock, multiplier, acc, buffer =>
    let acc := acc + digit.toNat % 128 * multiplier
    if digit.toNat < 128 then some (acc, buffer ++ [digit], sock)
    else recvRemaining sock (multiplier * 128) acc (buffer ++ [digit])

def recvFrame (maxPayloadLen : Nat) (sock : Bytes) : Except RecvError (Bytes × Bytes) :=
  match receive 1 sock with
  | none => .error .firstByte
  | some (messageTypeFlags, sock) =>
    match recvRemaining sock 1 0 messageTypeFlags with
    | none => .error .remainingByte
    | some (remainingLength, buffer, sock) =>
      if remainingLength > 0 then
        if remainingLength > maxPayloadLen then .error .exceeding
        else
          match receive remainingLength sock with
          | none => .error .payload
          | some (data, sock) => .ok (buffer ++ data, sock)
      else .ok (buffer, sock)

/-! ## The remaining length -/

theorem encodeRemaining_length (fuel n : Nat) : 0 < (encodeRemaining (fuel + 1) n).length := by
  rw [encodeRemaining]
  split
  · simp
  · simp

theorem digit_more (n : Nat) : (UInt8.ofNat (n % 128 + 128)).toNat = n % 128 + 128 := by
  rw [UInt8.toNat_ofNat']
  omega

theorem digit_last (n : Nat) : (UInt8.ofNat (n % 128)).toNat = n % 128 := by
  rw [UInt8.toNat_ofNat']
  omega

/-- The loop ends with the last digit. -/
theorem luaRemaining_last {n : Nat} (h : n / 128 = 0) (rest : Bytes) (multiplier acc index : Nat) :
    luaRemaining (UInt8.ofNat (n % 128) :: rest) multiplier acc index = some (acc + n * multiplier, index) := by
  have hlt : n % 128 < 128 := by omega
  have hmod : n % 128 % 128 = n := by omega
  rw [luaRemaining, digit_last, hmod]
  simp only [hlt, if_true]

theorem luaRemaining_encode {fuel n : Nat} (h : n < 128 ^ (fuel + 1)) (rest : Bytes) (multiplier acc index : Nat) :
    luaRemaining (encodeRemaining (fuel + 1) n ++ rest) multiplier acc index =
      some (acc + n * multiplier, index + (encodeRemaining (fuel + 1) n).length - 1) := by
  induction fuel generalizing n multiplier acc index with
  | zero =>
    have hn : n / 128 = 0 := by omega
    rw [encodeRemaining, if_neg (by omega)]
    exact luaRemaining_last hn rest multiplier acc index
  | succ fuel ih =>
    rw [encodeRemaining]
    by_cases hn : n / 128 > 0
    · have hdiv : n / 128 < 128 ^ (fuel + 1) := by
        rw [pow_succ] at h
        omega
      have hpos := encodeRemaining_length fuel (n / 128)
      have hsplit : n % 128 * multiplier + n / 128 * (multiplier * 128) = n * multiplier := by
        calc n % 128 * multiplier + n / 128 * (multiplier * 128)
            = (n % 128 + 128 * (n / 128)) * multiplier := by ring
          _ = n * multiplier := by rw [Nat.mod_add_div]
      rw [if_pos hn, List.cons_append, luaRemaining, digit_more]
      simp only [Nat.add_mod_right, Nat.mod_mod]
      rw [if_neg (by omega), ih hdiv, List.length_cons, Nat.add_assoc acc, hsplit]
      congr 2
      omega
    · rw [if_neg hn]
      exact luaRemaining_last (by omega) rest multiplier acc index

theorem lt_pow_length (n : Nat) : n < 128 ^ (n + 1) :=
  calc n < n + 1 := Nat.lt_succ_self n
    _ < 128 ^ (n + 1) := Nat.lt_pow_self (by omega)

/-- The adapter reads the same number, and the same bytes into its buffer. -/
theorem recvRemaining_eq {sock : Bytes} {multiplier acc index n last : Nat}
    (h : luaRemaining sock multiplier acc index = some (n, last)) (buffer : Bytes) :
    index ≤ last ∧ recvRemaining sock multiplier acc buffer =
      some (n, buffer ++ sock.take (last + 1 - index), sock.drop (last + 1 - index)) := by
  induction sock generalizing multiplier acc index buffer with
  | nil => simp [luaRemaining] at h
  | cons digit sock ih =>
    rw [luaRemaining] at h
    rw [recvRemaining]
    by_cases hd : digit.toNat < 128
    · simp only [hd, if_true, Option.some.injEq, Prod.mk.injEq] at h ⊢
      obtain ⟨rfl, rfl⟩ := h
      simp
    · simp only [hd, if_false] at h ⊢
      obtain ⟨hle, hrec⟩ := ih h (buffer ++ [digit])
      have hstep : last + 1 - index = (last + 1 - (index + 1)) + 1 := by omega
      refine ⟨by omega, ?_⟩
      rw [hrec, hstep]
      simp

/-! ## One packet -/

/-- The first byte as MQTT describes it. -/
def Packet.firstByte (p : Packet) : UInt8 :=
  UInt8.ofNat (16 * p.messageType + (if p.dupFlag then 8 else 0) + 2 * p.qosLevel + if p.retainFlag then 1 else 0)

/-- No payload is an empty one to the reader. -/
def Packet.call (p : Packet) : Call := (p.firstByte, (p.payload.getD []).length, p.payload.getD [])

def wire (c : Call) : Bytes := c.1 :: (encodeRemaining (c.2.2.length + 1) c.2.2.length ++ c.2.2)

/-- What may be sent. -/
structure Packet.Fits (maxPayloadLength : Nat) (p : Packet) : Prop where
  messageType : p.messageType < 16
  qosLevel : p.qosLevel < 4
  payload : (p.payload.getD []).length ≤ min 268435455 maxPayloadLength

theorem encodeCommonHeader_eq : ∀ messageType < 16, ∀ qosLevel < 4, ∀ dupFlag retainFlag,
    encodeCommonHeader messageType qosLevel dupFlag retainFlag =
      some (Packet.firstByte ⟨messageType, qosLevel, dupFlag, retainFlag, none⟩) := by
  decide

theorem messageWrite_eq {maxPayloadLength : Nat} {p : Packet} (h : p.Fits maxPayloadLength) :
    messageWrite maxPayloadLength p = some (wire p.call) := by
  have hhead : encodeCommonHeader p.messageType p.qosLevel p.dupFlag p.retainFlag = some p.firstByte :=
    encodeCommonHeader_eq _ h.messageType _ h.qosLevel _ _
  have hlen := h.payload
  rw [messageWrite, hhead]
  cases hp : p.payload with
  | none =>
    simp only [Packet.call, hp, Option.getD_none, wire]
    rfl
  | some payload =>
    rw [hp, Option.getD_some] at hlen
    simp only [Packet.call, hp, Option.getD_some, wire]
    rw [if_neg (by omega)]

/-- The number of bytes in front of the payload of a packet. -/
def headLength (c : Call) : Nat := 1 + (encodeRemaining (c.2.2.length + 1) c.2.2.length).length

theorem wire_length (c : Call) : (wire c).length = headLength c + c.2.2.length := by
  simp only [wire, headLength, List.length_cons, List.length_append]
  omega

theorem headLength_ge (c : Call) : 2 ≤ headLength c := by
  have := encodeRemaining_length c.2.2.length c.2.2.length
  unfold headLength
  omega

theorem drop_headLength (c : Call) (rest : Bytes) :
    (wire c ++ rest).drop (headLength c) = c.2.2 ++ rest := by
  have happ : wire c ++ rest =
      (c.1 :: encodeRemaining (c.2.2.length + 1) c.2.2.length) ++ (c.2.2 ++ rest) := by
    simp [wire]
  rw [happ]
  refine List.drop_left' ?_
  simp only [headLength, List.length_cons]
  omega

/-! ## All packets -/

section Handler

variable {σ : Type} (parseMessage : σ → Call → Except Raised σ)

/-- The calls in order, until one raises. -/
def callAll : σ → List Call → List Call × σ × Option Raised
  | self, [] => ([], self, none)
  | self, c :: cs =>
    match parseMessage self c with
    | .error e => ([c], self, some e)
    | .ok self => (c :: (callAll self cs).1, (callAll self cs).2)

/-- One packet at `index`, wherever it lies in the buffer. -/
theorem handlerLoop_packet {pre post : Bytes} {c : Call} (hc : c.2.1 = c.2.2.length) (fuel : Nat)
    (out : HandlerOut σ) :
    handlerLoop parseMessage (pre ++ wire c ++ post) (fuel + 1) (pre.length + 1) out =
      match parseMessage out.self c with
      | .error e => ({ out with calls := out.calls ++ [c], raised := some e }, (pre ++ wire c).length - c.2.2.length)
      | .ok self => handlerLoop parseMessage (pre ++ wire c ++ post) fuel ((pre ++ wire c).length + 1)
          { out with calls := out.calls ++ [c], self } := by
  have hlen := wire_length c
  have hge := headLength_ge c
  have hlt : pre.length + 1 < (pre ++ wire c ++ post).length := by
    simp only [List.length_append]
    omega
  have hdrop : (pre ++ wire c ++ post).drop (pre.length + 1 - 1) =
      c.1 :: (encodeRemaining (c.2.2.length + 1) c.2.2.length ++ (c.2.2 ++ post)) := by
    rw [Nat.add_sub_cancel, List.append_assoc, List.drop_left]
    simp [wire]
  have hindex : pre.length + 1 + 1 + (encodeRemaining (c.2.2.length + 1) c.2.2.length).length - 1 =
      pre.length + headLength c := by
    unfold headLength
    omega
  have hmess : ((pre ++ wire c ++ post).drop (pre.length + headLength c)).take c.2.2.length = c.2.2 := by
    rw [List.append_assoc, List.drop_append, List.drop_eq_nil_of_le (by omega), List.nil_append,
      Nat.add_sub_cancel_left, drop_headLength]
    exact List.take_left' rfl
  have hnext : pre.length + headLength c + c.2.2.length + 1 = (pre ++ wire c).length + 1 := by
    rw [List.length_append, hlen]
    omega
  have hat : pre.length + headLength c = (pre ++ wire c).length - c.2.2.length := by
    rw [List.length_append, hlen]
    omega
  have hcall : (c.1, c.2.2.length, c.2.2) = c := by rw [← hc]
  rw [handlerLoop, if_pos hlt, hdrop]
  simp only
  rw [luaRemaining_encode (lt_pow_length _), hindex]
  simp only [Nat.mul_one, Nat.zero_add, hmess, if_true, hcall]
  cases parseMessage out.self c with
  | error e => simp only [hat]
  | ok self => simp only [hnext]

theorem handlerLoop_wires {cs : List Call} (hcs : ∀ c ∈ cs, c.2.1 = c.2.2.length) (pre : Bytes) {fuel : Nat}
    (hfuel : cs.length ≤ fuel) (out : HandlerOut σ) :
    ∃ index, handlerLoop parseMessage (pre ++ cs.flatMap wire) fuel (pre.length + 1) out =
        ({ out with
          calls := out.calls ++ (callAll parseMessage out.self cs).1
          self := (callAll parseMessage out.self cs).2.1
          raised := ((callAll parseMessage out.self cs).2.2).or out.raised }, index) ∧
      ((callAll parseMessage out.self cs).2.2 = none → index = (pre ++ cs.flatMap wire).length + 1) := by
  induction cs generalizing pre fuel out with
  | nil =>
    have hstop : ¬ pre.length + 1 < (pre ++ List.flatMap wire []).length := by simp
    refine ⟨pre.length + 1, ?_, by simp⟩
    cases fuel with
    | zero => simp [handlerLoop, callAll]
    | succ fuel =>
      rw [handlerLoop, if_neg hstop]
      simp [callAll]
  | cons c cs ih =>
    obtain ⟨fuel, rfl⟩ : ∃ k, fuel = k + 1 := ⟨fuel - 1, by simp at hfuel; omega⟩
    have happ : pre ++ (c :: cs).flatMap wire = pre ++ wire c ++ cs.flatMap wire := by simp
    rw [happ, handlerLoop_packet parseMessage (hcs c List.mem_cons_self), callAll]
    cases hp : parseMessage out.self c with
    | error e => exact ⟨_, rfl, by simp⟩
    | ok self =>
      obtain ⟨index, hloop, hend⟩ := ih (fun d hd => hcs d (List.mem_cons_of_mem _ hd)) (pre ++ wire c)
        (by simpa using hfuel) { out with calls := out.calls ++ [c], self }
      refine ⟨index, hloop.trans ?_, hend⟩
      simp only [List.append_assoc, List.cons_append, List.nil_append]

theorem handler_wires {cs : List Call} (hcs : ∀ c ∈ cs, c.2.1 = c.2.2.length) (self : σ) :
    handler parseMessage self (cs.flatMap wire) =
      ⟨(callAll parseMessage self cs).1, (callAll parseMessage self cs).2.1, (callAll parseMessage self cs).2.2,
        false⟩ := by
  cases hnil : cs with
  | nil => rfl
  | cons c cs' =>
    rw [← hnil]
    have hlong : cs.length ≤ (cs.flatMap wire).length := by
      clear hnil hcs
      induction cs with
      | nil => simp
      | cons c cs ih =>
        have := wire_length c
        have := headLength_ge c
        simp only [List.flatMap_cons, List.length_append, List.length_cons]
        omega
    have hpos : (cs.flatMap wire).length > 0 := by
      rw [hnil, List.length_cons] at hlong
      rw [hnil]
      omega
    obtain ⟨index, hloop, hend⟩ := handlerLoop_wires parseMessage hcs [] hlong ⟨[], self, none, false⟩
    simp only [List.nil_append, List.length_nil, Nat.zero_add, Option.or_none] at hloop hend
    rw [handler, if_pos hpos, hloop]
    cases hr : (callAll parseMessage self cs).2.2 with
    | some e => simp
    | none => simp [hend hr]

theorem callAll_calls (self : σ) (cs : List Call) : (callAll parseMessage self cs).1 <+: cs := by
  induction cs generalizing self with
  | nil => exact List.prefix_rfl
  | cons c cs ih =>
    rw [callAll]
    cases parseMessage self c with
    | error e => exact ⟨cs, rfl⟩
    | ok self => exact List.cons_prefix_cons.2 ⟨rfl, ih self⟩

theorem callAll_none {self : σ} {cs : List Call} (h : (callAll parseMessage self cs).2.2 = none) :
    (callAll parseMessage self cs).1 = cs := by
  induction cs generalizing self with
  | nil => rfl
  | cons c cs ih =>
    rw [callAll] at h ⊢
    cases hp : parseMessage self c with
    | error e => simp [hp] at h
    | ok self =>
      rw [hp] at h
      exact congrArg (c :: ·) (ih h)

theorem callAll_some {self : σ} {cs : List Call} {e : Raised} (h : (callAll parseMessage self cs).2.2 = some e) :
    ∃ done c self', (callAll parseMessage self cs).1 = done ++ [c] ∧ done.foldlM parseMessage self = .ok self' ∧
      parseMessage self' c = .error e := by
  induction cs generalizing self with
  | nil => simp [callAll] at h
  | cons c cs ih =>
    rw [callAll] at h ⊢
    cases hp : parseMessage self c with
    | error e' =>
      rw [hp] at h
      obtain rfl := Option.some.inj h
      exact ⟨[], c, self, rfl, rfl, hp⟩
    | ok self₁ =>
      rw [hp] at h
      obtain ⟨done, d, self', hcalls, hdone, he⟩ := ih h
      refine ⟨c :: done, d, self', by simp [hcalls], ?_, he⟩
      rw [List.foldlM_cons, hp]
      exact hdone

end Handler

theorem recvFrame_wire {maxPayloadLen : Nat} {c : Call} (hc : c.2.2.length ≤ maxPayloadLen) (rest : Bytes) :
    recvFrame maxPayloadLen (wire c ++ rest) = .ok (wire c, rest) := by
  let enc := encodeRemaining (c.2.2.length + 1) c.2.2.length
  have hpos : 0 < enc.length := encodeRemaining_length _ _
  have hfirst : receive 1 (wire c ++ rest) = some ([c.1], enc ++ (c.2.2 ++ rest)) := by
    simp [receive, wire, enc]
  obtain ⟨-, hrem⟩ := recvRemaining_eq (luaRemaining_encode (lt_pow_length c.2.2.length) (c.2.2 ++ rest) 1 0 0) [c.1]
  have hlast : 0 + enc.length - 1 + 1 - 0 = enc.length := by omega
  rw [hlast, List.take_left, List.drop_left, Nat.zero_add, Nat.mul_one] at hrem
  rw [recvFrame, hfirst]
  simp only
  rw [hrem]
  simp only
  by_cases h0 : c.2.2.length > 0
  · have hdata : receive c.2.2.length (c.2.2 ++ rest) = some (c.2.2, rest) := by
      simp [receive]
    rw [if_pos h0, if_neg (by omega), hdata]
    simp [wire, enc]
  · have hnil : c.2.2 = [] := List.eq_nil_of_length_eq_zero (by omega)
    rw [if_neg h0]
    simp [wire, enc, hnil]

/-- The frames that go out for a list of packets. -/
def sent (maxPayloadLength : Nat) (packets : List Packet) : Option (List Bytes) :=
  packets.mapM (messageWrite maxPayloadLength)

theorem sent_eq {maxPayloadLength : Nat} {packets : List Packet} (h : ∀ p ∈ packets, p.Fits maxPayloadLength) :
    sent maxPayloadLength packets = some (packets.map fun p => wire p.call) := by
  unfold sent
  induction packets with
  | nil => rfl
  | cons p ps ih =>
    rw [List.mapM_cons, messageWrite_eq (h p List.mem_cons_self), ih fun q hq => h q (List.mem_cons_of_mem _ hq)]
    rfl

/-- `handler` calls `parse_message` for every packet in order, until a call raises, and
`recv_frame` gives back every frame. -/
theorem framing_lossless {σ : Type} (parseMessage : σ → Call → Except Raised σ) (self : σ)
    (maxPayloadLength : Nat) {packets : List Packet} (h : ∀ p ∈ packets, p.Fits maxPayloadLength) :
    ∃ frames, sent maxPayloadLength packets = some frames ∧
      ((handler parseMessage self frames.flatten).calls <+: packets.map Packet.call ∧
        ((handler parseMessage self frames.flatten).raised = none →
          (handler parseMessage self frames.flatten).calls = packets.map Packet.call) ∧
        (handler parseMessage self frames.flatten).leftOver = false ∧
        ∀ e, (handler parseMessage self frames.flatten).raised = some e →
          ∃ done c self', (handler parseMessage self frames.flatten).calls = done ++ [c] ∧
            done.foldlM parseMessage self = .ok self' ∧ parseMessage self' c = .error e) ∧
      ∀ maxPayloadLen, (∀ p ∈ packets, (p.payload.getD []).length ≤ maxPayloadLen) →
        ∃ received, received.1 = frames ∧
          times (recvFrame maxPayloadLen) packets.length frames.flatten = .ok (received, []) := by
  have hflat : (packets.map fun p => wire p.call).flatten = (packets.map Packet.call).flatMap wire := by
    rw [List.flatMap_def, List.map_map]
    rfl
  have hcalls : ∀ c ∈ packets.map Packet.call, c.2.1 = c.2.2.length := by
    intro c hc
    obtain ⟨p, -, rfl⟩ := List.mem_map.1 hc
    rfl
  refine ⟨_, sent_eq h, ?_, ?_⟩
  · rw [hflat, handler_wires parseMessage hcalls]
    exact ⟨callAll_calls _ _ _, fun h => callAll_none _ h, rfl, fun e h => callAll_some _ h⟩
  · intro maxPayloadLen hmax
    have hone : ∀ (_ : Unit) (p : Packet) (rest : Bytes), True → (p.payload.getD []).length ≤ maxPayloadLen →
        recvFrame maxPayloadLen (wire p.call ++ rest) = .ok (wire p.call, rest) :=
      fun _ p rest _ hp => recvFrame_wire hp rest
    have ht := times_encoded_map (f := recvFrame maxPayloadLen) (S := fun (_ : Unit) bs => bs) (N := fun a _ => a)
      (I := fun _ => True) (g := fun p => wire p.call) (fun _ _ h => h) hone hmax (a := ()) trivial []
    rw [List.append_nil] at ht
    rw [← List.flatMap_def]
    exact ⟨_, rfl, ht⟩

/-- Handlers that do nothing. -/
def idle : Handlers Unit where
  connect s _ := .ok s
  subscribe s _ := .ok s
  publish s _ := .ok s
  puback s _ := .ok s
  suback s _ := .ok s
  unsubscribe s _ := .ok s
  unsuback s _ := .ok s
  pingreq s _ := .ok s
  disconnect := .ok
  reserved s _ := .ok s

/-- A ping answer, and an accepted login. -/
def twoPackets : List Packet := [⟨13, 0, false, false, none⟩, ⟨2, 1, true, true, some [0, 0]⟩]

theorem framing_lossless_twoPackets : (∀ p ∈ twoPackets, p.Fits 268435455) ∧
    ∃ frames, sent 268435455 twoPackets = some frames ∧
      (handler (parseMessage idle) () frames.flatten).calls <+: twoPackets.map Packet.call := by
  have hfits : ∀ p ∈ twoPackets, p.Fits 268435455 := by
    intro p hp
    rcases List.mem_cons.1 hp with rfl | hp
    · exact ⟨by decide, by decide, by decide⟩
    · obtain rfl := List.mem_singleton.1 hp
      exact ⟨by decide, by decide, by decide⟩
  obtain ⟨frames, hsent, ⟨hcalls, -⟩, -⟩ := framing_lossless (parseMessage idle) () 268435455 hfits
  exact ⟨hfits, frames, hsent, hcalls⟩

/-- A ping answer that carries a byte raises, and the packet behind it is not looked at. -/
theorem framing_stops_at_pingresp :
    ∃ frames, sent 268435455 [⟨13, 0, false, false, some [0]⟩, ⟨14, 0, false, false, none⟩] = some frames ∧
      (handler (parseMessage idle) () frames.flatten).calls ≠
        [⟨13, 0, false, false, some [0]⟩, ⟨14, 0, false, false, none⟩].map Packet.call :=
  ⟨[[0xd0, 1, 0], [0xe0, 0]], by decide, by decide⟩

end NgxPlus.Mqtt.Framing
