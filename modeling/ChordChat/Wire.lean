import ChordChat.Network

/-!
# Frames (RemoteNode.cpp, LocalNode::handleRequest)

A request is a byte with the length of the rest, the code and the payload; a
response is a byte with its length and the response. The length byte is a `char`
on both sides. Reads are those of `handleRequest` and `sendMessage`, with the
peer's bytes followed by the end of its stream.
-/

namespace ChordChat

inductive RPCCode where
  | findPredecessor
  | findSuccessor
  | closestPrecedingFinger
  | join
  | stabilize
  | notify
  | fixFinger
  | getPredecessor
  | setPredecessor
  | getSuccessor
  | setSuccessor
  | getId
  | receive
  | ping
  deriving DecidableEq

namespace RPCCode

def all : List RPCCode :=
  [findPredecessor, findSuccessor, closestPrecedingFinger, join, stabilize, notify, fixFinger,
    getPredecessor, setPredecessor, getSuccessor, setSuccessor, getId, receive, ping]

def value (code : RPCCode) : ℕ := all.idxOf code

/-- `(RPCCode)c`; `none` goes to the default label of the switch. -/
def ofChar (c : Byte) : Option RPCCode := all.find? fun code => charVal c = code.value

theorem ofChar_value (code : RPCCode) : ofChar (toChar code.value) = some code := by
  cases code <;> decide

end RPCCode

/-- A length byte and as many bytes as `asio::buffer(array, (int)header)` takes;
`none` is the end of the stream. -/
def readFrame (stream : Bytes) : Option Bytes :=
  match asioRead stream 1 with
  | none => none
  | some (header, rest) =>
    (asioRead rest (bufferSize (charVal (header.headD 0)))).map Prod.fst

theorem readFrame_cons (header : Byte) (rest : Bytes) :
    readFrame (header :: rest) =
      if bufferSize (charVal header) ≤ rest.length then some (rest.take (bufferSize (charVal header)))
      else none := by
  have h1 : asioRead (header :: rest) 1 = some ([header], rest) := asioRead_append [header] rest
  rw [readFrame, h1]
  change (asioRead rest (bufferSize (charVal header))).map Prod.fst = _
  unfold asioRead
  split <;> rfl

theorem readFrame_length {stream bytes : Bytes} (h : readFrame stream = some bytes) :
    bytes.length ≤ MAX_DATA_LENGTH := by
  unfold readFrame at h
  split at h
  · cases h
  next header rest _ =>
    obtain ⟨⟨_, _⟩, hread, rfl⟩ := Option.map_eq_some_iff.mp h
    rw [(asioRead_eq_some.mp hread).2]
    exact Nat.min_le_left _ _

theorem readFrame_toChar {bytes : Bytes} (h : bytes.length ≤ 127) :
    readFrame (toChar bytes.length :: bytes) = some bytes := by
  have hc : charVal (toChar bytes.length) = bytes.length := charVal_toChar_of_le h
  have hs : bufferSize (charVal (toChar bytes.length)) = bytes.length := by
    rw [bufferSize_charVal, hc, if_neg (by omega), Int.toNat_natCast]
  rw [readFrame_cons, hs, if_pos (Nat.le_refl _), List.take_length]

theorem readFrame_toChar_length {bytes read : Bytes} (h : 127 < bytes.length)
    (hr : readFrame (toChar bytes.length :: bytes) = some read) : read.length < bytes.length := by
  have hb := charVal_toChar bytes.length
  rw [readFrame_cons] at hr
  split at hr
  next hle =>
    rw [← Option.some.inj hr, List.length_take, Nat.min_eq_left hle]
    rw [bufferSize_charVal] at hle ⊢
    by_cases hneg : charVal (toChar bytes.length) < 0
    · rw [if_pos hneg, MAX_DATA_LENGTH] at *
      split at hb <;> omega
    · rw [if_neg hneg] at *
      split at hb <;> omega
  · cases hr

/-! ### Requests -/

def createMessage (code : RPCCode) (payLoad : Bytes) : Bytes :=
  toChar (1 + payLoad.length) :: toChar code.value :: payLoad

/-- What `handleRequest` has read: the array `message` and the number of bytes
read into it. -/
structure Request where
  message : Bytes
  length : ℕ

def readRequest (stream : Bytes) : Option Request :=
  (readFrame stream).map fun bytes =>
    ⟨bytes ++ List.replicate (MAX_DATA_LENGTH - bytes.length) 0, bytes.length⟩

namespace Request

def code (request : Request) : Option RPCCode := RPCCode.ofChar (request.message.headD 0)

def memory (request : Request) : Bytes := request.message.drop 1

/-- `std::string(message + offset, length - offset)`. -/
def payload (request : Request) : Bytes := request.memory.take (request.length - 1)

end Request

/-- The peer has recovered the code and the payload of the message. -/
def Recovers (code : RPCCode) (payLoad : Bytes) : Prop :=
  ∃ request, readRequest (createMessage code payLoad) = some request ∧
    request.code = some code ∧ request.payload = payLoad

theorem createMessage_eq (code : RPCCode) (payLoad : Bytes) :
    createMessage code payLoad =
      toChar (toChar code.value :: payLoad).length :: toChar code.value :: payLoad := by
  rw [createMessage, List.length_cons, Nat.add_comm]

theorem readRequest_createMessage {code : RPCCode} {payLoad : Bytes} (h : payLoad.length ≤ 126) :
    readRequest (createMessage code payLoad) =
      some ⟨toChar code.value :: payLoad ++ List.replicate (1023 - payLoad.length) 0,
        payLoad.length + 1⟩ := by
  have hlen : (toChar code.value :: payLoad).length ≤ 127 := by
    rw [List.length_cons]
    omega
  rw [createMessage_eq, readRequest, readFrame_toChar hlen, Option.map_some, List.length_cons]
  congr 4
  simp only [MAX_DATA_LENGTH]
  omega

theorem readRequest_eq_some {stream : Bytes} {request : Request}
    (h : readRequest stream = some request) :
    ∃ bytes, readFrame stream = some bytes ∧ request.length = bytes.length ∧
      bytes.length ≤ MAX_DATA_LENGTH ∧
      request.message = bytes ++ List.replicate (MAX_DATA_LENGTH - bytes.length) 0 := by
  obtain ⟨bytes, hb, rfl⟩ := Option.map_eq_some_iff.mp h
  exact ⟨bytes, hb, rfl, readFrame_length hb, rfl⟩

theorem recovers_of_le {code : RPCCode} {payLoad : Bytes} (h : payLoad.length ≤ 126) :
    Recovers code payLoad := by
  refine ⟨_, readRequest_createMessage h, RPCCode.ofChar_value code, ?_⟩
  simp only [Request.payload, Request.memory, List.cons_append, List.drop_succ_cons, List.drop_zero,
    Nat.add_sub_cancel, List.take_left]

theorem payload_ne_of_lt {code : RPCCode} {payLoad : Bytes} (h : 126 < payLoad.length)
    {request : Request} (hr : readRequest (createMessage code payLoad) = some request) :
    request.payload ≠ payLoad := by
  intro hp
  obtain ⟨bytes, hb, hlen, hle, hm⟩ := readRequest_eq_some hr
  rw [createMessage_eq] at hb
  have hlt := readFrame_toChar_length (by rw [List.length_cons]; omega) hb
  rw [List.length_cons] at hlt
  have hp := congrArg List.length hp
  simp only [Request.payload, Request.memory, hlen, List.length_take] at hp
  omega

theorem recovers_iff (code : RPCCode) (payLoad : Bytes) :
    Recovers code payLoad ↔ payLoad.length ≤ 126 := by
  refine ⟨fun ⟨request, hr, _, hp⟩ => ?_, recovers_of_le⟩
  by_contra h
  exact payload_ne_of_lt (by omega) hr hp

/-! ### Responses -/

/-- The last lines of `handleRequest`: the bytes written to the socket. -/
def writeResponse (response : Bytes) : Bytes :=
  let responseLength := toChar response.length
  if charVal responseLength > 0 then responseLength :: response else []

/-- `sendMessage` with a response expected; the end of the stream throws. -/
def readReply (stream : Bytes) : Bytes := (readFrame stream).getD []

theorem readReply_writeResponse {response : Bytes} (h : response.length ≤ 127) :
    readReply (writeResponse response) = response := by
  have hc : charVal (toChar response.length) = response.length := charVal_toChar_of_le h
  simp only [writeResponse]
  split
  next => rw [readReply, readFrame_toChar h, Option.getD_some]
  next hpos =>
    rw [hc] at hpos
    rw [List.length_eq_zero_iff.mp (show response.length = 0 by omega)]
    rfl

theorem readReply_length (response : Bytes) :
    (readReply (writeResponse response)).length ≤ 127 := by
  have hb := charVal_bounds (toChar response.length)
  simp only [writeResponse]
  split
  next hpos =>
    rw [readReply, readFrame_cons]
    split
    next =>
      rw [Option.getD_some, List.length_take, bufferSize_charVal, if_neg (by omega)]
      omega
    next => exact Nat.zero_le _
  next => exact Nat.zero_le _

theorem readReply_eq_iff (response : Bytes) :
    readReply (writeResponse response) = response ↔ response.length ≤ 127 := by
  refine ⟨fun h => ?_, readReply_writeResponse⟩
  rw [← h]
  exact readReply_length response

/-! ### Both directions -/

/-- A frame is lossless up to 126 bytes of payload, and 127 bytes of response. -/
theorem framing_lossless_iff (code : RPCCode) (payLoad response : Bytes) :
    (Recovers code payLoad ↔ payLoad.length ≤ 126) ∧
      (readReply (writeResponse response) = response ↔ response.length ≤ 127) :=
  ⟨recovers_iff code payLoad, readReply_eq_iff response⟩

theorem framing_loses_chat_message :
    ¬ ((∀ code payLoad, Recovers code payLoad) ∧
      ∀ response, response ≠ [] → readReply (writeResponse response) = response) := by
  intro h
  have hle := (recovers_iff .receive (List.replicate 127 97)).mp (h.1 _ _)
  rw [List.length_replicate] at hle
  omega

/-! ### Records in replies -/

/-- What the stubs return for a reply: `RemoteNode(reply.c_str(), reply.length())`,
which may read the terminating NUL, or NULL. -/
def ofReply (reply : Bytes) : Except Fault (Option INode) :=
  if reply = [] then .ok none else (INode.ofSerial (reply ++ [0])).map some

/-- A record as the response of one node and the result of the other's stub. -/
def wire : Transport := fun r => ofReply (readReply (writeResponse r.serialize))

def INode.Fits (r : INode) : Prop := r.serialize.length ≤ 127

theorem INode.fits_of_le {r : INode} (h : r.name.length + r.host.length ≤ 114) : r.Fits := by
  have hlen := r.serialize_length
  have hdec := decimal_length_le r.port
  unfold INode.Fits
  omega

theorem INode.serialize_ne_nil (r : INode) : r.serialize ≠ [] := List.cons_ne_nil _ _

theorem ofReply_serialize {r : INode} (hn : r.name.length ≤ 127) (hh : r.host.length ≤ 127) :
    ofReply r.serialize = .ok (some r) := by
  rw [ofReply, if_neg r.serialize_ne_nil, r.ofSerial_serialize [0] hn hh]
  rfl

theorem wire_of_fits {r : INode} (h : r.Fits) : wire r = .ok (some r) := by
  have hlen := r.serialize_length
  unfold INode.Fits at h
  rw [wire, readReply_writeResponse h]
  exact ofReply_serialize (by omega) (by omega)

theorem wire_eq_some_iff (r : INode) : wire r = .ok (some r) ↔ r.Fits := by
  refine ⟨fun h => ?_, wire_of_fits⟩
  by_contra hfit
  have hlen := r.serialize_length
  have hdec := decimal_length_le r.port
  have hrep := readReply_length r.serialize
  have hne : readReply (writeResponse r.serialize) ≠ [] := by
    intro he
    rw [wire, he] at h
    cases h
  -- only from 257 bytes on a length byte announces a part of the response
  have hlong : 257 ≤ r.serialize.length := by
    by_contra hlt
    unfold INode.Fits at hfit
    have hc := charVal_toChar r.serialize.length
    refine hne ?_
    rw [writeResponse, if_neg]
    · rfl
    · split at hc <;> omega
  rw [wire, ofReply, if_neg hne] at h
  cases hof : INode.ofSerial (readReply (writeResponse r.serialize) ++ [0]) with
  | error e =>
    rw [hof] at h
    cases h
  | ok s =>
    rw [hof] at h
    obtain rfl : s = r := Option.some.inj (Except.ok.inj h)
    have hb := INode.ofSerial_bounds hof
    rw [List.length_append, List.length_singleton] at hb
    omega

end ChordChat
