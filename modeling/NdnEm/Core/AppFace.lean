import NdnEm.Core.Emulator
import NdnEm.Lib.Framing

/-!
# Application faces

The other end of a client's stream socket. What comes in is collected in a
buffer the size of the largest packet, blocks are cut off its front and
dispatched, and the part of a block that is left is moved to the front. What
goes out is handed to the socket, one `async_send` a packet, by its address.

`Block::fromBuffer` belongs to ndn-cxx and the socket to the system. Of the
first it is assumed that it finds a block exactly when the bytes start with a
complete one. The second decides how many bytes a receive or a send moves.
-/

namespace NdnEm

open Lib

/-- The part of ndn-cxx that cuts blocks off a stream. -/
structure NdnBlock where
  /-- `MAX_NDN_PACKET_SIZE`. -/
  maxNdnPacketSize : Nat
  max_pos : 0 < maxNdnPacketSize
  /-- The complete TLV blocks, and `Block::fromBuffer`. -/
  tlv : PrefixCode UInt8

/-- What a face calls: `Dispatch`, with the bytes of a block, and the
`RemoveFace` of its node. -/
structure Upcalls (σ : Type) where
  dispatch : σ → List UInt8 → Except Fault σ
  removeFace : σ → Except Fault σ

/-- The receive side of an `AppFace`. -/
structure AppFace (lib : NdnBlock) where
  inputBuffer : List UInt8
  inputBufferSize : Nat
  length_eq : inputBuffer.length = lib.maxNdnPacketSize
  size_le : inputBufferSize ≤ lib.maxNdnPacketSize

namespace AppFace

variable {lib : NdnBlock} {σ : Type}

/-- A new face; nothing is said of the bytes of its buffer. -/
def new (inputBuffer : List UInt8) (h : inputBuffer.length = lib.maxNdnPacketSize) :
    AppFace lib :=
  ⟨inputBuffer, 0, h, Nat.zero_le _⟩

/-- The bytes the face holds. -/
def held (f : AppFace lib) : List UInt8 := f.inputBuffer.take f.inputBufferSize

/-- The space offered to `async_receive`. -/
def free (f : AppFace lib) : Nat := lib.maxNdnPacketSize - f.inputBufferSize

/-- The socket writes behind the bytes held, and `HandleReceive` counts what
was written. -/
def append (f : AppFace lib) (bytes : List UInt8) (h : bytes.length ≤ f.free) : AppFace lib where
  inputBuffer := f.inputBuffer.take f.inputBufferSize ++ bytes ++
    f.inputBuffer.drop (f.inputBufferSize + bytes.length)
  inputBufferSize := f.inputBufferSize + bytes.length
  length_eq := by
    have hlen := f.length_eq
    have hle := f.size_le
    unfold free at h
    simp only [List.length_append, List.length_take, List.length_drop]
    omega
  size_le := by
    have hle := f.size_le
    unfold free at h
    omega

/-- The loop of `HandleReceive`, from an offset on: the offset at its end, and
whether the last call of `fromBuffer` found a block. Each block is at least a
byte long, so `fuel` bytes are enough. -/
def parse (calls : Upcalls σ) (f : AppFace lib) : Nat → Nat → σ → Except Fault (Nat × Bool × σ)
  | fuel, offset, s =>
      if f.inputBufferSize - offset = 0 then .ok (offset, true, s)
      else
        match fuel with
        | 0 => .error (.undefined "the loop does not end")
        | fuel + 1 =>
            match lib.tlv.first (f.held.drop offset) with
            | none => .ok (offset, false, s)
            | some element =>
                match calls.dispatch s element with
                | .error e => .error e
                | .ok s => parse calls f fuel (offset + element.length) s

/-- The bytes from `offset` on, moved to the front of the buffer. -/
def moveToFront (f : AppFace lib) (offset : Nat) : AppFace lib where
  inputBuffer := f.held.drop offset ++ f.inputBuffer.drop (f.held.drop offset).length
  inputBufferSize := f.inputBufferSize - offset
  length_eq := by
    have hlen := f.length_eq
    have hle := f.size_le
    simp only [held, List.length_append, List.length_drop, List.length_take]
    omega
  size_le := by
    have hle := f.size_le
    omega

/-- Drop the bytes before `offset`, which were dispatched. -/
def discard (f : AppFace lib) (offset : Nat) : AppFace lib :=
  if offset = 0 then f
  else if offset ≠ f.inputBufferSize then f.moveToFront offset
  else { f with inputBufferSize := 0, size_le := Nat.zero_le _ }

/-- `HandleReceive`: the face that waits for more, or none when the connection
failed. -/
def handleReceive (calls : Upcalls σ) (f : AppFace lib) (s : σ) :
    Option (List UInt8) → Except Fault (Option (AppFace lib) × σ)
  | some bytes =>
      if h : bytes.length ≤ f.free then
        let f := f.append bytes h
        match f.parse calls f.inputBufferSize 0 s with
        | .error e => .error e
        | .ok (offset, isOk, s) =>
            if isOk = false ∧ f.inputBufferSize = lib.maxNdnPacketSize ∧ offset = 0 then
              .error (.runtimeError "Incoming packet too large to process")
            else .ok (some (f.discard offset), s)
      else .error (.undefined "write past m_inputBuffer")
  | none => (calls.removeFace s).map fun s => (none, s)

/-- The face and its node, with the socket deciding what each receive brings:
some bytes, at most as many as it was offered, or an error. -/
def system (lib : NdnBlock) (calls : Upcalls σ) :
    System (Option (AppFace lib) × σ) (Option (List UInt8)) Unit Fault where
  Enabled st e := ∃ f ∈ st.1, ∀ bytes ∈ e, bytes.length ≤ f.free
  step st e :=
    match st.1 with
    | none => .error (.undefined "no outstanding receive")
    | some f => (f.handleReceive calls st.2 e).map fun st => (st, ())

end AppFace

/-! ## Sending

`async_send` is given a pointer into the packet and keeps no reference to it.
The bytes stay there as long as somebody owns them: the handler that calls
`Send`, until it returns, a device that has the packet in its queue, the table
or the store that has the Interest or the Data. The socket reads them when it
gets to the send. -/

/-- The wire encodings: `GetBytes` and `GetLength`. -/
structure WireFormat where
  bytes : Wire → List UInt8
  length_bytes : ∀ w, (bytes w).length = w.size

/-- The send side of a socket: the packets given to `async_send` that are not
completed, in call order, the packets whose bytes nobody owns any more, and
everything the application was written. Nothing is known of a byte that was
read from freed memory. -/
structure SendSide where
  sending : List Packet
  released : List Packet
  written : List (Option UInt8)

/-- How a send ends: with the number of bytes that were written, or with an
error and none. -/
abbrev SendResult := Option Nat

inductive SendEvent
  | send (pkt : Packet)
  /-- The last owner of the packet's bytes lets go of them. -/
  | release (pkt : Packet)
  /-- The socket takes what it writes of the send that was called first. -/
  | sent (result : SendResult)

namespace SendSide

variable (fmt : WireFormat)

def empty : SendSide := ⟨[], [], []⟩

/-- `AppFace::Send`. -/
def send (o : SendSide) (pkt : Packet) : SendSide := { o with sending := o.sending ++ [pkt] }

def release (o : SendSide) (pkt : Packet) : SendSide := { o with released := pkt :: o.released }

/-- What `data` points to: `length` bytes, of the packet or of freed memory. -/
def buffer (o : SendSide) (pkt : Packet) : List (Option UInt8) :=
  if pkt ∈ o.released then List.replicate pkt.getLength none
  else ((fmt.bytes pkt.wire).take pkt.getLength).map some

/-- `AppFace::HandleSend` logs an error and does nothing else: how much was
written is not looked at. -/
def handleSend (o : SendSide) (_result : SendResult) : SendSide := o

/-- The socket completes the send that was called first, and calls back. -/
def sent (o : SendSide) (result : SendResult) : Except Fault (SendSide × Packet) :=
  match o.sending with
  | [] => .error (.undefined "no outstanding send")
  | pkt :: rest =>
      let o' : SendSide :=
        { o with
          sending := rest
          written := o.written ++ (o.buffer fmt pkt).take (result.getD 0) }
      .ok (o'.handleSend result, pkt)

/-- The face and its socket: a handler sends a packet that it holds, and a send
that succeeds writes at least a byte and at most the packet. A completed send
shows its packet and its result. -/
def system : System SendSide SendEvent (Option (Packet × SendResult)) Fault where
  Enabled o
    | .send pkt => pkt ∉ o.released
    | .release _ => True
    | .sent result => ∃ pkt ∈ o.sending.head?, ∀ n ∈ result, 1 ≤ n ∧ n ≤ pkt.getLength
  step o
    | .send pkt => .ok (o.send pkt, none)
    | .release pkt => .ok (o.release pkt, none)
    | .sent result => (o.sent fmt result).map fun r => (r.1, some (r.2, result))

end SendSide

/-! ## The network -/

/-- The network behind a face of a node. Each block that is dispatched brings
its own clock readings and backoff draws, numbered by `choice`. -/
def Emulator.upcalls (mode : Rearm) (lib : NdnCxx) (decode : List UInt8 → Block)
    (choice : Nat → Clock × (Int → Nat)) (node : String) (face : Int) :
    Upcalls (Emulator × Nat) where
  dispatch st element :=
    let (clk, raw) := choice st.2
    (st.1.dispatch mode lib node face clk raw (decode element)).map fun r => (r.1, st.2 + 1)
  removeFace st := (st.1.step mode lib (.appClose node face)).map fun r => (r.1, st.2)

end NdnEm
