import Choreolog.Protocol.Codec

/-! # Frames on the wire

`cpp-runtime/src/protocol/frame.cpp`: a header of twenty bytes, the payload, and a checksum over both. The type of a
frame is read as whatever number stands there, so a frame on the wire holds the number and not a `MessageType`. -/

namespace Choreolog.Protocol
open Lib State

/-- `kFrameMagic`, the bytes of `CHOS` -/
def frameMagic : List UInt8 := [67, 72, 79, 83]

def protocolMajor : UInt8 := 1

def protocolMinor : UInt8 := 0

/-- `kFrameHeaderBytes` -/
def frameHeaderBytes : Nat := 20

@[ext] structure WireFrame where
  type : UInt16
  correlation : UInt64
  payload : List UInt8
  deriving DecidableEq

structure FrameHeader where
  type : UInt16
  correlation : UInt64
  payloadLength : Nat
  deriving DecidableEq

def readU (width offset : Nat) (data : List UInt8) : Nat := Bytes.toNat (Bytes.slice offset width data)

def headerFrom (data : List UInt8) : Result FrameHeader :=
  if Bytes.slice 0 4 data ≠ frameMagic then .error ⟨.protocolError, "frame magic is invalid"⟩
  else if Bytes.slice 4 1 data ≠ [protocolMajor] then .error ⟨.protocolError, "protocol major version is unsupported"⟩
  else if maxFramePayload < readU 4 16 data then .error ⟨.protocolError, "frame payload exceeds 1 MiB"⟩
  else .ok
    { type := UInt16.ofNat (readU 2 6 data), correlation := UInt64.ofNat (readU 8 8 data), payloadLength := readU 4 16 data }

/-- The header and payload of a frame. -/
def frameBody (minor : UInt8) (frame : WireFrame) : List UInt8 :=
  frameMagic ++ [protocolMajor] ++ [minor] ++ Bytes.ofNat 2 frame.type.toNat ++ Bytes.ofNat 8 frame.correlation.toNat ++
    Bytes.ofNat 4 frame.payload.length ++ frame.payload

def frameBytes (minor : UInt8) (frame : WireFrame) : List UInt8 :=
  frameBody minor frame ++ Bytes.ofNat 4 (Bytes.crc32 (frameBody minor frame)).toNat

def encodeFrame (frame : WireFrame) : Result (List UInt8) :=
  if maxFramePayload < frame.payload.length then .error ⟨.protocolError, "frame payload exceeds 1 MiB"⟩
  else .ok (frameBytes protocolMinor frame)

def decodeFrame (data : List UInt8) : Result WireFrame := do
  if data.length < frameHeaderBytes + 4 then .error ⟨.protocolError, "frame is incomplete"⟩
  let header ← headerFrom data
  let total := frameHeaderBytes + header.payloadLength + 4
  if data.length < total then .error ⟨.protocolError, "frame is incomplete"⟩
  if data.length ≠ total then .error ⟨.protocolError, "frame length does not match its header"⟩
  if (Bytes.crc32 (data.take (total - 4))).toNat ≠ readU 4 (total - 4) data then
    .error ⟨.protocolError, "frame checksum mismatch"⟩
  return { type := header.type, correlation := header.correlation, payload := Bytes.slice frameHeaderBytes header.payloadLength data }

end Choreolog.Protocol
