import Mathlib

namespace Attune.Gdb

abbrev Bytes := List UInt8

def bytes (s : String) : Bytes := s.toList.map fun c => c.toNat.toUInt8

def interruptChar : UInt8 := 3

def dollar : UInt8 := 36

def hash : UInt8 := 35

inductive Event where
  | ack
  | packet (content : Bytes)
  | interrupt
  deriving DecidableEq

/-- The connection, with the chunks that the socket is going to deliver before the end of the
stream. -/
structure GdbConnection where
  inbuf : Bytes
  packetend : Nat
  noAck : Bool
  connectionAlive : Bool
  incoming : List Bytes
  exited : Bool
  log : List Event
  deriving DecidableEq

def startsPacket (b : UInt8) : Bool := b == dollar || b == interruptChar

def skipTo (inbuf : Bytes) : Bytes := inbuf.dropWhile fun b => !startsPacket b

section Strtol

def isSpace (b : UInt8) : Bool := b == 32 || (9 ≤ b && b ≤ 13)

def isHexDigit (b : UInt8) : Bool := (48 ≤ b && b ≤ 57) || (65 ≤ b && b ≤ 70) || (97 ≤ b && b ≤ 102)

/-- The bytes behind the digits of a number that is not the end of what can be read. -/
def afterDigits (s : Bytes) : Option Bytes :=
  match s.dropWhile isHexDigit with
  | [] => none
  | b :: rest => some (b :: rest)

/-- `*endptr` after `strtol` to the base 16; no result when it reads past the last byte. -/
def strtolEnd (s : Bytes) : Option Bytes :=
  match s.dropWhile isSpace with
  | [] => none
  | c :: rest =>
    match if c == 43 || c == 45 then rest else c :: rest with
    | [] => none
    | [d] => if isHexDigit d then none else some s
    | [d, x] =>
      if d == 48 && (x == 120 || x == 88) then none
      else if isHexDigit d then afterDigits [d, x] else some s
    | d :: x :: y :: rest =>
      if d == 48 && (x == 120 || x == 88) && isHexDigit y then afterDigits (y :: rest)
      else if isHexDigit d then afterDigits (d :: x :: y :: rest) else some s

/-- `parse_threadid` and the check that the text ends there; no result past the last byte. -/
def scanThreadid (s : Bytes) : Option Bool :=
  match s with
  | [] => none
  | c :: rest =>
    match strtolEnd (if c == 112 then rest else c :: rest) with
    | none => none
    | some [] => none
    | some (e :: rest) =>
      if e == 0 then some true
      else if e == 46 then
        match strtolEnd rest with
        | none => none
        | some [] => none
        | some (e :: _) => some (e == 0)
      else some false

end Strtol

namespace GdbConnection

def skipToPacketStart (c : GdbConnection) : GdbConnection := { c with inbuf := skipTo c.inbuf }

def awaitStart : List Bytes → GdbConnection → GdbConnection
  | chunks, c =>
    let c := c.skipToPacketStart
    if c.inbuf ≠ [] ∨ c.connectionAlive = false then c
    else
      match chunks with
      | [] => { c with connectionAlive := false }
      | chunk :: rest => awaitStart rest { c with inbuf := c.inbuf ++ chunk, incoming := rest }

/-- The second loop of `read_packet`: the bytes from `checkedlen` on are looked through for the end of
the packet. -/
def awaitEnd : List Bytes → Nat → GdbConnection → GdbConnection
  | chunks, checkedlen, c =>
    match (c.inbuf.drop checkedlen).idxOf? hash with
    | some i => { c with packetend := checkedlen + i }
    | none =>
      match chunks with
      | [] => { c with connectionAlive := false }
      | chunk :: rest =>
        awaitEnd rest c.inbuf.length { c with inbuf := c.inbuf ++ chunk, incoming := rest }

def readPacket (c : GdbConnection) : GdbConnection :=
  let c := awaitStart c.incoming c
  if c.connectionAlive = false then c
  else if c.inbuf.head? = some interruptChar then { c with packetend := 1 }
  else
    let c := awaitEnd c.incoming 0 c
    if c.connectionAlive = false then c
    else if c.noAck then c
    else { c with log := c.log ++ [.ack] }

/-- The packet `QStartNoAckMode`; what is after a colon or a null byte is no part of the name. -/
def startsNoAckMode : Bytes → Bool
  | request :: payload =>
    request == 81 && payload.takeWhile (fun b => b != 58 && b != 0) == bytes "StartNoAckMode"
  | [] => false

section
-- whether the handler of a packet ends the process
variable (exits : Bytes → Bool)

/-- `process_packet`. The handler of `H` steps over a first byte of the payload, also when there is
none; there is no result past the end of the buffer. -/
def processPacket (c : GdbConnection) : Option GdbConnection :=
  if c.inbuf.head? = some interruptChar then
    some { c with inbuf := c.inbuf.drop 1, log := c.log ++ [Event.interrupt] }
  else
    let content := (c.inbuf.take c.packetend).drop 1
    let rest := c.inbuf.drop (c.packetend + 1)
    let processed : GdbConnection :=
      { c with
        inbuf := rest
        noAck := c.noAck || startsNoAckMode content
        log := c.log ++ [Event.packet content] }
    if content = bytes "H" then
      (scanThreadid rest).map fun passed => { processed with exited := !passed }
    else some { processed with exited := exits content }

def getRequest (c : GdbConnection) : Option GdbConnection :=
  if c.exited then some c
  else
    let c := c.readPacket
    if c.connectionAlive = false then some c else c.processPacket exits

end

end GdbConnection

inductive Call where
  | sniff
  | request
  deriving DecidableEq

section
variable (exits : Bytes → Bool)

def call (c : GdbConnection) : Call → Option GdbConnection
  | .sniff => some (if c.exited then c else c.skipToPacketStart)
  | .request => c.getRequest exits

def run (calls : List Call) (c : GdbConnection) : Option GdbConnection := calls.foldlM (call exits) c

def start (chunks : List Bytes) : GdbConnection := ⟨[], 0, false, true, chunks, false, []⟩

/-- The chunks are a way of cutting the stream: a read gives at least one byte and at most as many as
its buffer holds. -/
def Delivered (stream : Bytes) (chunks : List Bytes) : Prop :=
  chunks.flatten = stream ∧ ∀ chunk ∈ chunks, chunk ≠ [] ∧ chunk.length ≤ 4096

/-- The connection has done the same however the stream was cut and whenever it was looked at. -/
def SameForEveryCut (stream : Bytes) : Prop :=
  ∀ n, ∃ log, ∀ chunks, Delivered stream chunks → ∀ calls : List Call, calls.count .request = n →
    (run exits calls (start chunks)).map GdbConnection.log = some log

end

end Attune.Gdb
