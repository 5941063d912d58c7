import Attune.TraceStream

namespace Attune.Trace

/-- An open file: its contents, and the position that all who share the descriptor share. -/
structure OpenFile where
  contents : List UInt8
  position : Nat
  deriving DecidableEq

abbrev Files := Nat → OpenFile

def pread (files : Files) (fd size offset : Nat) : List UInt8 :=
  ((files fd).contents.drop offset).take size

def le32 (bytes : List UInt8) : Nat :=
  (bytes.take 4).foldr (fun b n => b.toNat + 256 * n) 0

structure BlockHeader where
  compressedLength : Nat
  uncompressedLength : Nat
  deriving DecidableEq

def blockHeaderSize : Nat := 8

def BlockHeader.ofBytes (bytes : List UInt8) : BlockHeader := ⟨le32 bytes, le32 (bytes.drop 4)⟩

/-- What `save_state` keeps. The buffer is kept when the first refill after it comes. -/
structure SavedState where
  fdOffset : Nat
  bufferReadPos : Nat
  buffer : Option (List UInt8)
  deriving DecidableEq

structure CompressedReader where
  fd : Nat
  fdOffset : Nat
  error : Bool
  eof : Bool
  bufferReadPos : Nat
  buffer : List UInt8
  saved : Option SavedState
  deriving DecidableEq

/-- The decompressor: whether it succeeds, and what it leaves in a buffer of the given size. -/
abbrev Decompress := List UInt8 → Nat → Bool × List UInt8

namespace CompressedReader

def openFile (files : Files) (fd : Nat) (isOpen : Bool) : CompressedReader :=
  { fd, fdOffset := 0, error := !isOpen, eof := isOpen && pread files fd 1 0 == [],
    bufferReadPos := 0, buffer := [], saved := none }

def copy (other : CompressedReader) : CompressedReader := { other with saved := none }

variable (r : CompressedReader)

def atEnd : Bool := r.eof && r.bufferReadPos == r.buffer.length

def readAll (files : Files) (r : CompressedReader) (size : Nat) : Option (List UInt8) :=
  let bytes := pread files r.fd size r.fdOffset
  if bytes.length = size then some bytes else none

def keepBuffer : CompressedReader :=
  match r.saved with
  | some ⟨offset, pos, none⟩ => { r with saved := some ⟨offset, pos, some r.buffer⟩, buffer := [] }
  | _ => r

variable (decompress : Decompress)

def refillBuffer (files : Files) (r : CompressedReader) : Bool × CompressedReader :=
  let r := r.keepBuffer
  match r.readAll files blockHeaderSize with
  | none => (false, { r with error := true })
  | some bytes =>
    let header := BlockHeader.ofBytes bytes
    let r := { r with fdOffset := r.fdOffset + blockHeaderSize }
    match r.readAll files header.compressedLength with
    | none => (false, { r with error := true })
    | some compressed =>
      let r := { r with fdOffset := r.fdOffset + header.compressedLength }
      let r := if pread files r.fd 1 r.fdOffset = [] then { r with eof := true } else r
      let (ok, buffer) := decompress compressed header.uncompressedLength
      let r := { r with buffer, bufferReadPos := 0 }
      if ok then (true, r) else (false, { r with error := true })

def getBuffer (files : Files) (r : CompressedReader) : Option (List UInt8) × CompressedReader :=
  if r.error then (none, r)
  else if r.buffer.length ≤ r.bufferReadPos && !r.eof then
    let (ok, r) := r.refillBuffer decompress files
    (if ok then some (r.buffer.drop r.bufferReadPos) else none, r)
  else (some (r.buffer.drop r.bufferReadPos), r)

/-- The loop of `read`, or of `skip` without the data. Each refill reads a header, which bounds the
rounds. -/
def readLoop (decompress : Decompress) (files : Files) :
    Nat → Nat → List UInt8 → CompressedReader → (Bool × List UInt8) × CompressedReader
  | _, 0, data, r => ((true, data), r)
  | 0, _ + 1, data, r => ((false, data), r)
  | fuel + 1, size, data, r =>
    if r.error then ((false, data), r)
    else if r.bufferReadPos < r.buffer.length then
      let amount := min size (r.buffer.length - r.bufferReadPos)
      readLoop decompress files fuel (size - amount)
        (data ++ (r.buffer.drop r.bufferReadPos).take amount)
        { r with bufferReadPos := r.bufferReadPos + amount }
    else
      let (ok, r) := r.refillBuffer decompress files
      if ok then readLoop decompress files fuel size data r else ((false, data), r)

def read (files : Files) (r : CompressedReader) (size : Nat) :
    (Bool × List UInt8) × CompressedReader :=
  readLoop decompress files (2 * (files r.fd).contents.length + 4) size [] r

def skip (files : Files) (r : CompressedReader) (size : Nat) : Bool × CompressedReader :=
  let (result, r) := r.read decompress files size
  (result.1, r)

def rewind : CompressedReader :=
  { r with fdOffset := 0, bufferReadPos := 0, buffer := [], eof := false }

def saveState : CompressedReader :=
  { r with saved := some ⟨r.fdOffset, r.bufferReadPos, none⟩ }

def restoreState : CompressedReader :=
  match r.saved with
  | none => r
  | some s =>
    { r with
      saved := none
      eof := if s.fdOffset < r.fdOffset then false else r.eof
      fdOffset := s.fdOffset
      buffer := s.buffer.getD r.buffer
      bufferReadPos := s.bufferReadPos }

def discardState : CompressedReader := { r with saved := none }

/-- The loop of `uncompressed_bytes` over the headers. -/
def uncompressedLoop (files : Files) (fd : Nat) : Nat → Nat → Nat
  | 0, _ => 0
  | fuel + 1, offset =>
    let bytes := pread files fd blockHeaderSize offset
    if bytes.length = blockHeaderSize then
      let header := BlockHeader.ofBytes bytes
      header.uncompressedLength +
        uncompressedLoop files fd fuel (offset + blockHeaderSize + header.compressedLength)
    else 0

def uncompressedBytes (files : Files) (r : CompressedReader) : Nat :=
  uncompressedLoop files r.fd ((files r.fd).contents.length + 1) 0

/-- `lseek` to the end moves the shared position. -/
def compressedBytes (files : Files) (r : CompressedReader) : Nat × Files :=
  let file := files r.fd
  (file.contents.length,
    fun i => if i = r.fd then { file with position := file.contents.length } else files i)

end CompressedReader

/-- How a message is unpacked: by buffers, skips and reads, up to the message or an exception. -/
inductive Unpack (α : Type) where
  | done (message : α)
  | exception
  | getBuffer (next : List UInt8 → Unpack α)
  | skip (size : Nat) (next : Unpack α)
  | read (size : Nat) (next : List UInt8 → Unpack α)

/-- A stream that fails throws, and nothing catches it. -/
def Unpack.run (decompress : Decompress) (files : Files) :
    Unpack α → CompressedReader → Option (α × CompressedReader)
  | .done message, r => some (message, r)
  | .exception, _ => none
  | .getBuffer next, r =>
    match r.getBuffer decompress files with
    | (some bytes, r) => run decompress files (next bytes) r
    | (none, _) => none
  | .skip size next, r =>
    match r.skip decompress files size with
    | (true, r) => run decompress files next r
    | (false, _) => none
  | .read size next, r =>
    match r.read decompress files size with
    | ((true, bytes), r) => run decompress files (next bytes) r
    | ((false, _), _) => none

end Attune.Trace
