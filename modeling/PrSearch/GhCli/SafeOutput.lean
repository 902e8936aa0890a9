import PrSearch.Lib.TextDecoder

/-! # Output that is safe to show

What comes from the program is bytes, in chunks. Escape sequences and control characters are taken
out, the rest is decoded, and only so many bytes are kept. An escape sequence that is not complete at
the end of a chunk waits for the next one. Bytes that look like no text have no text.
-/
namespace PrSearch.GhCli

open Utf8

def ESC : UInt8 := 0x1b

def BEL : UInt8 := 0x07

/-! ### Escape sequences -/

/-- CSI: up to the final byte, or to a byte that breaks the sequence. -/
def csiLength (index : Nat) : List UInt8 → Option Nat
  | [] => none
  | byte :: rest =>
      if 0x40 ≤ byte ∧ byte ≤ 0x7e then some (index + 1)
      else if byte < 0x20 ∨ 0x3f < byte then some index
      else csiLength (index + 1) rest

/-- OSC, DCS, PM and APC: up to `BEL` or `ESC \`, or to another `ESC`. -/
def stringLength (index : Nat) : List UInt8 → Option Nat
  | [] => none
  | byte :: rest =>
      if byte = BEL then some (index + 1)
      else if byte = ESC then
        rest.head?.map fun next => if next = 0x5c then index + 2 else index
      else stringLength (index + 1) rest

/-- The others: intermediate bytes and a final one. -/
def otherLength (index : Nat) : List UInt8 → Option Nat
  | [] => none
  | byte :: rest =>
      if 0x20 ≤ byte ∧ byte ≤ 0x2f then otherLength (index + 1) rest
      else if 0x30 ≤ byte ∧ byte ≤ 0x7e then some (index + 1)
      else some index

/-- The length of the sequence at the beginning, which is an `ESC`, if it is complete. -/
def pendingEscapeLength : List UInt8 → Option Nat
  | [] => none
  | [_] => none
  | _ :: kind :: rest =>
      if kind = 0x5b then csiLength 2 rest
      else if kind = 0x5d ∨ kind = 0x50 ∨ kind = 0x5e ∨ kind = 0x5f then stringLength 2 rest
      else otherLength 1 (kind :: rest)

/-- Tab, newline and carriage return are left. -/
def isSpacing (byte : UInt8) : Bool := byte == 0x09 || byte == 0x0a || byte == 0x0d

def isControl (byte : UInt8) : Bool := byte < 0x20 && !isSpacing byte

/-- The bytes without the sequences, and the rest from one that is not complete. The first bytes still
belong to a sequence. -/
def stripFrom : Nat → List UInt8 → List UInt8 × List UInt8
  | _, [] => ([], [])
  | skip + 1, _ :: rest => stripFrom skip rest
  | 0, byte :: rest =>
      if byte = ESC then
        match pendingEscapeLength (byte :: rest) with
        | none => ([], byte :: rest)
        | some length => stripFrom (length - 1) rest
      else if isControl byte || byte == 0x7f then stripFrom 0 rest
      else
        let (clean, carry) := stripFrom 0 rest
        (byte :: clean, carry)

def stripEscapes (bytes : List UInt8) (final : Bool) : List UInt8 × List UInt8 :=
  let (clean, carry) := stripFrom 0 bytes
  (clean, if final then [] else carry)

/-- The control characters beyond ASCII -/
def isC1 (c : Char) : Bool := 0x80 ≤ c.toNat && c.toNat ≤ 0x9f

def stripC1 (text : List Char) : List Char := text.filter fun c => !isC1 c

def binaryWindow : Nat := 8192

/-- A NUL, or more than an eighth of control characters. -/
def looksBinary (bytes : List UInt8) : Bool :=
  let window := bytes.take binaryWindow
  !bytes.isEmpty && (window.contains 0 ||
    window.length < (window.filter fun byte => isControl byte && byte != ESC).length * 8)

/-! ### The stream -/

structure GhSafeText where
  text : List Char
  truncated : Bool
  binary : Bool
  bytesTotal : Nat
  bytesKept : Nat
  deriving DecidableEq

structure SafeOutputStream where
  maxBytes : Nat
  decoder : TextDecoder := {}
  kept : List (List UInt8) := []
  carry : List UInt8 := []
  bytesTotal : Nat := 0
  bytesKept : Nat := 0
  truncated : Bool := false
  binary : Bool := false
  text : List Char := []
  finished : Bool := false

namespace SafeOutputStream

/-- The text of a chunk; `none` where it is an error to push. -/
def push (stream : SafeOutputStream) (chunk : List UInt8) : Option (SafeOutputStream × List Char) :=
  if stream.finished then none
  else
    let counted := { stream with bytesTotal := stream.bytesTotal + chunk.length }
    let room := stream.maxBytes - stream.bytesKept
    if room = 0 then
      some ({ counted with truncated := stream.truncated || decide (0 < chunk.length) }, [])
    else
      let take := chunk.take room
      let kept := { counted with
        truncated := stream.truncated || decide (take.length < chunk.length)
        bytesKept := stream.bytesKept + take.length
        kept := stream.kept ++ [take] }
      if kept.binary || looksBinary kept.kept.flatten then some ({ kept with binary := true }, [])
      else
        let (clean, carry) := stripEscapes (stream.carry ++ take) false
        let (decoder, decoded) := stream.decoder.decode clean true
        let piece := stripC1 decoded
        some ({ kept with carry, decoder, text := stream.text ++ piece }, piece)

/-- What `finish` adds to the text -/
def flush (stream : SafeOutputStream) : List Char :=
  stripC1 (stream.decoder.decode (stripEscapes stream.carry true).1 false).2

def finish (stream : SafeOutputStream) : SafeOutputStream × GhSafeText :=
  let stream :=
    if stream.finished then stream
    else { stream with
      finished := true
      carry := []
      text := if stream.binary then stream.text else stream.text ++ stream.flush
      decoder := if stream.binary then stream.decoder
        else (stream.decoder.decode (stripEscapes stream.carry true).1 false).1 }
  (stream, {
    text := if stream.binary then [] else stream.text
    truncated := stream.truncated
    binary := stream.binary
    bytesTotal := stream.bytesTotal
    bytesKept := stream.bytesKept })

/-- One chunk after the other, with their texts -/
def pushAll (stream : SafeOutputStream) : List (List UInt8) → Option (SafeOutputStream × List (List Char))
  | [] => some (stream, [])
  | chunk :: chunks => do
      let (after, piece) ← stream.push chunk
      let (last, pieces) ← after.pushAll chunks
      some (last, piece :: pieces)

end SafeOutputStream

def sanitizeOutput (bytes : List UInt8) (maxBytes : Nat) : Option GhSafeText :=
  (SafeOutputStream.push { maxBytes } bytes).map fun pushed => pushed.1.finish.2

end PrSearch.GhCli
