/-
# SlateOS.Fs.Ext4.Io -- block I/O through the buffer cache

`kernel/src/fs/ext4/io.rs`: `BlockReader`. A block number names one block of the device; what a read
returns is the buffer cache's copy when there is one and the disk's otherwise, a write goes to the
cache, and the cache writes back when it likes. The device may refuse a block: a read then answers the
device's error, and a write answers it after the leading sectors the device took.
-/
import SlateOS.Kernel.Error
import Mathlib.Logic.Function.Basic

namespace SlateOS.Fs.Ext4

open Kernel

/-- `u8`. -/
abbrev Byte := BitVec 8

/-- `BlockReader`, with the buffer cache and the device behind it. -/
structure BlockReader where
  blockSize : Nat
  /-- The buffer cache's copies. -/
  cached : Nat → Option (List Byte)
  disk : Nat → List Byte
  refusesRead : Nat → Option KernelError
  /-- The error of a refused write, and how many bytes of the block the device took before it. -/
  refusesWrite : Nat → Option (KernelError × Nat)

namespace BlockReader

/-- What the block holds, as a read sees it. -/
def content (reader : BlockReader) (nr : Nat) : List Byte :=
  (reader.cached nr).getD (reader.disk nr)

/-- A new content for a block, in the cache. -/
def put (reader : BlockReader) (nr : Nat) (block : List Byte) : BlockReader :=
  { reader with cached := Function.update reader.cached nr (some block) }

/-- `read_block`. -/
def readBlock (reader : BlockReader) (nr : Nat) (buf : List Byte) : KernelResult (List Byte) :=
  if buf.length < reader.blockSize then .error .invalidArgument
  else
    match reader.refusesRead nr with
    | some e => .error e
    | none => .ok (reader.content nr ++ buf.drop reader.blockSize)

/-- `write_block`. -/
def writeBlock (reader : BlockReader) (nr : Nat) (buf : List Byte) :
    KernelResult Unit × BlockReader :=
  if buf.length < reader.blockSize then (.error .invalidArgument, reader)
  else
    match reader.refusesWrite nr with
    | some (e, taken) =>
      (.error e, reader.put nr (buf.take taken ++ (reader.content nr).drop taken))
    | none => (.ok (), reader.put nr (buf.take reader.blockSize))

/-- `invalidate_block`: the cache's copy is dropped, not written back. -/
def invalidateBlock (reader : BlockReader) (nr : Nat) : BlockReader :=
  { reader with cached := Function.update reader.cached nr none }

variable {reader : BlockReader} {nr nr' : Nat} {block buf : List Byte}

@[simp] theorem content_put : (reader.put nr block).content nr = block := by
  simp [content, put]

end BlockReader

end SlateOS.Fs.Ext4
