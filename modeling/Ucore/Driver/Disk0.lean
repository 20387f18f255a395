/-
kern/fs/devs/dev_disk0.c, with the functions of kern/driver/ide.c,
kern/driver/ramdisk.c and kern/fs/iobuf.c it calls: blocks are moved between
a buffer and the disk through a buffer of the driver.

`none` is a failed assertion or a panic. Numbers of blocks and sectors are
`uint32_t`, and sums and products of them wrap.
-/
import Ucore.Sfs.Fs
import Mathlib.Algebra.Group.Int.Defs

namespace Ucore.Driver

open Sfs (Err)

-- ============================================================ memory

/-- `memcpy` of `n` bytes, those of `src` from `i` on, to `dst` from `start`
on. -/
def memcpy (dst : Nat → UInt8) (start : Nat) (src : Nat → UInt8) (i n : Nat) :
    Nat → UInt8 :=
  fun k => if start ≤ k ∧ k < start + n then src (i + (k - start)) else dst k

-- ========================================================== the disk

/-- `SECTSIZE`. -/
def sectsize : Nat := 512
/-- `MAX_NSECS`. -/
def maxNsecs : Nat := 128
/-- `MAX_DISK_NSECS`. -/
def maxDiskNsecs : Nat := 0x10000000

/-- The disk: `size` of its `struct ide_device`, an `unsigned int` that counts
sectors, and its bytes. -/
structure Disk where
  size : Nat
  size_lt : size < 2 ^ 32
  data : Nat → UInt8

/-- The number of sectors that `ramdisk_read` and `ramdisk_write` move. -/
def ramdiskNsecs (d : Disk) (secno nsecs : Nat) : Nat :=
  min nsecs ((d.size + 2 ^ 64 - secno) % 2 ^ 64)

/-- `ide_read_secs` to the start of a buffer. -/
def ideReadSecs (d : Disk) (secno : Nat) (dst : Nat → UInt8) (nsecs : Nat) :
    Option (Nat → UInt8) :=
  if nsecs ≤ maxNsecs ∧ secno < maxDiskNsecs ∧ secno + nsecs ≤ maxDiskNsecs then
    some (memcpy dst 0 d.data (secno * sectsize)
      (ramdiskNsecs d secno nsecs * sectsize))
  else none

/-- `ide_write_secs` from the start of a buffer. -/
def ideWriteSecs (d : Disk) (secno : Nat) (src : Nat → UInt8) (nsecs : Nat) :
    Option Disk :=
  if nsecs ≤ maxNsecs ∧ secno < maxDiskNsecs ∧ secno + nsecs ≤ maxDiskNsecs then
    some { d with
      data := memcpy d.data (secno * sectsize) src 0
        (ramdiskNsecs d secno nsecs * sectsize) }
  else none

-- ======================================================= the buffers

/-- `struct iobuf`: the bytes at the first `io_base`, by how much it was
advanced, `io_offset` and `io_resid`. -/
structure Iobuf where
  base : Nat → UInt8
  advance : Nat
  offset : Int
  resid : Nat

/-- `iobuf_init`. -/
def iobufInit (base : Nat → UInt8) (len : Nat) (offset : Int) : Iobuf where
  base := base
  advance := 0
  offset := offset
  resid := len

/-- The bytes that `iobuf_move` moves. -/
def iobufAlen (iob : Iobuf) (len : Nat) : Nat :=
  if len < iob.resid then len else iob.resid

/-- `iobuf_skip`. -/
def iobufSkip (iob : Iobuf) (n : Nat) : Iobuf :=
  { iob with
    advance := iob.advance + n, offset := iob.offset + n
    resid := iob.resid - n }

/-- `iobuf_move` into the buffer, with what it stores at `copiedp`. -/
def iobufMoveIn (iob : Iobuf) (data : Nat → UInt8) (len : Nat) : Nat × Iobuf :=
  let alen := iobufAlen iob len
  (alen, iobufSkip { iob with base := memcpy iob.base iob.advance data 0 alen }
    alen)

/-- `iobuf_move` out of the buffer, with what it stores at `copiedp` and the
memory it moves to. -/
def iobufMoveOut (iob : Iobuf) (data : Nat → UInt8) (len : Nat) :
    Nat × Iobuf × (Nat → UInt8) :=
  let alen := iobufAlen iob len
  (alen, iobufSkip iob alen, memcpy data 0 iob.base iob.advance alen)

-- ========================================================== disk0_io

/-- `DISK0_BLKSIZE`. -/
def disk0Blksize : Nat := 4096
/-- `DISK0_BUFSIZE`. -/
def disk0Bufsize : Nat := 4 * disk0Blksize
/-- `DISK0_BLK_NSECT`. -/
def disk0BlkNsect : Nat := disk0Blksize / sectsize

/-- `d_blocks`, as `disk0_device_init` sets it. -/
def Disk.dBlocks (d : Disk) : Nat := d.size / disk0BlkNsect

/-- `uint32_t`. -/
def uint32 (n : Nat) : Nat := n % 2 ^ 32

/-- `disk0_read_blks_nolock`, with the contents of `disk0_buffer`. -/
def disk0ReadBlksNolock (d : Disk) (buffer : Nat → UInt8) (blkno nblks : Nat) :
    Option (Nat → UInt8) :=
  ideReadSecs d (uint32 (blkno * disk0BlkNsect)) buffer
    (uint32 (nblks * disk0BlkNsect))

/-- `disk0_write_blks_nolock`. -/
def disk0WriteBlksNolock (d : Disk) (buffer : Nat → UInt8) (blkno nblks : Nat) :
    Option Disk :=
  ideWriteSecs d (uint32 (blkno * disk0BlkNsect)) buffer
    (uint32 (nblks * disk0BlkNsect))

/-- What `disk0_io` changes: the disk, `disk0_buffer` and the buffer of the
caller. -/
structure Transfer where
  disk : Disk
  buffer : Nat → UInt8
  iob : Iobuf

/-- The loop of `disk0_io`, if it ends within the rounds. -/
def disk0IoLoop (write : Bool) :
    (rounds : Nat) → (blkno resid : Nat) → Transfer → Option Transfer
  | 0, _, resid, t => if resid = 0 then some t else none
  | rounds + 1, blkno, resid, t =>
      if resid ≠ 0 then
        if write then do
          let (copied, iob, buffer) := iobufMoveOut t.iob t.buffer disk0Bufsize
          if copied ≠ 0 ∧ copied ≤ resid ∧ copied % disk0Blksize = 0 then
            let nblks := uint32 (copied / disk0Blksize)
            let disk ← disk0WriteBlksNolock t.disk buffer blkno nblks
            disk0IoLoop write rounds (uint32 (blkno + nblks)) (resid - copied)
              { disk, buffer, iob }
          else none
        else do
          let alen := if resid < disk0Bufsize then resid else disk0Bufsize
          let nblks := uint32 (alen / disk0Blksize)
          let buffer ← disk0ReadBlksNolock t.disk t.buffer blkno nblks
          let (copied, iob) := iobufMoveIn t.iob buffer alen
          if copied = alen ∧ copied % disk0Blksize = 0 then
            disk0IoLoop write rounds (uint32 (blkno + nblks)) (resid - copied)
              { t with buffer, iob }
          else none
      else some t

/-- `disk0_io`. A round moves a block at least. -/
def disk0Io (t : Transfer) (write : Bool) :
    Option (Except Err Unit × Transfer) :=
  let offset := t.iob.offset
  let resid := t.iob.resid
  let blkno := (offset.tdiv disk0Blksize % 2 ^ 32).toNat
  let nblks := uint32 (resid / disk0Blksize)
  if offset % disk0Blksize ≠ 0 ∨ resid % disk0Blksize ≠ 0 then
    some (.error .inval, t)
  else if t.disk.dBlocks < uint32 (blkno + nblks) then some (.error .inval, t)
  else if nblks = 0 then some (.ok (), t)
  else
    (disk0IoLoop write (resid / disk0Blksize) blkno resid t).map fun t =>
      (.ok (), t)

end Ucore.Driver
