import IscsiFuse.Library.Machine
import IscsiFuse.Block.Dirty
set_option autoImplicit false

/-!
The block device worker as a machine. The worker serves one request at a time;
its steps interleave with readahead tasks, cache evictions, and the SCSI WRITE
commands of a flush, which the target may serve in any order. A step that
would panic is not enabled.
-/

namespace IscsiFuse.Block
open IscsiFuse.Iscsi

structure Device where
  pipeline : Pipeline
  totalBytes : Nat
  coalesceMaxBytes : Nat
  raMaxKb : Nat
  deriving DecidableEq, Repr

def Device.blockSize (v : Device) : Nat := v.pipeline.blockSize

/-- Number of blocks in one 64 KB chunk; zero for blocks larger than a chunk. -/
def Device.chunkBlocks (v : Device) : Nat := 64*1024/v.blockSize%2^32

def Device.chunkBytes (v : Device) : Nat := v.chunkBlocks*v.blockSize

def Device.raMinBlocks (_ : Device) : Nat := 8

def Device.raMaxBlocks (v : Device) : Nat := v.raMaxKb*1024/v.blockSize%2^32

def Device.chunkLba (v : Device) (lba : Nat) : Option Nat :=
  if v.chunkBlocks = 0 then none else some (lba/v.chunkBlocks*v.chunkBlocks)

inductive IoError where
  | scsiReadFailed | shortRead | rmwReadFailed | rmwOverflow
  | writeFailed | flushPanicked | syncFailed
  deriving DecidableEq, Repr

def IoError.message : IoError → String
  | .scsiReadFailed => "SCSI read failed"
  | .shortRead => "SCSI read returned less data than expected"
  | .rmwReadFailed => "SCSI read failed during read-modify-write"
  | .rmwOverflow => "SCSI read-modify-write buffer overflow"
  | .writeFailed => "SCSI write failed during flush"
  | .flushPanicked => "flush task panicked"
  | .syncFailed => "SYNCHRONIZE CACHE failed"

inductive Reply (α : Type) where
  | ok : α → Reply α
  | err : IoError → Reply α
  deriving DecidableEq, Repr

/-- What an observer of the worker and of the target sees, in order. -/
inductive Event where
  | received (offset : Nat) (data : Bytes)
  | readReply (offset size : Nat) (r : Reply Bytes)
  | writeReply (offset : Nat) (data : Bytes) (r : Reply Nat)
  | flushReply (r : Reply Unit)
  | accepted (w : Patch)
  | syncIssued
  | syncGood
  deriving DecidableEq, Repr

/-- The local variables of `handle_read` and `read_blocks`. -/
structure ReadCall where
  offset : Nat
  size : Nat
  startLba : Nat
  blockCount : Nat
  skip : Nat
  actualSize : Nat
  deriving DecidableEq, Repr

/-- The local variables of `handle_write`; `replaced` is the entry that the
insertion into the dirty map returned. -/
structure WriteCall where
  offset : Nat
  data : Bytes
  actualLen : Nat
  startLba : Nat
  blockCount : Nat
  replaced : Option DirtyEntry
  deriving DecidableEq, Repr

/-- Who called `flush_dirty`. -/
inductive Caller where
  | request | write (w : WriteCall) | timer | closing
  deriving DecidableEq, Repr

inductive CmdStatus where
  | pending | good | failed (panicked : Bool)
  deriving DecidableEq, Repr

structure FlushCmd where
  cmd : WriteCommand
  status : CmdStatus
  deriving DecidableEq, Repr

inductive Phase where
  | idle
  | reading (r : ReadCall) (clba : Nat) (assembled : Bytes)
  | awaiting (r : ReadCall) (clba : Nat) (assembled : Bytes)
  | invalidating (w : WriteCall) (clba : Nat)
  | flushing (k : Caller) (drained : List (Nat × Bytes)) (cmds : List FlushCmd)
  | syncing (k : Caller) (drained : List (Nat × Bytes))
  | stopped
  deriving DecidableEq, Repr

structure ReadaheadState where
  lastLba : Nat
  raWindow : Nat
  raStart : Nat
  raInflight : Bool
  deriving DecidableEq, Repr

/-- A spawned prefetch loop; `waiting` while its `try_get_with` is unresolved. -/
structure RaTask where
  clba : Nat
  endLba : Nat
  waiting : Bool
  deriving DecidableEq, Repr

/-- `inner` is the moka cache. `fetches` holds the fetches in progress, one for
each key, with the value the target returned; all callers that miss on the key
share it. `stray` are the commands of a flush that has returned an error. -/
structure Worker where
  dirty : DirtyMap
  syncWrites : Bool
  inner : Nat → Option Bytes
  fetches : Nat → Option Bytes
  ra : ReadaheadState
  tasks : List RaTask
  phase : Phase
  stray : List WriteCommand
  disk : Image
  log : List Event

def Worker.start (v : Device) (syncWrites : Bool) (disk : Image) : Worker where
  dirty := .new
  syncWrites := syncWrites
  inner := fun _ => none
  fetches := fun _ => none
  ra := ⟨2^64-1,v.raMinBlocks,0,false⟩
  tasks := []
  phase := .idle
  stray := []
  disk := disk
  log := []

namespace Worker

/-- Reply (or, for flushes, report) and return to the select loop. -/
def answer (s : Worker) (e : Event) : Worker := { s with phase := .idle, log := s.log ++ [e] }

def readDone (s : Worker) (r : ReadCall) (x : Reply Bytes) : Worker :=
  s.answer (.readReply r.offset r.size x)

def flushDone (s : Worker) (r : Reply Unit) : Caller → Worker
  | .request => s.answer (.flushReply r)
  | .write w => s.answer (.writeReply w.offset w.data (match r with
      | .ok _ => .ok (w.actualLen%2^32)
      | .err e => .err e))
  | .timer => { s with phase := .idle }
  | .closing => { s with phase := .stopped }

/-- `flush_dirty` up to the spawning of the writes: the map is drained first. -/
def startFlush (v : Device) (s : Worker) (k : Caller) : Option Worker :=
  if s.dirty.isEmpty then some (s.flushDone (.ok ()) k)
  else do
    let (entries,rest) := s.dirty.drainSorted
    let cmds ← entries.mapM (fun e => v.pipeline.writeCommands e.1 e.2)
    pure { s with dirty := rest,
                  phase := .flushing k entries (cmds.flatten.map (fun c => ⟨c,.pending⟩)) }

/-- Await the spawned writes in order: the first one that is not Good decides. -/
def awaitWrites (s : Worker) (k : Caller) (drained : List (Nat × Bytes))
    (cmds : List FlushCmd) : Option Worker :=
  match cmds.find? (fun c => c.status ≠ .good) with
  | none => some { s with phase := .syncing k drained, log := s.log ++ [.syncIssued] }
  | some c => match c.status with
    | .failed panicked =>
        let left := cmds.filter (fun c => c.status = .pending)
        some ({ s with stray := s.stray ++ left.map FlushCmd.cmd }.flushDone
          (.err (if panicked then .flushPanicked else .writeFailed)) k)
    | _ => none

def writeGood (v : Device) (s : Worker) (c : WriteCommand) : Worker :=
  { s with disk := (c.patch v.blockSize).apply s.disk,
           log := s.log ++ [.accepted (c.patch v.blockSize)] }

def recvRead (v : Device) (s : Worker) (offset size : Nat) : Option Worker :=
  if size = 0 ∨ v.totalBytes ≤ offset then some (s.answer (.readReply offset size (.ok [])))
  else do
    let actualSize := min size ((v.totalBytes-offset)%2^32)
    let (startLba,blockCount,skip) ← computeAlignment offset actualSize v.blockSize
    let r : ReadCall := ⟨offset,size,startLba,blockCount,skip,actualSize⟩
    let stop := skip+actualSize
    match s.dirty.readOverlap startLba blockCount v.blockSize with
    | some dirtyData =>
      if stop ≤ dirtyData.length then do
        let bytes ← slice dirtyData skip stop
        pure (s.readDone r (.ok bytes))
      else do
        let clba ← v.chunkLba startLba
        pure { s with phase := .reading r clba [] }
    | none => do
        let clba ← v.chunkLba startLba
        pure { s with phase := .reading r clba [] }

def takeChunk (v : Device) (s : Worker) (r : ReadCall) (clba : Nat) (assembled chunk : Bytes) :
    Option Worker := do
  let chunkEnd ← addU64 clba v.chunkBlocks
  let sliceStart := max r.startLba clba
  let sliceEnd := min (r.startLba+r.blockCount) chunkEnd
  if sliceEnd < sliceStart then none
  else do
    let offsetInChunk := (sliceStart-clba)*v.blockSize
    let sliceLen := (sliceEnd-sliceStart)*v.blockSize
    let piece ← slice chunk offsetInChunk (min (offsetInChunk+sliceLen) chunk.length)
    pure { s with phase := .reading r chunkEnd (assembled ++ piece) }

def triggerReadahead (v : Device) (s : Worker) (startLba blockCount : Nat) : Option Worker := do
  let prevLba := s.ra.lastLba
  let readEnd ← addU64 startLba blockCount
  let s := { s with ra := { s.ra with lastLba := startLba } }
  if ¬ (prevLba ≠ 2^64-1 ∧ startLba = (prevLba+blockCount)%2^64) then
    pure { s with ra := { s.ra with raWindow := v.raMinBlocks, raStart := readEnd } }
  else do
    let doubled ← mulU32 s.ra.raWindow 2
    let newWindow := min doubled v.raMaxBlocks
    let s := { s with ra := { s.ra with raWindow := newWindow } }
    let midpoint ← addU64 s.ra.raStart (newWindow/2)
    if (s.ra.raStart ≤ readEnd ∨ midpoint ≤ readEnd) ∧ s.ra.raInflight = false then do
      let stop ← addU64 readEnd newWindow
      let clba ← v.chunkLba readEnd
      pure { s with ra := { s.ra with raStart := stop, raInflight := true },
                    tasks := s.tasks ++ [⟨clba,stop,false⟩] }
    else pure s

def readStep (v : Device) (s : Worker) (r : ReadCall) (clba : Nat) (assembled : Bytes) :
    Option Worker := do
  let lastChunk ← v.chunkLba (r.startLba+r.blockCount-1)
  if clba ≤ lastChunk then
    match s.inner clba with
    | some chunk => s.takeChunk v r clba assembled chunk
    | none => match s.fetches clba with
      | some _ => pure { s with phase := .awaiting r clba assembled }
      | none =>
        let chunk := s.disk.read (clba*v.blockSize) v.chunkBytes
        pure { s with fetches := Function.update s.fetches clba (some chunk),
                      phase := .awaiting r clba assembled }
  else do
    let s ← s.triggerReadahead v r.startLba r.blockCount
    if assembled.length < r.skip+r.actualSize then pure (s.readDone r (.err .shortRead))
    else do
      let bytes ← slice assembled r.skip (r.skip+r.actualSize)
      pure (s.readDone r (.ok bytes))

def RaTask.resume (v : Device) (c : Nat) (t : RaTask) : Option RaTask :=
  if t.waiting ∧ t.clba = c then
    (addU64 c v.chunkBlocks).map (fun n => ⟨n,t.endLba,false⟩)
  else some t

def RaTask.giveUp (c : Nat) (t : RaTask) : RaTask :=
  if t.waiting ∧ t.clba = c then ⟨t.endLba,t.endLba,false⟩ else t

def fetchDone (v : Device) (s : Worker) (c : Nat) : Option Worker :=
  match s.fetches c with
  | none => none
  | some chunk =>
    let s := { s with inner := Function.update s.inner c (some chunk),
                      fetches := Function.update s.fetches c none,
                      tasks := s.tasks.filterMap (RaTask.resume v c) }
    match s.phase with
    | .awaiting r clba assembled =>
      if clba = c then s.takeChunk v r clba assembled chunk else some s
    | _ => some s

def fetchFailed (s : Worker) (c : Nat) : Option Worker :=
  match s.fetches c with
  | none => none
  | some _ =>
    let s := { s with
      fetches := Function.update s.fetches c none,
      tasks := s.tasks.map (RaTask.giveUp c) }
    match s.phase with
    | .awaiting r clba _ => if clba = c then some (s.readDone r (.err .scsiReadFailed)) else some s
    | _ => some s

def raStep (v : Device) (s : Worker) (i : Nat) : Option Worker := do
  let t ← s.tasks[i]?
  if t.waiting then none
  else if t.clba < t.endLba then
    match s.inner t.clba with
    | some _ => do
      let next ← addU64 t.clba v.chunkBlocks
      pure { s with tasks := s.tasks.set i { t with clba := next } }
    | none =>
      let s := { s with tasks := s.tasks.set i { t with waiting := true } }
      match s.fetches t.clba with
      | some _ => pure s
      | none =>
        let chunk := s.disk.read (t.clba*v.blockSize) v.chunkBytes
        pure { s with fetches := Function.update s.fetches t.clba (some chunk) }
  else pure { s with tasks := s.tasks.eraseIdx i, ra := { s.ra with raInflight := false } }

def recvWrite (v : Device) (s : Worker) (offset : Nat) (data : Bytes) (rmwOk : Bool) :
    Option Worker := do
  let s := { s with log := s.log ++ [Event.received offset data] }
  if data.isEmpty ∨ v.totalBytes ≤ offset then pure (s.answer (.writeReply offset data (.ok 0)))
  else do
    let actualLen := min data.length (v.totalBytes-offset)
    let new := data.take actualLen
    let (startLba,blockCount,skip) ← computeAlignment offset actualLen v.blockSize
    let w : WriteCall := ⟨offset,data,actualLen,startLba,blockCount,
      s.dirty.entries.get? startLba⟩
    if skip = 0 ∧ actualLen%v.blockSize = 0 then do
      let clba ← v.chunkLba startLba
      pure { s with dirty := s.dirty.insert startLba blockCount new,
                    phase := .invalidating w clba }
    else if rmwOk = false then pure (s.answer (.writeReply offset data (.err .rmwReadFailed)))
    else
      let existing := s.disk.read (startLba*v.blockSize) (blockCount*v.blockSize)
      let endInBuf := skip+actualLen
      if existing.length < endInBuf then
        pure (s.answer (.writeReply offset data (.err .rmwOverflow)))
      else do
        let buf := existing.take skip ++ new ++ existing.drop endInBuf
        let clba ← v.chunkLba startLba
        pure { s with dirty := s.dirty.insert startLba blockCount buf,
                      phase := .invalidating w clba }

def invalidateStep (v : Device) (s : Worker) (w : WriteCall) (clba : Nat) : Option Worker := do
  let lastChunk ← v.chunkLba (w.startLba+w.blockCount-1)
  if clba ≤ lastChunk then do
    let next ← addU64 clba v.chunkBlocks
    pure { s with inner := Function.update s.inner clba none, phase := .invalidating w next }
  else
    let s := { s with ra := { s.ra with raWindow := v.raMinBlocks } }
    if s.syncWrites ∨ v.coalesceMaxBytes ≤ s.dirty.totalBytes then s.startFlush v (.write w)
    else pure (s.answer (.writeReply w.offset w.data (.ok (w.actualLen%2^32))))

end Worker

/-- What happens next: a request or timer tick, progress of the worker (`cont`)
or of a readahead task, a fetch, an eviction, or the outcome of a command.
A failed write may or may not have been applied; one that was not may still be. -/
inductive Label where
  | read (offset size : Nat)
  | write (offset : Nat) (data : Bytes) (rmwOk : Bool)
  | flush
  | setSyncWrites (enabled : Bool)
  | tick
  | close
  | cont
  | good (i : Nat)
  | fail (i : Nat) (applied panicked : Bool)
  | syncGood
  | syncFail
  | fetched (clba : Nat)
  | fetchFailed (clba : Nat)
  | readahead (i : Nat)
  | evict (clba : Nat)
  | strayApplied (i : Nat) (good : Bool)
  deriving DecidableEq, Repr

open Worker

def step (v : Device) (s : Worker) (l : Label) : Option Worker :=
  match l, s.phase with
  | .read offset size, .idle => s.recvRead v offset size
  | .write offset data rmwOk, .idle => s.recvWrite v offset data rmwOk
  | .flush, .idle => s.startFlush v .request
  | .setSyncWrites enabled, .idle => some { s with syncWrites := enabled }
  | .tick, .idle => if s.dirty.isEmpty then some s else s.startFlush v .timer
  | .close, .idle => s.startFlush v .closing
  | .cont, .reading r clba assembled => s.readStep v r clba assembled
  | .cont, .invalidating w clba => s.invalidateStep v w clba
  | .cont, .flushing k drained cmds => s.awaitWrites k drained cmds
  | .good i, .flushing k drained cmds => do
      let c ← cmds[i]?
      if c.status = .pending then
        pure { s.writeGood v c.cmd with
                phase := .flushing k drained (cmds.set i { c with status := .good }) }
      else none
  | .fail i applied panicked, .flushing k drained cmds => do
      let c ← cmds[i]?
      if c.status = .pending then
        let cmds := cmds.set i { c with status := .failed panicked }
        if applied then
          pure { s with disk := (c.cmd.patch v.blockSize).apply s.disk,
                        phase := .flushing k drained cmds }
        else pure { s with stray := s.stray ++ [c.cmd], phase := .flushing k drained cmds }
      else none
  | .syncGood, .syncing k _ =>
      some ({ s with log := s.log ++ [Event.syncGood] }.flushDone (.ok ()) k)
  | .syncFail, .syncing k _ => some (s.flushDone (.err .syncFailed) k)
  | .fetched c, _ => s.fetchDone v c
  | .fetchFailed c, _ => s.fetchFailed c
  | .readahead i, _ => s.raStep v i
  | .evict c, _ => some { s with inner := Function.update s.inner c none }
  | .strayApplied i good, _ => do
      let c ← s.stray[i]?
      let s := { s with stray := s.stray.eraseIdx i }
      if good then pure (s.writeGood v c)
      else pure { s with disk := (c.patch v.blockSize).apply s.disk }
  | _, _ => none

/-- Sixteen blocks of one byte, for runs on fixed inputs. -/
def smallDevice : Device where
  pipeline := ⟨0,1,16,NegotiatedParams.defaults10g⟩
  totalBytes := 16
  coalesceMaxBytes := 1000
  raMaxKb := 0

def zeros : Image := fun _ => 0

end IscsiFuse.Block
