import IscsiFuse.Block.WorkerSteps
set_option autoImplicit false

/-!
One inversion for the whole worker. `Core` leaves out the cache and the
readahead; `CoreStep` lists what a step can do to the rest.
-/

namespace IscsiFuse.Block
open IscsiFuse.Iscsi

structure Core where
  dirty : DirtyMap
  phase : Phase
  stray : List WriteCommand
  disk : Image
  log : List Event

def Worker.core (s : Worker) : Core := ⟨s.dirty,s.phase,s.stray,s.disk,s.log⟩

namespace Core

def answer (c : Core) (e : Event) : Core := { c with phase := .idle, log := c.log ++ [e] }

def readDone (c : Core) (r : ReadCall) (x : Reply Bytes) : Core :=
  c.answer (.readReply r.offset r.size x)

def writeDone (c : Core) (w : WriteCall) (x : Reply Nat) : Core :=
  c.answer (.writeReply w.offset w.data x)

def flushDone (c : Core) (r : Reply Unit) : Caller → Core
  | .request => c.answer (.flushReply r)
  | .write w => c.writeDone w (match r with
      | .ok _ => .ok (w.actualLen%2^32)
      | .err e => .err e)
  | .timer => { c with phase := .idle }
  | .closing => { c with phase := .stopped }

end Core

inductive Triggers : Phase → Label → Caller → Prop
  | flush : Triggers .idle .flush .request
  | tick : Triggers .idle .tick .timer
  | close : Triggers .idle .close .closing
  | write (w : WriteCall) (clba : Nat) : Triggers (.invalidating w clba) .cont (.write w)

inductive Takes (s : Worker) (r : ReadCall) (clba : Nat) (acc chunk : Bytes) : Label → Prop
  | hit : s.phase = .reading r clba acc → s.inner clba = some chunk → Takes s r clba acc chunk .cont
  | fetched : s.phase = .awaiting r clba acc → s.fetches clba = some chunk →
      Takes s r clba acc chunk (.fetched clba)

def Label.background : Label → Bool
  | .setSyncWrites _ | .fetched _ | .fetchFailed _ | .readahead _ | .evict _ => true
  | _ => false

inductive CoreStep (v : Device) (s : Worker) : Label → Core → Prop
  | background (l : Label) : l.background = true → CoreStep v s l s.core
  | emptyRead (offset size : Nat) : s.phase = .idle →
      CoreStep v s (.read offset size) (s.core.answer (.readReply offset size (.ok [])))
  | dirtyRead (offset size : Nat) (r : ReadCall) (d : Bytes) : s.phase = .idle →
      r.Of v offset size → s.dirty.readOverlap r.startLba r.blockCount v.blockSize = some d →
      r.skip+r.actualSize ≤ d.length →
      CoreStep v s (.read offset size)
        (s.core.readDone r (.ok ((d.drop r.skip).take r.actualSize)))
  | startRead (offset size : Nat) (r : ReadCall) (clba : Nat) : s.phase = .idle →
      r.Of v offset size →
      (∀ d, s.dirty.readOverlap r.startLba r.blockCount v.blockSize = some d →
        d.length < r.skip+r.actualSize) →
      v.chunkLba r.startLba = some clba →
      CoreStep v s (.read offset size) { s.core with phase := .reading r clba [] }
  | await (r : ReadCall) (clba : Nat) (acc : Bytes) : s.phase = .reading r clba acc →
      CoreStep v s .cont { s.core with phase := .awaiting r clba acc }
  | take (r : ReadCall) (clba : Nat) (acc chunk piece : Bytes) (l : Label) :
      Takes s r clba acc chunk l →
      max r.startLba clba ≤ min (r.startLba+r.blockCount) (clba+v.chunkBlocks) →
      (chunk.length = v.chunkBytes → piece =
        (chunk.drop ((max r.startLba clba-clba)*v.blockSize)).take
          ((min (r.startLba+r.blockCount) (clba+v.chunkBlocks)-max r.startLba clba)*v.blockSize)) →
      CoreStep v s l { s.core with phase := .reading r (clba+v.chunkBlocks) (acc ++ piece) }
  | readDone (r : ReadCall) (clba last : Nat) (acc : Bytes) : s.phase = .reading r clba acc →
      v.chunkLba (r.startLba+r.blockCount-1) = some last → last < clba →
      CoreStep v s .cont (s.core.readDone r (.ok ((acc.drop r.skip).take r.actualSize)))
  | readFailed (r : ReadCall) (clba : Nat) (acc : Bytes) (e : IoError) (l : Label) :
      s.phase = .reading r clba acc ∨ s.phase = .awaiting r clba acc →
      CoreStep v s l (s.core.readDone r (.err e))
  | emptyWrite (offset : Nat) (data : Bytes) (rmwOk : Bool) : s.phase = .idle →
      data = [] ∨ v.totalBytes ≤ offset →
      CoreStep v s (.write offset data rmwOk)
        ({ s.core with log := s.log ++ [Event.received offset data] }.answer
          (.writeReply offset data (.ok 0)))
  | failedWrite (offset : Nat) (data : Bytes) (rmwOk : Bool) (e : IoError) : s.phase = .idle →
      CoreStep v s (.write offset data rmwOk)
        ({ s.core with log := s.log ++ [Event.received offset data] }.answer
          (.writeReply offset data (.err e)))
  | insert (offset : Nat) (data : Bytes) (rmwOk : Bool) (w : WriteCall) (buf : Bytes) (clba : Nat) :
      s.phase = .idle → w.Of v s offset data → w.Buffer v s rmwOk buf →
      CoreStep v s (.write offset data rmwOk)
        { s.core with log := s.log ++ [Event.received offset data],
                      dirty := s.dirty.insert w.startLba w.blockCount buf,
                      phase := .invalidating w clba }
  | invalidate (w : WriteCall) (clba next : Nat) : s.phase = .invalidating w clba →
      CoreStep v s .cont { s.core with phase := .invalidating w next }
  | writeDone (w : WriteCall) (clba : Nat) : s.phase = .invalidating w clba →
      CoreStep v s .cont (s.core.writeDone w (.ok (w.actualLen%2^32)))
  | flushNothing (l : Label) (k : Caller) : Triggers s.phase l k → s.dirty.entries.entries = [] →
      CoreStep v s l (s.core.flushDone (.ok ()) k)
  | flushStart (l : Label) (k : Caller) (cmds : List (List WriteCommand)) : Triggers s.phase l k →
      s.dirty.entries.entries ≠ [] →
      s.dirty.drainSorted.1.mapM (fun e => v.pipeline.writeCommands e.1 e.2) = some cmds →
      CoreStep v s l { s.core with
        dirty := .new
        phase := .flushing k s.dirty.drainSorted.1 (cmds.flatten.map (fun c => ⟨c,.pending⟩)) }
  | good (i : Nat) (k : Caller) (dr : List (Nat × Bytes)) (cmds : List FlushCmd) (c : FlushCmd) :
      s.phase = .flushing k dr cmds → cmds[i]? = some c → c.status = .pending →
      CoreStep v s (.good i) { s.core with
        disk := (c.cmd.patch v.blockSize).apply s.disk
        log := s.log ++ [Event.accepted (c.cmd.patch v.blockSize)]
        phase := .flushing k dr (cmds.set i { c with status := .good }) }
  | fail (i : Nat) (applied panicked : Bool) (k : Caller) (dr : List (Nat × Bytes))
      (cmds : List FlushCmd) (c : FlushCmd) :
      s.phase = .flushing k dr cmds → cmds[i]? = some c → c.status = .pending →
      CoreStep v s (.fail i applied panicked) { s.core with
        disk := if applied then (c.cmd.patch v.blockSize).apply s.disk else s.disk
        stray := if applied then s.stray else s.stray ++ [c.cmd]
        phase := .flushing k dr (cmds.set i { c with status := .failed panicked }) }
  | sync (k : Caller) (dr : List (Nat × Bytes)) (cmds : List FlushCmd) :
      s.phase = .flushing k dr cmds → (∀ c ∈ cmds, c.status = .good) →
      CoreStep v s .cont { s.core with phase := .syncing k dr, log := s.log ++ [Event.syncIssued] }
  | flushFailed (k : Caller) (dr : List (Nat × Bytes)) (cmds : List FlushCmd) (c : FlushCmd)
      (panicked : Bool) (left : List WriteCommand) (e : IoError) :
      s.phase = .flushing k dr cmds → c ∈ cmds → c.status = .failed panicked →
      CoreStep v s .cont ({ s.core with stray := left }.flushDone (.err e) k)
  | syncGood (k : Caller) (dr : List (Nat × Bytes)) : s.phase = .syncing k dr →
      CoreStep v s .syncGood
        ({ s.core with log := s.log ++ [Event.syncGood] }.flushDone (.ok ()) k)
  | syncFail (k : Caller) (dr : List (Nat × Bytes)) : s.phase = .syncing k dr →
      CoreStep v s .syncFail (s.core.flushDone (.err .syncFailed) k)
  | stray (i : Nat) (good : Bool) (c : WriteCommand) : s.stray[i]? = some c →
      CoreStep v s (.strayApplied i good) { s.core with
        disk := (c.patch v.blockSize).apply s.disk
        stray := s.stray.eraseIdx i
        log := s.log ++ if good then [Event.accepted (c.patch v.blockSize)] else [] }

namespace Worker

variable {v : Device} {s t : Worker}

theorem flushDone_core (s : Worker) (r : Reply Unit) (k : Caller) :
    (s.flushDone r k).core = s.core.flushDone r k := by cases k <;> rfl

theorem startFlush_core {k : Caller} {l : Label} (hk : Triggers s.phase l k)
    (h : s.startFlush v k = some t) : CoreStep v s l t.core := by
  rcases startFlush_cases h with ⟨he,rfl⟩ | ⟨he,cmds,hc,rfl⟩
  · rw [flushDone_core]
    exact .flushNothing l k hk he
  · exact .flushStart l k cmds hk he hc

theorem takeChunk_core {r : ReadCall} {clba : Nat} {acc chunk : Bytes} {l : Label} {u : Worker}
    (ht : Takes s r clba acc chunk l) (h : u.takeChunk v r clba acc chunk = some t)
    (hu : u.core = s.core) : CoreStep v s l t.core := by
  obtain ⟨hle,piece,rfl,hp⟩ := takeChunk_cases h
  have hc := CoreStep.take r clba acc chunk piece l ht hle hp
  have he : { s.core with phase := .reading r (clba+v.chunkBlocks) (acc ++ piece) } =
      { u.core with phase := .reading r (clba+v.chunkBlocks) (acc ++ piece) } := by rw [hu]
  rw [he] at hc
  exact hc

theorem recvRead_core {offset size : Nat} (hp : s.phase = .idle)
    (h : s.recvRead v offset size = some t) : CoreStep v s (.read offset size) t.core := by
  rcases recvRead_cases h with rfl | ⟨r,hr,⟨d,hd,hl,rfl⟩ | ⟨hd,clba,hc,rfl⟩⟩
  · exact .emptyRead offset size hp
  · exact .dirtyRead offset size r d hp hr hd hl
  · exact .startRead offset size r clba hp hr hd hc

theorem recvWrite_core {offset : Nat} {data : Bytes} {rmwOk : Bool} (hp : s.phase = .idle)
    (h : s.recvWrite v offset data rmwOk = some t) :
    CoreStep v s (.write offset data rmwOk) t.core := by
  rcases recvWrite_cases h with ⟨x,rfl,⟨rfl,he⟩ | ⟨e,rfl⟩⟩ | ⟨w,buf,clba,hw,hb,_,rfl⟩
  · exact .emptyWrite offset data rmwOk hp he
  · exact .failedWrite offset data rmwOk e hp
  · exact .insert offset data rmwOk w buf clba hp hw hb

theorem readStep_core {r : ReadCall} {clba : Nat} {acc : Bytes}
    (hp : s.phase = .reading r clba acc) (h : s.readStep v r clba acc = some t) :
    CoreStep v s .cont t.core := by
  obtain ⟨last,hl,h⟩ := readStep_cases h
  rcases h with ⟨_,chunk,hi,h⟩ | ⟨_,_,_,rfl⟩ | ⟨_,_,rfl⟩ | ⟨hlt,ra,tasks,⟨_,rfl⟩ | rfl⟩
  · exact takeChunk_core (.hit hp hi) h rfl
  · exact .await r clba acc hp
  · exact .await r clba acc hp
  · exact .readFailed r clba acc .shortRead .cont (Or.inl hp)
  · exact .readDone r clba last acc hp hl hlt

theorem invalidateStep_core {w : WriteCall} {clba : Nat} (hp : s.phase = .invalidating w clba)
    (h : s.invalidateStep v w clba = some t) : CoreStep v s .cont t.core := by
  have hk : Triggers s.phase .cont (.write w) := by
    rw [hp]
    exact .write w clba
  rcases invalidateStep_cases h with ⟨next,rfl⟩ | ⟨ra,h⟩ | ⟨ra,rfl⟩
  · exact .invalidate w clba next hp
  · rcases startFlush_cases h with ⟨he,rfl⟩ | ⟨he,cmds,hc,rfl⟩
    · rw [flushDone_core]
      exact .flushNothing .cont (.write w) hk he
    · exact .flushStart .cont (.write w) cmds hk he hc
  · exact .writeDone w clba hp

theorem fetchDone_core {c : Nat} (h : s.fetchDone v c = some t) :
    CoreStep v s (.fetched c) t.core := by
  obtain ⟨chunk,tasks,hc,⟨rfl,_⟩ | ⟨r,acc,hp,h⟩⟩ := fetchDone_cases h
  · exact .background (.fetched c) rfl
  · exact takeChunk_core (.fetched hp hc) h rfl

theorem fetchFailed_core {c : Nat} (h : s.fetchFailed c = some t) :
    CoreStep v s (.fetchFailed c) t.core := by
  obtain ⟨tasks,rfl | ⟨r,acc,hp,rfl⟩⟩ := fetchFailed_cases h
  · exact .background (.fetchFailed c) rfl
  · exact .readFailed r c acc .scsiReadFailed _ (Or.inr hp)

theorem raStep_core {i : Nat} (h : s.raStep v i = some t) :
    CoreStep v s (.readahead i) t.core := by
  obtain ⟨tasks,ra,rfl | ⟨c,_,rfl⟩⟩ := raStep_cases h <;> exact .background (.readahead i) rfl

theorem awaitWrites_core {k : Caller} {dr : List (Nat × Bytes)} {cmds : List FlushCmd}
    (hp : s.phase = .flushing k dr cmds) (h : s.awaitWrites k dr cmds = some t) :
    CoreStep v s .cont t.core := by
  rcases awaitWrites_cases h with ⟨hg,rfl⟩ | ⟨c,hc,b,hb,left,err,rfl⟩
  · exact .sync k dr cmds hp hg
  · rw [flushDone_core]
    exact .flushFailed k dr cmds c b left err hp hc hb

end Worker

open Worker

theorem step_core {v : Device} {s t : Worker} {l : Label} (h : step v s l = some t) :
    CoreStep v s l t.core := by
  unfold step at h
  split at h
  · exact recvRead_core ‹_› h
  · exact recvWrite_core ‹_› h
  · rename_i hp
    exact startFlush_core (hp ▸ .flush) h
  · cases h
    exact .background (.setSyncWrites _) rfl
  · rename_i hp
    have hk : Triggers s.phase .tick .timer := hp ▸ .tick
    split at h
    · rename_i he
      cases h
      have hc := CoreStep.flushNothing (v := v) .tick .timer hk ((DirtyMap.isEmpty_iff _).mp he)
      have hs : s.core.flushDone (.ok ()) .timer = s.core := by
        simp [Core.flushDone,Worker.core,hp]
      rwa [hs] at hc
    · exact startFlush_core hk h
  · rename_i hp
    exact startFlush_core (hp ▸ .close) h
  · exact readStep_core ‹_› h
  · exact invalidateStep_core ‹_› h
  · exact awaitWrites_core ‹_› h
  · rename_i i k dr cmds hp
    simp only [Option.bind_eq_bind,Option.bind_eq_some_iff] at h
    obtain ⟨c,hc,h⟩ := h
    split at h
    · rename_i hpend
      cases h
      exact .good i k dr cmds c hp hc hpend
    · cases h
  · rename_i i applied panicked k dr cmds hp
    simp only [Option.bind_eq_bind,Option.bind_eq_some_iff] at h
    obtain ⟨c,hc,h⟩ := h
    split at h
    · rename_i hpend
      have hf := CoreStep.fail i applied panicked k dr cmds c hp hc hpend (v := v)
      cases applied <;> cases h <;> exact hf
    · cases h
  · rename_i k dr hp
    cases h
    rw [flushDone_core]
    exact .syncGood k dr hp
  · rename_i k dr hp
    cases h
    rw [flushDone_core]
    exact .syncFail k dr hp
  · exact fetchDone_core h
  · exact fetchFailed_core h
  · exact raStep_core h
  · cases h
    exact .background (.evict _) rfl
  · rename_i i good
    simp only [Option.bind_eq_bind,Option.bind_eq_some_iff] at h
    obtain ⟨c,hc,h⟩ := h
    have hs := CoreStep.stray i good c hc (v := v)
    cases good with
    | true =>
      cases h
      exact hs
    | false =>
      cases h
      simpa [Worker.core] using hs
  · cases h

/-- The byte range a Write asks for, clamped to the device. -/
def Device.writePatch (v : Device) (offset : Nat) (data : Bytes) : Patch :=
  ⟨offset,data.take (v.totalBytes-offset)⟩

/-- The Writes acknowledged in a log, in order. -/
def Device.acked (v : Device) (log : List Event) : List Patch :=
  log.filterMap (fun e => match e with
    | .writeReply offset data (.ok _) => some (v.writePatch offset data)
    | _ => none)

def WriteCall.patch (v : Device) (w : WriteCall) : Patch := v.writePatch w.offset w.data

/-- The Write that is in the dirty map but not acknowledged yet. -/
def Phase.call : Phase → Option WriteCall
  | .invalidating w _ => some w
  | .flushing (.write w) _ _ => some w
  | .syncing (.write w) _ => some w
  | _ => none

def Phase.handled (v : Device) (p : Phase) : List Patch := (p.call.map (WriteCall.patch v)).toList

def Phase.commands : Phase → List FlushCmd
  | .flushing _ _ cmds => cmds
  | _ => []

def Phase.flushes : Phase → Bool
  | .flushing _ _ _ | .syncing _ _ => true
  | _ => false

theorem triggers_commands {p : Phase} {l : Label} {k : Caller} (h : Triggers p l k) :
    p.commands = [] := by cases h <;> rfl

theorem triggers_handled {v : Device} {p : Phase} {l : Label} {k : Caller}
    (h : Triggers p l k) (dr : List (Nat × Bytes)) (cmds : List FlushCmd) :
    (Phase.flushing k dr cmds).handled v = p.handled v := by cases h <;> rfl

@[simp] theorem acked_append (v : Device) (l m : List Event) :
    v.acked (l ++ m) = v.acked l ++ v.acked m := List.filterMap_append

theorem WriteCall.Of.take_eq {v : Device} {s : Worker} {offset : Nat} {data : Bytes} {w : WriteCall}
    (h : w.Of v s offset data) : w.data.take w.actualLen = (w.patch v).data := by
  rw [h.clamped,WriteCall.patch,Device.writePatch,h.args.1,h.args.2]
  rw [List.take_eq_take_iff]
  omega

theorem WriteCall.Of.patch_length {v : Device} {s : Worker} {offset : Nat} {data : Bytes}
    {w : WriteCall} (h : w.Of v s offset data) :
    (w.patch v).data.length = w.actualLen ∧ 0 < w.actualLen := by
  have hi := h.inside
  have hd := List.length_pos_iff.mpr h.nonempty
  rw [h.clamped,WriteCall.patch,Device.writePatch,h.args.1,h.args.2,List.length_take]
  omega

end IscsiFuse.Block
