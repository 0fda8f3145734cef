import IscsiFuse.Block.ReadLength
set_option autoImplicit false

/-!
Which blocks the worker asks the target for. A demand miss and a readahead
prefetch ask for a chunk, a read-modify-write asks for the touched blocks.
-/

namespace IscsiFuse.Block
open IscsiFuse.Iscsi

/-- First block and number of blocks of the SCSI READ range that a step asks of the pipeline. -/
def Worker.asks (v : Device) (s : Worker) (l : Label) : Option (Nat × Nat) :=
  match l, s.phase with
  | .cont, .reading r clba _ => do
      let last ← v.chunkLba (r.startLba+r.blockCount-1)
      if clba ≤ last ∧ s.inner clba = none ∧ s.fetches clba = none then some (clba,v.chunkBlocks)
      else none
  | .write offset data _, .idle =>
      if data.isEmpty ∨ v.totalBytes ≤ offset then none
      else do
        let actualLen := min data.length (v.totalBytes-offset)
        let (startLba,blockCount,skip) ← computeAlignment offset actualLen v.blockSize
        if skip = 0 ∧ actualLen%v.blockSize = 0 then none else some (startLba,blockCount)
  | .readahead i, _ => do
      let t ← s.tasks[i]?
      if t.waiting = false ∧ t.clba < t.endLba ∧ s.inner t.clba = none ∧ s.fetches t.clba = none
      then some (t.clba,v.chunkBlocks) else none
  | _, _ => none

def Worker.warm (v : Device) (syncWrites : Bool) (disk : Image) (inner : Nat → Option Bytes) : Worker :=
  { Worker.start v syncWrites disk with inner := inner }

def AsksInside (v : Device) (s : Worker) (l : Label) : Prop :=
  ∀ q, s.asks v l = some q → q.1+q.2 ≤ v.pipeline.totalBlocks

/-- Every SCSI READ of every run lies on the device; and no Read fails in a run where the
target refuses nothing but ranges past its last block. -/
def Device.StaysInside (v : Device) : Prop :=
  ∀ syncWrites disk inner ls,
    Machine.Meets (step v) (AsksInside v) (Worker.warm v syncWrites disk inner) ls ∧
    ∀ t, (∀ c, .fetchFailed c ∈ ls → v.pipeline.totalBlocks < c+v.chunkBlocks) →
      Machine.run (step v) (Worker.warm v syncWrites disk inner) ls = some t →
      ∀ offset size, .readReply offset size (.err .scsiReadFailed) ∉ t.log

/-- The device is a whole number of chunks, and there is no readahead or at most one block. -/
def Device.Chunked (v : Device) : Prop :=
  v.chunkBlocks ∣ v.pipeline.totalBlocks ∧ (v.raMaxBlocks = 0 ∨ v.pipeline.totalBlocks ≤ 1)

structure Quiet (s t : Worker) : Prop where
  read : t.phase.read = none ∨ t.phase.read = s.phase.read
  tasks : t.tasks = s.tasks
  lastLba : t.ra.lastLba = s.ra.lastLba
  fetches : t.fetches = s.fetches
  log : ∀ offset size, .readReply offset size (.err .scsiReadFailed) ∈ t.log →
    .readReply offset size (.err .scsiReadFailed) ∈ s.log

namespace Quiet

variable {s t u : Worker}

theorem append {s t : Worker} {m : List Event} (hr : t.phase.read = none ∨ t.phase.read = s.phase.read)
    (ht : t.tasks = s.tasks) (ha : t.ra.lastLba = s.ra.lastLba) (hf : t.fetches = s.fetches)
    (hl : t.log = s.log ++ m)
    (hm : ∀ offset size, .readReply offset size (.err .scsiReadFailed) ∉ m) : Quiet s t where
  read := hr
  tasks := ht
  lastLba := ha
  fetches := hf
  log := fun offset size h => by
    rw [hl] at h
    rcases List.mem_append.mp h with h | h
    · exact h
    · exact absurd h (hm offset size)

theorem trans (h : Quiet s t) (hu : Quiet t u) : Quiet s u where
  read := hu.read.elim Or.inl (fun he => h.read.imp (he.trans ·) (he.trans ·))
  tasks := hu.tasks.trans h.tasks
  lastLba := hu.lastLba.trans h.lastLba
  fetches := hu.fetches.trans h.fetches
  log := fun offset size hx => h.log offset size (hu.log offset size hx)

end Quiet

/-- What a step can do to the fetches. -/
inductive FetchStep (v : Device) (s : Worker) : Label → Worker → Prop
  | quiet {l : Label} {t : Worker} : Quiet s t → FetchStep v s l t
  | startRead (offset size : Nat) (r : ReadCall) (clba : Nat) : size ≠ 0 → r.Of v offset size →
      v.chunkLba r.startLba = some clba →
      FetchStep v s (.read offset size) { s with phase := .reading r clba [] }
  | cont (r : ReadCall) (clba : Nat) (acc : Bytes) {t : Worker} : s.phase = .reading r clba acc →
      s.readStep v r clba acc = some t → FetchStep v s .cont t
  | fetched (c : Nat) {t : Worker} : s.fetchDone v c = some t → FetchStep v s (.fetched c) t
  | fetchFailed (c : Nat) {t : Worker} : s.fetchFailed c = some t → FetchStep v s (.fetchFailed c) t
  | readahead (i : Nat) {t : Worker} : s.raStep v i = some t → FetchStep v s (.readahead i) t

namespace Worker

variable {v : Device} {s t : Worker}

theorem flushDone_quiet (s : Worker) (r : Reply Unit) (k : Caller) : Quiet s (s.flushDone r k) := by
  cases k with
  | request | write w => exact .append (Or.inl rfl) rfl rfl rfl rfl (by simp)
  | timer | closing => exact .append (Or.inl rfl) rfl rfl rfl (List.append_nil _).symm (by simp)

theorem startFlush_quiet {k : Caller} (h : s.startFlush v k = some t) : Quiet s t := by
  rcases startFlush_cases h with ⟨_,rfl⟩ | ⟨_,_,_,rfl⟩
  · exact flushDone_quiet s (.ok ()) k
  · exact .append (Or.inl rfl) rfl rfl rfl (List.append_nil _).symm (by simp)

theorem recvWrite_quiet {offset : Nat} {data : Bytes} {rmwOk : Bool}
    (h : s.recvWrite v offset data rmwOk = some t) : Quiet s t := by
  rcases recvWrite_cases h with ⟨x,rfl,_⟩ | ⟨_,_,_,_,_,_,rfl⟩
  · exact .append (m := [.received offset data,.writeReply offset data x]) (Or.inl rfl) rfl rfl rfl
      (List.append_assoc ..) (by simp)
  · exact .append (Or.inl rfl) rfl rfl rfl rfl (by simp)

theorem invalidateStep_quiet {w : WriteCall} {clba : Nat} (h : s.invalidateStep v w clba = some t) :
    Quiet s t := by
  unfold invalidateStep at h
  simp only [Option.bind_eq_bind,Option.bind_eq_some_iff] at h
  obtain ⟨last,_,h⟩ := h
  split at h
  · simp only [Option.bind_eq_some_iff] at h
    obtain ⟨next,_,h⟩ := h
    cases h
    exact .append (Or.inl rfl) rfl rfl rfl (List.append_nil _).symm (by simp)
  · have hra : Quiet s { s with ra := { s.ra with raWindow := v.raMinBlocks } } :=
      .append (Or.inr rfl) rfl rfl rfl (List.append_nil _).symm (by simp)
    split at h
    · exact hra.trans (startFlush_quiet h)
    · cases h
      exact .append (Or.inl rfl) rfl rfl rfl rfl (by simp)

theorem awaitWrites_quiet {k : Caller} {dr : List (Nat × Bytes)} {cmds : List FlushCmd}
    (h : s.awaitWrites k dr cmds = some t) : Quiet s t := by
  rcases awaitWrites_cases h with ⟨_,rfl⟩ | ⟨_,_,_,_,left,err,rfl⟩
  · exact .append (Or.inl rfl) rfl rfl rfl rfl (by simp)
  · have hs : Quiet s { s with stray := left } :=
      .append (Or.inr rfl) rfl rfl rfl (List.append_nil _).symm (by simp)
    exact hs.trans (flushDone_quiet _ _ k)

end Worker

open Worker

theorem step_fetch {v : Device} {s t : Worker} {l : Label} (h : step v s l = some t) :
    FetchStep v s l t := by
  unfold step at h
  split at h
  · rename_i offset size _
    by_cases hs : size = 0
    · rw [recvRead_empty (Or.inl hs)] at h
      cases h
      exact .quiet (.append (Or.inl rfl) rfl rfl rfl rfl (by simp))
    rcases recvRead_cases h with rfl | ⟨r,hr,⟨d,_,_,rfl⟩ | ⟨_,clba,hc,rfl⟩⟩
    · exact .quiet (.append (Or.inl rfl) rfl rfl rfl rfl (by simp))
    · exact .quiet (.append (Or.inl rfl) rfl rfl rfl rfl (by simp))
    · exact .startRead offset size r clba hs hr hc
  · exact .quiet (recvWrite_quiet h)
  · exact .quiet (startFlush_quiet h)
  · cases h
    exact .quiet (.append (Or.inr rfl) rfl rfl rfl (List.append_nil _).symm (by simp))
  · split at h
    · cases h
      exact .quiet (.append (Or.inr rfl) rfl rfl rfl (List.append_nil _).symm (by simp))
    · exact .quiet (startFlush_quiet h)
  · exact .quiet (startFlush_quiet h)
  · exact .cont _ _ _ ‹_› h
  · exact .quiet (invalidateStep_quiet h)
  · exact .quiet (awaitWrites_quiet h)
  · simp only [Option.bind_eq_bind,Option.bind_eq_some_iff] at h
    obtain ⟨c,_,h⟩ := h
    split at h
    · cases h
      exact .quiet (.append (Or.inl rfl) rfl rfl rfl rfl (by simp))
    · cases h
  · rename_i i applied panicked k dr cmds hp
    simp only [Option.bind_eq_bind,Option.bind_eq_some_iff] at h
    obtain ⟨c,_,h⟩ := h
    split at h
    · cases applied <;> cases h <;>
        exact .quiet (.append (Or.inl rfl) rfl rfl rfl (List.append_nil _).symm (by simp))
    · cases h
  · cases h
    have hl : Quiet s { s with log := s.log ++ [Event.syncGood] } :=
      .append (Or.inr rfl) rfl rfl rfl rfl (by simp)
    exact .quiet (hl.trans (flushDone_quiet _ _ _))
  · cases h
    exact .quiet (flushDone_quiet _ _ _)
  · exact .fetched _ h
  · exact .fetchFailed _ h
  · exact .readahead _ h
  · cases h
    exact .quiet (.append (Or.inr rfl) rfl rfl rfl (List.append_nil _).symm (by simp))
  · rename_i i good
    simp only [Option.bind_eq_bind,Option.bind_eq_some_iff] at h
    obtain ⟨c,_,h⟩ := h
    cases good with
    | true =>
      cases h
      exact .quiet (.append (Or.inr rfl) rfl rfl rfl rfl (by simp))
    | false =>
      cases h
      exact .quiet (.append (Or.inr rfl) rfl rfl rfl (List.append_nil _).symm (by simp))
  · cases h

namespace Worker

variable {v : Device} {s t : Worker}

theorem triggerReadahead_tasks {lba n : Nat} (h : s.triggerReadahead v lba n = some t) :
    t.phase = s.phase ∧ t.fetches = s.fetches ∧ t.log = s.log ∧ t.ra.lastLba = lba ∧
    (t.tasks = s.tasks ∨ ∃ clba,
      t.tasks = s.tasks ++ [⟨clba,lba+n+min (s.ra.raWindow*2) v.raMaxBlocks,false⟩] ∧
      v.chunkLba (lba+n) = some clba ∧ s.ra.lastLba ≠ 2^64-1 ∧
      lba = (s.ra.lastLba+n)%2^64) := by
  unfold triggerReadahead at h
  simp only [Option.bind_eq_bind,Option.bind_eq_some_iff,addU64_eq_some] at h
  obtain ⟨_,⟨_,rfl⟩,h⟩ := h
  split at h
  · cases h
    exact ⟨rfl,rfl,rfl,rfl,Or.inl rfl⟩
  · rename_i hseq
    obtain ⟨hmax,hnext⟩ := not_not.mp hseq
    simp only [Option.bind_eq_some_iff,addU64_eq_some,mulU32_eq_some] at h
    obtain ⟨_,⟨_,rfl⟩,_,_,h⟩ := h
    split at h
    · simp only [Option.bind_eq_some_iff,addU64_eq_some] at h
      obtain ⟨_,⟨_,rfl⟩,clba,hc,h⟩ := h
      cases h
      exact ⟨rfl,rfl,rfl,rfl,Or.inr ⟨clba,rfl,hc,hmax,hnext⟩⟩
    · cases h
      exact ⟨rfl,rfl,rfl,rfl,Or.inl rfl⟩

theorem readStep_end {r : ReadCall} {clba last : Nat} {acc : Bytes}
    (hl : v.chunkLba (r.startLba+r.blockCount-1) = some last) (hlt : last < clba)
    (h : s.readStep v r clba acc = some t) :
    ∃ u x, s.triggerReadahead v r.startLba r.blockCount = some u ∧ t = u.readDone r x ∧
      x ≠ .err .scsiReadFailed := by
  unfold readStep at h
  simp only [hl,Option.bind_eq_bind,Option.bind_some,if_neg (Nat.not_le.mpr hlt),
    Option.bind_eq_some_iff] at h
  obtain ⟨u,hu,h⟩ := h
  split at h
  · cases h
    exact ⟨u,_,hu,rfl,by simp⟩
  · simp only [Option.bind_eq_some_iff] at h
    obtain ⟨bytes,_,h⟩ := h
    cases h
    exact ⟨u,_,hu,rfl,by simp⟩

theorem fetchDone_tasks {c : Nat} (h : s.fetchDone v c = some t) :
    t.tasks = s.tasks.filterMap (RaTask.resume v c) ∧ t.fetches = Function.update s.fetches c none ∧
      t.ra = s.ra ∧ t.log = s.log ∧ ∀ r k acc, t.phase.read = some (r,k,acc) →
        ∃ k' acc', s.phase.read = some (r,k',acc') ∧ (k = k' ∨ k = k'+v.chunkBlocks) := by
  unfold fetchDone at h
  split at h
  · cases h
  · simp only at h
    split at h
    · rename_i r clba acc hp
      split at h
      · obtain ⟨_,piece,rfl,_⟩ := takeChunk_cases h
        refine ⟨rfl,rfl,rfl,rfl,fun r' k acc' hr => ?_⟩
        cases hr
        exact ⟨clba,acc,by rw [hp]; rfl,Or.inr rfl⟩
      · cases h
        exact ⟨rfl,rfl,rfl,rfl,fun r' k acc' hr => ⟨k,acc',hr,Or.inl rfl⟩⟩
    · cases h
      exact ⟨rfl,rfl,rfl,rfl,fun r' k acc' hr => ⟨k,acc',hr,Or.inl rfl⟩⟩

theorem fetchFailed_tasks {c : Nat} (h : s.fetchFailed c = some t) :
    (∃ chunk, s.fetches c = some chunk) ∧ t.tasks = s.tasks.map (RaTask.giveUp c) ∧
      t.fetches = Function.update s.fetches c none ∧ t.ra = s.ra ∧
      (t.phase.read = none ∨ t.phase.read = s.phase.read) := by
  unfold fetchFailed at h
  split at h
  · cases h
  · rename_i chunk hc
    simp only at h
    split at h
    · split at h <;> cases h
      · exact ⟨⟨chunk,hc⟩,rfl,rfl,rfl,Or.inl rfl⟩
      · exact ⟨⟨chunk,hc⟩,rfl,rfl,rfl,Or.inr rfl⟩
    · cases h
      exact ⟨⟨chunk,hc⟩,rfl,rfl,rfl,Or.inr rfl⟩

theorem raStep_round {i : Nat} (h : s.raStep v i = some t) :
    t.phase = s.phase ∧ t.ra.lastLba = s.ra.lastLba ∧ t.log = s.log ∧
    ((t.tasks = s.tasks.eraseIdx i ∧ t.fetches = s.fetches) ∨
    ∃ rt, s.tasks[i]? = some rt ∧ rt.clba < rt.endLba ∧
      ((t.tasks = s.tasks.set i { rt with clba := rt.clba+v.chunkBlocks } ∧
        t.fetches = s.fetches) ∨
      (t.tasks = s.tasks.set i { rt with waiting := true } ∧ (t.fetches = s.fetches ∨
        (s.asks v (.readahead i) = some (rt.clba,v.chunkBlocks) ∧
          t.fetches = Function.update s.fetches rt.clba
            (some (s.disk.read (rt.clba*v.blockSize) v.chunkBytes))))))) := by
  unfold raStep at h
  simp only [Option.bind_eq_bind,Option.bind_eq_some_iff] at h
  obtain ⟨rt,hrt,h⟩ := h
  split at h
  · cases h
  · rename_i hw
    split at h
    · rename_i hlt
      split at h
      · simp only [Option.bind_eq_some_iff,addU64_eq_some] at h
        obtain ⟨_,⟨_,rfl⟩,h⟩ := h
        cases h
        exact ⟨rfl,rfl,rfl,Or.inr ⟨rt,hrt,hlt,Or.inl ⟨rfl,rfl⟩⟩⟩
      · rename_i hi
        split at h
        · cases h
          exact ⟨rfl,rfl,rfl,Or.inr ⟨rt,hrt,hlt,Or.inr ⟨rfl,Or.inl rfl⟩⟩⟩
        · rename_i hn
          cases h
          refine ⟨rfl,rfl,rfl,Or.inr ⟨rt,hrt,hlt,Or.inr ⟨rfl,Or.inr ⟨?_,rfl⟩⟩⟩⟩
          simp only [asks,hrt,Option.bind_eq_bind,Option.bind_some]
          exact if_pos ⟨by simpa using hw,hlt,hi,hn⟩
    · cases h
      exact ⟨rfl,rfl,rfl,Or.inl ⟨rfl,rfl⟩⟩

end Worker

theorem fetch_asked {v : Device} {s t : Worker} {l : Label} (h : step v s l = some t) {c : Nat}
    {chunk : Bytes} (hc : t.fetches c = some chunk) :
    (∃ x, s.fetches c = some x) ∨ s.asks v l = some (c,v.chunkBlocks) := by
  cases step_fetch h with
  | quiet hq => exact Or.inl ⟨chunk,hq.fetches ▸ hc⟩
  | startRead => exact Or.inl ⟨chunk,hc⟩
  | cont r clba acc hp h =>
    obtain ⟨last,hl,h'⟩ := readStep_cases h
    rcases h' with ⟨_,_,_,h'⟩ | ⟨_,_,_,rfl⟩ | ⟨hle,hn,rfl⟩ | ⟨hlt,_⟩
    · exact Or.inl ⟨chunk,(takeChunk_same h').fetches ▸ hc⟩
    · exact Or.inl ⟨chunk,hc⟩
    · by_cases hk : c = clba
      · subst hk
        refine Or.inr ?_
        have hi : s.inner c = none := by
          cases hx : s.inner c with
          | none => rfl
          | some x =>
            simp only [readStep,hl,hx,Option.bind_eq_bind,Option.bind_some,if_pos hle] at h
            obtain ⟨_,_,ht,_⟩ := takeChunk_cases h
            have hp' := congrArg Worker.phase ht
            cases hp'
        simp only [asks,hp,hl,Option.bind_eq_bind,Option.bind_some]
        exact if_pos ⟨hle,hi,hn⟩
      · simp only [Function.update_of_ne hk] at hc
        exact Or.inl ⟨chunk,hc⟩
    · obtain ⟨u,x,hu,rfl,_⟩ := readStep_end hl hlt h
      exact Or.inl ⟨chunk,(triggerReadahead_tasks hu).2.1 ▸ hc⟩
  | fetched k h =>
    rw [(fetchDone_tasks h).2.1] at hc
    by_cases hk : c = k
    · subst hk
      simp only [Function.update_self] at hc
      cases hc
    · simp only [Function.update_of_ne hk] at hc
      exact Or.inl ⟨chunk,hc⟩
  | fetchFailed k h =>
    rw [(fetchFailed_tasks h).2.2.1] at hc
    by_cases hk : c = k
    · subst hk
      simp only [Function.update_self] at hc
      cases hc
    · simp only [Function.update_of_ne hk] at hc
      exact Or.inl ⟨chunk,hc⟩
  | readahead i h =>
    obtain ⟨_,_,_,⟨_,hf⟩ | ⟨rt,_,_,⟨_,hf⟩ | ⟨_,hf | ⟨ha,hf⟩⟩⟩⟩ := raStep_round h
    · exact Or.inl ⟨chunk,hf ▸ hc⟩
    · exact Or.inl ⟨chunk,hf ▸ hc⟩
    · exact Or.inl ⟨chunk,hf ▸ hc⟩
    · rw [hf] at hc
      by_cases hk : c = rt.clba
      · exact Or.inr (hk ▸ ha)
      · simp only [Function.update_of_ne hk] at hc
        exact Or.inl ⟨chunk,hc⟩

/-- The geometries that a chunk of the cache has blocks for. -/
structure Device.Sized (v : Device) : Prop where
  some_byte : 0 < v.blockSize
  small : v.blockSize ≤ 65536
  total : v.totalBytes = v.pipeline.totalBlocks*v.blockSize
  bounded : v.totalBytes < 2^64

structure ReadCall.Inside (v : Device) (r : ReadCall) : Prop where
  some_block : 0 < v.pipeline.totalBlocks
  stop : r.startLba+r.blockCount ≤ v.pipeline.totalBlocks
  single : v.pipeline.totalBlocks ≤ 1 → r.startLba = 0 ∧ r.blockCount = 1

def RaTask.Inside (v : Device) (t : RaTask) : Prop :=
  t.clba < t.endLba → v.chunkBlocks ∣ t.clba ∧ t.endLba ≤ v.pipeline.totalBlocks

structure Worker.Inside (v : Device) (s : Worker) : Prop where
  read : ∀ r clba acc, s.phase.read = some (r,clba,acc) → r.Inside v ∧ v.chunkBlocks ∣ clba
  tasks : ∀ t ∈ s.tasks, t.Inside v
  fetches : ∀ c chunk, s.fetches c = some chunk → c+v.chunkBlocks ≤ v.pipeline.totalBlocks
  lastLba : v.pipeline.totalBlocks ≤ 1 → s.ra.lastLba = 2^64-1 ∨ s.ra.lastLba = 0

section Inside

variable {v : Device} {s t : Worker}

theorem touched_inside {n lba count skip offset size bs : Nat} (hn : offset+size ≤ n*bs)
    (h : computeAlignment offset size bs = some (lba,count,skip)) (ho : offset < n*bs) :
    lba+count ≤ n := by
  obtain ⟨hb,_,hlba,hcount,_⟩ := computeAlignment_eq_some h
  have hstart : offset/bs < n := Nat.div_lt_of_lt_mul (by rwa [Nat.mul_comm] at ho)
  have hstop : (offset+size+bs-1)/bs ≤ n := by
    rw [Nat.div_le_iff_le_mul hb]
    omega
  have hm := Nat.mod_le (touched offset size bs).2 (2^32)
  rw [hlba,hcount]
  simp only [touched] at hm ⊢
  omega

theorem ReadCall.Of.inside_device {offset size : Nat} {r : ReadCall} (hv : v.Sized)
    (h : r.Of v offset size) (hs : size ≠ 0) : r.Inside v := by
  have hb := hv.some_byte
  have hbs := hv.small
  have ht := hv.total
  have ho := h.inside
  have hm := Nat.mod_le (v.totalBytes-offset) (2^32)
  have hc := h.clamped
  rw [ht] at ho
  have hle : offset+r.actualSize ≤ v.pipeline.totalBlocks*v.blockSize := by omega
  refine ⟨?_,touched_inside hle h.aligned ho,fun hone => ?_⟩
  · by_contra hz
    rw [Nat.eq_zero_of_not_pos hz,Nat.zero_mul] at ho
    omega
  · have hlt : v.totalBytes ≤ v.blockSize := by
      have hmul := Nat.mul_le_mul_right v.blockSize hone
      omega
    rw [Nat.mod_eq_of_lt (by omega)] at hc
    have hsp := (h.span (by omega)).2
    have hstart := hsp.start
    have htight := hsp.tight
    rw [h.args.1] at hstart
    have hlba : r.startLba < 1 := by
      rw [← Nat.mul_lt_mul_right hb]
      omega
    have hcount : r.blockCount < 2 := by
      rw [← Nat.mul_lt_mul_right hb]
      have hlba' : r.startLba = 0 := by omega
      rw [hlba',Nat.zero_mul] at hstart
      omega
    have hsome := hsp.some_block
    omega

theorem asks_inside (hv : v.Sized) (hc : v.chunkBlocks ∣ v.pipeline.totalBlocks) (h : s.Inside v)
    (l : Label) : AsksInside v s l := by
  intro q hq
  unfold asks at hq
  split at hq
  · rename_i r clba acc hp
    obtain ⟨hr,hd⟩ := h.read r clba acc (by rw [hp]; rfl)
    have hsome := hr.some_block
    have hstop := hr.stop
    simp only [Option.bind_eq_bind,Option.bind_eq_some_iff] at hq
    obtain ⟨last,hl,hq⟩ := hq
    obtain ⟨_,_,hle,_⟩ := chunkLba_bounds hl
    split at hq
    · rename_i hask
      cases hq
      exact next_chunk_le hd hc (by omega)
    · cases hq
  · rename_i offset data _ _
    split at hq
    · cases hq
    · rename_i hne
      simp only [not_or,Nat.not_le] at hne
      simp only [Option.bind_eq_bind,Option.bind_eq_some_iff] at hq
      obtain ⟨⟨lba,count,skip⟩,ha,hq⟩ := hq
      simp only at hq
      split at hq
      · cases hq
      · cases hq
        have ht := hv.total
        exact touched_inside (by omega) ha (by omega)
  · simp only [Option.bind_eq_bind,Option.bind_eq_some_iff] at hq
    obtain ⟨rt,hrt,hq⟩ := hq
    split at hq
    · rename_i hask
      cases hq
      obtain ⟨hd,hstop⟩ := h.tasks rt (List.mem_of_getElem? hrt) hask.2.1
      exact next_chunk_le hd hc (by omega)
    · cases hq
  · cases hq

theorem resume_inside {c : Nat} {rt rt' : RaTask} (h : rt.Inside v)
    (hr : RaTask.resume v c rt = some rt') : rt'.Inside v := by
  unfold RaTask.resume at hr
  split at hr
  · rename_i hw
    obtain ⟨n,hn,rfl⟩ := Option.map_eq_some_iff.mp hr
    obtain ⟨_,rfl⟩ := addU64_eq_some.mp hn
    intro hlt
    have hbefore : rt.clba < rt.endLba := by
      rw [hw.2]
      exact Nat.lt_of_le_of_lt (Nat.le_add_right _ _) hlt
    obtain ⟨hd,hstop⟩ := h hbefore
    rw [hw.2] at hd
    exact ⟨Nat.dvd_add hd (Nat.dvd_refl _),hstop⟩
  · cases hr
    exact h

theorem giveUp_inside {c : Nat} {rt : RaTask} (h : rt.Inside v) : (RaTask.giveUp c rt).Inside v := by
  unfold RaTask.giveUp
  split
  · exact fun hlt => absurd hlt (Nat.lt_irrefl _)
  · exact h

theorem prefetch_inside (hc : v.Chunked) (h : s.Inside v) {r : ReadCall} {clba : Nat}
    (hr : r.Inside v) (hcl : v.chunkLba (r.startLba+r.blockCount) = some clba)
    (hmax : s.ra.lastLba ≠ 2^64-1)
    (hseq : r.startLba = (s.ra.lastLba+r.blockCount)%2^64) :
    RaTask.Inside v ⟨clba,r.startLba+r.blockCount+min (s.ra.raWindow*2) v.raMaxBlocks,false⟩ := by
  intro _
  refine ⟨(chunkLba_bounds hcl).2.1,?_⟩
  rcases hc.2 with hra | hone
  · rw [hra,Nat.min_zero]
    exact hr.stop
  · obtain ⟨hlba,hcount⟩ := hr.single hone
    rcases h.lastLba hone with hlast | hlast
    · exact absurd hlast hmax
    · rw [hlba,hcount,hlast] at hseq
      cases hseq

theorem read_inside_step (hv : v.Sized) (h : s.Inside v) {l : Label} (hs : step v s l = some t) :
    ∀ r clba acc, t.phase.read = some (r,clba,acc) → r.Inside v ∧ v.chunkBlocks ∣ clba := by
  intro r clba acc hr
  cases step_fetch hs with
  | quiet hq =>
    rcases hq.read with hn | hn
    · rw [hn] at hr
      cases hr
    · exact h.read r clba acc (hn ▸ hr)
  | startRead offset size r clba hsize hof hcl =>
    cases hr
    exact ⟨hof.inside_device hv hsize,(chunkLba_bounds hcl).2.1⟩
  | cont r' k acc' hp hs =>
    obtain ⟨hin,hd⟩ := h.read r' k acc' (by rw [hp]; rfl)
    obtain ⟨last,_,h'⟩ := readStep_cases hs
    rcases h' with ⟨_,_,_,h'⟩ | ⟨_,_,_,rfl⟩ | ⟨_,_,rfl⟩ | ⟨_,ra,tasks,⟨_,rfl⟩ | rfl⟩
    · obtain ⟨_,piece,rfl,_⟩ := takeChunk_cases h'
      cases hr
      exact ⟨hin,Nat.dvd_add hd (Nat.dvd_refl _)⟩
    · cases hr
      exact ⟨hin,hd⟩
    · cases hr
      exact ⟨hin,hd⟩
    · cases hr
    · cases hr
  | fetched c hs =>
    obtain ⟨_,_,_,_,hread⟩ := fetchDone_tasks hs
    obtain ⟨k,acc',hr',rfl | rfl⟩ := hread r clba acc hr
    · exact h.read r clba acc' hr'
    · obtain ⟨hin,hd⟩ := h.read r k acc' hr'
      exact ⟨hin,Nat.dvd_add hd (Nat.dvd_refl _)⟩
  | fetchFailed c hs =>
    rcases (fetchFailed_tasks hs).2.2.2.2 with hn | hn
    · rw [hn] at hr
      cases hr
    · exact h.read r clba acc (hn ▸ hr)
  | readahead i hs =>
    rw [(raStep_round hs).1] at hr
    exact h.read r clba acc hr

theorem tasks_inside_step (hc : v.Chunked) (h : s.Inside v) {l : Label}
    (hs : step v s l = some t) : ∀ rt ∈ t.tasks, rt.Inside v := by
  intro rt hrt
  cases step_fetch hs with
  | quiet hq => exact h.tasks rt (hq.tasks ▸ hrt)
  | startRead => exact h.tasks rt hrt
  | cont r k acc hp hs =>
    obtain ⟨hin,_⟩ := h.read r k acc (by rw [hp]; rfl)
    obtain ⟨last,hl,h'⟩ := readStep_cases hs
    rcases h' with ⟨_,_,_,h'⟩ | ⟨_,_,_,rfl⟩ | ⟨_,_,rfl⟩ | ⟨hlt,_⟩
    · obtain ⟨_,piece,rfl,_⟩ := takeChunk_cases h'
      exact h.tasks rt hrt
    · exact h.tasks rt hrt
    · exact h.tasks rt hrt
    · obtain ⟨u,x,hu,rfl,_⟩ := readStep_end hl hlt hs
      have hrt' : rt ∈ u.tasks := hrt
      rcases (triggerReadahead_tasks hu).2.2.2.2 with ht | ⟨clba,ht,hcl,hmax,hseq⟩
      · exact h.tasks rt (ht ▸ hrt')
      · rw [ht] at hrt'
        rcases List.mem_append.mp hrt' with hm | hm
        · exact h.tasks rt hm
        · rw [List.mem_singleton.mp hm]
          exact prefetch_inside hc h hin hcl hmax hseq
  | fetched c hs =>
    rw [(fetchDone_tasks hs).1] at hrt
    obtain ⟨rt',hm,hr⟩ := List.mem_filterMap.mp hrt
    exact resume_inside (h.tasks rt' hm) hr
  | fetchFailed c hs =>
    rw [(fetchFailed_tasks hs).2.1] at hrt
    obtain ⟨rt',hm,rfl⟩ := List.mem_map.mp hrt
    exact giveUp_inside (h.tasks rt' hm)
  | readahead i hs =>
    obtain ⟨_,_,_,⟨ht,_⟩ | ⟨rt',hget,hlt,⟨ht,_⟩ | ⟨ht,_⟩⟩⟩ := raStep_round hs
    · exact h.tasks rt (List.mem_of_mem_eraseIdx (ht ▸ hrt))
    · have hin := h.tasks rt' (List.mem_of_getElem? hget)
      rcases List.mem_or_eq_of_mem_set (ht ▸ hrt) with hm | rfl
      · exact h.tasks rt hm
      · exact fun _ => ⟨Nat.dvd_add (hin hlt).1 (Nat.dvd_refl _),(hin hlt).2⟩
    · have hin := h.tasks rt' (List.mem_of_getElem? hget)
      rcases List.mem_or_eq_of_mem_set (ht ▸ hrt) with hm | rfl
      · exact h.tasks rt hm
      · exact hin

theorem lastLba_inside_step (h : s.Inside v) {l : Label} (hs : step v s l = some t)
    (hone : v.pipeline.totalBlocks ≤ 1) : t.ra.lastLba = 2^64-1 ∨ t.ra.lastLba = 0 := by
  have hold := h.lastLba hone
  cases step_fetch hs with
  | quiet hq => rwa [hq.lastLba]
  | startRead => exact hold
  | cont r k acc hp hs =>
    obtain ⟨hin,_⟩ := h.read r k acc (by rw [hp]; rfl)
    obtain ⟨last,hl,h'⟩ := readStep_cases hs
    rcases h' with ⟨_,_,_,h'⟩ | ⟨_,_,_,rfl⟩ | ⟨_,_,rfl⟩ | ⟨hlt,_⟩
    · obtain ⟨_,piece,rfl,_⟩ := takeChunk_cases h'
      exact hold
    · exact hold
    · exact hold
    · obtain ⟨u,x,hu,rfl,_⟩ := readStep_end hl hlt hs
      have hlast : u.ra.lastLba = r.startLba := (triggerReadahead_tasks hu).2.2.2.1
      exact Or.inr (hlast.trans (hin.single hone).1)
  | fetched c hs => rwa [(fetchDone_tasks hs).2.2.1]
  | fetchFailed c hs => rwa [(fetchFailed_tasks hs).2.2.2.1]
  | readahead i hs => rwa [(raStep_round hs).2.1]

theorem inside_step (hv : v.Sized) (hc : v.Chunked) (h : s.Inside v) {l : Label}
    (hs : step v s l = some t) : t.Inside v where
  read := read_inside_step hv h hs
  tasks := tasks_inside_step hc h hs
  fetches := fun c chunk hx => by
    rcases fetch_asked hs hx with ⟨y,hy⟩ | ha
    · exact h.fetches c y hy
    · exact asks_inside hv hc.1 h l _ ha
  lastLba := lastLba_inside_step h hs

theorem unharmed_step (h : s.Inside v) {l : Label}
    (hl : ∀ c, l = .fetchFailed c → v.pipeline.totalBlocks < c+v.chunkBlocks)
    (hs : step v s l = some t)
    (hn : ∀ offset size, .readReply offset size (.err .scsiReadFailed) ∉ s.log) :
    ∀ offset size, .readReply offset size (.err .scsiReadFailed) ∉ t.log := by
  intro offset size hx
  refine hn offset size ?_
  cases step_fetch hs with
  | quiet hq => exact hq.log offset size hx
  | startRead => exact hx
  | cont r k acc hp hs =>
    obtain ⟨last,hl,h'⟩ := readStep_cases hs
    rcases h' with ⟨_,_,_,h'⟩ | ⟨_,_,_,rfl⟩ | ⟨_,_,rfl⟩ | ⟨hlt,_⟩
    · obtain ⟨_,piece,rfl,_⟩ := takeChunk_cases h'
      exact hx
    · exact hx
    · exact hx
    · obtain ⟨u,x,hu,rfl,hne⟩ := readStep_end hl hlt hs
      have hlog : u.log = s.log := (triggerReadahead_tasks hu).2.2.1
      rw [← hlog]
      rcases List.mem_append.mp hx with hx | hx
      · exact hx
      · cases List.mem_singleton.mp hx
        exact absurd rfl hne
  | fetched c hs => exact (fetchDone_tasks hs).2.2.2.1 ▸ hx
  | fetchFailed c hs =>
    obtain ⟨chunk,hc⟩ := (fetchFailed_tasks hs).1
    have hin := h.fetches c chunk hc
    have hout := hl c rfl
    omega
  | readahead i hs => exact (raStep_round hs).2.2.1 ▸ hx

theorem warm_inside (v : Device) (b : Bool) (d : Image) (inner : Nat → Option Bytes) :
    (warm v b d inner).Inside v where
  read := fun r clba acc h => by cases h
  tasks := fun t h => by cases h
  fetches := fun c chunk h => by cases h
  lastLba := fun _ => Or.inl rfl

theorem chunked_stays_inside (hv : v.Sized) (hc : v.Chunked) : v.StaysInside := by
  intro b d inner ls
  refine ⟨Machine.meets_of_invariant (I := Worker.Inside v)
    (fun _ _ _ hi hs => inside_step hv hc hi hs) (fun _ l hi => asks_inside hv hc.1 hi l)
    (warm_inside v b d inner),fun t hl hr => ?_⟩
  have hpast : ∀ l ∈ ls, ∀ c, l = .fetchFailed c → v.pipeline.totalBlocks < c+v.chunkBlocks := by
    intro l hm c hlc
    subst hlc
    exact hl c hm
  exact (Machine.run_invariant_of
    (I := fun s => s.Inside v ∧ ∀ offset size, .readReply offset size (.err .scsiReadFailed) ∉ s.log)
    (p := fun l => ∀ c, l = .fetchFailed c → v.pipeline.totalBlocks < c+v.chunkBlocks)
    (fun _ _ _ hi hp hs => ⟨inside_step hv hc hi.1 hs,unharmed_step hi.1 hp hs hi.2⟩)
    ⟨warm_inside v b d inner,fun _ _ h => by cases h⟩ hpast hr).2

end Inside

section Outside

variable {v : Device} {s : Worker} {b : Nat}

theorem Device.Sized.chunkBlocks_pos (h : v.Sized) : 0 < v.chunkBlocks :=
  (chunkBlocks_bounds ⟨h.some_byte,h.small⟩).1

theorem block_read (hv : v.Sized) (hb : b < v.pipeline.totalBlocks)
    (hr : (v.pipeline.totalBlocks-b)*v.blockSize < 2^32) (hp : s.phase = .idle)
    (hd : s.dirty = .new) : ∃ r : ReadCall, r.startLba = b ∧ r.blockCount = 1 ∧ r.skip = 0 ∧
      r.actualSize = v.blockSize ∧ step v s (.read (b*v.blockSize) v.blockSize) =
        some { s with phase := .reading r (b/v.chunkBlocks*v.chunkBlocks) [] } := by
  have hpos := hv.some_byte
  have ho : b*v.blockSize < v.totalBytes := by
    rw [hv.total]
    exact (Nat.mul_lt_mul_right hpos).mpr hb
  have hmul := Nat.mul_le_mul_right v.blockSize (show 1 ≤ v.pipeline.totalBlocks-b by omega)
  have hrest : v.totalBytes-b*v.blockSize = (v.pipeline.totalBlocks-b)*v.blockSize := by
    rw [hv.total,Nat.sub_mul]
  obtain ⟨r,hof⟩ := exists_readCall v.blockSize hpos hv.bounded ho
  have hsize : r.actualSize = v.blockSize := by
    rw [hof.clamped,hrest,Nat.mod_eq_of_lt hr]
    omega
  have hskip : r.skip = 0 := by
    rw [(computeAlignment_eq_some hof.aligned).2.2.2.2,Nat.mul_mod_left]
  have hsp := (hof.span (hsize ▸ hpos)).2
  have hstart := hsp.start
  have htight := hsp.tight
  have hsome := hsp.some_block
  rw [hskip,hof.args.1,Nat.add_zero] at hstart
  rw [hskip,hsize] at htight
  have hlba : r.startLba = b := Nat.eq_of_mul_eq_mul_right hpos hstart
  have hcount : r.blockCount < 2 := by
    rw [← Nat.mul_lt_mul_right hpos]
    omega
  refine ⟨r,hlba,by omega,hskip,hsize,?_⟩
  have hcl : v.chunkLba r.startLba = some (b/v.chunkBlocks*v.chunkBlocks) := by
    rw [hlba]
    exact if_neg (Nat.pos_iff_ne_zero.mp hv.chunkBlocks_pos)
  rw [step_read hp,recvRead_miss hof (Nat.pos_iff_ne_zero.mp hpos),hcl]
  · rfl
  · intro d hx
    rw [hd] at hx
    cases hx

theorem chunked_of_last_block (hv : v.Sized) (h : v.StaysInside) :
    v.chunkBlocks ∣ v.pipeline.totalBlocks := by
  have hpos := hv.chunkBlocks_pos
  by_cases hz : v.pipeline.totalBlocks = 0
  · rw [hz]
    exact Nat.dvd_zero _
  obtain ⟨b,hb⟩ : ∃ b, v.pipeline.totalBlocks = b+1 := Nat.exists_eq_succ_of_ne_zero hz
  have hsmall : (v.pipeline.totalBlocks-b)*v.blockSize < 2^32 := by
    rw [hb,Nat.add_sub_cancel_left,Nat.one_mul]
    exact Nat.lt_of_le_of_lt hv.small (by decide)
  obtain ⟨r,hlba,hcount,_,_,hstep⟩ := block_read (s := warm v false (fun _ => 0) (fun _ => none))
    hv (by omega) hsmall rfl rfl
  have hm := (h false (fun _ => 0) (fun _ => none)
    ([.read (b*v.blockSize) v.blockSize] ++ [.cont])).1
  rw [Machine.meets_snoc (Machine.run_one hstep)] at hm
  have hcl : v.chunkLba (r.startLba+r.blockCount-1) = some (b/v.chunkBlocks*v.chunkBlocks) := by
    rw [hlba,hcount,Nat.add_sub_cancel]
    exact if_neg (Nat.pos_iff_ne_zero.mp hpos)
  have hask := hm.2 (b/v.chunkBlocks*v.chunkBlocks,v.chunkBlocks) (by
    simp only [asks,hcl,Option.bind_eq_bind,Option.bind_some]
    exact if_pos ⟨Nat.le_refl _,rfl,rfl⟩)
  rw [hlba,hcount,Nat.add_sub_cancel] at hcl
  obtain ⟨_,hd,_,hlt⟩ := chunkLba_bounds hcl
  have heq : v.pipeline.totalBlocks = b/v.chunkBlocks*v.chunkBlocks+v.chunkBlocks := by omega
  rw [heq]
  exact Nat.dvd_add hd (Nat.dvd_refl _)

theorem block_run (hv : v.Sized) (hb : b < v.pipeline.totalBlocks)
    (hr : (v.pipeline.totalBlocks-b)*v.blockSize < 2^32) (hp : s.phase = .idle)
    (hd : s.dirty = .new) {chunk : Bytes} (hi : s.inner (b/v.chunkBlocks*v.chunkBlocks) = some chunk)
    (hl : chunk.length = v.chunkBytes) (ho : b/v.chunkBlocks*v.chunkBlocks+v.chunkBlocks < 2^64) :
    ∃ r x p, Machine.run (step v) s [.read (b*v.blockSize) v.blockSize,.cont,.cont] =
      ({ s with phase := p }.triggerReadahead v b 1).map (fun u : Worker => u.readDone r x) := by
  have hpos := hv.chunkBlocks_pos
  obtain ⟨r,hlba,hcount,hskip,hsize,hstep⟩ := block_read hv hb hr hp hd
  have hcl : v.chunkLba (r.startLba+r.blockCount-1) = some (b/v.chunkBlocks*v.chunkBlocks) := by
    rw [hlba,hcount,Nat.add_sub_cancel]
    exact if_neg (Nat.pos_iff_ne_zero.mp hpos)
  have hcl' := hcl
  rw [hlba,hcount,Nat.add_sub_cancel] at hcl'
  obtain ⟨_,_,hle,hlt⟩ := chunkLba_bounds hcl'
  generalize b/v.chunkBlocks*v.chunkBlocks = c at *
  have hrange : max r.startLba c ≤ min (r.startLba+r.blockCount) (c+v.chunkBlocks) := by omega
  have hone : (min (r.startLba+r.blockCount) (c+v.chunkBlocks)-max r.startLba c) = 1 := by omega
  have hwin := Nat.mul_le_mul_right v.blockSize (show max r.startLba c-c+1 ≤ v.chunkBlocks by omega)
  rw [Nat.add_mul] at hwin
  obtain ⟨acc,hhit,hlen⟩ : ∃ acc, step v { s with phase := .reading r c [] } .cont =
      some { s with phase := .reading r (c+v.chunkBlocks) acc } ∧
      r.skip+r.actualSize ≤ acc.length := by
    refine ⟨[] ++ (chunk.drop ((max r.startLba c-c)*v.blockSize)).take
      ((min (r.startLba+r.blockCount) (c+v.chunkBlocks)-max r.startLba c)*v.blockSize),?_,?_⟩
    · simp only [step,readStep,hcl,hi,Option.bind_eq_bind,Option.bind_some,if_pos (Nat.le_refl c)]
      exact takeChunk_whole ho hrange hl
    · rw [List.nil_append,List.length_take,List.length_drop,hl,hone,Device.chunkBytes,hskip,hsize]
      omega
  refine ⟨r,.ok ((acc.drop r.skip).take r.actualSize),.reading r (c+v.chunkBlocks) acc,?_⟩
  rw [Machine.run_cons,hstep,Option.bind_some,Machine.run_cons,hhit,Option.bind_some,
    Machine.run_cons]
  simp only [step]
  rw [readStep_finish hcl (by omega) hlen,hlba,hcount]
  simp only [Machine.run_nil,Option.bind_fun_some]

theorem triggerReadahead_jump {lba n : Nat} (hlt : lba+n < 2^64) (h : s.ra.lastLba = 2^64-1) :
    s.triggerReadahead v lba n =
      some { s with ra := ⟨lba,v.raMinBlocks,lba+n,s.ra.raInflight⟩ } := by
  simp only [triggerReadahead,addU64,if_pos hlt,Option.bind_eq_bind,Option.bind_some,h]
  rfl

theorem triggerReadahead_spawn {lba n clba w : Nat} (hlt : lba+n+min (w*2) v.raMaxBlocks < 2^64)
    (h : s.ra = ⟨lba-n,w,lba,false⟩) (hn : 0 < n ∧ n ≤ lba) (hw : w*2 < 2^32)
    (hc : v.chunkLba (lba+n) = some clba) :
    ∃ u, s.triggerReadahead v lba n = some u ∧
      u.tasks = s.tasks ++ [⟨clba,lba+n+min (w*2) v.raMaxBlocks,false⟩] ∧ u.inner = s.inner ∧
        u.fetches = s.fetches := by
  have hle : lba+n < 2^64 := by omega
  have hseq : lba-n ≠ 2^64-1 ∧ lba = (lba-n+n)%2^64 := by omega
  have hmid : lba+min (w*2) v.raMaxBlocks/2 < 2^64 := by omega
  simp only [triggerReadahead,addU64,mulU32,h,if_pos hle,Option.bind_eq_bind,Option.bind_some,
    if_neg (not_not.mpr hseq),if_pos hw,if_pos hmid,if_pos hlt,hc]
  rw [if_pos ⟨Or.inl (Nat.le_add_right _ _),trivial⟩]
  exact ⟨_,rfl,rfl,rfl,rfl⟩

theorem Device.Sized.blocks_bounded (h : v.Sized) (hd : v.chunkBlocks ∣ v.pipeline.totalBlocks) :
    v.pipeline.totalBlocks+16 < 2^64 := by
  have hb := h.some_byte
  have ht := h.bounded
  rw [h.total] at ht
  by_cases hone : v.blockSize = 1
  · obtain ⟨k,hk⟩ := hd
    rw [Device.chunkBlocks,hone] at hk
    rw [hone,Nat.mul_one] at ht
    omega
  · have hm := Nat.mul_le_mul_left v.pipeline.totalBlocks (show 2 ≤ v.blockSize by omega)
    omega

theorem unprefetched_of_last_blocks (hv : v.Sized) (h : v.StaysInside)
    (hd : v.chunkBlocks ∣ v.pipeline.totalBlocks) (htwo : 2 ≤ v.pipeline.totalBlocks) :
    v.raMaxBlocks = 0 := by
  have hpos := hv.chunkBlocks_pos
  have hbound := hv.blocks_bounded hd
  have hsmall := hv.small
  obtain ⟨n,hn⟩ : ∃ n, v.pipeline.totalBlocks = n+2 := Nat.exists_eq_add_of_le' htwo
  let inner : Nat → Option Bytes := fun c =>
    if c < v.pipeline.totalBlocks then some (List.replicate v.chunkBytes 0) else none
  have hchunk : ∀ b, b < v.pipeline.totalBlocks →
      inner (b/v.chunkBlocks*v.chunkBlocks) = some (List.replicate v.chunkBytes 0) ∧
        b/v.chunkBlocks*v.chunkBlocks+v.chunkBlocks < 2^64 := by
    intro b hb
    have hle := Nat.div_mul_le_self b v.chunkBlocks
    have hnext := next_chunk_le (Nat.dvd_mul_left v.chunkBlocks (b/v.chunkBlocks)) hd
      (Nat.lt_of_le_of_lt hle hb)
    exact ⟨if_pos (by omega),by omega⟩
  obtain ⟨r₁,x₁,p₁,hr₁⟩ := block_run (s := warm v false (fun _ => 0) inner) hv
    (show n < _ by omega) (by rw [hn,Nat.add_sub_cancel_left]; omega) rfl rfl
    (hchunk n (by omega)).1 List.length_replicate (hchunk n (by omega)).2
  rw [triggerReadahead_jump (by omega) rfl,Option.map_some] at hr₁
  obtain ⟨u,hu⟩ : ∃ u : Worker, u = readDone { warm v false (fun _ => 0) inner with
      phase := p₁, ra := ⟨n,v.raMinBlocks,n+1,false⟩ } r₁ x₁ := ⟨_,rfl⟩
  have hr₁' : Machine.run (step v) (warm v false (fun _ => 0) inner)
      [.read (n*v.blockSize) v.blockSize,.cont,.cont] = some u := hr₁.trans (congrArg some hu.symm)
  obtain ⟨r₂,x₂,p₂,hr₂⟩ := block_run (s := u) hv (show n+1 < _ by omega)
    (by rw [hn,show n+2-(n+1) = 1 by omega]; omega) (hu ▸ rfl) (hu ▸ rfl)
    (by rw [hu]; exact (hchunk (n+1) (by omega)).1) List.length_replicate (hchunk (n+1) (by omega)).2
  have hcl : v.chunkLba (n+1+1) = some (n+2) := by
    rw [Device.chunkLba,if_neg (Nat.pos_iff_ne_zero.mp hpos),← hn,Nat.div_mul_cancel hd]
  obtain ⟨w,hw,hwt,hwi,hwf⟩ := triggerReadahead_spawn (s := { u with phase := p₂ }) (n := 1)
    (w := 8) (show n+1+1+min (8*2) v.raMaxBlocks < 2^64 by omega) (by rw [hu]; rfl) (by omega)
    (by decide) hcl
  rw [hw,Option.map_some] at hr₂
  have hm := (Machine.meets_snoc (l := .readahead 0) (Machine.run_trans hr₁' hr₂)).mp
    (h false (fun _ => 0) inner _).1
  by_contra hra
  have hask := hm.2 (n+2,v.chunkBlocks) (by
    have ht : (w.readDone r₂ x₂).tasks[0]? =
        some ⟨n+2,n+1+1+min (8*2) v.raMaxBlocks,false⟩ := by
      show w.tasks[0]? = _
      rw [hwt,hu]
      rfl
    simp only [asks,ht,Option.bind_eq_bind,Option.bind_some]
    refine if_pos ⟨trivial,by omega,?_,?_⟩
    · show w.inner (n+2) = none
      rw [hwi,hu]
      exact if_neg (by omega)
    · show w.fetches (n+2) = none
      rw [hwf,hu]
      rfl)
  omega

end Outside

/-- Every SCSI READ of every run lies on the device if and only if the device is chunked. -/
theorem stays_inside_iff {v : Device} (hv : v.Sized) : v.StaysInside ↔ v.Chunked := by
  constructor
  · intro h
    have hd := chunked_of_last_block hv h
    refine ⟨hd,?_⟩
    by_cases hone : v.pipeline.totalBlocks ≤ 1
    · exact Or.inr hone
    · exact Or.inl (unprefetched_of_last_blocks hv h hd (by omega))
  · exact chunked_stays_inside hv

def twoChunks : Device where
  pipeline := ⟨0,512,256,NegotiatedParams.defaults10g⟩
  totalBytes := 131072
  coalesceMaxBytes := 1000
  raMaxKb := 0

theorem stays_inside_two_chunks : twoChunks.StaysInside :=
  (stays_inside_iff ⟨by decide,by decide,by decide,by decide⟩).mpr ⟨by decide,Or.inl (by decide)⟩

def brokenChunk : Device where
  pipeline := ⟨0,512,224,NegotiatedParams.defaults10g⟩
  totalBytes := 114688
  coalesceMaxBytes := 1000
  raMaxKb := 0

/-- A Read of the last block asks for 32 blocks past the end; the target refuses that and the
Read fails. -/
theorem last_block_overrun : ¬ brokenChunk.StaysInside ∧
    ∃ s t, Machine.run (step brokenChunk) (.start brokenChunk false zeros) [.read 114176 512] =
        some s ∧
      s.asks brokenChunk .cont = some (128,128) ∧ brokenChunk.pipeline.totalBlocks < 128+128 ∧
      Machine.run (step brokenChunk) s [.cont,.fetchFailed 128] = some t ∧
      .readReply 114176 512 (.err .scsiReadFailed) ∈ t.log := by
  refine ⟨fun h => ?_,_,_,rfl,rfl,by decide,rfl,by decide⟩
  have hd := chunked_of_last_block ⟨by decide,by decide,by decide,by decide⟩ h
  revert hd
  decide

end IscsiFuse.Block
