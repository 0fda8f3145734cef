import IscsiFuse.Library.Log
import IscsiFuse.Block.Geometry
import IscsiFuse.Block.ReadaheadWindow
set_option autoImplicit false

namespace IscsiFuse.Block
open IscsiFuse.Iscsi

/-- Behind every address of the device there is room for a chunk and a readahead window, and a
block fits into a burst. -/
structure Device.Roomy (v : Device) : Prop extends Device.Sized v where
  room : v.totalBytes ≤ 2^63
  window : v.raMaxBlocks < 2^31
  burst : v.blockSize ≤ v.pipeline.negotiated.maxBurstLength

namespace Device.Roomy

variable {v : Device}

theorem chunk (h : v.Roomy) : 0 < v.chunkBlocks ∧ v.chunkBlocks ≤ 65536 :=
  chunkBlocks_bounds ⟨h.some_byte,h.small⟩

theorem blocks (h : v.Roomy) : v.pipeline.totalBlocks ≤ 2^63 := by
  have hle := Nat.le_mul_of_pos_right v.pipeline.totalBlocks h.some_byte
  rw [← h.total] at hle
  exact hle.trans h.room

theorem chunkLba (h : v.Roomy) (lba : Nat) :
    v.chunkLba lba = some (lba/v.chunkBlocks*v.chunkBlocks) :=
  if_neg (Nat.pos_iff_ne_zero.mp h.chunk.1)

end Device.Roomy

/-- The SCSI WRITEs of every entry are for blocks of the device. -/
def DirtyMap.Addressed (v : Device) (m : DirtyMap) : Prop :=
  ∀ e ∈ m.entries.entries, e.1+e.2.data.length/v.blockSize ≤ v.pipeline.totalBlocks

/-- The addresses that the worker keeps are on the device, or one window behind it; what it waits
for is in progress. -/
structure Worker.Addressed (v : Device) (s : Worker) : Prop where
  read : ∀ r clba acc, s.phase.read = some (r,clba,acc) →
    r.startLba+r.blockCount ≤ v.pipeline.totalBlocks ∧ r.startLba < clba+v.chunkBlocks
  awaiting : ∀ r clba acc, s.phase = .awaiting r clba acc → s.fetches clba ≠ none ∧
    clba ≤ (r.startLba+r.blockCount-1)/v.chunkBlocks*v.chunkBlocks
  write : ∀ w clba, s.phase = .invalidating w clba →
    w.startLba+w.blockCount ≤ v.pipeline.totalBlocks
  dirty : s.dirty.Addressed v
  raWindow : s.ra.raWindow < 2^31
  raStart : s.ra.raStart ≤ v.pipeline.totalBlocks+2^31
  tasks : ∀ t ∈ s.tasks, t.endLba ≤ v.pipeline.totalBlocks+2^31 ∧
    (t.waiting = true → t.clba < t.endLba ∧ s.fetches t.clba ≠ none)
  single : s.tasks.length ≤ 1
  flag : s.ra.raInflight = true ↔ s.tasks ≠ []
  full : Full v s

def Phase.runs : Phase → Bool
  | .reading _ _ _ | .invalidating _ _ => true
  | .flushing _ _ cmds =>
    (cmds.find? (fun c => c.status ≠ .good)).all (fun c => c.status ≠ .pending)
  | _ => false

/-- What may happen next. -/
def Worker.Ready (s : Worker) : Label → Prop
  | .read _ _ | .write _ _ _ | .flush | .setSyncWrites _ | .tick | .close => s.phase = .idle
  | .cont => s.phase.runs = true
  | .good i | .fail i _ _ => ∃ c, s.phase.commands[i]? = some c ∧ c.status = .pending
  | .syncGood | .syncFail => ∃ k dr, s.phase = .syncing k dr
  | .fetched c | .fetchFailed c => s.fetches c ≠ none
  | .readahead i => ∃ t, s.tasks[i]? = some t ∧ t.waiting = false
  | .evict _ => True
  | .strayApplied i _ => i < s.stray.length

namespace Worker

variable {v : Device} {s t : Worker} {r : ReadCall} {clba : Nat} {acc : Bytes}

theorem takeChunk_isSome (hv : v.Roomy) {chunk : Bytes}
    (hr : r.startLba+r.blockCount ≤ v.pipeline.totalBlocks) (hs : r.startLba < clba+v.chunkBlocks)
    (hle : clba ≤ (r.startLba+r.blockCount-1)/v.chunkBlocks*v.chunkBlocks)
    (hl : chunk.length = v.chunkBytes) : ∃ t, s.takeChunk v r clba acc chunk = some t := by
  have hdiv := Nat.div_mul_le_self (r.startLba+r.blockCount-1) v.chunkBlocks
  have hb := hv.blocks
  have hc := hv.chunk
  exact ⟨_,takeChunk_whole (by omega) (by omega) hl⟩

theorem triggerReadahead_isSome (hv : v.Roomy) (h : s.Addressed v) {lba n : Nat}
    (hn : lba+n ≤ v.pipeline.totalBlocks) : ∃ t, s.triggerReadahead v lba n = some t := by
  have hb := hv.blocks
  have hw := h.raWindow
  have hst := h.raStart
  have hmax := hv.window
  refine (triggerReadahead_fits hv.chunk.1 (by omega)).mpr (fun _ => ⟨by omega,by omega,fun _ => ?_⟩)
  omega

theorem readStep_isSome (hv : v.Roomy) (h : s.Addressed v) (hp : s.phase = .reading r clba acc) :
    ∃ t, s.readStep v r clba acc = some t := by
  obtain ⟨hr,hs⟩ := h.read r clba acc (by rw [hp]; rfl)
  simp only [readStep,hv.chunkLba,Option.bind_eq_bind,Option.bind_some]
  split
  · rename_i hle
    split
    · rename_i chunk hc
      exact takeChunk_isSome hv hr hs hle (h.full.inner clba chunk hc)
    · split <;> exact ⟨_,rfl⟩
  · obtain ⟨u,hu⟩ := triggerReadahead_isSome hv h hr
    rw [hu,Option.bind_some]
    split
    · exact ⟨_,rfl⟩
    · rename_i hlen
      rw [slice,if_pos ⟨by omega,by omega⟩]
      exact ⟨_,rfl⟩

theorem startFlush_isSome (hv : v.Roomy) (h : s.dirty.Addressed v) (k : Caller) :
    ∃ t, s.startFlush v k = some t := by
  have hb := hv.blocks
  obtain ⟨cmds,hc⟩ : ∃ cmds,
      s.dirty.drainSorted.1.mapM (fun e => v.pipeline.writeCommands e.1 e.2) = some cmds := by
    refine Log.mapM_isSome (fun e he => ?_)
    obtain ⟨x,hx,rfl⟩ := List.mem_map.mp he
    have hlen : x.2.data.length%2^32/v.blockSize ≤ x.2.data.length/v.blockSize :=
      Nat.div_le_div_right (Nat.mod_le _ _)
    have hx := h x hx
    exact Pipeline.writeCommands_isSome (Nat.pos_iff_ne_zero.mp hv.some_byte) hv.burst
      (Nat.lt_of_le_of_lt (Nat.add_le_add_left hlen _) (by omega))
  unfold startFlush
  split
  · exact ⟨_,rfl⟩
  · simp only [hc,Option.bind_eq_bind,Option.bind_some]
    exact ⟨_,rfl⟩

theorem invalidateStep_isSome (hv : v.Roomy) (h : s.Addressed v) {w : WriteCall}
    (hp : s.phase = .invalidating w clba) : ∃ t, s.invalidateStep v w clba = some t := by
  have hw := h.write w clba hp
  have hdiv := Nat.div_mul_le_self (w.startLba+w.blockCount-1) v.chunkBlocks
  have hb := hv.blocks
  have hc := hv.chunk
  simp only [invalidateStep,hv.chunkLba,Option.bind_eq_bind,Option.bind_some]
  split
  · rw [addU64,if_pos (by omega)]
    exact ⟨_,rfl⟩
  · split
    · exact startFlush_isSome (s := { s with ra := { s.ra with raWindow := v.raMinBlocks } }) hv
        h.dirty _
    · exact ⟨_,rfl⟩

theorem fetchDone_isSome (hv : v.Roomy) (h : s.Addressed v) {c : Nat} (hc : s.fetches c ≠ none) :
    ∃ t, s.fetchDone v c = some t := by
  obtain ⟨chunk,hc⟩ := Option.ne_none_iff_exists'.mp hc
  simp only [fetchDone,hc]
  split
  · rename_i r clba acc hp
    split
    · rename_i hcl
      subst hcl
      obtain ⟨hr,hs⟩ := h.read r clba acc (by rw [hp]; rfl)
      exact takeChunk_isSome hv hr hs (h.awaiting r clba acc hp).2 (h.full.fetches clba chunk hc)
    · exact ⟨_,rfl⟩
  · exact ⟨_,rfl⟩

theorem fetchFailed_isSome {c : Nat} (hc : s.fetches c ≠ none) : ∃ t, s.fetchFailed c = some t := by
  obtain ⟨chunk,hc⟩ := Option.ne_none_iff_exists'.mp hc
  simp only [fetchFailed,hc]
  split
  · split <;> exact ⟨_,rfl⟩
  · exact ⟨_,rfl⟩

theorem raStep_isSome (hv : v.Roomy) (h : s.Addressed v) {i : Nat} {rt : RaTask}
    (hi : s.tasks[i]? = some rt) (hw : rt.waiting = false) : ∃ t, s.raStep v i = some t := by
  have hend := (h.tasks rt (List.mem_of_getElem? hi)).1
  have hb := hv.blocks
  have hc := hv.chunk
  simp only [raStep,hi,Option.bind_eq_bind,Option.bind_some,hw,Bool.false_eq_true,if_false]
  split
  · split
    · rw [addU64,if_pos (by omega)]
      exact ⟨_,rfl⟩
    · split <;> exact ⟨_,rfl⟩
  · exact ⟨_,rfl⟩

theorem recvRead_isSome (hv : v.Roomy) (s : Worker) (offset size : Nat) :
    ∃ t, s.recvRead v offset size = some t := by
  have hroom := hv.room
  unfold recvRead
  split
  · exact ⟨_,rfl⟩
  · rename_i hne
    have hmod := Nat.mod_le (v.totalBytes-offset) (2^32)
    have hend : offset+min size ((v.totalBytes-offset)%2^32) < 2^64 := by omega
    simp only [computeAlignment_isSome hv.some_byte hend,hv.chunkLba,Option.bind_eq_bind,
      Option.bind_some]
    split
    · split
      · rename_i hle
        rw [slice,if_pos ⟨by omega,hle⟩]
        exact ⟨_,rfl⟩
      · exact ⟨_,rfl⟩
    · exact ⟨_,rfl⟩

theorem recvWrite_isSome (hv : v.Roomy) (s : Worker) (offset : Nat) (data : Bytes) (rmwOk : Bool) :
    ∃ t, s.recvWrite v offset data rmwOk = some t := by
  have hroom := hv.room
  simp only [recvWrite]
  split
  · exact ⟨_,rfl⟩
  · rename_i hne
    have hend : offset+min data.length (v.totalBytes-offset) < 2^64 := by omega
    simp only [computeAlignment_isSome hv.some_byte hend,hv.chunkLba,Option.bind_eq_bind,
      Option.bind_some]
    split
    · exact ⟨_,rfl⟩
    · split
      · exact ⟨_,rfl⟩
      · split <;> exact ⟨_,rfl⟩

theorem awaitWrites_isSome {k : Caller} {dr : List (Nat × Bytes)} {cmds : List FlushCmd}
    (h : (Phase.flushing k dr cmds).runs = true) : ∃ t, s.awaitWrites k dr cmds = some t := by
  simp only [Phase.runs] at h
  unfold awaitWrites
  split
  · exact ⟨_,rfl⟩
  · rename_i c hf
    simp only [hf,Option.all_some,decide_eq_true_eq] at h
    have hg := List.find?_some hf
    simp only [decide_eq_true_eq] at hg
    cases hc : c.status with
    | pending => exact absurd hc h
    | good => exact absurd hc hg
    | failed panicked => exact ⟨_,rfl⟩

theorem commands_flushing {i : Nat} {c : FlushCmd} (h : s.phase.commands[i]? = some c) :
    ∃ k dr cmds, s.phase = .flushing k dr cmds ∧ cmds[i]? = some c := by
  cases hp : s.phase with
  | flushing k dr cmds =>
    rw [hp] at h
    exact ⟨k,dr,cmds,rfl,h⟩
  | _ =>
    rw [hp] at h
    cases h

theorem Addressed.step_isSome (h : s.Addressed v) (hv : v.Roomy) {l : Label} (hl : s.Ready l) :
    ∃ t, step v s l = some t := by
  cases l with
  | read offset size =>
    simp only [step,show s.phase = .idle from hl]
    exact recvRead_isSome hv s offset size
  | write offset data rmwOk =>
    simp only [step,show s.phase = .idle from hl]
    exact recvWrite_isSome hv s offset data rmwOk
  | flush | close =>
    simp only [step,show s.phase = .idle from hl]
    exact startFlush_isSome hv h.dirty _
  | setSyncWrites enabled =>
    simp only [step,show s.phase = .idle from hl]
    exact ⟨_,rfl⟩
  | tick =>
    simp only [step,show s.phase = .idle from hl]
    split
    · exact ⟨_,rfl⟩
    · exact startFlush_isSome hv h.dirty _
  | cont =>
    have hl : s.phase.runs = true := hl
    cases hp : s.phase with
    | reading r clba acc =>
      simp only [step,hp]
      exact readStep_isSome hv h hp
    | invalidating w clba =>
      simp only [step,hp]
      exact invalidateStep_isSome hv h hp
    | flushing k dr cmds =>
      simp only [step,hp]
      exact awaitWrites_isSome (hp ▸ hl)
    | idle | awaiting | syncing | stopped =>
      rw [hp] at hl
      cases hl
  | good i | fail i applied panicked =>
    obtain ⟨c,hc,hst⟩ := hl
    obtain ⟨k,dr,cmds,hp,hc⟩ := commands_flushing hc
    simp only [step,hp,hc,hst,Option.bind_eq_bind,Option.bind_some,if_true]
    first
    | exact ⟨_,rfl⟩
    | split <;> exact ⟨_,rfl⟩
  | syncGood | syncFail =>
    obtain ⟨k,dr,hp⟩ := hl
    simp only [step,hp]
    exact ⟨_,rfl⟩
  | fetched c => exact fetchDone_isSome hv h hl
  | fetchFailed c => exact fetchFailed_isSome hl
  | readahead i =>
    obtain ⟨rt,hi,hw⟩ := hl
    exact raStep_isSome hv h hi hw
  | evict c => exact ⟨_,rfl⟩
  | strayApplied i good =>
    have hi : s.stray[i]? = some s.stray[i] := List.getElem?_eq_getElem hl
    simp only [step,hi,Option.bind_eq_bind,Option.bind_some]
    split <;> exact ⟨_,rfl⟩

end Worker

open Worker

def KeepsFetches (s t : Worker) : Prop := ∀ c, s.fetches c ≠ none → t.fetches c ≠ none

theorem KeepsFetches.of_eq {s t : Worker} (h : t.fetches = s.fetches) : KeepsFetches s t :=
  fun _ hc => h ▸ hc

theorem KeepsFetches.fetch (s : Worker) (k : Nat) (x : Bytes) {t : Worker}
    (h : t.fetches = Function.update s.fetches k (some x)) : KeepsFetches s t := by
  intro c hc
  rw [h]
  by_cases hk : c = k
  · subst hk
    simp
  · rwa [Function.update_of_ne hk]

inductive PrefetchStep (v : Device) (s : Worker) : Label → Worker → Prop
  | quiet {l : Label} {t : Worker} : KeepsFetches s t → t.ra = s.ra → t.tasks = s.tasks →
      PrefetchStep v s l t
  | reset {l : Label} {t : Worker} : KeepsFetches s t →
      t.ra = { s.ra with raWindow := v.raMinBlocks } → t.tasks = s.tasks → PrefetchStep v s l t
  | trigger (r : ReadCall) (clba : Nat) (acc : Bytes) (u : Worker) {t : Worker} :
      s.phase = .reading r clba acc → s.triggerReadahead v r.startLba r.blockCount = some u →
      t.ra = u.ra → t.tasks = u.tasks → t.fetches = s.fetches → PrefetchStep v s .cont t
  | fetched (c : Nat) {t : Worker} : t.fetches = Function.update s.fetches c none → t.ra = s.ra →
      t.tasks = s.tasks.filterMap (RaTask.resume v c) → PrefetchStep v s (.fetched c) t
  | fetchFailed (c : Nat) {t : Worker} : t.fetches = Function.update s.fetches c none → t.ra = s.ra →
      t.tasks = s.tasks.map (RaTask.giveUp c) → PrefetchStep v s (.fetchFailed c) t
  | turn (i : Nat) {t : Worker} : s.raStep v i = some t → PrefetchStep v s (.readahead i) t

namespace PrefetchStep

variable {v : Device} {s t u : Worker} {l : Label}

theorem same (hf : t.fetches = s.fetches) (hr : t.ra = s.ra) (ht : t.tasks = s.tasks) :
    PrefetchStep v s l t := .quiet (.of_eq hf) hr ht

theorem startFlush {k : Caller} (hf : u.fetches = s.fetches) (ht : u.tasks = s.tasks)
    (hr : u.ra = s.ra ∨ u.ra = { s.ra with raWindow := v.raMinBlocks })
    (h : u.startFlush v k = some t) : PrefetchStep v s l t := by
  have hq := startFlush_quiet h
  have hra := (startFlush_calling h).2
  have hk : KeepsFetches s t := .of_eq (hq.fetches.trans hf)
  rcases hr with hr | hr
  · exact .quiet hk (hra.trans hr) (hq.tasks.trans ht)
  · exact .reset hk (hra.trans hr) (hq.tasks.trans ht)

theorem readStep {r : ReadCall} {clba : Nat} {acc : Bytes} (hp : s.phase = .reading r clba acc)
    (h : s.readStep v r clba acc = some t) : PrefetchStep v s .cont t := by
  obtain ⟨last,hl,h'⟩ := readStep_cases h
  rcases h' with ⟨_,chunk,_,hk⟩ | ⟨_,_,_,rfl⟩ | ⟨_,_,rfl⟩ | ⟨hlt,_⟩
  · obtain ⟨_,piece,rfl,_⟩ := takeChunk_cases hk
    exact .same rfl rfl rfl
  · exact .same rfl rfl rfl
  · exact .quiet (.fetch s clba _ rfl) rfl rfl
  · obtain ⟨u,x,hu,rfl,_⟩ := readStep_end hl hlt h
    exact .trigger r clba acc u hp hu rfl rfl (triggerReadahead_tasks hu).2.1

theorem invalidateStep {w : WriteCall} {clba : Nat} (h : s.invalidateStep v w clba = some t) :
    PrefetchStep v s l t := by
  unfold Worker.invalidateStep at h
  simp only [Option.bind_eq_bind,Option.bind_eq_some_iff] at h
  obtain ⟨last,_,h⟩ := h
  split at h
  · simp only [Option.bind_eq_some_iff] at h
    obtain ⟨next,_,h⟩ := h
    cases h
    exact .same rfl rfl rfl
  · split at h
    · exact .startFlush (u := { s with ra := { s.ra with raWindow := v.raMinBlocks } }) rfl rfl
        (Or.inr rfl) h
    · cases h
      exact .reset (.of_eq rfl) rfl rfl

end PrefetchStep

theorem step_prefetch {v : Device} {s t : Worker} {l : Label} (h : step v s l = some t) :
    PrefetchStep v s l t := by
  unfold step at h
  split at h
  · rcases recvRead_cases h with rfl | ⟨r,_,⟨_,_,_,rfl⟩ | ⟨_,_,_,rfl⟩⟩ <;> exact .same rfl rfl rfl
  · rcases recvWrite_cases h with ⟨_,rfl,_⟩ | ⟨_,_,_,_,_,_,rfl⟩ <;> exact .same rfl rfl rfl
  · exact .startFlush rfl rfl (Or.inl rfl) h
  · cases h
    exact .same rfl rfl rfl
  · split at h
    · cases h
      exact .same rfl rfl rfl
    · exact .startFlush rfl rfl (Or.inl rfl) h
  · exact .startFlush rfl rfl (Or.inl rfl) h
  · exact .readStep ‹_› h
  · exact .invalidateStep h
  · exact .same (awaitWrites_quiet h).fetches (awaitWrites_calling h).2 (awaitWrites_quiet h).tasks
  · simp only [Option.bind_eq_bind,Option.bind_eq_some_iff] at h
    obtain ⟨c,_,h⟩ := h
    split at h
    · cases h
      exact .same rfl rfl rfl
    · cases h
  · rename_i i applied panicked k dr cmds hp
    simp only [Option.bind_eq_bind,Option.bind_eq_some_iff] at h
    obtain ⟨c,_,h⟩ := h
    split at h
    · cases applied <;> cases h <;> exact .same rfl rfl rfl
    · cases h
  · cases h
    have hq := flushDone_quiet { s with log := s.log ++ [Event.syncGood] } (.ok ()) ‹_›
    exact .same hq.fetches (flushDone_calling _ _ _).2 hq.tasks
  · cases h
    have hq := flushDone_quiet s (.err .syncFailed) ‹_›
    exact .same hq.fetches (flushDone_calling _ _ _).2 hq.tasks
  · exact .fetched _ (fetchDone_tasks h).2.1 (fetchDone_tasks h).2.2.1 (fetchDone_tasks h).1
  · exact .fetchFailed _ (fetchFailed_tasks h).2.2.1 (fetchFailed_tasks h).2.2.2.1
      (fetchFailed_tasks h).2.1
  · exact .turn _ h
  · cases h
    exact .same rfl rfl rfl
  · rename_i i good
    simp only [Option.bind_eq_bind,Option.bind_eq_some_iff] at h
    obtain ⟨c,_,h⟩ := h
    cases good <;> cases h <;> exact .same rfl rfl rfl
  · cases h

theorem raStep_turn {v : Device} {s t : Worker} {i : Nat} (h : s.raStep v i = some t) :
    (∃ rt, s.tasks[i]? = some rt ∧ t.tasks = s.tasks.eraseIdx i ∧ t.fetches = s.fetches ∧
      t.ra = { s.ra with raInflight := false }) ∨
    ∃ rt clba waiting, s.tasks[i]? = some rt ∧ t.tasks = s.tasks.set i ⟨clba,rt.endLba,waiting⟩ ∧
      t.ra = s.ra ∧ KeepsFetches s t ∧
      (waiting = true → clba < rt.endLba ∧ t.fetches clba ≠ none) := by
  unfold raStep at h
  simp only [Option.bind_eq_bind,Option.bind_eq_some_iff] at h
  obtain ⟨rt,hrt,h⟩ := h
  split at h
  · cases h
  · rename_i hw
    split at h
    · rename_i hlt
      right
      split at h
      · simp only [Option.bind_eq_some_iff] at h
        obtain ⟨next,_,h⟩ := h
        cases h
        exact ⟨rt,next,rt.waiting,hrt,rfl,rfl,.of_eq rfl,fun hx => absurd hx hw⟩
      · split at h
        · rename_i x hx
          cases h
          exact ⟨rt,rt.clba,true,hrt,rfl,rfl,.of_eq rfl,fun _ => ⟨hlt,by simp [hx]⟩⟩
        · cases h
          exact ⟨rt,rt.clba,true,hrt,rfl,rfl,.fetch s rt.clba _ rfl,fun _ => ⟨hlt,by simp⟩⟩
    · cases h
      exact Or.inl ⟨rt,hrt,rfl,rfl,rfl⟩

section Step

variable {v : Device} {s t u : Worker} {l : Label}

theorem raMinBlocks_lt (v : Device) : v.raMinBlocks < 2^31 := (by decide : 8 < 2^31)

theorem triggerReadahead_prefetch (hv : v.Roomy) (h : s.Addressed v) {lba n : Nat}
    (hn : lba+n ≤ v.pipeline.totalBlocks) (ht : s.triggerReadahead v lba n = some t) :
    t.ra.raWindow < 2^31 ∧ t.ra.raStart ≤ v.pipeline.totalBlocks+2^31 ∧
    ((t.tasks = s.tasks ∧ t.ra.raInflight = s.ra.raInflight) ∨
    (s.ra.raInflight = false ∧ t.ra.raInflight = true ∧ ∃ clba endLba,
      t.tasks = s.tasks ++ [⟨clba,endLba,false⟩] ∧ endLba ≤ v.pipeline.totalBlocks+2^31)) := by
  have hw := h.raWindow
  have hst := h.raStart
  have hmax := hv.window
  unfold triggerReadahead at ht
  simp only [Option.bind_eq_bind,Option.bind_eq_some_iff,addU64_eq_some] at ht
  obtain ⟨_,⟨_,rfl⟩,ht⟩ := ht
  split at ht
  · cases ht
    exact ⟨raMinBlocks_lt v,by simp only; omega,Or.inl ⟨rfl,rfl⟩⟩
  · simp only [Option.bind_eq_some_iff,addU64_eq_some,mulU32_eq_some] at ht
    obtain ⟨_,⟨_,rfl⟩,_,_,ht⟩ := ht
    split at ht
    · rename_i hflag
      simp only [Option.bind_eq_some_iff,addU64_eq_some] at ht
      obtain ⟨_,⟨_,rfl⟩,clba,_,ht⟩ := ht
      cases ht
      exact ⟨by simp only; omega,by simp only; omega,
        Or.inr ⟨hflag.2,rfl,clba,_,rfl,by omega⟩⟩
    · cases ht
      exact ⟨by simp only; omega,hst,Or.inl ⟨rfl,rfl⟩⟩

theorem window_step (hv : v.Roomy) (h : s.Addressed v) (hs : step v s l = some t) :
    t.ra.raWindow < 2^31 ∧ t.ra.raStart ≤ v.pipeline.totalBlocks+2^31 := by
  cases step_prefetch hs with
  | quiet _ hr _ | fetched c _ hr _ | fetchFailed c _ hr _ =>
    rw [hr]
    exact ⟨h.raWindow,h.raStart⟩
  | reset _ hr _ =>
    rw [hr]
    exact ⟨raMinBlocks_lt v,h.raStart⟩
  | trigger r clba acc u hp hu hr _ _ =>
    rw [hr]
    obtain ⟨hw,hst,_⟩ := triggerReadahead_prefetch hv h (h.read r clba acc (by rw [hp]; rfl)).1 hu
    exact ⟨hw,hst⟩
  | turn i ht =>
    obtain ⟨_,hw,hst⟩ := raStep_ra ht
    rw [hw,hst]
    exact ⟨h.raWindow,h.raStart⟩

theorem resume_addressed (hv : v.Roomy) {c : Nat} {rt : RaTask}
    (hend : rt.endLba ≤ v.pipeline.totalBlocks+2^31) (hw : rt.waiting = true → rt.clba < rt.endLba) :
    ∃ rt', RaTask.resume v c rt = some rt' ∧ rt'.endLba = rt.endLba ∧
      (rt'.waiting = true → rt' = rt ∧ rt.clba ≠ c) := by
  have hb := hv.blocks
  have hc := hv.chunk
  unfold RaTask.resume
  split
  · rename_i hx
    have hlt := hw hx.1
    rw [hx.2] at hlt
    rw [addU64,if_pos (by omega)]
    exact ⟨_,rfl,rfl,fun hx => by cases hx⟩
  · rename_i hx
    exact ⟨rt,rfl,rfl,fun hwt => ⟨rfl,fun hcc => hx ⟨hwt,hcc⟩⟩⟩

theorem tasks_step (hv : v.Roomy) (h : s.Addressed v) (hs : step v s l = some t) :
    ∀ rt ∈ t.tasks, rt.endLba ≤ v.pipeline.totalBlocks+2^31 ∧
      (rt.waiting = true → rt.clba < rt.endLba ∧ t.fetches rt.clba ≠ none) := by
  intro rt hrt
  cases step_prefetch hs with
  | quiet hk _ ht | reset hk _ ht =>
    obtain ⟨hend,hw⟩ := h.tasks rt (ht ▸ hrt)
    exact ⟨hend,fun hx => ⟨(hw hx).1,hk _ (hw hx).2⟩⟩
  | trigger r clba acc u hp hu _ ht hf =>
    obtain ⟨_,_,⟨hsame,_⟩ | ⟨_,_,k,e,hnew,he⟩⟩ :=
      triggerReadahead_prefetch hv h (h.read r clba acc (by rw [hp]; rfl)).1 hu
    · rw [hf]
      exact h.tasks rt (hsame ▸ ht ▸ hrt)
    · rw [ht,hnew] at hrt
      rcases List.mem_append.mp hrt with hrt | hrt
      · rw [hf]
        exact h.tasks rt hrt
      · rw [List.mem_singleton.mp hrt]
        exact ⟨he,fun hx => by cases hx⟩
  | fetched c hf _ ht =>
    rw [ht] at hrt
    obtain ⟨rt',hm,hr⟩ := List.mem_filterMap.mp hrt
    obtain ⟨hend,hw⟩ := h.tasks rt' hm
    obtain ⟨rt'',hr',he,hwait⟩ := resume_addressed (c := c) hv hend (fun hx => (hw hx).1)
    rw [hr'] at hr
    cases hr
    refine ⟨he ▸ hend,fun hx => ?_⟩
    obtain ⟨rfl,hne⟩ := hwait hx
    rw [hf,Function.update_of_ne hne]
    exact hw hx
  | fetchFailed c hf _ ht =>
    rw [ht] at hrt
    obtain ⟨rt',hm,rfl⟩ := List.mem_map.mp hrt
    obtain ⟨hend,hw⟩ := h.tasks rt' hm
    unfold RaTask.giveUp
    split
    · exact ⟨hend,fun hx => by cases hx⟩
    · rename_i hx
      refine ⟨hend,fun hwt => ?_⟩
      rw [hf,Function.update_of_ne (fun hcc => hx ⟨hwt,hcc⟩)]
      exact hw hwt
  | turn i hturn =>
    rcases raStep_turn hturn with ⟨rt',_,ht,hf,_⟩ | ⟨rt',clba,waiting,hi,ht,_,hk,hwait⟩
    · rw [hf]
      exact h.tasks rt (List.mem_of_mem_eraseIdx (ht ▸ hrt))
    · rcases List.mem_or_eq_of_mem_set (ht ▸ hrt) with hm | rfl
      · obtain ⟨hend,hw⟩ := h.tasks rt hm
        exact ⟨hend,fun hx => ⟨(hw hx).1,hk _ (hw hx).2⟩⟩
      · exact ⟨(h.tasks rt' (List.mem_of_getElem? hi)).1,hwait⟩

theorem single_step (hv : v.Roomy) (h : s.Addressed v) (hs : step v s l = some t) :
    t.tasks.length ≤ 1 ∧ (t.ra.raInflight = true ↔ t.tasks ≠ []) := by
  have hone := h.single
  have hflag := h.flag
  cases step_prefetch hs with
  | quiet _ hr ht =>
    rw [hr,ht]
    exact ⟨hone,hflag⟩
  | reset _ hr ht =>
    rw [hr,ht]
    exact ⟨hone,hflag⟩
  | trigger r clba acc u hp hu hr ht _ =>
    rw [hr,ht]
    obtain ⟨_,_,⟨hsame,hsf⟩ | ⟨hf,hf',k,e,hnew,_⟩⟩ :=
      triggerReadahead_prefetch hv h (h.read r clba acc (by rw [hp]; rfl)).1 hu
    · rw [hsame,hsf]
      exact ⟨hone,hflag⟩
    · have hnil : s.tasks = [] := by
        by_contra hne
        rw [hflag.mpr hne] at hf
        cases hf
      rw [hnew,hnil,hf']
      exact ⟨le_rfl,fun _ => by simp,fun _ => rfl⟩
  | fetched c _ hr ht =>
    rw [hr,ht]
    cases htasks : s.tasks with
    | nil =>
      rw [htasks] at hflag
      exact ⟨by simp,hflag⟩
    | cons rt rest =>
      have hrest : rest = [] := by
        rw [htasks,List.length_cons] at hone
        exact List.length_eq_zero_iff.mp (by omega)
      obtain ⟨hend,hw⟩ := h.tasks rt (by rw [htasks]; exact List.mem_cons_self ..)
      obtain ⟨rt',hr',_⟩ := resume_addressed (c := c) hv hend (fun hx => (hw hx).1)
      rw [hrest,List.filterMap_cons_some hr']
      rw [htasks] at hflag
      exact ⟨le_rfl,fun _ => by simp,fun _ => hflag.mpr (by simp)⟩
  | fetchFailed c _ hr ht =>
    rw [hr,ht,List.length_map]
    exact ⟨hone,by rw [hflag,ne_eq,ne_eq,List.map_eq_nil_iff]⟩
  | turn i hturn =>
    rcases raStep_turn hturn with ⟨rt,hi,ht,_,hr⟩ | ⟨rt,_,_,_,ht,hr,_⟩
    · have hlt := (List.getElem?_eq_some_iff.mp hi).1
      have hnil : s.tasks.eraseIdx i = [] := by
        rw [← List.length_eq_zero_iff,List.length_eraseIdx_of_lt hlt]
        omega
      rw [ht,hnil,hr]
      exact ⟨by simp,by simp⟩
    · rw [ht,hr,List.length_set]
      refine ⟨hone,hflag.trans ?_⟩
      rw [ne_eq,ne_eq,← List.length_eq_zero_iff,← List.length_eq_zero_iff,List.length_set]

theorem read_step {c : Core} (hv : v.Roomy) (h : s.Addressed v) (hs : CoreStep v s l c) :
    ∀ r clba acc, c.phase.read = some (r,clba,acc) →
      r.startLba+r.blockCount ≤ v.pipeline.totalBlocks ∧ r.startLba < clba+v.chunkBlocks := by
  have hold := h.read
  intro r clba acc hr
  cases hs with
  | background | stray => exact hold r clba acc hr
  | startRead offset size r' clba' _ hof _ hcl =>
    cases hr
    obtain ⟨_,_,_,hlt⟩ := chunkLba_bounds hcl
    have hin := hof.inside
    have hm := Nat.mod_le (v.totalBytes-offset) (2^32)
    have hc := hof.clamped
    rw [hv.total] at hin hm hc
    exact ⟨touched_inside (by omega) hof.aligned hin,hlt⟩
  | await r' clba' acc' hp =>
    cases hr
    exact hold r clba acc (by rw [hp]; rfl)
  | take r' clba' acc' chunk piece l' htake _ _ =>
    cases hr
    have hread : s.phase.read = some (r,clba',acc') := by
      cases htake with
      | hit hp _ | fetched hp _ => rw [hp]; rfl
    obtain ⟨hle,hlt⟩ := hold r clba' acc' hread
    exact ⟨hle,by omega⟩
  | flushNothing _ k | flushFailed k | syncGood k | syncFail k => cases k <;> cases hr
  | _ => cases hr

theorem write_step {c : Core} (hv : v.Roomy) (h : s.Addressed v) (hs : CoreStep v s l c) :
    ∀ w clba, c.phase = .invalidating w clba → w.startLba+w.blockCount ≤ v.pipeline.totalBlocks := by
  have hold := h.write
  intro w clba hp
  cases hs with
  | background | stray => exact hold w clba hp
  | insert offset data rmwOk w' buf clba' _ hof _ =>
    cases hp
    obtain ⟨skip,ha⟩ := hof.aligned
    have hin := hof.inside
    have hc := hof.clamped
    rw [hv.total] at hin hc
    exact touched_inside (by omega) ha hin
  | invalidate w' clba' next hp' =>
    cases hp
    exact hold w clba' hp'
  | flushNothing _ k | flushFailed k | syncGood k | syncFail k => cases k <;> cases hp
  | _ => cases hp

theorem buffer_addressed {offset : Nat} {data buf : Bytes} {rmwOk : Bool} {w : WriteCall}
    (hv : v.Roomy) (h : w.Of v s offset data) (hb : w.Buffer v s rmwOk buf) :
    w.startLba+buf.length/v.blockSize ≤ v.pipeline.totalBlocks := by
  obtain ⟨skip,ha⟩ := h.aligned
  have hin := h.inside
  have hc := h.clamped
  rw [hv.total] at hin hc
  have hend : offset+w.actualLen ≤ v.pipeline.totalBlocks*v.blockSize := by omega
  cases hb with
  | aligned =>
    obtain ⟨_,_,hlba,_,_⟩ := computeAlignment_eq_some ha
    rw [h.take_eq,h.patch_length.1,hlba,touched]
    refine Nat.div_add_div_le_add_div.trans ?_
    rw [Nat.div_le_iff_le_mul hv.some_byte]
    omega
  | merged old _ _ hold hle =>
    have hlen : (old.take (w.offset%v.blockSize) ++ w.data.take w.actualLen ++
        old.drop (w.offset%v.blockSize+w.actualLen)).length = w.blockCount*v.blockSize := by
      rw [h.take_eq,List.length_append,List.length_append,h.patch_length.1,List.length_take,
        List.length_drop,hold,Image.read_length]
      omega
    rw [hlen,Nat.mul_div_cancel _ hv.some_byte]
    exact touched_inside hend ha hin

theorem dirty_step {c : Core} (hv : v.Roomy) (h : s.Addressed v) (hs : CoreStep v s l c) :
    c.dirty.Addressed v := by
  have hold := h.dirty
  cases hs with
  | insert offset data rmwOk w buf clba _ hof hb =>
    intro e he
    rw [DirtyMap.insert_entries,OrdMap.mem_insert] at he
    rcases he with rfl | ⟨he,_⟩
    · exact buffer_addressed hv hof hb
    · exact hold e he
  | flushStart => exact fun e he => by cases he
  | flushNothing _ k | flushFailed k | syncGood k | syncFail k => cases k <;> exact hold
  | _ => exact hold

theorem whole_step (h : Full v s) (hs : step v s l = some t) : Full v t := by
  rcases step_store hs with hm | ⟨w,_,hp⟩
  · constructor
    · intro c x hx
      exact (hm.inner c x hx).elim (h.inner c x) (h.fetches c x)
    · intro c x hx
      rcases hm.fetches c x hx with hx | rfl
      · exact h.fetches c x hx
      · exact Image.read_length ..
  · exact ⟨fun c x hx => h.inner c x (hp.inner ▸ hx),fun c x hx => h.fetches c x (hp.fetches ▸ hx)⟩

theorem awaiting_kept {r : ReadCall} {clba : Nat} {acc : Bytes}
    (hp : s.phase = .awaiting r clba acc) (hf : s.fetches clba ≠ none) (hs : step v s l = some t)
    (hp' : t.phase = .awaiting r clba acc) : t.fetches clba ≠ none := by
  cases step_prefetch hs with
  | quiet hk | reset hk => exact hk clba hf
  | trigger r' clba' acc' u hp'' =>
    rw [hp] at hp''
    cases hp''
  | fetched c hfe =>
    rw [hfe]
    by_cases hc : clba = c
    · subst hc
      have hs : s.fetchDone v clba = some t := by simpa only [step] using hs
      obtain ⟨chunk,tasks,_,⟨_,hne⟩ | ⟨r',acc',_,ht⟩⟩ := fetchDone_cases hs
      · exact absurd hp (hne r acc)
      · obtain ⟨_,piece,rfl,_⟩ := takeChunk_cases ht
        cases hp'
    · rwa [Function.update_of_ne hc]
  | fetchFailed c hfe =>
    rw [hfe]
    by_cases hc : clba = c
    · subst hc
      have hs : s.fetchFailed clba = some t := by simpa only [step] using hs
      obtain ⟨chunk,hchunk⟩ := Option.ne_none_iff_exists'.mp hf
      simp only [Worker.fetchFailed,hchunk,hp,if_true] at hs
      cases hs
      cases hp'
    · rwa [Function.update_of_ne hc]
  | turn i hturn =>
    rcases raStep_turn hturn with ⟨_,_,_,hfe,_⟩ | ⟨_,_,_,_,_,_,hk,_⟩
    · exact hfe ▸ hf
    · exact hk clba hf

theorem awaiting_step (h : s.Addressed v) (hs : step v s l = some t) :
    ∀ r clba acc, t.phase = .awaiting r clba acc → t.fetches clba ≠ none ∧
      clba ≤ (r.startLba+r.blockCount-1)/v.chunkBlocks*v.chunkBlocks := by
  intro r clba acc hp
  have hkept : s.phase = .awaiting r clba acc → t.fetches clba ≠ none ∧
      clba ≤ (r.startLba+r.blockCount-1)/v.chunkBlocks*v.chunkBlocks := fun hsp =>
    ⟨awaiting_kept hsp (h.awaiting r clba acc hsp).1 hs hp,(h.awaiting r clba acc hsp).2⟩
  have hcore := step_core hs
  have hcp : t.core.phase = .awaiting r clba acc := hp
  generalize t.core = c at hcore hcp
  cases hcore with
  | background | stray => exact hkept hcp
  | await r' clba' acc' hrd =>
    cases hcp
    have hs : s.readStep v r clba acc = some t := by simpa only [step,hrd] using hs
    obtain ⟨last,hl,h'⟩ := readStep_cases hs
    have hlast : last = (r.startLba+r.blockCount-1)/v.chunkBlocks*v.chunkBlocks := by
      unfold Device.chunkLba at hl
      split at hl
      · cases hl
      · exact (Option.some.inj hl).symm
    rcases h' with ⟨_,_,_,hk⟩ | ⟨hle,x,hx,rfl⟩ | ⟨hle,_,rfl⟩ | ⟨_,ra,tasks,⟨_,rfl⟩ | rfl⟩
    · obtain ⟨_,piece,rfl,_⟩ := takeChunk_cases hk
      cases hp
    · exact ⟨by simp [hx],hlast ▸ hle⟩
    · exact ⟨by simp,hlast ▸ hle⟩
    · cases hp
    · cases hp
  | flushNothing _ k | flushFailed k | syncGood k | syncFail k => cases k <;> cases hcp
  | _ => cases hcp

theorem Worker.Addressed.step (h : s.Addressed v) (hv : v.Roomy) (hs : step v s l = some t) :
    t.Addressed v where
  read := read_step hv h (step_core hs)
  awaiting := awaiting_step h hs
  write := write_step hv h (step_core hs)
  dirty := dirty_step hv h (step_core hs)
  raWindow := (window_step hv h hs).1
  raStart := (window_step hv h hs).2
  tasks := tasks_step hv h hs
  single := (single_step hv h hs).1
  flag := (single_step hv h hs).2
  full := whole_step h.full hs

theorem Worker.Addressed.start (v : Device) (syncWrites : Bool) (d : Image) :
    (Worker.start v syncWrites d).Addressed v where
  read := fun _ _ _ h => by cases h
  awaiting := fun _ _ _ h => by cases h
  write := fun _ _ h => by cases h
  dirty := fun _ h => by cases h
  raWindow := raMinBlocks_lt v
  raStart := Nat.zero_le _
  tasks := fun _ h => by cases h
  single := Nat.zero_le _
  flag := by simp [Worker.start]
  full := (fresh_start v syncWrites d).full

theorem addressed_run (hv : v.Roomy) {syncWrites : Bool} {d : Image} {ls : List Label}
    (hr : Machine.run (step v) (Worker.start v syncWrites d) ls = some s) : s.Addressed v :=
  Machine.run_invariant (I := Worker.Addressed v) (fun _ _ _ h hs => h.step hv hs)
    (.start v syncWrites d) hr

/-- Steps of the request in progress. -/
def Label.drives (p : Phase) : Label → Bool
  | .cont | .good _ | .fail _ _ _ | .syncGood | .syncFail => true
  | .fetched c | .fetchFailed c => match p with
    | .awaiting _ clba _ => clba = c
    | _ => false
  | _ => false

theorem Worker.Addressed.busy_ready (h : s.Addressed v) (hi : s.phase ≠ .idle)
    (hs : s.phase ≠ .stopped) : ∃ l : Label, l.drives s.phase = true ∧ s.Ready l := by
  cases hp : s.phase with
  | idle => exact absurd hp hi
  | stopped => exact absurd hp hs
  | reading r clba acc => exact ⟨.cont,rfl,by simp [Ready,hp,Phase.runs]⟩
  | invalidating w clba => exact ⟨.cont,rfl,by simp [Ready,hp,Phase.runs]⟩
  | awaiting r clba acc => exact ⟨.fetched clba,by simp [Label.drives],(h.awaiting r clba acc hp).1⟩
  | syncing k dr => exact ⟨.syncGood,rfl,k,dr,hp⟩
  | flushing k dr cmds =>
    by_cases hrun : s.phase.runs = true
    · exact ⟨.cont,rfl,hrun⟩
    · rw [hp] at hrun
      simp only [Phase.runs,Option.all_eq_true,decide_eq_true_eq,not_forall] at hrun
      obtain ⟨c,hf,hc⟩ := hrun
      obtain ⟨i,hi⟩ := List.getElem?_of_mem (List.mem_of_find?_eq_some hf)
      exact ⟨.good i,rfl,c,by rw [hp]; exact hi,not_not.mp hc⟩

/-- Whatever happens next, the worker handles it without a panic; and a busy worker waits for
nothing that is not in progress. -/
theorem worker_never_panics (hv : v.Roomy) {syncWrites : Bool} {d : Image} {ls : List Label}
    (hr : Machine.run (step v) (Worker.start v syncWrites d) ls = some s) :
    (∀ l, s.Ready l → ∃ t, step v s l = some t) ∧
    (s.phase ≠ .idle → s.phase ≠ .stopped → ∃ l : Label, l.drives s.phase = true ∧ s.Ready l) := by
  have h := addressed_run hv hr
  exact ⟨fun l hl => h.step_isSome hv hl,h.busy_ready⟩

theorem smallDevice_roomy : smallDevice.Roomy where
  some_byte := by decide
  small := by decide
  total := by decide
  bounded := by decide
  room := by decide
  window := by decide
  burst := by decide

theorem worker_never_panics_flushing : ∃ s, Machine.run (step smallDevice)
      (Worker.start smallDevice false zeros) [.write 5 [1,2] true,.cont,.cont,.flush] = some s ∧
    (∃ t, step smallDevice s (.fail 0 true true) = some t) ∧
      ∃ l : Label, l.drives s.phase = true ∧ s.Ready l := by
  obtain ⟨s,hr,hp,hready⟩ : ∃ s, Machine.run (step smallDevice) (Worker.start smallDevice false zeros)
      [.write 5 [1,2] true,.cont,.cont,.flush] = some s ∧
      s.phase = .flushing .request [(5,[1,2])] [⟨⟨5,2,[1,2]⟩,.pending⟩] ∧
      s.Ready (.fail 0 true true) := ⟨_,rfl,rfl,_,rfl,rfl⟩
  obtain ⟨hgo,hbusy⟩ := worker_never_panics smallDevice_roomy hr
  exact ⟨s,hr,hgo _ hready,hbusy (by simp [hp]) (by simp [hp])⟩

/-- At most one prefetch loop runs, the flag of the readahead says whether one does, and a loop
that waits has its fetch in progress. -/
theorem one_prefetch (hv : v.Roomy) {syncWrites : Bool} {d : Image} {ls : List Label}
    (hr : Machine.run (step v) (Worker.start v syncWrites d) ls = some s) :
    s.tasks.length ≤ 1 ∧ (s.ra.raInflight = true ↔ s.tasks ≠ []) ∧
      ∀ rt ∈ s.tasks, rt.waiting = true → s.fetches rt.clba ≠ none := by
  have h := addressed_run hv hr
  exact ⟨h.single,h.flag,fun rt hrt hw => ((h.tasks rt hrt).2 hw).2⟩

def eagerDevice : Device := { smallDevice with raMaxKb := 100 }

theorem eagerDevice_roomy : eagerDevice.Roomy where
  some_byte := by decide
  small := by decide
  total := by decide
  bounded := by decide
  room := by decide
  window := by decide
  burst := by decide

theorem eager_fetched : ∃ s, Machine.run (step eagerDevice) (Worker.start eagerDevice false zeros)
      ([.read 0 1,.cont] ++ ([.fetched 0] ++ [.cont])) = some s ∧ s.phase = .idle ∧
    s.dirty = .new ∧ s.inner 0 = some (zeros.read 0 65536) ∧
    s.fetches 0 = none ∧ s.tasks = [] ∧ s.ra = ⟨0,8,1,false⟩ := by
  have hcall : ∃ inner fetches, Machine.run (step eagerDevice) (Worker.start eagerDevice false zeros)
      [.read 0 1,.cont] = some { Worker.start eagerDevice false zeros with
        phase := .awaiting ⟨0,1,0,1,0,1⟩ 0 [], inner := inner, fetches := fetches } ∧
      fetches 0 = some (zeros.read 0 65536) := ⟨_,_,rfl,rfl⟩
  obtain ⟨inner,fetches,hcall,hf⟩ := hcall
  have hfetch : step eagerDevice { Worker.start eagerDevice false zeros with
        phase := .awaiting ⟨0,1,0,1,0,1⟩ 0 [], inner := inner, fetches := fetches } (.fetched 0) =
      some { Worker.start eagerDevice false zeros with
        phase := .reading ⟨0,1,0,1,0,1⟩ 65536 ((zeros.read 0 65536).take 1)
        inner := Function.update inner 0 (some (zeros.read 0 65536))
        fetches := Function.update fetches 0 none } := by
    show Worker.fetchDone eagerDevice _ 0 = _
    simp only [fetchDone,hf]
    exact takeChunk_whole (by decide) (by decide) (Image.read_length _ _ _)
  have hlast : ∃ s, Machine.run (step eagerDevice) { Worker.start eagerDevice false zeros with
        phase := .reading ⟨0,1,0,1,0,1⟩ 65536 ((zeros.read 0 65536).take 1)
        inner := Function.update inner 0 (some (zeros.read 0 65536))
        fetches := Function.update fetches 0 none } [.cont] = some s ∧ s.phase = .idle ∧
      s.dirty = .new ∧ s.inner 0 = some (zeros.read 0 65536) ∧
      s.fetches 0 = none ∧ s.tasks = [] ∧ s.ra = ⟨0,8,1,false⟩ := ⟨_,rfl,rfl,rfl,rfl,rfl,rfl,rfl⟩
  obtain ⟨s,hs,h⟩ := hlast
  exact ⟨s,Machine.run_trans hcall (Machine.run_trans (Machine.run_one hfetch) hs),h⟩

theorem one_prefetch_sequential : ∃ s, Machine.run (step eagerDevice)
      (Worker.start eagerDevice false zeros) ([.read 0 1,.cont] ++ ([.fetched 0] ++ [.cont]) ++
        ([.read 1 1,.cont,.cont] ++ [.evict 0,.readahead 0])) = some s ∧
    (∃ rt ∈ s.tasks, rt.waiting = true) ∧ s.tasks.length ≤ 1 ∧
    (s.ra.raInflight = true ↔ s.tasks ≠ []) ∧
    ∀ rt ∈ s.tasks, rt.waiting = true → s.fetches rt.clba ≠ none := by
  obtain ⟨u,hu,hp,hd,hi,hf,ht,hra⟩ := eager_fetched
  obtain ⟨r,x,p,hread⟩ := block_run (s := u) eagerDevice_roomy.toSized (show 1 < 16 by decide)
    (by decide) hp hd hi (Image.read_length _ _ _) (by decide)
  have htrigger : { u with phase := p }.triggerReadahead eagerDevice 1 1 =
      some { u with phase := p, ra := ⟨1,16,18,true⟩, tasks := [⟨0,18,false⟩] } := by
    have hmax : min 16 eagerDevice.raMaxBlocks = 16 := by decide
    have hchunk : eagerDevice.chunkLba 2 = some 0 := by decide
    simp [triggerReadahead,Iscsi.addU64,Iscsi.mulU32,hra,ht,hmax,hchunk]
  rw [htrigger,Option.map_some] at hread
  have hloop : ∃ s, Machine.run (step eagerDevice) (readDone { u with
        phase := p, ra := ⟨1,16,18,true⟩, tasks := [⟨0,18,false⟩] } r x)
        [.evict 0,.readahead 0] = some s ∧ ∃ rt ∈ s.tasks, rt.waiting = true := by
    simp [Machine.run,step,raStep,readDone,answer,hf]
  obtain ⟨s,hs,hwait⟩ := hloop
  have hrun := Machine.run_trans hu (Machine.run_trans hread hs)
  exact ⟨s,hrun,hwait,one_prefetch eagerDevice_roomy hrun⟩
end Step

end IscsiFuse.Block
