import IscsiFuse.Block.Fetches
set_option autoImplicit false

namespace IscsiFuse.Block
open IscsiFuse.Iscsi

def Label.caches : Label → Bool
  | .cont | .fetched _ | .readahead _ | .evict _ => true
  | _ => false

def ReadCall.reply (r : ReadCall) (assembled : Bytes) : Reply Bytes :=
  if assembled.length < r.skip+r.actualSize then .err .shortRead
  else .ok ((assembled.drop r.skip).take r.actualSize)

def ReadCall.direct (v : Device) (d : Image) (r : ReadCall) : Bytes :=
  d.read (r.startLba*v.blockSize) (r.blockCount*v.blockSize)

def Device.Overlaps (v : Device) (lba n c : Nat) : Prop := c < lba+n ∧ lba < c+v.chunkBlocks

def WriteCall.Spares (v : Device) (w : WriteCall) (l : Label) : Prop :=
  l.caches = true ∧ ∀ c, l = .fetched c → ¬ v.Overlaps w.startLba w.blockCount c

theorem Fresh.full {v : Device} {s : Worker} (h : Fresh v s) : Full v s where
  inner := fun c chunk hc => by rw [h.inner c chunk hc]; exact Image.read_length ..
  fetches := fun c chunk hc => by rw [h.fetches c chunk hc]; exact Image.read_length ..

namespace Worker

def readBlocks (v : Device) (s : Worker) (r : ReadCall) : Option Worker :=
  (v.chunkLba r.startLba).map (fun clba => { s with phase := .reading r clba [] })

def invalidateRange (v : Device) (s : Worker) (w : WriteCall) : Option Worker :=
  (v.chunkLba w.startLba).map (fun clba => { s with phase := .invalidating w clba })

structure ReadsRight (v : Device) (s : Worker) (r : ReadCall) (t : Worker) : Prop where
  fresh : Fresh v t
  disk : t.disk = s.disk
  ends : ∃ u, Serves v t u
  returns : ∀ clba bytes, t.phase = .reading r clba bytes → r.startLba+r.blockCount ≤ clba →
    bytes = r.direct v s.disk
  reply : t.phase = .idle →
    t.log = s.log ++ [.readReply r.offset r.size (r.reply (r.direct v s.disk))]

/-- Cached reads are direct reads, whatever is evicted, prefetched or fetched meanwhile. -/
def ReadsDirectly (v : Device) (s : Worker) (r : ReadCall) : Prop :=
  ∃ t, s.readBlocks v r = some t ∧ ∀ ls u, (∀ l ∈ ls, l.caches = true) →
    Machine.run (step v) t ls = some u → ReadsRight v s r u

structure InvalidatesRight (v : Device) (w : WriteCall) (t : Worker) : Prop where
  advances : ∀ clba, t.phase = .invalidating w clba → clba < w.startLba+w.blockCount →
    ∃ u, step v t .cont = some u ∧ u.phase = .invalidating w (clba+v.chunkBlocks)
  gone : ∀ clba, t.phase = .invalidating w clba → w.startLba+w.blockCount ≤ clba →
    ∀ c, v.Overlaps w.startLba w.blockCount c → t.inner c = none

/-- Whatever is evicted, prefetched or fetched meanwhile, unless it is a chunk of the range that
a fetch brings back. -/
def Invalidates (v : Device) (s : Worker) (w : WriteCall) : Prop :=
  ∃ t, s.invalidateRange v w = some t ∧ ∀ ls u, (∀ l ∈ ls, w.Spares v l) →
    Machine.run (step v) t ls = some u → InvalidatesRight v w u

/-- The chunk loop of the call, up to a chunk. -/
structure Loop (v : Device) (s : Worker) (r : ReadCall) (t : Worker) (clba : Nat) (acc : Bytes) :
    Prop where
  phase : t.phase.read = some (r,clba,acc)
  log : t.log = s.log
  ra : t.ra.lastLba = s.ra.lastLba ∧ t.ra.raWindow = s.ra.raWindow ∧ t.ra.raStart = s.ra.raStart
  chunk : v.chunkBlocks ∣ clba
  behind : r.startLba < clba+v.chunkBlocks
  bytes : acc = s.disk.read (r.startLba*v.blockSize)
    ((min (max clba r.startLba) (r.startLba+r.blockCount)-r.startLba)*v.blockSize)
  awaited : t.phase = .awaiting r clba acc →
    (∃ chunk, t.fetches clba = some chunk) ∧ clba < r.startLba+r.blockCount

/-- What holds in and after the call of `read_blocks` that `s` makes. -/
structure Called (v : Device) (s : Worker) (r : ReadCall) (t : Worker) : Prop where
  fresh : Fresh v t
  disk : t.disk = s.disk
  stage : (t.phase = .idle ∧
      t.log = s.log ++ [.readReply r.offset r.size (r.reply (r.direct v s.disk))]) ∨
    ∃ clba acc, Loop v s r t clba acc

variable {v : Device} {s t u : Worker} {r : ReadCall} {clba last : Nat} {acc : Bytes}

theorem readStep_done (hl : v.chunkLba (r.startLba+r.blockCount-1) = some last) (hlt : last < clba) :
    s.readStep v r clba acc = (s.triggerReadahead v r.startLba r.blockCount).map
      (fun u => u.readDone r (r.reply acc)) := by
  by_cases ha : acc.length < r.skip+r.actualSize
  · simp only [readStep,hl,Option.bind_eq_bind,Option.bind_some,if_neg (Nat.not_le.mpr hlt),if_pos ha,
      ReadCall.reply,Option.map_eq_bind]
    rfl
  · rw [readStep_finish hl hlt (Nat.le_of_not_lt ha),ReadCall.reply,if_neg ha]

theorem Loop.take {chunk : Bytes} (h : Loop v s r t clba acc) (hc : chunk = v.chunkOf s.disk clba)
    {w : Worker} (ht : u.takeChunk v r clba acc chunk = some w) (hu : u.log = t.log ∧ u.ra = t.ra) :
    ∃ acc', Loop v s r w (clba+v.chunkBlocks) acc' := by
  obtain ⟨hle,piece,rfl,hp⟩ := takeChunk_cases ht
  have hlen : chunk.length = v.chunkBytes := by rw [hc]; exact Image.read_length ..
  refine ⟨acc ++ piece,rfl,hu.1.trans h.log,?_,Nat.dvd_add h.chunk (Nat.dvd_refl _),
    by have := h.behind; omega,?_,fun hw => by cases hw⟩
  · rw [hu.2]
    exact h.ra
  · rw [h.bytes]
    exact readTo_take hle (hc ▸ hp hlen)

theorem caches_target {l : Label} (h : l.caches = true) : l.target v t = none := by
  cases l <;> first | rfl | cases h

theorem triggerReadahead_log {lba n : Nat} (h : t.triggerReadahead v lba n = some u) :
    u.log = t.log := by
  obtain ⟨_,_,rfl⟩ := triggerReadahead_cases h
  rfl

theorem raStep_ra {i : Nat} (h : t.raStep v i = some u) :
    u.ra.lastLba = t.ra.lastLba ∧ u.ra.raWindow = t.ra.raWindow ∧ u.ra.raStart = t.ra.raStart := by
  unfold raStep at h
  simp only [Option.bind_eq_bind,Option.bind_eq_some_iff] at h
  obtain ⟨rt,_,h⟩ := h
  split at h
  · cases h
  · split at h
    · split at h
      · simp only [Option.bind_eq_some_iff] at h
        obtain ⟨_,_,h⟩ := h
        cases h
        exact ⟨rfl,rfl,rfl⟩
      · split at h <;> cases h <;> exact ⟨rfl,rfl,rfl⟩
    · cases h
      exact ⟨rfl,rfl,rfl⟩

theorem Loop.keep (h : Loop v s r t clba acc) (hp : u.phase = t.phase) (hl : u.log = t.log)
    (hra : u.ra.lastLba = t.ra.lastLba ∧ u.ra.raWindow = t.ra.raWindow ∧
      u.ra.raStart = t.ra.raStart)
    (hf : t.phase = .awaiting r clba acc → ∀ chunk, t.fetches clba = some chunk →
      ∃ chunk, u.fetches clba = some chunk) : Loop v s r u clba acc where
  phase := hp ▸ h.phase
  log := hl.trans h.log
  ra := ⟨hra.1.trans h.ra.1,hra.2.1.trans h.ra.2.1,hra.2.2.trans h.ra.2.2⟩
  chunk := h.chunk
  behind := h.behind
  bytes := h.bytes
  awaited := fun hw => by
    rw [hp] at hw
    obtain ⟨⟨chunk,hc⟩,hlt⟩ := h.awaited hw
    exact ⟨hf hw chunk hc,hlt⟩

theorem Loop.cont (hn : 0 < r.blockCount) (hf : Fresh v t) (hd : t.disk = s.disk)
    (h : Loop v s r t clba acc) (hs : t.readStep v r clba acc = some u) :
    (u.phase = .idle ∧
      u.log = s.log ++ [.readReply r.offset r.size (r.reply (r.direct v s.disk))]) ∨
    ∃ clba acc, Loop v s r u clba acc := by
  obtain ⟨last,hl,hc⟩ := readStep_cases hs
  have hlast := last_lt_iff hn hl h.chunk
  rcases hc with ⟨_,chunk,hi,hk⟩ | ⟨hle,chunk,hc,rfl⟩ | ⟨hle,_,rfl⟩ | ⟨hlt,_⟩
  · obtain ⟨acc',hl'⟩ := h.take (by rw [← hd]; exact hf.inner clba chunk hi) hk ⟨rfl,rfl⟩
    exact Or.inr ⟨_,acc',hl'⟩
  · exact Or.inr ⟨clba,acc,rfl,h.log,h.ra,h.chunk,h.behind,h.bytes,
      fun _ => ⟨⟨chunk,hc⟩,by omega⟩⟩
  · exact Or.inr ⟨clba,acc,rfl,h.log,h.ra,h.chunk,h.behind,h.bytes,
      fun _ => ⟨⟨_,Function.update_self ..⟩,by omega⟩⟩
  · rw [readStep_done hl hlt,Option.map_eq_some_iff] at hs
    obtain ⟨w,hw,rfl⟩ := hs
    have hend := hlast.mp hlt
    have hacc : acc = r.direct v s.disk := by
      rw [h.bytes,ReadCall.direct]
      congr 2
      omega
    refine Or.inl ⟨rfl,?_⟩
    show w.log ++ _ = _
    rw [triggerReadahead_log hw,h.log,hacc]

theorem called_step {l : Label} (hn : 0 < r.blockCount) (h : Called v s r t) (hl : l.caches = true)
    (hs : step v t l = some u) : Called v s r u := by
  have htarget := caches_target (v := v) (t := t) hl
  have hdisk : u.disk = t.disk := by
    rcases step_store hs with hm | ⟨w,hw,_⟩
    · exact hm.disk
    · rw [htarget] at hw
      cases hw
  refine ⟨fresh_step h.fresh (leavesHeld_of_target_none htarget) hs,hdisk.trans h.disk,?_⟩
  cases l with
  | read | write | flush | setSyncWrites | tick | close | good | fail | syncGood | syncFail
  | fetchFailed | strayApplied => cases hl
  | cont =>
    rcases h.stage with ⟨hp,_⟩ | ⟨clba,acc,hloop⟩
    · simp [step,hp] at hs
    · cases hp : t.phase with
      | reading r' k a =>
        have hr := hloop.phase
        rw [hp] at hr
        cases hr
        refine hloop.cont hn h.fresh h.disk ?_
        simpa only [step,hp] using hs
      | awaiting r' k a => simp [step,hp] at hs
      | idle | invalidating | flushing | syncing | stopped =>
        have hr := hloop.phase
        rw [hp] at hr
        cases hr
  | fetched c =>
    have hs : t.fetchDone v c = some u := by simpa only [step] using hs
    obtain ⟨chunk,tasks,hc,⟨rfl,hw⟩ | ⟨r',acc',hp,hk⟩⟩ := fetchDone_cases hs
    · rcases h.stage with hi | ⟨clba,acc,hloop⟩
      · exact Or.inl hi
      · refine Or.inr ⟨clba,acc,hloop.keep rfl rfl ⟨rfl,rfl,rfl⟩ (fun hp chunk' hx => ?_)⟩
        have hne : clba ≠ c := fun he => hw r acc (he ▸ hp)
        exact ⟨chunk',(Function.update_of_ne hne _ _).trans hx⟩
    · rcases h.stage with ⟨hi,_⟩ | ⟨clba,acc,hloop⟩
      · rw [hi] at hp
        cases hp
      · have hr := hloop.phase
        rw [hp] at hr
        cases hr
        obtain ⟨acc',hl'⟩ := hloop.take (by rw [← h.disk]; exact h.fresh.fetches c chunk hc) hk
          ⟨rfl,rfl⟩
        exact Or.inr ⟨_,acc',hl'⟩
  | readahead i =>
    have hs : t.raStep v i = some u := by simpa only [step] using hs
    obtain ⟨hp,_,hlog,_⟩ := raStep_round hs
    rcases h.stage with ⟨hi,hx⟩ | ⟨clba,acc,hloop⟩
    · exact Or.inl ⟨hp.trans hi,hlog.trans hx⟩
    · refine Or.inr ⟨clba,acc,hloop.keep hp hlog (raStep_ra hs) (fun _ chunk hx => ?_)⟩
      obtain ⟨tasks,ra,rfl | ⟨c,_,rfl⟩⟩ := raStep_cases hs
      · exact ⟨chunk,hx⟩
      · by_cases hc : clba = c
        · exact ⟨_,by rw [hc]; exact Function.update_self ..⟩
        · exact ⟨chunk,(Function.update_of_ne hc _ _).trans hx⟩
  | evict c =>
    cases hs
    rcases h.stage with hi | ⟨clba,acc,hloop⟩
    · exact Or.inl hi
    · exact Or.inr ⟨clba,acc,hloop.keep rfl rfl ⟨rfl,rfl,rfl⟩ (fun _ chunk hx => ⟨chunk,hx⟩)⟩

/-- The inflight flag does not matter: what is read lies far below the last address. -/
theorem fits_of_same {ra ra' : ReadaheadState} {lba n : Nat} (hlt : lba+n ≤ 2^63)
    (h : ra.Fits v lba n) (he : ra'.lastLba = ra.lastLba ∧ ra'.raWindow = ra.raWindow ∧
      ra'.raStart = ra.raStart) : ra'.Fits v lba n := by
  intro hseq
  rw [he.1] at hseq
  obtain ⟨hw,hm,_⟩ := h hseq
  rw [he.2.1,he.2.2]
  exact ⟨hw,hm,fun _ => by omega⟩

theorem serves_over (hp : t.phase = .reading r clba acc)
    (hl : v.chunkLba (r.startLba+r.blockCount-1) = some last) (hlt : last < clba) :
    (∃ w, Serves v t w) ↔ ∃ w, t.triggerReadahead v r.startLba r.blockCount = some w := by
  have hstep : t.readStep v r clba acc = _ := readStep_done hl hlt
  cases hw : t.triggerReadahead v r.startLba r.blockCount with
  | none =>
    rw [hw] at hstep
    exact ⟨fun ⟨w,h⟩ => absurd h (not_serves_cont hp hstep),fun ⟨w,h⟩ => by cases h⟩
  | some w =>
    rw [hw] at hstep
    exact ⟨fun _ => ⟨w,rfl⟩,fun _ => ⟨_,(serves_cont hp hstep).mpr ((serves_idle rfl).mpr rfl)⟩⟩

theorem Loop.serves_iff (hb : 1 ≤ v.blockSize ∧ v.blockSize ≤ 65536) (hn : 0 < r.blockCount)
    (hr : r.startLba+r.blockCount ≤ 2^63) (hf : Full v t) (h : Loop v s r t clba acc)
    (hp : t.phase = .reading r clba acc) :
    (∃ w, Serves v t w) ↔ s.ra.Fits v r.startLba r.blockCount := by
  obtain ⟨hpos,hmax⟩ := chunkBlocks_bounds hb
  obtain ⟨last,hl⟩ : ∃ last, v.chunkLba (r.startLba+r.blockCount-1) = some last :=
    ⟨_,if_neg (by omega)⟩
  obtain ⟨_,_,hle,hlt⟩ := chunkLba_bounds hl
  have hback : ∀ ra : ReadaheadState, ra = t.ra →
      (ra.Fits v r.startLba r.blockCount ↔ s.ra.Fits v r.startLba r.blockCount) := by
    intro ra he
    subst he
    exact ⟨fun hx => fits_of_same hr hx ⟨h.ra.1.symm,h.ra.2.1.symm,h.ra.2.2.symm⟩,
      fun hx => fits_of_same hr hx h.ra⟩
  by_cases hc : clba ≤ last
  · have hlen : acc.length =
        (min (max clba r.startLba) (r.startLba+r.blockCount)-r.startLba)*v.blockSize := by
      rw [h.bytes]
      exact Image.read_length ..
    obtain ⟨x,acc',hx,hxp,_,hxr,_⟩ := (serves_loop hp hf hl hn (by omega) h.chunk h.behind hc hlen).2
      (by omega)
    rw [exists_congr hx,serves_over hxp hl (by omega),triggerReadahead_fits hpos (by omega),
      hback _ hxr]
  · rw [serves_over hp hl (by omega),triggerReadahead_fits hpos (by omega),hback _ rfl]

theorem Loop.ends (hb : 1 ≤ v.blockSize ∧ v.blockSize ≤ 65536) (hn : 0 < r.blockCount)
    (hr : r.startLba+r.blockCount ≤ 2^63) (hd : t.disk = s.disk) (hf : Fresh v t)
    (hfits : s.ra.Fits v r.startLba r.blockCount) (h : Loop v s r t clba acc) :
    ∃ w, Serves v t w := by
  cases hp : t.phase with
  | reading r' k a =>
    have hx := h.phase
    rw [hp] at hx
    cases hx
    exact (h.serves_iff hb hn hr hf.full hp).mpr hfits
  | awaiting r' k a =>
    have hx := h.phase
    rw [hp] at hx
    cases hx
    obtain ⟨⟨chunk,hc⟩,hlt⟩ := h.awaited hp
    obtain ⟨x,hxr,hxl,hxf,htake,_⟩ := serves_awaiting hp hf.full hc
    have hbehind := h.behind
    obtain ⟨_,hmax⟩ := chunkBlocks_bounds hb
    obtain ⟨y,acc',hy,hyp,_,hyf,_,_⟩ := @takeChunk_length v x r clba acc chunk hxf (by omega)
      (show max r.startLba clba ≤ min (r.startLba+r.blockCount) (clba+v.chunkBlocks) by omega)
      (hf.full.fetches clba chunk hc)
    obtain ⟨acc'',hl⟩ := h.take (by rw [← hd]; exact hf.fetches clba chunk hc) hy ⟨hxl,hxr⟩
    have hyr := hl.phase
    rw [hyp] at hyr
    cases hyr
    obtain ⟨w,hw⟩ := (hl.serves_iff hb hn hr hyf hyp).mpr hfits
    exact ⟨w,(htake y hy w).mpr hw⟩
  | idle | invalidating | flushing | syncing | stopped =>
    have hx := h.phase
    rw [hp] at hx
    cases hx

theorem Called.right (hb : 1 ≤ v.blockSize ∧ v.blockSize ≤ 65536) (hn : 0 < r.blockCount)
    (hr : r.startLba+r.blockCount ≤ 2^63) (hfits : s.ra.Fits v r.startLba r.blockCount)
    (h : Called v s r t) : ReadsRight v s r t where
  fresh := h.fresh
  disk := h.disk
  ends := by
    rcases h.stage with ⟨hi,_⟩ | ⟨clba,acc,hl⟩
    · exact ⟨t,(serves_idle hi).mpr rfl⟩
    · exact hl.ends hb hn hr h.disk h.fresh hfits
  returns := by
    intro clba bytes hp hend
    rcases h.stage with ⟨hi,_⟩ | ⟨clba',acc,hl⟩
    · rw [hi] at hp
      cases hp
    · have hx := hl.phase
      rw [hp] at hx
      cases hx
      rw [hl.bytes,ReadCall.direct]
      congr 2
      omega
  reply := by
    intro hi
    rcases h.stage with ⟨_,hx⟩ | ⟨clba,acc,hl⟩
    · exact hx
    · have hx := hl.phase
      rw [hi] at hx
      cases hx

theorem readBlocks_loop (hb : 1 ≤ v.blockSize ∧ v.blockSize ≤ 65536) (hf : Fresh v s) :
    ∃ clba, s.readBlocks v r = some { s with phase := .reading r clba [] } ∧
      Fresh v { s with phase := .reading r clba [] } ∧
      Loop v s r { s with phase := .reading r clba [] } clba [] := by
  obtain ⟨hpos,_⟩ := chunkBlocks_bounds hb
  have hl : v.chunkLba r.startLba = some (r.startLba/v.chunkBlocks*v.chunkBlocks) :=
    if_neg (by omega)
  obtain ⟨_,hd,hle,hlt⟩ := chunkLba_bounds hl
  refine ⟨_,by rw [readBlocks,hl,Option.map_some],⟨hf.inner,hf.fetches⟩,rfl,rfl,⟨rfl,rfl,rfl⟩,hd,hlt,
    ?_,fun hw => by cases hw⟩
  rw [Nat.max_eq_right hle,Nat.min_eq_left (by omega),Nat.sub_self,Nat.zero_mul]
  rfl

theorem invalidateStep_clear {w : WriteCall} (hl : v.chunkLba (w.startLba+w.blockCount-1) = some last)
    (hle : clba ≤ last) (ho : clba+v.chunkBlocks < 2^64) : t.invalidateStep v w clba =
      some { t with inner := Function.update t.inner clba none
                    phase := .invalidating w (clba+v.chunkBlocks) } := by
  simp only [invalidateStep,hl,Option.bind_eq_bind,Option.bind_some,if_pos hle,addU64,if_pos ho]
  rfl

def Remaining (v : Device) (w : WriteCall) (t : Worker) : Prop :=
  ∀ clba, t.phase = .invalidating w clba → v.chunkBlocks ∣ clba ∧
    ∀ c, v.Overlaps w.startLba w.blockCount c → t.inner c ≠ none → v.chunkBlocks ∣ c ∧ clba ≤ c

def Left (t : Worker) : Prop := ∀ w clba, t.phase ≠ .invalidating w clba

theorem flushDone_left (t : Worker) (x : Reply Unit) (k : Caller) : (t.flushDone x k).Left := by
  intro w clba
  cases k <;> simp [flushDone,answer]

theorem startFlush_left {k : Caller} (h : t.startFlush v k = some u) : u.Left := by
  rcases startFlush_cases h with ⟨_,rfl⟩ | ⟨_,_,_,rfl⟩
  · exact flushDone_left _ _ _
  · intro w clba
    simp

theorem invalidateStep_round {w : WriteCall} (h : t.invalidateStep v w clba = some u) :
    u = { t with inner := Function.update t.inner clba none
                 phase := .invalidating w (clba+v.chunkBlocks) } ∨ u.Left := by
  unfold invalidateStep at h
  simp only [Option.bind_eq_bind,Option.bind_eq_some_iff] at h
  obtain ⟨last,_,h⟩ := h
  split at h
  · simp only [Option.bind_eq_some_iff,addU64_eq_some] at h
    obtain ⟨_,⟨_,rfl⟩,h⟩ := h
    cases h
    exact Or.inl rfl
  · split at h
    · exact Or.inr (startFlush_left h)
    · cases h
      exact Or.inr (fun w' k => by simp)

theorem cont_left (h : t.Left) (hs : step v t .cont = some u) : u.Left := by
  cases hp : t.phase with
  | reading r k a =>
    have hs : t.readStep v r k a = some u := by simpa only [step,hp] using hs
    obtain ⟨last,_,⟨_,chunk,_,hk⟩ | ⟨_,_,_,rfl⟩ | ⟨_,_,rfl⟩ | ⟨_,ra,tasks,⟨_,rfl⟩ | rfl⟩⟩ :=
      readStep_cases hs
    · obtain ⟨_,piece,rfl,_⟩ := takeChunk_cases hk
      intro w clba
      simp
    all_goals
      intro w clba
      simp [readDone]
  | invalidating w k => exact absurd hp (h w k)
  | flushing k dr cmds =>
    have hs : t.awaitWrites k dr cmds = some u := by simpa only [step,hp] using hs
    rcases awaitWrites_cases hs with ⟨_,rfl⟩ | ⟨_,_,_,_,left,err,rfl⟩
    · intro w clba
      simp
    · exact flushDone_left _ _ _
  | idle | awaiting | syncing | stopped => simp [step,hp] at hs

theorem Remaining.of_left {w : WriteCall} (h : t.Left) : Remaining v w t :=
  fun clba hp => absurd hp (h w clba)

theorem Remaining.keep {w : WriteCall} (h : Remaining v w t) (hp : u.phase = t.phase)
    (hi : ∀ c, v.Overlaps w.startLba w.blockCount c → u.inner c ≠ none → t.inner c ≠ none) :
    Remaining v w u := by
  intro clba hw
  rw [hp] at hw
  exact ⟨(h clba hw).1,fun c hc hx => (h clba hw).2 c hc (hi c hc hx)⟩

theorem Remaining.round {w : WriteCall} (h : Remaining v w t) (hp : t.phase = .invalidating w clba) :
    Remaining v w { t with inner := Function.update t.inner clba none
                           phase := .invalidating w (clba+v.chunkBlocks) } := by
  intro k hk
  cases hk
  obtain ⟨hd,hrest⟩ := h clba hp
  refine ⟨Nat.dvd_add hd (Nat.dvd_refl _),fun c hc hx => ?_⟩
  by_cases hcc : c = clba
  · rw [hcc] at hx
    exact absurd (Function.update_self ..) hx
  · obtain ⟨hdc,hle⟩ := hrest c hc (fun hn => hx ((Function.update_of_ne hcc _ _).trans hn))
    exact ⟨hdc,next_chunk_le hd hdc (by omega)⟩

theorem remaining_step {w : WriteCall} {l : Label} (h : Remaining v w t) (hl : w.Spares v l)
    (hs : step v t l = some u) : Remaining v w u := by
  obtain ⟨hl,hspare⟩ := hl
  cases l with
  | read | write | flush | setSyncWrites | tick | close | good | fail | syncGood | syncFail
  | fetchFailed | strayApplied => cases hl
  | cont =>
    by_cases hleft : t.Left
    · exact .of_left (cont_left hleft hs)
    · simp only [Left,not_forall,not_not] at hleft
      obtain ⟨w',clba,hp⟩ := hleft
      have hs : t.invalidateStep v w' clba = some u := by simpa only [step,hp] using hs
      rcases invalidateStep_round hs with rfl | hu
      · intro k hk
        cases hk
        exact h.round hp _ rfl
      · exact .of_left hu
  | fetched c =>
    have hs : t.fetchDone v c = some u := by simpa only [step] using hs
    obtain ⟨chunk,tasks,_,⟨rfl,_⟩ | ⟨r',acc',hp,hk⟩⟩ := fetchDone_cases hs
    · refine h.keep rfl (fun k hk hx hn => hx ?_)
      have hne : k ≠ c := fun he => hspare c rfl (he ▸ hk)
      exact (Function.update_of_ne hne _ _).trans hn
    · obtain ⟨_,piece,rfl,_⟩ := takeChunk_cases hk
      exact .of_left (fun w' clba => by simp)
  | readahead i =>
    have hs : t.raStep v i = some u := by simpa only [step] using hs
    obtain ⟨tasks,ra,rfl | ⟨c,_,rfl⟩⟩ := raStep_cases hs
    · exact h.keep rfl (fun _ _ hx => hx)
    · exact h.keep rfl (fun _ _ hx => hx)
  | evict c =>
    cases hs
    refine h.keep rfl (fun k _ hx hn => hx ?_)
    by_cases hk : k = c
    · rw [hk]
      exact Function.update_self ..
    · exact (Function.update_of_ne hk _ _).trans hn

theorem Remaining.right {w : WriteCall} (hb : 1 ≤ v.blockSize ∧ v.blockSize ≤ 65536)
    (hn : 0 < w.blockCount) (hw : w.startLba+w.blockCount ≤ 2^63) (h : Remaining v w t) :
    InvalidatesRight v w t where
  advances := by
    intro clba hp hlt
    obtain ⟨hpos,hmax⟩ := chunkBlocks_bounds hb
    have hl : v.chunkLba (w.startLba+w.blockCount-1) =
        some ((w.startLba+w.blockCount-1)/v.chunkBlocks*v.chunkBlocks) := if_neg (by omega)
    have hend := last_lt_iff hn hl (h clba hp).1
    have hclear := invalidateStep_clear (t := t) hl (show clba ≤ _ by omega) (by omega)
    exact ⟨_,by simpa only [step,hp] using hclear,rfl⟩
  gone := by
    intro clba hp hend c hc
    by_contra hx
    have hle := ((h clba hp).2 c hc hx).2
    have hlt := hc.1
    omega

theorem invalidates (hb : 1 ≤ v.blockSize ∧ v.blockSize ≤ 65536)
    (hk : ∀ c, s.inner c ≠ none → v.chunkBlocks ∣ c) {w : WriteCall} (hn : 0 < w.blockCount)
    (hw : w.startLba+w.blockCount ≤ 2^63) : s.Invalidates v w := by
  obtain ⟨hpos,_⟩ := chunkBlocks_bounds hb
  have hl : v.chunkLba w.startLba = some (w.startLba/v.chunkBlocks*v.chunkBlocks) :=
    if_neg (by omega)
  obtain ⟨_,hd,hle,hlt⟩ := chunkLba_bounds hl
  refine ⟨_,by rw [invalidateRange,hl,Option.map_some],fun ls x hls hrun => Remaining.right hb hn hw ?_⟩
  refine Machine.run_invariant_of (I := Remaining v w) (p := w.Spares v)
    (fun _ _ _ hi hl hs => remaining_step hi hl hs) ?_ hls hrun
  intro clba hp
  cases hp
  refine ⟨hd,fun c hc hx => ⟨hk c hx,?_⟩⟩
  by_contra hgt
  have hnext := next_chunk_le (hk c hx) hd (by omega)
  have hover := hc.2
  omega

theorem readsDirectly_iff (hb : 1 ≤ v.blockSize ∧ v.blockSize ≤ 65536) (hf : Fresh v s)
    (hn : 0 < r.blockCount) (hr : r.startLba+r.blockCount ≤ 2^63) :
    s.ReadsDirectly v r ↔ s.ra.Fits v r.startLba r.blockCount := by
  obtain ⟨clba,hcall,hfresh,hloop⟩ := readBlocks_loop (r := r) hb hf
  constructor
  · intro ⟨x,hx,hall⟩
    rw [hcall] at hx
    cases hx
    exact (hloop.serves_iff hb hn hr hfresh.full rfl).mp (hall [] _ (by simp) rfl).ends
  · intro hfits
    refine ⟨_,hcall,fun ls x hls hrun => Called.right hb hn hr hfits ?_⟩
    exact Machine.run_invariant_of (I := Called v s r) (p := fun l => l.caches = true)
      (fun _ _ _ hi hl hs => called_step hn hi hl hs) ⟨hfresh,rfl,Or.inr ⟨clba,[],hloop⟩⟩ hls hrun

theorem triggerReadahead_next {lba n : Nat} (hlt : lba+n+2^32 < 2^64) (hs : s.ra.lastLba+n = lba)
    (hw : s.ra.raWindow*2 < 2^32) (hst : s.ra.raStart+2^32 < 2^64) (hc : 0 < v.chunkBlocks) :
    ∃ t, s.triggerReadahead v lba n = some t ∧ t.ra.lastLba = lba ∧
      t.ra.raWindow = min (s.ra.raWindow*2) v.raMaxBlocks ∧
      t.ra.raStart ≤ max s.ra.raStart (lba+n+2^32) := by
  have hseq : s.ra.lastLba ≠ 2^64-1 ∧ lba = (s.ra.lastLba+n)%2^64 := by omega
  have hfits : s.ra.Fits v lba n := fun _ => ⟨hw,by omega,fun _ => by omega⟩
  obtain ⟨t,ht⟩ := (triggerReadahead_fits hc (by omega)).mpr hfits
  refine ⟨t,ht,?_⟩
  unfold triggerReadahead at ht
  simp only [Option.bind_eq_bind,Option.bind_eq_some_iff,addU64_eq_some,mulU32_eq_some,
    if_neg (not_not.mpr hseq)] at ht
  obtain ⟨_,⟨_,rfl⟩,_,⟨_,rfl⟩,_,⟨_,rfl⟩,ht⟩ := ht
  split at ht
  · simp only [Option.bind_eq_some_iff,addU64_eq_some] at ht
    obtain ⟨_,⟨_,rfl⟩,clba,_,ht⟩ := ht
    cases ht
    exact ⟨rfl,rfl,by dsimp only; omega⟩
  · cases ht
    exact ⟨rfl,rfl,Nat.le_max_left _ _⟩

end Worker

open Worker

/-- In a cache that holds what the target holds, `read_blocks` returns what a direct read does
and `invalidate_range` leaves no chunk of its range, if and only if the arithmetic of the
readahead stays in range. -/
theorem cached_reads_direct_iff {v : Device} {s : Worker} {r : ReadCall} {w : WriteCall}
    (hb : 1 ≤ v.blockSize ∧ v.blockSize ≤ 65536) (hf : Fresh v s)
    (hk : ∀ c, s.inner c ≠ none → v.chunkBlocks ∣ c) (hr : 0 < r.blockCount)
    (hre : r.startLba+r.blockCount ≤ 2^63) (hw : 0 < w.blockCount)
    (hwe : w.startLba+w.blockCount ≤ 2^63) :
    s.ReadsDirectly v r ∧ s.Invalidates v w ↔ s.ra.Fits v r.startLba r.blockCount := by
  rw [readsDirectly_iff hb hf hr hre]
  exact and_iff_left (invalidates hb hk hw hwe)

def oddBlocks : Device where
  pipeline := ⟨0,3000,1000,NegotiatedParams.defaults10g⟩
  totalBytes := 3000000
  coalesceMaxBytes := 1000
  raMaxKb := 8192

/-- The second of four chunks is cached when they are read, and it goes with a Write. -/
theorem cached_reads_direct_odd :
    let s : Worker := .warm oddBlocks false zeros
      (Function.update (fun _ => none) 21 (some (oddBlocks.chunkOf zeros 21)))
    s.ReadsDirectly oddBlocks ⟨60000,150000,20,50,0,150000⟩ ∧
      s.Invalidates oddBlocks ⟨0,[],0,41,2,none⟩ := by
  intro s
  have hinner : s.inner =
      Function.update (fun _ => none) 21 (some (oddBlocks.chunkOf zeros 21)) := rfl
  have hsame : ∀ c, s.inner c ≠ none → c = 21 := by
    intro c hc
    by_contra hne
    rw [hinner,Function.update_of_ne hne] at hc
    exact hc rfl
  have hf : Fresh oddBlocks s := by
    refine ⟨fun c chunk hc => ?_,fun _ _ hc => (by cases hc)⟩
    obtain rfl := hsame c (by rw [hc]; simp)
    rw [hinner,Function.update_self] at hc
    exact (Option.some.inj hc).symm
  exact (cached_reads_direct_iff (by decide) hf (fun c hc => by rw [hsame c hc]; decide) (by decide)
    (by decide) (by decide) (by decide)).mpr (fun h => absurd rfl h.1)

/-- One chunk of 128 blocks, and a readahead of up to a tebibyte. -/
def wideReadahead : Device where
  pipeline := ⟨0,512,128,NegotiatedParams.defaults10g⟩
  totalBytes := 65536
  coalesceMaxBytes := 1000
  raMaxKb := 1073741824

/-- Its worker at the start, with the chunk in the cache. -/
def warmChunk : Worker :=
  .warm wideReadahead false zeros
    (Function.update (fun _ => none) 0 (some (wideReadahead.chunkOf zeros 0)))

theorem warmChunk_inner :
    warmChunk.inner = Function.update (fun _ => none) 0 (some (wideReadahead.chunkOf zeros 0)) := rfl

structure Doubled (k : Nat) (s : Worker) : Prop where
  idle : s.phase = .idle
  dirty : s.dirty = .new
  inner : s.inner = warmChunk.inner
  fetches : s.fetches = fun _ => none
  disk : s.disk = zeros
  lastLba : s.ra.lastLba = k
  raWindow : s.ra.raWindow = 8*2^k
  raStart : s.ra.raStart ≤ 2^33

theorem wide_chunkBlocks : wideReadahead.chunkBlocks = 128 := by decide

theorem warm_read {s : Worker} {b : Nat} (hb : b ≤ 28) (hp : s.phase = .idle) (hd : s.dirty = .new)
    (hi : s.inner = warmChunk.inner) : ∃ r x p, Machine.run (step wideReadahead) s
        [.read (b*wideReadahead.blockSize) wideReadahead.blockSize,.cont,.cont] =
      ({ s with phase := p }.triggerReadahead wideReadahead b 1).map
        (fun u : Worker => u.readDone r x) := by
  have hsized : wideReadahead.Sized := ⟨by decide,by decide,by decide,by decide⟩
  have hchunk : b/wideReadahead.chunkBlocks*wideReadahead.chunkBlocks = 0 := by
    rw [wide_chunkBlocks]
    omega
  have hlen : (wideReadahead.chunkOf zeros 0).length = wideReadahead.chunkBytes :=
    Image.read_length ..
  refine block_run hsized (show b < 128 by omega) ?_ hp hd ?_ hlen ?_
  · show (128-b)*512 < 2^32
    omega
  · rw [hi,hchunk,warmChunk_inner,Function.update_self]
  · rw [hchunk,wide_chunkBlocks]
    decide

theorem doubled_run {k : Nat} (hk : k ≤ 28) :
    ∃ ls s, Machine.run (step wideReadahead) warmChunk ls = some s ∧ Doubled k s := by
  induction k with
  | zero =>
    obtain ⟨r,x,p,hrun⟩ := warm_read (s := warmChunk) hk rfl rfl rfl
    rw [triggerReadahead_jump (by decide) rfl,Option.map_some] at hrun
    exact ⟨_,_,hrun,rfl,rfl,rfl,rfl,rfl,rfl,rfl,show 0+1 ≤ 2^33 by decide⟩
  | succ k ih =>
    obtain ⟨ls,s,hs,h⟩ := ih (by omega)
    obtain ⟨r,x,p,hrun⟩ := warm_read hk h.idle h.dirty h.inner
    have hpow : 2^k ≤ 2^27 := Nat.pow_le_pow_right (by decide) (by omega)
    have hstart := h.raStart
    obtain ⟨t,ht,hl,hw,hst⟩ := triggerReadahead_next (v := wideReadahead)
      (s := { s with phase := p }) (n := 1) (show k+1+1+2^32 < 2^64 by omega)
      (by rw [h.lastLba]) (by rw [h.raWindow]; omega) (by dsimp only; omega)
      (by rw [wide_chunkBlocks]; decide)
    rw [ht,Option.map_some] at hrun
    refine ⟨_,_,Machine.run_trans hs hrun,?_⟩
    obtain ⟨ra,tasks,rfl⟩ := triggerReadahead_cases ht
    refine ⟨rfl,h.dirty,h.inner,h.fetches,h.disk,hl,hw.trans ?_,hst.trans ?_⟩
    · rw [h.raWindow,show wideReadahead.raMaxBlocks = 2^31 by decide,Nat.pow_succ]
      omega
    · dsimp only
      omega

/-- Twenty-nine Reads in a row double the window to `2^31`; for the next one it no longer fits. -/
theorem window_doubling_overflows : ∃ ls s,
    Machine.run (step wideReadahead) warmChunk ls = some s ∧ s.phase = .idle ∧ Fresh wideReadahead s ∧
    (∀ c, s.inner c ≠ none → wideReadahead.chunkBlocks ∣ c) ∧
    ¬ s.ReadsDirectly wideReadahead ⟨14848,512,29,1,0,512⟩ := by
  obtain ⟨ls,s,hs,h⟩ := doubled_run (Nat.le_refl 28)
  have hsame : ∀ c, s.inner c ≠ none → c = 0 := by
    intro c hc
    by_contra hne
    rw [h.inner,warmChunk_inner,Function.update_of_ne hne] at hc
    exact hc rfl
  have hf : Fresh wideReadahead s := by
    refine ⟨fun c chunk hc => ?_,fun c chunk hc => ?_⟩
    · obtain rfl := hsame c (by rw [hc]; simp)
      rw [h.inner,warmChunk_inner,Function.update_self] at hc
      rw [h.disk]
      exact (Option.some.inj hc).symm
    · rw [h.fetches] at hc
      cases hc
  refine ⟨ls,s,hs,h.idle,hf,fun c hc => ?_,fun hx => ?_⟩
  · rw [hsame c hc]
    exact Nat.dvd_zero _
  · have hfits := (readsDirectly_iff (by decide) hf (by decide) (by decide)).mp hx
      ⟨by rw [h.lastLba]; decide,by rw [h.lastLba]; decide⟩
    have hw := hfits.1
    rw [h.raWindow] at hw
    revert hw
    decide

end IscsiFuse.Block
