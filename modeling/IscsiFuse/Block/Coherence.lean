import IscsiFuse.Block.WorkerSteps
set_option autoImplicit false

namespace IscsiFuse.Block
open IscsiFuse.Iscsi

/-- The patch that a step applies to the target image. -/
def Label.target (v : Device) (s : Worker) (l : Label) : Option Patch :=
  match l, s.phase with
  | .good i, .flushing _ _ cmds => cmds[i]?.map (fun c => c.cmd.patch v.blockSize)
  | .fail i true _, .flushing _ _ cmds => cmds[i]?.map (fun c => c.cmd.patch v.blockSize)
  | .strayApplied i _, _ => s.stray[i]?.map (WriteCommand.patch v.blockSize)
  | _, _ => none

def Device.chunkOf (v : Device) (d : Image) (c : Nat) : Bytes := d.read (c*v.blockSize) v.chunkBytes

/-- The image stays, and what is cached or being fetched was there before or has
just been read. -/
structure Moved (v : Device) (s t : Worker) : Prop where
  disk : t.disk = s.disk
  inner : ∀ c x, t.inner c = some x → s.inner c = some x ∨ s.fetches c = some x
  fetches : ∀ c x, t.fetches c = some x → s.fetches c = some x ∨ x = v.chunkOf s.disk c

namespace Moved

variable {v : Device} {s t u : Worker}

theorem of_same (h : SameStore s t) : Moved v s t where
  disk := h.disk
  inner := fun _ _ hx => Or.inl (h.inner ▸ hx)
  fetches := fun _ _ hx => Or.inl (h.fetches ▸ hx)

theorem then_same (h : Moved v s t) (hu : SameStore t u) : Moved v s u where
  disk := hu.disk.trans h.disk
  inner := fun c x hx => h.inner c x (hu.inner ▸ hx)
  fetches := fun c x hx => h.fetches c x (hu.fetches ▸ hx)

theorem invalidate (s : Worker) (c : Nat) :
    Moved v s { s with inner := Function.update s.inner c none } where
  disk := rfl
  inner := by
    intro k x hx
    by_cases hk : k = c
    · subst hk
      simp at hx
    · exact Or.inl (by simpa [Function.update_of_ne hk] using hx)
  fetches := fun k x hx => Or.inl hx

theorem fetch (s : Worker) (c : Nat) :
    Moved v s { s with fetches := Function.update s.fetches c (some (v.chunkOf s.disk c)) } where
  disk := rfl
  inner := fun k x hx => Or.inl hx
  fetches := by
    intro k x hx
    by_cases hk : k = c
    · subst hk
      simp only [Function.update_self,Option.some.injEq] at hx
      exact Or.inr hx.symm
    · exact Or.inl (by simpa [Function.update_of_ne hk] using hx)

theorem drop (s : Worker) (c : Nat) :
    Moved v s { s with fetches := Function.update s.fetches c none } where
  disk := rfl
  inner := fun k x hx => Or.inl hx
  fetches := by
    intro k x hx
    by_cases hk : k = c
    · subst hk
      simp at hx
    · exact Or.inl (by simpa [Function.update_of_ne hk] using hx)

theorem cached {c : Nat} {chunk : Bytes} (h : s.fetches c = some chunk) :
    Moved v s { s with inner := Function.update s.inner c (some chunk),
                       fetches := Function.update s.fetches c none } where
  disk := rfl
  inner := by
    intro k x hx
    by_cases hk : k = c
    · subst hk
      simp only [Function.update_self,Option.some.injEq] at hx
      exact Or.inr (hx ▸ h)
    · exact Or.inl (by simpa [Function.update_of_ne hk] using hx)
  fetches := (drop s c).fetches

end Moved

namespace Worker

variable {v : Device} {s t : Worker}

theorem recvRead_same {offset size : Nat} (h : s.recvRead v offset size = some t) :
    SameStore s t := by
  rcases recvRead_cases h with rfl | ⟨r,_,⟨_,_,_,rfl⟩ | ⟨_,_,_,rfl⟩⟩ <;> exact ⟨rfl,rfl,rfl⟩

theorem recvWrite_same {offset : Nat} {data : Bytes} {rmwOk : Bool}
    (h : s.recvWrite v offset data rmwOk = some t) : SameStore s t := by
  rcases recvWrite_cases h with ⟨_,rfl,_⟩ | ⟨_,_,_,_,_,_,rfl⟩ <;> exact ⟨rfl,rfl,rfl⟩

theorem awaitWrites_same {k : Caller} {dr : List (Nat × Bytes)} {cmds : List FlushCmd}
    (h : s.awaitWrites k dr cmds = some t) : SameStore s t := by
  rcases awaitWrites_cases h with ⟨_,rfl⟩ | ⟨_,_,_,_,left,err,rfl⟩
  · exact ⟨rfl,rfl,rfl⟩
  · have hd := flushDone_sameStore { s with stray := left } (.err err) k
    exact ⟨hd.inner,hd.fetches,hd.disk⟩

theorem takeChunk_same {r : ReadCall} {clba : Nat} {acc chunk : Bytes}
    (h : s.takeChunk v r clba acc chunk = some t) : SameStore s t := by
  obtain ⟨_,_,rfl,_⟩ := takeChunk_cases h
  exact ⟨rfl,rfl,rfl⟩

theorem invalidateStep_moved {w : WriteCall} {clba : Nat}
    (h : s.invalidateStep v w clba = some t) : Moved v s t := by
  rcases invalidateStep_cases h with ⟨next,rfl⟩ | ⟨ra,h⟩ | ⟨ra,rfl⟩
  · exact (Moved.invalidate s clba).then_same ⟨rfl,rfl,rfl⟩
  · have hs := startFlush_sameStore h
    exact Moved.of_same ⟨hs.inner,hs.fetches,hs.disk⟩
  · exact Moved.of_same ⟨rfl,rfl,rfl⟩

theorem readStep_moved {r : ReadCall} {clba : Nat} {acc : Bytes}
    (h : s.readStep v r clba acc = some t) : Moved v s t := by
  obtain ⟨last,_,h⟩ := readStep_cases h
  rcases h with ⟨_,_,_,h⟩ | ⟨_,_,_,rfl⟩ | ⟨_,_,rfl⟩ | ⟨_,ra,tasks,⟨_,rfl⟩ | rfl⟩
  · exact Moved.of_same (takeChunk_same h)
  · exact Moved.of_same ⟨rfl,rfl,rfl⟩
  · exact (Moved.fetch s clba).then_same ⟨rfl,rfl,rfl⟩
  · exact Moved.of_same ⟨rfl,rfl,rfl⟩
  · exact Moved.of_same ⟨rfl,rfl,rfl⟩

theorem fetchDone_moved {c : Nat} (h : s.fetchDone v c = some t) : Moved v s t := by
  obtain ⟨chunk,tasks,hc,⟨rfl,_⟩ | ⟨r,acc,_,h⟩⟩ := fetchDone_cases h
  · exact (Moved.cached hc).then_same ⟨rfl,rfl,rfl⟩
  · have ht := takeChunk_same h
    exact (Moved.cached hc).then_same ⟨ht.inner,ht.fetches,ht.disk⟩

theorem fetchFailed_moved {c : Nat} (h : s.fetchFailed c = some t) : Moved v s t := by
  obtain ⟨tasks,rfl | ⟨r,acc,_,rfl⟩⟩ := fetchFailed_cases h <;>
    exact (Moved.drop s c).then_same ⟨rfl,rfl,rfl⟩

theorem raStep_moved {i : Nat} (h : s.raStep v i = some t) : Moved v s t := by
  obtain ⟨tasks,ra,rfl | ⟨c,_,rfl⟩⟩ := raStep_cases h
  · exact Moved.of_same ⟨rfl,rfl,rfl⟩
  · exact (Moved.fetch s c).then_same ⟨rfl,rfl,rfl⟩

end Worker

structure Placed (w : Patch) (s t : Worker) : Prop where
  disk : t.disk = w.apply s.disk
  inner : t.inner = s.inner
  fetches : t.fetches = s.fetches

open Worker

theorem step_store {v : Device} {s t : Worker} {l : Label} (h : step v s l = some t) :
    Moved v s t ∨ ∃ w, l.target v s = some w ∧ Placed w s t := by
  unfold step at h
  split at h
  · exact Or.inl (Moved.of_same (recvRead_same h))
  · exact Or.inl (Moved.of_same (recvWrite_same h))
  · exact Or.inl (Moved.of_same (startFlush_sameStore h))
  · cases h
    exact Or.inl (Moved.of_same ⟨rfl,rfl,rfl⟩)
  · split at h
    · cases h
      exact Or.inl (Moved.of_same (SameStore.refl _))
    · exact Or.inl (Moved.of_same (startFlush_sameStore h))
  · exact Or.inl (Moved.of_same (startFlush_sameStore h))
  · exact Or.inl (readStep_moved h)
  · exact Or.inl (invalidateStep_moved h)
  · exact Or.inl (Moved.of_same (awaitWrites_same h))
  · rename_i i k dr cmds hp
    simp only [Option.bind_eq_bind,Option.bind_eq_some_iff] at h
    obtain ⟨c,hc,h⟩ := h
    split at h
    · cases h
      exact Or.inr ⟨_,by simp [Label.target,hp,hc],rfl,rfl,rfl⟩
    · cases h
  · rename_i i applied panicked k dr cmds hp
    simp only [Option.bind_eq_bind,Option.bind_eq_some_iff] at h
    obtain ⟨c,hc,h⟩ := h
    split at h
    · cases applied with
      | true =>
        cases h
        exact Or.inr ⟨_,by simp [Label.target,hp,hc],rfl,rfl,rfl⟩
      | false =>
        cases h
        exact Or.inl (Moved.of_same ⟨rfl,rfl,rfl⟩)
    · cases h
  · cases h
    have hd := flushDone_sameStore { s with log := s.log ++ [Event.syncGood] } (.ok ()) ‹_›
    exact Or.inl (Moved.of_same ⟨hd.inner,hd.fetches,hd.disk⟩)
  · cases h
    exact Or.inl (Moved.of_same (flushDone_sameStore _ _ _))
  · exact Or.inl (fetchDone_moved h)
  · exact Or.inl (fetchFailed_moved h)
  · exact Or.inl (raStep_moved h)
  · cases h
    exact Or.inl (Moved.invalidate s _)
  · rename_i i good
    simp only [Option.bind_eq_bind,Option.bind_eq_some_iff] at h
    obtain ⟨c,hc,h⟩ := h
    cases good <;> cases h <;> exact Or.inr ⟨_,by simp [Label.target,hc],rfl,rfl,rfl⟩
  · cases h

/-- Every cached chunk that no dirty entry overlaps is what the target holds. -/
def Coherent (v : Device) (s : Worker) : Prop :=
  ∀ c chunk, s.inner c = some chunk → (∀ e ∈ s.dirty.entries.entries, Clear c v.chunkBlocks e) →
    chunk = v.chunkOf s.disk c

/-- Every chunk that is cached or being fetched is what the target holds. -/
structure Fresh (v : Device) (s : Worker) : Prop where
  inner : ∀ c chunk, s.inner c = some chunk → chunk = v.chunkOf s.disk c
  fetches : ∀ c chunk, s.fetches c = some chunk → chunk = v.chunkOf s.disk c

theorem Fresh.coherent {v : Device} {s : Worker} (h : Fresh v s) : Coherent v s :=
  fun c chunk hc _ => h.inner c chunk hc

theorem fresh_start (v : Device) (syncWrites : Bool) (disk : Image) :
    Fresh v (Worker.start v syncWrites disk) := by
  constructor <;> intro c chunk hc <;> cases hc

def Worker.Holds (s : Worker) (c : Nat) : Prop := s.inner c ≠ none ∨ s.fetches c ≠ none

/-- What the step writes to the target changes no byte of a chunk that is cached
or being fetched. -/
def LeavesHeld (v : Device) (s : Worker) (l : Label) : Prop :=
  ∀ w, l.target v s = some w → ∀ c, s.Holds c →
    ∀ p, c*v.blockSize ≤ p → p < c*v.blockSize+v.chunkBytes → w.apply s.disk p = s.disk p

theorem fresh_step {v : Device} {s t : Worker} {l : Label} (hf : Fresh v s)
    (hl : LeavesHeld v s l) (h : step v s l = some t) : Fresh v t := by
  rcases step_store h with hm | ⟨w,hw,hp⟩
  · constructor
    · intro c chunk hc
      rw [hm.disk]
      rcases hm.inner c chunk hc with hc | hc
      · exact hf.inner c chunk hc
      · exact hf.fetches c chunk hc
    · intro c chunk hc
      rw [hm.disk]
      rcases hm.fetches c chunk hc with hc | hc
      · exact hf.fetches c chunk hc
      · exact hc
  · have hsame : ∀ c, s.Holds c → v.chunkOf t.disk c = v.chunkOf s.disk c := by
      intro c hc
      rw [hp.disk]
      exact Image.read_congr (hl w hw c hc)
    constructor
    · intro c chunk hc
      rw [hp.inner] at hc
      rw [hsame c (Or.inl (by simp [hc]))]
      exact hf.inner c chunk hc
    · intro c chunk hc
      rw [hp.fetches] at hc
      rw [hsame c (Or.inr (by simp [hc]))]
      exact hf.fetches c chunk hc

theorem fresh_run {v : Device} {s t : Worker} {ls : List Label} (hf : Fresh v s)
    (hm : Machine.Meets (step v) (LeavesHeld v) s ls) (hr : Machine.run (step v) s ls = some t) :
    Fresh v t :=
  Machine.invariant (fun _ _ _ hi hl h => fresh_step hi hl h) hf hm hr

/-- Cache coherence, for every run whose writes to the target find no chunk they
change cached or being fetched. -/
theorem cached_chunks_coherent {v : Device} {syncWrites : Bool} {disk : Image} {ls : List Label}
    {t : Worker} (hm : Machine.Meets (step v) (LeavesHeld v) (Worker.start v syncWrites disk) ls)
    (hr : Machine.run (step v) (Worker.start v syncWrites disk) ls = some t) : Coherent v t := by
  have hf : Fresh v t := fresh_run (fresh_start v syncWrites disk) hm hr
  exact hf.coherent

theorem leavesHeld_of_target_none {v : Device} {s : Worker} {l : Label}
    (h : l.target v s = none) : LeavesHeld v s l := by
  intro w hw
  simp [h] at hw

theorem leavesHeld_of_holds_none {v : Device} {s : Worker} {l : Label}
    (h : ∀ c, ¬ s.Holds c) : LeavesHeld v s l := fun _ _ c hc => absurd hc (h c)

def awaitingChunk (inner fetches : Nat → Option Bytes) (dirty : DirtyMap) (disk : Image)
    (log : List Event) : Worker where
  dirty := dirty
  syncWrites := false
  inner := inner
  fetches := fetches
  ra := ⟨2^64-1,8,0,false⟩
  tasks := []
  phase := .awaiting ⟨6,1,6,1,0,1⟩ 0 []
  stray := []
  disk := disk
  log := log

def receivedChunk (inner fetches : Nat → Option Bytes) (dirty : DirtyMap) (disk : Image)
    (log : List Event) : Worker :=
  { awaitingChunk inner fetches dirty disk log with
    inner := Function.update inner 0 (some (disk.read 0 65536))
    fetches := Function.update fetches 0 none
    phase := .reading ⟨6,1,6,1,0,1⟩ 65536 (((disk.read 0 65536).drop 6).take 1) }

theorem chunk_received {inner fetches : Nat → Option Bytes} {disk : Image} (dirty : DirtyMap)
    (log : List Event) (h : fetches 0 = some (disk.read 0 65536)) :
    step smallDevice (awaitingChunk inner fetches dirty disk log) (.fetched 0) =
      some (receivedChunk inner fetches dirty disk log) := by
  have hf : (awaitingChunk inner fetches dirty disk log).fetches 0 = some (disk.read 0 65536) := h
  show Worker.fetchDone smallDevice _ 0 = _
  rw [Worker.fetchDone,hf]
  exact takeChunk_whole (by decide) (by decide) (Image.read_length _ _ _)

/-- A write is flushed before its chunk is read. -/
theorem cached_chunks_coherent_after_flush :
    ∃ s, Machine.run (step smallDevice) (Worker.start smallDevice false zeros)
        ([.write 5 [1] true,.cont,.cont,.flush] ++ ([.good 0] ++
          [.cont,.syncGood,.read 6 1,.cont]) ++ [.fetched 0]) = some s ∧
      s.inner 0 ≠ none ∧ Coherent smallDevice s := by
  have h₁ : ∀ l ∈ ([.write 5 [1] true,.cont,.cont,.flush] : List Label), ∀ s,
      LeavesHeld smallDevice s l := by
    intro l hl s
    simp at hl
    rcases hl with rfl | rfl | rfl <;> exact leavesHeld_of_target_none rfl
  have h₂ : ∀ l ∈ ([.cont,.syncGood,.read 6 1,.cont] : List Label), ∀ s,
      LeavesHeld smallDevice s l := by
    intro l hl s
    simp at hl
    rcases hl with rfl | rfl | rfl | rfl <;> exact leavesHeld_of_target_none rfl
  have h₃ : ∀ l ∈ ([.fetched 0] : List Label), ∀ s, LeavesHeld smallDevice s l := by
    intro l hl s
    rw [List.mem_singleton.mp hl]
    exact leavesHeld_of_target_none rfl
  have hw : ∃ inner fetches, Machine.run (step smallDevice) (Worker.start smallDevice false zeros)
      ([.write 5 [1] true,.cont,.cont,.flush] ++ ([.good 0] ++ [.cont,.syncGood,.read 6 1,.cont])) =
      some (awaitingChunk inner fetches .new (zeros.write 5 [1]) [.received 5 [1],
        .writeReply 5 [1] (.ok 1),.accepted ⟨5,[1]⟩,.syncIssued,.syncGood,.flushReply (.ok ())]) ∧
      fetches 0 = some ((zeros.write 5 [1]).read 0 65536) := ⟨_,_,rfl,rfl⟩
  obtain ⟨inner,fetches,hw,hf⟩ := hw
  have hr := Machine.run_trans hw (Machine.run_one (chunk_received _ _ hf))
  refine ⟨_,hr,by simp [receivedChunk],cached_chunks_coherent ?_ hr⟩
  rw [Machine.meets_append hw,Machine.meets_append rfl,Machine.meets_append rfl]
  refine ⟨⟨Machine.meets_of_forall h₁,⟨leavesHeld_of_holds_none ?_,fun _ _ => trivial⟩,
    Machine.meets_of_forall h₂⟩,Machine.meets_of_forall h₃⟩
  intro c hc
  by_cases h0 : c = 0
  · subst h0
    rcases hc with hc | hc <;> exact hc rfl
  · rcases hc with hc | hc
    · exact hc (dif_neg h0)
    · exact hc rfl

/-- A demand fetch next to an unflushed write caches the old byte; the flush
then changes the target under the cached chunk. -/
theorem demand_fetch_incoherent :
    ∃ s, Machine.run (step smallDevice) (Worker.start smallDevice false zeros)
        ([.write 5 [1] true,.cont,.cont,.read 6 1,.cont] ++ ([.fetched 0] ++
          [.cont,.flush,.good 0,.cont,.syncGood])) = some s ∧ ¬ Coherent smallDevice s := by
  have hw : ∃ inner fetches, Machine.run (step smallDevice) (Worker.start smallDevice false zeros)
      [.write 5 [1] true,.cont,.cont,.read 6 1,.cont] = some (awaitingChunk inner fetches
        ⟨⟨[(5,⟨[1],1⟩)],by simp⟩,1⟩ zeros [.received 5 [1],.writeReply 5 [1] (.ok 1)]) ∧
      fetches 0 = some (zeros.read 0 65536) := ⟨_,_,rfl,rfl⟩
  obtain ⟨inner,fetches,hw,hf⟩ := hw
  have hlast : ∃ s, Machine.run (step smallDevice) (receivedChunk inner fetches
        ⟨⟨[(5,⟨[1],1⟩)],by simp⟩,1⟩ zeros [.received 5 [1],.writeReply 5 [1] (.ok 1)])
      [.cont,.flush,.good 0,.cont,.syncGood] = some s ∧ ¬ Coherent smallDevice s := by
    refine ⟨_,rfl,fun hc => ?_⟩
    have hx := hc 0 _ rfl (by intro e he; cases he)
    have h5 : zeros 5 = zeros.write 5 [1] 5 :=
      Image.eq_of_read_eq (p := 5) hx (by decide) (by decide)
    revert h5
    decide
  obtain ⟨s,hs,hc⟩ := hlast
  exact ⟨s,Machine.run_trans hw (Machine.run_trans (Machine.run_one (chunk_received _ _ hf)) hs),hc⟩

end IscsiFuse.Block
