import IscsiFuse.Block.ReadYourWrites
set_option autoImplicit false

namespace IscsiFuse.Block
open IscsiFuse.Iscsi

/-- Every chunk in the cache or on its way is whole. -/
structure Full (v : Device) (s : Worker) : Prop where
  inner : ∀ c chunk, s.inner c = some chunk → chunk.length = v.chunkBytes
  fetches : ∀ c chunk, s.fetches c = some chunk → chunk.length = v.chunkBytes

namespace Worker

def serveStep (v : Device) (s : Worker) : Option Worker :=
  match s.phase with
  | .reading _ _ _ => step v s .cont
  | .awaiting _ clba _ => step v s (.fetched clba)
  | _ => none

def isIdle (s : Worker) : Bool := s.phase = .idle

/-- `handle_read` returns. It never does when it panics. -/
def Serves (v : Device) (s t : Worker) : Prop := Machine.Settles (serveStep v) isIdle s t

/-- The Read is answered with exactly the bytes of its range that are on the device. -/
def ReadsExactly (v : Device) (s : Worker) (offset size : Nat) : Prop :=
  ∃ u t bytes, step v s (.read offset size) = some u ∧ Serves v u t ∧
    t.log = s.log ++ [.readReply offset size (.ok bytes)] ∧
    bytes.length = if offset < v.totalBytes then min size (v.totalBytes-offset) else 0

end Worker

/-- The arithmetic of `maybe_trigger_readahead` stays in range. -/
def ReadaheadState.Fits (v : Device) (ra : ReadaheadState) (startLba blockCount : Nat) : Prop :=
  let newWindow := min (ra.raWindow*2) v.raMaxBlocks
  let readEnd := startLba+blockCount
  ra.lastLba ≠ 2^64-1 ∧ startLba = (ra.lastLba+blockCount)%2^64 →
    ra.raWindow*2 < 2^32 ∧ ra.raStart+newWindow/2 < 2^64 ∧
      ((ra.raStart ≤ readEnd ∨ ra.raStart+newWindow/2 ≤ readEnd) ∧ ra.raInflight = false →
        readEnd+newWindow < 2^64)

/-- The dirty map alone answers a Read of `n` bytes. -/
def DirtyMap.Answers (m : DirtyMap) (offset n bs : Nat) : Prop :=
  ∃ d, m.readOverlap (touched offset n bs).1 (touched offset n bs).2 bs = some d ∧
    offset%bs+n ≤ d.length

/-- There is nothing to read; or the cast of the rest of the device to 32 bits does not cut
the size, and the Read is answered from the dirty map or there are addresses for its chunks
and for the readahead. -/
def Worker.ReadFits (v : Device) (s : Worker) (offset size : Nat) : Prop :=
  let rest := v.totalBytes-offset
  let n := min size rest
  let lba := (touched offset n v.blockSize).1
  let count := (touched offset n v.blockSize).2
  size = 0 ∨ v.totalBytes ≤ offset ∨
    (rest < 2^32 ∨ size ≤ rest%2^32) ∧
      (s.dirty.Answers offset n v.blockSize ∨
        0 < v.chunkBlocks ∧ ((lba+count-1)/v.chunkBlocks+1)*v.chunkBlocks < 2^64 ∧
          s.ra.Fits v lba count)

namespace Worker

variable {v : Device} {s t u : Worker} {r : ReadCall} {clba last : Nat} {acc : Bytes}

theorem isIdle_eq_false (h : s.phase ≠ .idle) : s.isIdle = false := decide_eq_false h

theorem serves_idle (h : s.phase = .idle) : Serves v s t ↔ t = s :=
  Machine.settles_done (decide_eq_true h)

theorem serveStep_reading (h : s.phase = .reading r clba acc) :
    serveStep v s = s.readStep v r clba acc := by
  rw [serveStep,h]
  simp [step,h]

theorem serveStep_awaiting (h : s.phase = .awaiting r clba acc) :
    serveStep v s = s.fetchDone v clba := by
  rw [serveStep,h]
  rfl

theorem serves_cont (h : s.phase = .reading r clba acc) (hs : s.readStep v r clba acc = some u) :
    Serves v s t ↔ Serves v u t :=
  Machine.settles_step (isIdle_eq_false (by rw [h]; simp)) ((serveStep_reading h).trans hs)

theorem not_serves_cont (h : s.phase = .reading r clba acc) (hs : s.readStep v r clba acc = none) :
    ¬ Serves v s t :=
  Machine.not_settles (isIdle_eq_false (by rw [h]; simp)) ((serveStep_reading h).trans hs)

theorem serves_fetched (h : s.phase = .awaiting r clba acc) (hs : s.fetchDone v clba = some u) :
    Serves v s t ↔ Serves v u t :=
  Machine.settles_step (isIdle_eq_false (by rw [h]; simp)) ((serveStep_awaiting h).trans hs)

theorem not_serves_fetched (h : s.phase = .awaiting r clba acc) (hs : s.fetchDone v clba = none) :
    ¬ Serves v s t :=
  Machine.not_settles (isIdle_eq_false (by rw [h]; simp)) ((serveStep_awaiting h).trans hs)

theorem serves_awaiting (hp : s.phase = .awaiting r clba acc) (hf : Full v s) {chunk : Bytes}
    (hc : s.fetches clba = some chunk) : ∃ u, u.ra = s.ra ∧ u.log = s.log ∧ Full v u ∧
      (∀ t, u.takeChunk v r clba acc chunk = some t → ∀ w, Serves v s w ↔ Serves v t w) ∧
      (u.takeChunk v r clba acc chunk = none → ∀ w, ¬ Serves v s w) := by
  obtain ⟨u,hu,hd⟩ : ∃ u : Worker, u = { s with
        inner := Function.update s.inner clba (some chunk)
        fetches := Function.update s.fetches clba none
        tasks := s.tasks.filterMap (RaTask.resume v clba) } ∧
      s.fetchDone v clba = u.takeChunk v r clba acc chunk :=
    ⟨_,rfl,by simp only [fetchDone,hc,hp,if_true]⟩
  have hfu : Full v u := by
    subst hu
    refine ⟨fun c x hx => ?_,fun c x hx => ?_⟩
    · by_cases hcc : c = clba
      · subst hcc
        simp only [Function.update_self] at hx
        exact Option.some.inj hx ▸ hf.fetches c chunk hc
      · simp only [Function.update_of_ne hcc] at hx
        exact hf.inner c x hx
    · by_cases hcc : c = clba
      · subst hcc
        simp only [Function.update_self] at hx
        cases hx
      · simp only [Function.update_of_ne hcc] at hx
        exact hf.fetches c x hx
  refine ⟨u,by rw [hu],by rw [hu],hfu,fun t ht w => ?_,fun hn w => ?_⟩
  · exact serves_fetched hp (hd.trans ht)
  · exact not_serves_fetched hp (hd.trans hn)

theorem serves_chunk (hp : s.phase = .reading r clba acc) (hf : Full v s)
    (hl : v.chunkLba (r.startLba+r.blockCount-1) = some last) (hle : clba ≤ last) :
    ∃ u chunk, u.ra = s.ra ∧ u.log = s.log ∧ Full v u ∧ chunk.length = v.chunkBytes ∧
      (∀ t, u.takeChunk v r clba acc chunk = some t → ∀ w, Serves v s w ↔ Serves v t w) ∧
      (u.takeChunk v r clba acc chunk = none → ∀ w, ¬ Serves v s w) := by
  cases hi : s.inner clba with
  | some chunk =>
    have hstep : s.readStep v r clba acc = s.takeChunk v r clba acc chunk := by
      simp only [readStep,hl,Option.bind_eq_bind,Option.bind_some,if_pos hle,hi]
    exact ⟨s,chunk,rfl,rfl,hf,hf.inner clba chunk hi,
      fun t ht w => serves_cont hp (hstep.trans ht),fun hn w => not_serves_cont hp (hstep.trans hn)⟩
  | none =>
    cases hc : s.fetches clba with
    | some chunk =>
      have hstep : s.readStep v r clba acc = some { s with phase := .awaiting r clba acc } := by
        simp only [readStep,hl,Option.bind_eq_bind,Option.bind_some,if_pos hle,hi,hc]
        rfl
      have hf' : Full v { s with phase := .awaiting r clba acc } := ⟨hf.inner,hf.fetches⟩
      obtain ⟨u,hra,hlog,hfu,ht,hn⟩ := serves_awaiting rfl hf' hc
      refine ⟨u,chunk,hra,hlog,hfu,hf.fetches clba chunk hc,fun t h w => ?_,fun h w => ?_⟩
      · rw [serves_cont hp hstep,ht t h]
      · rw [serves_cont hp hstep]
        exact hn h w
    | none =>
      have hstep : s.readStep v r clba acc = some { s with
          fetches := Function.update s.fetches clba (some (s.disk.read (clba*v.blockSize) v.chunkBytes))
          phase := .awaiting r clba acc } := by
        simp only [readStep,hl,Option.bind_eq_bind,Option.bind_some,if_pos hle,hi,hc]
        rfl
      have hlen : (s.disk.read (clba*v.blockSize) v.chunkBytes).length = v.chunkBytes :=
        Image.read_length ..
      have hf' : Full v { s with
          fetches := Function.update s.fetches clba (some (s.disk.read (clba*v.blockSize) v.chunkBytes))
          phase := .awaiting r clba acc } := by
        refine ⟨hf.inner,fun c x hx => ?_⟩
        by_cases hcc : c = clba
        · subst hcc
          simp only [Function.update_self] at hx
          exact Option.some.inj hx ▸ hlen
        · simp only [Function.update_of_ne hcc] at hx
          exact hf.fetches c x hx
      obtain ⟨u,hra,hlog,hfu,ht,hn⟩ := serves_awaiting rfl hf' (Function.update_self ..)
      refine ⟨u,_,hra,hlog,hfu,hlen,fun t h w => ?_,fun h w => ?_⟩
      · rw [serves_cont hp hstep,ht t h]
      · rw [serves_cont hp hstep]
        exact hn h w

theorem takeChunk_length {chunk : Bytes} (hf : Full v s) (ho : clba+v.chunkBlocks < 2^64)
    (hr : max r.startLba clba ≤ min (r.startLba+r.blockCount) (clba+v.chunkBlocks))
    (hl : chunk.length = v.chunkBytes) : ∃ t acc', s.takeChunk v r clba acc chunk = some t ∧
      t.phase = .reading r (clba+v.chunkBlocks) acc' ∧ acc'.length = acc.length+
        (min (r.startLba+r.blockCount) (clba+v.chunkBlocks)-max r.startLba clba)*v.blockSize ∧
      Full v t ∧ t.ra = s.ra ∧ t.log = s.log := by
  refine ⟨_,_,takeChunk_whole ho hr hl,rfl,?_,⟨hf.inner,hf.fetches⟩,rfl,rfl⟩
  have hin := Nat.mul_le_mul_right v.blockSize (show max r.startLba clba-clba+
    (min (r.startLba+r.blockCount) (clba+v.chunkBlocks)-max r.startLba clba) ≤ v.chunkBlocks by omega)
  rw [Nat.add_mul] at hin
  rw [List.length_append,List.length_take,List.length_drop,hl,Device.chunkBytes,Nat.min_eq_left]
  omega

theorem takeChunk_overflow {chunk : Bytes} (h : 2^64 ≤ clba+v.chunkBlocks) :
    s.takeChunk v r clba acc chunk = none := by
  have ha : addU64 clba v.chunkBlocks = none := if_neg (by omega)
  simp only [takeChunk,ha]
  rfl

theorem serves_loop (hp : s.phase = .reading r clba acc) (hf : Full v s)
    (hl : v.chunkLba (r.startLba+r.blockCount-1) = some last) (hn : 1 ≤ r.blockCount)
    (hlt : r.startLba+r.blockCount < 2^64) (hd : v.chunkBlocks ∣ clba)
    (hs : r.startLba < clba+v.chunkBlocks) (hle : clba ≤ last)
    (ha : acc.length = (min (max clba r.startLba) (r.startLba+r.blockCount)-r.startLba)*v.blockSize) :
    (2^64 ≤ last+v.chunkBlocks → ∀ w, ¬ Serves v s w) ∧
    (last+v.chunkBlocks < 2^64 → ∃ u acc', (∀ w, Serves v s w ↔ Serves v u w) ∧
      u.phase = .reading r (last+v.chunkBlocks) acc' ∧ acc'.length = r.blockCount*v.blockSize ∧
        u.ra = s.ra ∧ u.log = s.log) := by
  obtain ⟨hcb,hdl,hll,hlu⟩ := chunkLba_bounds hl
  -- the induction is on the distance to the last chunk
  induction hm : last-clba using Nat.strongRecOn generalizing s clba acc with
  | ind m ih =>
    obtain ⟨u,chunk,hra,hlog,hfu,hlen,ht,hnone⟩ := serves_chunk hp hf hl hle
    by_cases ho : clba+v.chunkBlocks < 2^64
    · have hr : max r.startLba clba ≤ min (r.startLba+r.blockCount) (clba+v.chunkBlocks) := by omega
      obtain ⟨t,acc',htake,htp,hta,htf,htr,htl⟩ := takeChunk_length hfu ho hr hlen
      have hserve := ht t htake
      rw [ha,← Nat.add_mul] at hta
      by_cases hlast : clba = last
      · refine ⟨fun hx => absurd ho (by omega),fun _ => ⟨t,acc',hserve,by rw [htp,hlast],?_,
          htr.trans hra,htl.trans hlog⟩⟩
        rw [hta]
        congr 1
        omega
      · have hnext := next_chunk_le hd hdl (by omega)
        have hih := ih (last-(clba+v.chunkBlocks)) (by omega) htp htf
          (Nat.dvd_add hd (Nat.dvd_refl _)) (by omega) hnext (by rw [hta]; congr 1; omega) rfl
        refine ⟨fun hx w hw => hih.1 hx w ((hserve w).mp hw),fun hx => ?_⟩
        obtain ⟨x,acc',hx₁,hx₂,hx₃,hx₄,hx₅⟩ := hih.2 hx
        exact ⟨x,acc',fun w => (hserve w).trans (hx₁ w),hx₂,hx₃,hx₄.trans (htr.trans hra),
          hx₅.trans (htl.trans hlog)⟩
    · have hlast : clba = last := by
        by_contra hne
        have hnext := next_chunk_le hd hdl (show clba < last by omega)
        omega
      exact ⟨fun _ => hnone (takeChunk_overflow (by omega)),fun hx => absurd hx (by omega)⟩

theorem triggerReadahead_fits {lba n : Nat} (hc : 0 < v.chunkBlocks) (hlt : lba+n < 2^64) :
    (∃ u, s.triggerReadahead v lba n = some u) ↔ s.ra.Fits v lba n := by
  have hcl : v.chunkLba (lba+n) = some ((lba+n)/v.chunkBlocks*v.chunkBlocks) :=
    if_neg (Nat.pos_iff_ne_zero.mp hc)
  simp only [triggerReadahead,ReadaheadState.Fits,addU64,mulU32,if_pos hlt,Option.bind_eq_bind,
    Option.bind_some,hcl]
  by_cases hseq : s.ra.lastLba ≠ 2^64-1 ∧ lba = (s.ra.lastLba+n)%2^64
  · rw [if_neg (not_not.mpr hseq),forall_prop_of_true hseq]
    by_cases hw : s.ra.raWindow*2 < 2^32
    · rw [if_pos hw,Option.bind_some]
      by_cases hm : s.ra.raStart+min (s.ra.raWindow*2) v.raMaxBlocks/2 < 2^64
      · rw [if_pos hm,Option.bind_some]
        by_cases hf : (s.ra.raStart ≤ lba+n ∨ s.ra.raStart+min (s.ra.raWindow*2) v.raMaxBlocks/2 ≤
          lba+n) ∧ s.ra.raInflight = false
        · rw [if_pos hf]
          by_cases he : lba+n+min (s.ra.raWindow*2) v.raMaxBlocks < 2^64
          · rw [if_pos he]
            exact ⟨fun _ => ⟨hw,hm,fun _ => he⟩,fun _ => ⟨_,rfl⟩⟩
          · rw [if_neg he]
            exact ⟨fun hu => absurd hu (by simp),fun h => absurd (h.2.2 hf) he⟩
        · rw [if_neg hf]
          exact ⟨fun _ => ⟨hw,hm,fun h => absurd h hf⟩,fun _ => ⟨_,rfl⟩⟩
      · rw [if_neg hm]
        exact ⟨fun hu => absurd hu (by simp),fun h => absurd h.2.1 hm⟩
    · rw [if_neg hw]
      exact ⟨fun hu => absurd hu (by simp),fun h => absurd h.1 hw⟩
  · rw [if_pos hseq]
    simp only [hseq,false_implies,iff_true]
    exact ⟨_,rfl⟩

theorem readStep_finish (hl : v.chunkLba (r.startLba+r.blockCount-1) = some last) (hlt : last < clba)
    (ha : r.skip+r.actualSize ≤ acc.length) :
    s.readStep v r clba acc = (s.triggerReadahead v r.startLba r.blockCount).map
      (fun u => u.readDone r (.ok ((acc.drop r.skip).take r.actualSize))) := by
  have hs : slice acc r.skip (r.skip+r.actualSize) = some ((acc.drop r.skip).take r.actualSize) := by
    rw [slice,if_pos ⟨by omega,ha⟩,Nat.add_sub_cancel_left]
  simp only [readStep,hl,Option.bind_eq_bind,Option.bind_some,if_neg (Nat.not_le.mpr hlt),
    if_neg (Nat.not_lt.mpr ha),hs,Option.map_eq_bind]
  rfl

theorem serves_finish (hp : s.phase = .reading r clba acc)
    (hl : v.chunkLba (r.startLba+r.blockCount-1) = some last) (hlt : last < clba)
    (ha : r.skip+r.actualSize ≤ acc.length) :
    (∀ u, s.triggerReadahead v r.startLba r.blockCount = some u → ∀ t, Serves v s t ↔
      t = u.readDone r (.ok ((acc.drop r.skip).take r.actualSize))) ∧
    (s.triggerReadahead v r.startLba r.blockCount = none → ∀ t, ¬ Serves v s t) := by
  have hstep := readStep_finish (v := v) (s := s) hl hlt ha
  refine ⟨fun u hu t => ?_,fun hn t => ?_⟩
  · rw [hu,Option.map_some] at hstep
    rw [serves_cont hp hstep,serves_idle rfl]
  · rw [hn,Option.map_none] at hstep
    exact not_serves_cont hp hstep

/-- The Read `r` of a worker with log `m` is in progress, or answered with at most its
clamped size. -/
def Answers (m : List Event) (r : ReadCall) (u : Worker) : Prop :=
  (u.log = m ∧ ∃ clba acc, u.phase.read = some (r,clba,acc)) ∨
  (u.phase = .idle ∧ ∃ x, u.log = m ++ [.readReply r.offset r.size x] ∧
    ∀ bytes, x = .ok bytes → bytes.length ≤ r.actualSize)

theorem readStep_answers {m : List Event} (hm : s.log = m) (h : s.readStep v r clba acc = some t) :
    Answers m r t := by
  obtain ⟨last,_,h⟩ := readStep_cases h
  rcases h with ⟨_,chunk,_,h⟩ | ⟨_,_,_,rfl⟩ | ⟨_,_,rfl⟩ | ⟨_,ra,tasks,⟨_,rfl⟩ | rfl⟩
  · obtain ⟨_,piece,rfl,_⟩ := takeChunk_cases h
    exact Or.inl ⟨hm,_,_,rfl⟩
  · exact Or.inl ⟨hm,clba,acc,rfl⟩
  · exact Or.inl ⟨hm,clba,acc,rfl⟩
  · refine Or.inr ⟨rfl,_,by rw [← hm]; rfl,fun bytes hb => ?_⟩
    cases hb
  · refine Or.inr ⟨rfl,_,by rw [← hm]; rfl,fun bytes hb => ?_⟩
    cases hb
    exact List.length_take_le _ _

theorem serveStep_answers {m : List Event} (h : Answers m r s) (hd : s.isIdle = false)
    (hs : serveStep v s = some t) : Answers m r t := by
  rcases h with ⟨hm,clba,acc,hr⟩ | ⟨hp,_⟩
  · cases hp : s.phase with
    | reading r' k a =>
      rw [hp] at hr
      cases hr
      rw [serveStep_reading hp] at hs
      exact readStep_answers hm hs
    | awaiting r' k a =>
      rw [hp] at hr
      cases hr
      rw [serveStep_awaiting hp] at hs
      obtain ⟨chunk,tasks,_,⟨rfl,_⟩ | ⟨r',acc',hp',h⟩⟩ := fetchDone_cases hs
      · exact Or.inl ⟨hm,clba,acc,by rw [hp]; rfl⟩
      · rw [hp] at hp'
        cases hp'
        obtain ⟨_,piece,rfl,_⟩ := takeChunk_cases h
        exact Or.inl ⟨hm,_,_,rfl⟩
    | idle | invalidating | flushing | syncing | stopped =>
      rw [hp] at hr
      cases hr
  · rw [isIdle,decide_eq_true hp] at hd
    cases hd

theorem serves_reply (hp : s.phase.read = some (r,clba,acc)) (h : Serves v s t) :
    ∃ x, t.log = s.log ++ [.readReply r.offset r.size x] ∧
      ∀ bytes, x = .ok bytes → bytes.length ≤ r.actualSize := by
  have hi : Answers s.log r t := Machine.settles_invariant (I := Answers s.log r)
    (fun _ _ hi hd hs => serveStep_answers hi hd hs) (Or.inl ⟨rfl,clba,acc,hp⟩) h
  have hd : t.isIdle = true := Machine.settles_is_done h
  have hidle : t.phase = .idle := of_decide_eq_true hd
  rcases hi with ⟨_,k,a,hr⟩ | ⟨_,hx⟩
  · rw [hidle] at hr
    cases hr
  · exact hx

theorem recvRead_empty {offset size : Nat} (h : size = 0 ∨ v.totalBytes ≤ offset) :
    s.recvRead v offset size = some (s.answer (.readReply offset size (.ok []))) := if_pos h

theorem exists_readCall {offset : Nat} (size : Nat) (hb : 0 < v.blockSize) (ht : v.totalBytes < 2^64)
    (ho : offset < v.totalBytes) : ∃ r : ReadCall, r.Of v offset size := by
  have hstop : addU64 offset (min size ((v.totalBytes-offset)%2^32)) =
      some (offset+min size ((v.totalBytes-offset)%2^32)) := by
    have hm := Nat.mod_le (v.totalBytes-offset) (2^32)
    exact if_pos (by omega)
  have ha : ∃ x, computeAlignment offset (min size ((v.totalBytes-offset)%2^32)) v.blockSize =
      some x := by
    rw [computeAlignment,if_neg (Nat.pos_iff_ne_zero.mp hb),hstop]
    exact ⟨_,rfl⟩
  obtain ⟨⟨lba,n,skip⟩,ha⟩ := ha
  exact ⟨⟨offset,size,lba,n,skip,_⟩,ho,⟨rfl,rfl⟩,rfl,ha⟩

theorem recvRead_dirty {offset size : Nat} {d : Bytes} (hr : r.Of v offset size) (hs : size ≠ 0)
    (hd : s.dirty.readOverlap r.startLba r.blockCount v.blockSize = some d)
    (hl : r.skip+r.actualSize ≤ d.length) :
    s.recvRead v offset size = some (s.readDone r (.ok ((d.drop r.skip).take r.actualSize))) := by
  have ha := hr.aligned
  have hin := hr.inside
  have hslice : slice d r.skip (r.skip+r.actualSize) = some ((d.drop r.skip).take r.actualSize) := by
    rw [slice,if_pos ⟨by omega,hl⟩,Nat.add_sub_cancel_left]
  rw [hr.clamped] at ha hl hslice
  rw [recvRead,if_neg (by omega)]
  simp only [ha,hd,Option.bind_eq_bind,Option.bind_some,if_pos hl,hslice]
  rw [← hr.clamped]
  show some (s.answer (.readReply offset size _)) = some (s.answer (.readReply r.offset r.size _))
  rw [hr.args.1,hr.args.2]

theorem recvRead_miss {offset size : Nat} (hr : r.Of v offset size) (hs : size ≠ 0)
    (hd : ∀ d, s.dirty.readOverlap r.startLba r.blockCount v.blockSize = some d →
      d.length < r.skip+r.actualSize) :
    s.recvRead v offset size = (v.chunkLba r.startLba).map
      (fun clba => { s with phase := .reading r clba [] }) := by
  have ha := hr.aligned
  have hin := hr.inside
  obtain ⟨hoff,hsz⟩ := hr.args
  have hrc : ReadCall.mk offset size r.startLba r.blockCount r.skip
      (min size ((v.totalBytes-offset)%2^32)) = r := by
    rw [← hr.clamped,← hoff,← hsz]
  rw [hr.clamped] at ha hd
  rw [recvRead,if_neg (by omega)]
  simp only [ha,Option.bind_eq_bind,Option.bind_some,hrc]
  cases ho : s.dirty.readOverlap r.startLba r.blockCount v.blockSize with
  | none => cases v.chunkLba r.startLba <;> rfl
  | some d =>
    simp only [if_neg (Nat.not_le.mpr (hd d ho))]
    cases v.chunkLba r.startLba <;> rfl

variable {offset size : Nat}

theorem step_read (hp : s.phase = .idle) :
    step v s (.read offset size) = s.recvRead v offset size := by simp only [step,hp]

theorem reads_empty (hp : s.phase = .idle) (h : size = 0 ∨ v.totalBytes ≤ offset) :
    ReadsExactly v s offset size := by
  refine ⟨_,_,[],(step_read hp).trans (recvRead_empty h),(serves_idle rfl).mpr rfl,rfl,?_⟩
  split
  · rcases h with rfl | h
    · rw [Nat.zero_min]
      rfl
    · omega
  · rfl

theorem reads_at_most (hp : s.phase = .idle) (hs : size ≠ 0) (ho : offset < v.totalBytes)
    (h : ReadsExactly v s offset size) :
    v.totalBytes-offset < 2^32 ∨ size ≤ (v.totalBytes-offset)%2^32 := by
  obtain ⟨u,t,bytes,hu,ht,hlog,hlen⟩ := h
  rw [step_read hp] at hu
  rw [if_pos ho] at hlen
  have hle : bytes.length ≤ min size ((v.totalBytes-offset)%2^32) := by
    rcases recvRead_cases hu with rfl | ⟨r,hr,⟨d,_,_,rfl⟩ | ⟨_,clba,_,rfl⟩⟩
    · rw [(serves_idle rfl).mp ht] at hlog
      cases List.append_cancel_left hlog
      exact Nat.zero_le _
    · rw [(serves_idle rfl).mp ht] at hlog
      cases List.append_cancel_left hlog
      rw [← hr.clamped]
      exact List.length_take_le _ _
    · obtain ⟨x,hx,hxl⟩ := serves_reply (r := r) rfl ht
      rw [hlog] at hx
      cases List.append_cancel_left hx
      rw [← hr.clamped]
      exact hxl bytes rfl
  have hm := Nat.mod_lt (v.totalBytes-offset) (show 0 < 2^32 by decide)
  by_contra hc
  omega

theorem reads_dirty {d : Bytes} (hp : s.phase = .idle) (hs : size ≠ 0) (hr : r.Of v offset size)
    (hn : r.actualSize = min size (v.totalBytes-offset))
    (hd : s.dirty.readOverlap r.startLba r.blockCount v.blockSize = some d)
    (hl : r.skip+r.actualSize ≤ d.length) : ReadsExactly v s offset size := by
  refine ⟨_,_,(d.drop r.skip).take r.actualSize,(step_read hp).trans (recvRead_dirty hr hs hd hl),
    (serves_idle rfl).mpr rfl,?_,?_⟩
  · show s.log ++ [.readReply r.offset r.size _] = _
    rw [hr.args.1,hr.args.2]
  · rw [if_pos hr.inside,List.length_take,List.length_drop]
    omega

theorem reads_miss (hp : s.phase = .idle) (hf : Full v s) (hs : size ≠ 0) (hr : r.Of v offset size)
    (hn : r.actualSize = min size (v.totalBytes-offset)) (ha : 0 < r.actualSize)
    (hlt : r.startLba+r.blockCount < 2^64)
    (hd : ∀ d, s.dirty.readOverlap r.startLba r.blockCount v.blockSize = some d →
      d.length < r.skip+r.actualSize) :
    ReadsExactly v s offset size ↔ 0 < v.chunkBlocks ∧
      ((r.startLba+r.blockCount-1)/v.chunkBlocks+1)*v.chunkBlocks < 2^64 ∧
        s.ra.Fits v r.startLba r.blockCount := by
  have hsp := (hr.span ha).2
  have hstep := (step_read (v := v) hp).trans (recvRead_miss hr hs hd)
  by_cases hc : v.chunkBlocks = 0
  · rw [Device.chunkLba,if_pos hc] at hstep
    constructor
    · intro ⟨u,_,_,hu,_⟩
      rw [hstep] at hu
      cases hu
    · intro h
      exact absurd hc (Nat.pos_iff_ne_zero.mp h.1)
  have hl : v.chunkLba (r.startLba+r.blockCount-1) =
      some ((r.startLba+r.blockCount-1)/v.chunkBlocks*v.chunkBlocks) := if_neg hc
  have hl' : v.chunkLba r.startLba = some (r.startLba/v.chunkBlocks*v.chunkBlocks) := if_neg hc
  obtain ⟨_,hdvd,hle,hup⟩ := chunkLba_bounds hl'
  have hmono : r.startLba/v.chunkBlocks*v.chunkBlocks ≤
      (r.startLba+r.blockCount-1)/v.chunkBlocks*v.chunkBlocks :=
    Nat.mul_le_mul_right _ (Nat.div_le_div_right (by have := hsp.some_block; omega))
  have hloop := serves_loop (s := { s with
    phase := .reading r (r.startLba/v.chunkBlocks*v.chunkBlocks) [] }) rfl ⟨hf.inner,hf.fetches⟩ hl
    hsp.some_block hlt hdvd hup hmono (by
      rw [Nat.max_eq_right hle,Nat.min_eq_left (by omega),Nat.sub_self,Nat.zero_mul]; rfl)
  rw [hl',Option.map_some] at hstep
  rw [Nat.add_mul,Nat.one_mul]
  obtain ⟨hover,hin⟩ := hloop
  by_cases ho : (r.startLba+r.blockCount-1)/v.chunkBlocks*v.chunkBlocks+v.chunkBlocks < 2^64
  · obtain ⟨w,acc,hserve,hwp,hacc,hra,hlog⟩ := hin ho
    have hstop := hsp.stop
    obtain ⟨hfin,hnone⟩ := serves_finish hwp hl (by omega) (by omega)
    rw [← show w.ra = s.ra from hra,← triggerReadahead_fits (s := w) (Nat.pos_of_ne_zero hc) hlt]
    constructor
    · intro ⟨u,t,_,hu,ht,_⟩
      cases hu.symm.trans hstep
      refine ⟨Nat.pos_of_ne_zero hc,ho,?_⟩
      by_contra hno
      exact hnone (Option.eq_none_iff_forall_ne_some.mpr fun x hx => hno ⟨x,hx⟩) t
        ((hserve t).mp ht)
    · intro ⟨_,_,x,hx⟩
      refine ⟨_,_,(acc.drop r.skip).take r.actualSize,hstep,
        (hserve _).mpr ((hfin x hx _).mpr rfl),?_,?_⟩
      · obtain ⟨ra,tasks,rfl⟩ := triggerReadahead_cases hx
        show w.log ++ [.readReply r.offset r.size _] = _
        rw [hlog,hr.args.1,hr.args.2]
      · rw [if_pos hr.inside,List.length_take,List.length_drop]
        omega
  · constructor
    · intro ⟨u,t,_,hu,ht,_⟩
      cases hu.symm.trans hstep
      exact absurd ht (hover (by omega) t)
    · intro h
      exact absurd h.2.1 ho

end Worker

open Worker

/-- A Read whose fetches succeed is answered with exactly the bytes of its range on the device
if and only if it fits. -/
theorem reads_exactly_iff {v : Device} {s : Worker} {offset size : Nat} (hp : s.phase = .idle)
    (hf : Full v s) (hb : 0 < v.blockSize) (ht : v.totalBytes < 2^64) (hs : size < 2^32) :
    ReadsExactly v s offset size ↔ s.ReadFits v offset size := by
  by_cases hne : size = 0 ∨ v.totalBytes ≤ offset
  · refine ⟨fun _ => ?_,fun _ => reads_empty hp hne⟩
    rcases hne with h | h
    · exact Or.inl h
    · exact Or.inr (Or.inl h)
  obtain ⟨hs0,ho⟩ := not_or.mp hne
  have ho := Nat.not_le.mp ho
  by_cases hcut : v.totalBytes-offset < 2^32 ∨ size ≤ (v.totalBytes-offset)%2^32
  · obtain ⟨r,hr⟩ := exists_readCall size hb ht ho
    have hn : r.actualSize = min size (v.totalBytes-offset) := by
      have hm := Nat.mod_le (v.totalBytes-offset) (2^32)
      rw [hr.clamped]
      omega
    have ha : 0 < r.actualSize := by omega
    obtain ⟨hblocks,hsp⟩ := hr.span ha
    have hskip := (computeAlignment_eq_some hr.aligned).2.2.2.2
    rw [Device.readBlocks,← hr.clamped,hn] at hblocks
    have hlba : r.startLba = (touched offset (min size (v.totalBytes-offset)) v.blockSize).1 :=
      congrArg Prod.fst hblocks
    have hcount : r.blockCount = (touched offset (min size (v.totalBytes-offset)) v.blockSize).2 :=
      congrArg Prod.snd hblocks
    have hlt : r.startLba+r.blockCount < 2^64 := by
      have hbd := (touched_bounds offset hb (hn ▸ ha)).2.2.1
      rw [← hlba,← hcount] at hbd
      have hone := Nat.mul_le_mul_right (r.startLba+r.blockCount-1) hb
      have hmul := Nat.sub_mul (r.startLba+r.blockCount) 1 v.blockSize
      rw [Nat.mul_comm v.blockSize] at hone
      omega
    have hans : s.dirty.Answers offset (min size (v.totalBytes-offset)) v.blockSize ↔
        ∃ d, s.dirty.readOverlap r.startLba r.blockCount v.blockSize = some d ∧
          r.skip+r.actualSize ≤ d.length := by
      rw [DirtyMap.Answers,← hlba,← hcount,← hskip,← hn]
    rw [Worker.ReadFits,hans,← hlba,← hcount]
    by_cases hd : ∃ d, s.dirty.readOverlap r.startLba r.blockCount v.blockSize = some d ∧
        r.skip+r.actualSize ≤ d.length
    · obtain ⟨d,hd,hl⟩ := hd
      exact ⟨fun _ => Or.inr (Or.inr ⟨hcut,Or.inl ⟨d,hd,hl⟩⟩),fun _ => reads_dirty hp hs0 hr hn hd hl⟩
    · rw [reads_miss hp hf hs0 hr hn ha hlt fun d hx => by_contra fun hc => hd ⟨d,hx,by omega⟩]
      constructor
      · intro h
        exact Or.inr (Or.inr ⟨hcut,Or.inr h⟩)
      · intro h
        rcases h with h | h | ⟨_,h | h⟩
        · exact absurd h hs0
        · omega
        · exact absurd h hd
        · exact h
  · constructor
    · intro h
      exact absurd (reads_at_most hp hs0 ho h) hcut
    · intro h
      rcases h with h | h | ⟨h,_⟩
      · exact absurd h hs0
      · omega
      · exact absurd h hcut

theorem full_start (v : Device) (b : Bool) (d : Image) : Full v (Worker.start v b d) := by
  constructor <;> intro c chunk h <;> cases h

theorem reads_exactly_small : ReadsExactly smallDevice (.start smallDevice true zeros) 3 4 :=
  (reads_exactly_iff rfl (full_start _ _ _) (by decide) (by decide) (by decide)).mpr
    (Or.inr (Or.inr ⟨Or.inl (by decide),Or.inr ⟨by decide,by decide,fun h => absurd rfl h.1⟩⟩))

def fourGib : Device where
  pipeline := ⟨0,512,8388608,NegotiatedParams.defaults10g⟩
  totalBytes := 4294967296
  coalesceMaxBytes := 1000
  raMaxKb := 0

theorem serves_nothing {s : Worker} (hp : s.phase = .reading ⟨0,4096,0,0,0,0⟩ 0 [])
    (hf : Full fourGib s) (hra : s.ra.lastLba = 2^64-1) :
    ∃ t, Serves fourGib s t ∧ t.log = s.log ++ [.readReply 0 4096 (.ok [])] := by
  have hl : fourGib.chunkLba (0+0-1) = some 0 := by decide
  obtain ⟨u,chunk,hur,hlog,hfu,hlen,hserve,_⟩ := serves_chunk hp hf hl (Nat.le_refl 0)
  obtain ⟨t,acc,ht,htp,hta,_,htr,htl⟩ := @takeChunk_length fourGib u ⟨0,4096,0,0,0,0⟩ 0 [] chunk
    hfu (by decide) (by decide) hlen
  have hnil : acc = [] := List.length_eq_zero_iff.mp (by rw [hta]; decide)
  obtain ⟨hfin,_⟩ := serves_finish htp hl (by decide) (by rw [hnil]; decide)
  have hfits : t.ra.Fits fourGib 0 0 := by
    rw [htr,hur]
    exact fun h => absurd hra h.1
  obtain ⟨w,hw⟩ := (triggerReadahead_fits (by decide) (by decide)).mpr hfits
  refine ⟨_,(hserve t ht _).mpr ((hfin w hw _).mpr rfl),?_⟩
  obtain ⟨ra,tasks,rfl⟩ := triggerReadahead_cases hw
  show t.log ++ _ = _
  rw [htl,hlog,hnil]
  rfl

/-- The Read at the start of a device of four GiB is answered with no byte at all. -/
theorem read_cut : fourGib.totalBytes = fourGib.pipeline.totalBlocks*fourGib.blockSize ∧
    (∃ u t, step fourGib (.start fourGib true zeros) (.read 0 4096) = some u ∧
      Serves fourGib u t ∧ t.log = [.readReply 0 4096 (.ok [])]) ∧
    ¬ ReadsExactly fourGib (.start fourGib true zeros) 0 4096 := by
  refine ⟨by decide,?_,fun h => ?_⟩
  · have hr : step fourGib (.start fourGib true zeros) (.read 0 4096) =
        some { Worker.start fourGib true zeros with phase := .reading ⟨0,4096,0,0,0,0⟩ 0 [] } := rfl
    obtain ⟨t,ht,hlog⟩ := serves_nothing
      (s := { Worker.start fourGib true zeros with phase := .reading ⟨0,4096,0,0,0,0⟩ 0 [] }) rfl
      ⟨(full_start fourGib true zeros).inner,(full_start fourGib true zeros).fetches⟩ rfl
    exact ⟨_,t,hr,ht,hlog⟩
  · have hr := reads_at_most rfl (by decide) (by decide) h
    revert hr
    decide

end IscsiFuse.Block
