import IscsiFuse.Block.ReadYourWrites
import IscsiFuse.Iscsi.WriteRefinement
set_option autoImplicit false

/-!
The flush of the worker and the session below it. The worker takes a command as one step of the
target, its data on the medium and Good returned; the session takes many, with the commands of a
flush in flight at once. Every run of the session is a run of the worker's flush.
-/

namespace IscsiFuse.Block
open IscsiFuse.Iscsi Tiling

section

variable {v : Device} {p : Pipeline} {ws : List WriteCommand} {whole : Patch} {medium : Image}

/-- The worker in a flush, as far as the target has come with its commands. -/
structure Follows (ws : List WriteCommand) (k : Caller) (dr : List (Nat × Bytes)) (x : Writing)
    (s : Worker) : Prop where
  disk : s.disk = x.target.medium
  phase : ∃ cmds, s.phase = .flushing k dr cmds ∧ cmds.map FlushCmd.cmd = ws ∧
    ∀ i c, cmds[i]? = some c →
      (c.status = .good ∧ x.Closed i) ∨ (c.status = .pending ∧ ¬ x.Closed i)

theorem follows_start {s : Worker} {k : Caller} {dr : List (Nat × Bytes)}
    (h : s.phase = .flushing k dr (ws.map (fun c => ⟨c,.pending⟩))) :
    Follows ws k dr (.start s.disk) s where
  disk := rfl
  phase := by
    refine ⟨_,h,?_,fun i c hc => Or.inr ⟨?_,fun hx => hx.1 rfl⟩⟩
    · rw [List.map_map]
      exact List.map_id ws
    · rw [List.getElem?_map] at hc
      obtain ⟨w,_,rfl⟩ := Option.map_eq_some_iff.mp hc
      rfl

theorem Follows.keep {k : Caller} {dr : List (Nat × Bytes)} {x y : Writing} {s : Worker}
    (h : Follows ws k dr x s) (hd : y.target.medium = x.target.medium)
    (hc : ∀ i, y.Closed i ↔ x.Closed i) : Follows ws k dr y s where
  disk := h.disk.trans hd.symm
  phase := by
    obtain ⟨cmds,hp,hcmds,hst⟩ := h.phase
    refine ⟨cmds,hp,hcmds,fun i c hi => ?_⟩
    rw [hc]
    exact hst i c hi

theorem closed_task {x : Writing} {k : Nat} {c : Iscsi.ChunkTask} {d : Nat → Option Bytes}
    (hk : x.tasks k ≠ .submitting) (hc : c ≠ .submitting) (i : Nat) :
    Writing.Closed { x.setTask k c with writeData := d } i ↔ x.Closed i := by
  have ht : (x.setTask k c).tasks i ≠ .submitting ↔ x.tasks i ≠ .submitting := by
    by_cases hi : i = k
    · subst hi
      simp [Writing.setTask,hk,hc]
    · simp [Writing.setTask,hi]
  exact and_congr ht Iff.rfl

theorem closed_transfer {x : Writing} {i : Nat} {a b : Transfer} {r : Receiver}
    (h : x.target.transfers i = some a) (j : Nat) :
    Writing.Closed { x with target := x.target.setTransfer i (some b), receiver := r } j ↔
      x.Closed j := by
  refine and_congr Iff.rfl (forall₂_congr (fun m _ => ?_))
  by_cases hm : m = i
  · rw [hm,h]
    simp [Target.setTransfer_self]
  · simp only [Target.setTransfer_other hm]

theorem closed_submit {x : Writing} {k i : Nat} {a : Transfer}
    (hk : x.tasks k = .submitting) (hi : x.tags i = none) (j : Nat) :
    Writing.Closed { x.setTask k (.submitted i) with
      tags := Function.update x.tags i (some k)
      target := x.target.setTransfer i (some a) } j ↔ x.Closed j := by
  by_cases hj : j = k
  · subst hj
    constructor
    · intro hx
      have hn := hx.2 i (Function.update_self ..)
      rw [Target.setTransfer_self] at hn
      cases hn
    · intro hx
      exact absurd hk hx.1
  · have ht : (x.setTask k (.submitted i)).tasks j = x.tasks j := Function.update_of_ne hj ..
    unfold Writing.Closed
    simp only [ht]
    refine and_congr Iff.rfl (forall_congr' (fun m => ?_))
    by_cases hm : m = i
    · subst hm
      simp [hi,Ne.symm hj]
    · simp only [Function.update_of_ne hm,Target.setTransfer_other hm]

theorem closed_free {x : Writing} {i : Nat} {r : Receiver} (h : x.target.transfers i = none)
    (j : Nat) :
    Writing.Closed { x with tags := Function.update x.tags i none, receiver := r } j ↔
      x.Closed j := by
  refine and_congr Iff.rfl (forall_congr' (fun m => ?_))
  by_cases hm : m = i
  · subst hm
    simp [h]
  · simp only [Function.update_of_ne hm]

theorem Follows.good {k : Caller} {dr : List (Nat × Bytes)} {x : Writing} {s : Worker} {q : Pdu}
    {a : Transfer} (h : Follows ws k dr x s) (hx : x.Sound v.pipeline ws whole medium)
    (hws : ∀ w ∈ ws, v.pipeline.ChunkOf whole w) (ha : x.target.transfers q.itt = some a)
    (hc : a.Complete) : ∃ i t, step v s (.good i) = some t ∧ Follows ws k dr
      { x with
        target := { x.target.setTransfer q.itt none with
          medium := (a.patch v.pipeline.blockSize).apply x.target.medium }
        receiver := .takeData q } t := by
  obtain ⟨j,w,htag,hw,hof,_⟩ := hx.transfer q.itt a ha
  obtain ⟨cmds,hp,hcmds,hst⟩ := h.phase
  have hopen : ¬ x.Closed j := by
    intro hcl
    rw [hcl.2 q.itt htag] at ha
    cases ha
  obtain ⟨c,hcj,rfl⟩ : ∃ c, cmds[j]? = some c ∧ c.cmd = w := by
    rw [← hcmds,List.getElem?_map] at hw
    exact Option.map_eq_some_iff.mp hw
  have hpend : c.status = .pending := by
    rcases hst j c hcj with ⟨_,hcl⟩ | ⟨hpend,_⟩
    · exact absurd hcl hopen
    · exact hpend
  have hlen := (hws c.cmd (List.mem_of_getElem? hw)).length
  have hpatch : c.cmd.patch v.blockSize = a.patch v.pipeline.blockSize := by
    rw [Transfer.patch_eq hof hc,WriteCommand.patch,Device.blockSize,← hlen,List.take_length]
  have hclosed : ∀ i, Writing.Closed { x with
      target := { x.target.setTransfer q.itt none with
        medium := (a.patch v.pipeline.blockSize).apply x.target.medium }
      receiver := .takeData q } i ↔ x.Closed i ∨ i = j := by
    intro i
    constructor
    · intro hcl
      by_cases hij : i = j
      · exact Or.inr hij
      · refine Or.inl ⟨hcl.1,fun m hm => ?_⟩
        have hne : m ≠ q.itt := by
          intro he
          subst he
          exact hij (Option.some.inj (hm.symm.trans htag))
        have hn := hcl.2 m hm
        simp only [Target.setTransfer_other hne] at hn
        exact hn
    · intro hij
      refine ⟨?_,fun m hm => ?_⟩
      · rcases hij with hcl | rfl
        · exact hcl.1
        · exact (hx.tag q.itt i htag).2
      · by_cases hne : m = q.itt
        · rw [hne]
          exact Target.setTransfer_self ..
        · rcases hij with hcl | rfl
          · exact (Target.setTransfer_other hne).trans (hcl.2 m hm)
          · exact absurd (hx.unique m q.itt i hm htag) hne
  refine ⟨j,_,by simp only [step,hp,hcj,Option.bind_eq_bind,Option.bind_some,if_pos hpend]; rfl,
    ⟨?_,_,rfl,?_,fun i e he => ?_⟩⟩
  · show (c.cmd.patch v.blockSize).apply s.disk = _
    rw [hpatch,h.disk]
  · rw [List.map_set,hcmds]
    obtain ⟨hlt,hget⟩ := List.getElem?_eq_some_iff.mp hw
    have hset : ws.set j ws[j] = ws := List.set_getElem_self hlt
    rwa [hget] at hset
  · rw [hclosed]
    rw [List.getElem?_set] at he
    split at he
    · rename_i hji
      split at he
      · cases he
        exact Or.inl ⟨rfl,Or.inr hji.symm⟩
      · cases he
    · rename_i hji
      rcases hst i e he with ⟨hg,hcl⟩ | ⟨hpe,hcl⟩
      · exact Or.inl ⟨hg,Or.inl hcl⟩
      · exact Or.inr ⟨hpe,fun hx => hx.elim hcl (fun hi => hji hi.symm)⟩

theorem follows_step {k : Caller} {dr : List (Nat × Bytes)} {x y : Writing} {s : Worker}
    {l : WriteLabel} (h : Follows ws k dr x s) (hx : x.Sound v.pipeline ws whole medium)
    (hws : ∀ w ∈ ws, v.pipeline.ChunkOf whole w)
    (hf : v.pipeline.negotiated.firstBurstLength ≤ v.pipeline.negotiated.maxSendDataSegmentLength)
    (hs : WriteStep v.pipeline ws x l y) :
    Follows ws k dr y s ∨ ∃ i t, step v s (.good i) = some t ∧ Follows ws k dr y t := by
  cases hs with
  | submit j itt cmdSn expStatSn w c target hw hj hi hlt hc ht =>
    obtain ⟨_,a,rfl,_⟩ := Writing.opened_submit (hws w (List.mem_of_getElem? hw)) hlt hf hc ht
    exact Or.inl (h.keep rfl (closed_submit hj hi))
  | register j itt w hw hj =>
    exact Or.inl (h.keep rfl (closed_task (by simp [hj]) (by simp)))
  | solicit q a b hr ha hb => exact Or.inl (h.keep rfl (closed_transfer ha))
  | good q a hr ha hc hq => exact Or.inr (h.good hx hws ha hc)
  | free q stat hr =>
    have hn := (hx.completing q (by rw [hr]; rfl)).1
    exact Or.inl (h.keep rfl (closed_free hn))
  | dataOut r data stat stat' sent dataSn q a b hr hlt hq ha hb =>
    exact Or.inl (h.keep rfl (closed_transfer ha))
  | finish j r hj hr =>
    exact Or.inl (h.keep rfl (closed_task (d := x.writeData) (by simp [hj]) (by simp)))
  | _ => exact Or.inl (h.keep rfl (fun _ => Iff.rfl))

theorem attached_step {k : Caller} {dr : List (Nat × Bytes)} {x y : Attached} {s : Worker}
    {l : Iscsi.Label} (hws : ∀ w ∈ ws, v.pipeline.ChunkOf whole w)
    (hm : 0 < v.pipeline.negotiated.maxSendDataSegmentLength)
    (hf : v.pipeline.negotiated.firstBurstLength ≤ v.pipeline.negotiated.maxSendDataSegmentLength)
    (h : Attached.Refining v.pipeline ws whole medium x ∧ Follows ws k dr x.writing s)
    (hok : Attached.OwnData ws x l) (hs : Attached.step v.pipeline ws x l = some y) :
    (Attached.Refining v.pipeline ws whole medium y ∧ Follows ws k dr y.writing s) ∨
      ∃ m t, (∃ i, m = Label.good i) ∧ step v s m = some t ∧
        Attached.Refining v.pipeline ws whole medium y ∧ Follows ws k dr y.writing t := by
  have hy := Attached.refining_step hws hm hf h.1 hok hs
  rcases Attached.step_refines hws hm h.1 hok hs with hst | ⟨l',_,hst⟩
  · exact Or.inl ⟨hy,hst ▸ h.2⟩
  · rcases follows_step h.2 h.1.sound hws hf (Iscsi.write_step hst) with hfol | ⟨i,t,ht,hfol⟩
    · exact Or.inl ⟨hy,hfol⟩
    · exact Or.inr ⟨_,t,⟨i,rfl⟩,ht,hy,hfol⟩

theorem closed_finished {x : Writing} (hx : x.Sound p ws whole medium) {i : Nat}
    {r : Except Error Unit} (hr : x.tasks i = .finished r) : x.Closed i := by
  refine ⟨by simp [hr],fun m hm => ?_⟩
  cases ht : x.target.transfers m with
  | none => rfl
  | some a =>
    have hn := (hx.pending m a i ht hm).2
    rw [hr] at hn
    cases hn

theorem Follows.returned {k : Caller} {dr : List (Nat × Bytes)} {x : Writing} {s : Worker}
    (h : Follows ws k dr x s) (hx : x.Sound v.pipeline ws whole medium)
    (hall : ∀ i < ws.length, ∃ r, x.tasks i = .finished r) :
    ∃ t, step v s .cont = some t ∧ t.phase = .syncing k dr := by
  obtain ⟨cmds,hp,hcmds,hst⟩ := h.phase
  have hgood : cmds.find? (fun c => c.status ≠ .good) = none := by
    rw [List.find?_eq_none]
    intro c hc
    obtain ⟨i,hi⟩ := List.getElem?_of_mem hc
    have hlt : i < ws.length := by
      rw [← hcmds,List.length_map]
      exact (List.getElem?_eq_some_iff.mp hi).1
    obtain ⟨r,hr⟩ := hall i hlt
    rcases hst i c hi with ⟨hg,_⟩ | ⟨_,hopen⟩
    · simp [hg]
    · exact absurd (closed_finished hx hr) hopen
  refine ⟨{ s with phase := .syncing k dr, log := s.log ++ [.syncIssued] },?_,rfl⟩
  simp only [step,hp,Worker.awaitWrites,hgood]

end

/-- The bytes that a flush writes, in one piece. -/
def Device.flushed (v : Device) (d : Image) (m : DirtyMap) : Patch :=
  ⟨0,Image.read (Patch.applyAll d (m.patches v.blockSize)) 0 (Patch.extent (m.patches v.blockSize))⟩

theorem flushed_at? {v : Device} {d : Image} {m : DirtyMap} (h : m.Disjoint v.blockSize) {w : Patch}
    (hw : w ∈ m.patches v.blockSize) {q : Nat} {y : UInt8} (hy : w.at? q = some y) :
    (v.flushed d m).at? q = some y := by
  have hc := Patch.covers_of_at? hy
  have hlt : q < Patch.extent (m.patches v.blockSize) :=
    Nat.lt_of_lt_of_le hc.2 (Patch.le_extent hw)
  simp only [Device.flushed,Patch.at?,Nat.zero_le,if_true,Nat.sub_zero,Image.getElem?_read,
    if_pos hlt,Nat.zero_add,Option.some.injEq]
  refine Patch.applyAll_agree ⟨w,hw,hc⟩ (fun u hu hcu => ?_)
  by_cases hwu : w = u
  · rw [← hwu,hy]
  · exact absurd hcu (Patch.apart_of_mem h.apart hw hu hwu q hc)

theorem writeCommands_end {p : Pipeline} {lba : Nat} {data : Bytes} {ws : List WriteCommand}
    (h : p.writeCommands lba data = some ws) (hlt : data.length < 2^32)
    (hpos : 0 < data.length/p.blockSize) : lba+data.length/p.blockSize < 2^64 := by
  unfold Pipeline.writeCommands at h
  split at h
  · rename_i hnil
    rw [List.isEmpty_iff.mp hnil] at hpos
    simp at hpos
  · split at h
    · cases h
    · simp only [Option.bind_eq_bind,Option.bind_eq_some_iff,computeWriteChunks] at h
      obtain ⟨gs,hg,_⟩ := h
      rw [Nat.mod_eq_of_lt hlt] at hg
      exact chunkLoop_end hpos hg

theorem chunkOf_flush {v : Device} {d : Image} {m : DirtyMap} {es : List (Nat × Bytes)}
    {ws : List WriteCommand} (h : m.Disjoint v.blockSize) (hes : ∀ e ∈ es, e ∈ m.drainSorted.1)
    (hc : v.AllCommands es ws) (hb : v.pipeline.negotiated.maxBurstLength < 2^24)
    {w : WriteCommand} (hw : w ∈ ws) : v.pipeline.ChunkOf (v.flushed d m) w := by
  induction es generalizing ws with
  | nil =>
    rw [hc.nil] at hw
    cases hw
  | cons e es ih =>
    obtain ⟨c₁,c₂,h₁,h₂,rfl⟩ := hc.cons
    rcases List.mem_append.mp hw with hw | hw
    · obtain ⟨f,hf,rfl⟩ := List.mem_map.mp (hes e List.mem_cons_self)
      have hfull := h.full f hf
      have hone := h.some_block f hf
      have hshort := h.short f hf
      have hbs : 0 < v.blockSize := by
        by_contra h0
        have hnil : f.2.data = [] := by
          rw [← List.length_eq_zero_iff,hfull,Nat.eq_zero_of_not_pos h0,Nat.mul_zero]
        have hc₁ : v.pipeline.writeCommands f.1 f.2.data = some c₁ := h₁
        rw [hnil] at hc₁
        cases hc₁
        cases hw
      have hdvd : v.pipeline.blockSize ∣ f.2.data.length := hfull ▸ Nat.dvd_mul_left ..
      have hdiv : f.2.data.length/v.pipeline.blockSize = f.2.blockCount := by
        rw [hfull]
        exact Nat.mul_div_cancel _ hbs
      have hend := writeCommands_end h₁ hshort (by rw [hdiv]; exact hone)
      have hch := chunkOf_writeCommands h₁ hdvd hshort hend hb hw
      exact ⟨hch.length,hch.short,hch.lba,hch.blocks,fun q y hy =>
        flushed_at? h (List.mem_map_of_mem hf) (hch.piece q y hy)⟩
    · exact ih (fun f hf => hes f (List.mem_cons_of_mem _ hf)) h₂ hw

theorem medium_flushed {v : Device} {d : Image} {m : DirtyMap} {ws : List WriteCommand} {x : Writing}
    (h : m.Disjoint v.blockSize) (hc : v.AllCommands m.drainSorted.1 ws)
    (hws : ∀ w ∈ ws, v.pipeline.ChunkOf (v.flushed d m) w)
    (hx : x.Sound v.pipeline ws (v.flushed d m) d)
    (hall : ∀ i < ws.length, ∃ r, x.tasks i = .finished r) :
    x.target.medium = Patch.applyAll d (m.patches v.blockSize) := by
  funext q
  by_cases hq : ∃ w ∈ m.patches v.blockSize, w.Covers q
  · obtain ⟨u,hu,hcu⟩ := hq
    obtain ⟨y,hy⟩ := Patch.exists_at? hcu
    have hdirty : Patch.applyAll d (m.patches v.blockSize) q = y := by
      refine Patch.applyAll_agree ⟨u,hu,hcu⟩ (fun w hw hcw => ?_)
      by_cases huw : u = w
      · rw [← huw,hy]
      · exact absurd hcw (Patch.apart_of_mem h.apart hu hw huw q hcu)
    rw [hdirty]
    rw [← submitted_eq h] at hu
    obtain ⟨e,he,rfl⟩ := List.mem_map.mp hu
    obtain ⟨w,hw,hwy⟩ := hc.covers he hy
    obtain ⟨c,hcm,rfl⟩ := List.mem_map.mp hw
    obtain ⟨i,hi,rfl⟩ := List.getElem_of_mem hcm
    obtain ⟨r,hr⟩ := hall i hi
    refine hx.written i _ (List.getElem?_eq_getElem hi) (closed_finished hx hr) q y ?_
    rwa [WriteCommand.patch,Device.blockSize,← (hws _ hcm).length,List.take_length] at hwy
  · have hout : Patch.applyAll d (m.patches v.blockSize) q = d q :=
      Patch.applyAll_outside (fun w hw hcw => hq ⟨w,hw,hcw⟩)
    rcases hx.kept q with hk | hk
    · rw [hk,hout]
    · have hat : (v.flushed d m).at? q = some (x.target.medium q) := hk
      simp only [Device.flushed,Patch.at?,Nat.zero_le,if_true,Nat.sub_zero,Image.getElem?_read,
        Nat.zero_add] at hat
      split at hat
      · exact (Option.some.inj hat).symm
      · cases hat

theorem startFlush_flushing {v : Device} {s t : Worker} {k : Caller} (h : s.startFlush v k = some t)
    (hne : s.dirty.isEmpty = false) : ∃ ws, v.AllCommands s.dirty.drainSorted.1 ws ∧
      t.phase = .flushing k s.dirty.drainSorted.1 (ws.map (fun c => ⟨c,.pending⟩)) ∧
      t.disk = s.disk := by
  unfold Worker.startFlush at h
  rw [hne] at h
  simp only [Bool.false_eq_true,if_false,Option.bind_eq_bind,Option.bind_eq_some_iff] at h
  obtain ⟨css,hc,h⟩ := h
  cases h
  exact ⟨css.flatten,⟨css,hc,rfl⟩,rfl,rfl⟩

/-- The commands of a flush. -/
def Worker.toWrite (s : Worker) : List WriteCommand := s.phase.commands.map FlushCmd.cmd

/-- Every run of the session and the target for the commands of a flush is a run of the worker:
commands answered with Good, in the order in which the target completed them. When the calls are
back the dirty blocks are on the medium, and the worker goes on to SYNCHRONIZE CACHE. -/
theorem flush_refines {v : Device} {s u : Worker} {k : Caller} {init stat : BitVec 32}
    {ls : List Iscsi.Label} {y : Attached} (hu : s.startFlush v k = some u)
    (hne : s.dirty.isEmpty = false) (hd : s.dirty.Disjoint v.blockSize)
    (hb : v.pipeline.negotiated.maxBurstLength < 2^24)
    (hf : v.pipeline.negotiated.firstBurstLength ≤ v.pipeline.negotiated.maxSendDataSegmentLength)
    (hm : 0 < v.pipeline.negotiated.maxSendDataSegmentLength)
    (hok : Machine.Meets (Attached.step v.pipeline u.toWrite) (Attached.OwnData u.toWrite)
      (.start init stat v.pipeline.negotiated s.disk) ls)
    (hr : Machine.run (Attached.step v.pipeline u.toWrite)
      (.start init stat v.pipeline.negotiated s.disk) ls = some y) :
    ∃ ms t, (∀ m ∈ ms, ∃ i, m = .good i) ∧ Machine.run (step v) u ms = some t ∧
      t.disk = y.target.medium ∧ ∀ r, y.writing.result u.toWrite = some r → r = .ok () ∧
        t.disk = Patch.applyAll s.disk (s.dirty.patches v.blockSize) ∧
        ∃ t', step v t .cont = some t' ∧ t'.phase = .syncing k s.dirty.drainSorted.1 := by
  obtain ⟨ws,hall,hp,hdisk⟩ := startFlush_flushing hu hne
  have htw : u.toWrite = ws := by simp [Worker.toWrite,Phase.commands,hp,Function.comp_def]
  rw [htw] at hok hr ⊢
  have hws : ∀ w ∈ ws, v.pipeline.ChunkOf (v.flushed s.disk s.dirty) w :=
    fun w hw => chunkOf_flush hd (fun _ he => he) hall hb hw
  have hstart : Follows ws k s.dirty.drainSorted.1 (.start s.disk) u := hdisk ▸ follows_start hp
  obtain ⟨ms,t,hms,ht,hy,hfol⟩ := Machine.run_simulates
    (R := fun x t => Attached.Refining v.pipeline ws (v.flushed s.disk s.dirty) s.disk x ∧
      Follows ws k s.dirty.drainSorted.1 x.writing t)
    (q := fun m => ∃ i, m = Label.good i) (f := step v)
    (fun _ _ _ _ hx hok hs => attached_step hws hm hf hx hok hs)
    ⟨Attached.refining_start init stat,hstart⟩ hok hr
  refine ⟨ms,t,hms,ht,hfol.disk,fun r hres => ?_⟩
  obtain ⟨hret,hfin⟩ := hy.sound.result_eq.1 r hres
  exact ⟨hret,hfol.disk.trans (medium_flushed hd hall hws hy.sound hfin),
    hfol.returned hy.sound hfin⟩

def oneDirtyBlock : Worker :=
  { Worker.start ⟨narrowDisk,32,1000,0⟩ false zeros with dirty := DirtyMap.new.insert 3 1 [1,2] }

theorem oneDirtyBlock_disjoint : oneDirtyBlock.dirty.Disjoint 2 := by
  constructor <;> decide

theorem flush_refines_one_block : ∃ u c y ms t,
    oneDirtyBlock.startFlush ⟨narrowDisk,32,1000,0⟩ .request = some u ∧
      narrowDisk.writeCommand ⟨3,1,[1,2]⟩ = some c ∧
      Machine.run (Attached.step narrowDisk [⟨3,1,[1,2]⟩]) (.start 0 0 narrowDisk.negotiated zeros)
        (Attached.oneChunk c) = some y ∧
      (∀ m ∈ ms, ∃ i, m = Label.good i) ∧
      Machine.run (step ⟨narrowDisk,32,1000,0⟩) u ms = some t ∧ t.disk = y.target.medium ∧
      t.disk = Image.write zeros 6 [1,2] := by
  have hret : ((narrowDisk.writeCommand ⟨3,1,[1,2]⟩).bind (fun c =>
      (Machine.run (Attached.step narrowDisk [⟨3,1,[1,2]⟩]) (.start 0 0 narrowDisk.negotiated zeros)
        (Attached.oneChunk c)).bind (fun y => y.writing.result [⟨3,1,[1,2]⟩]))) = some (.ok ()) := by
    decide +kernel
  obtain ⟨c,hc,hret⟩ := Option.bind_eq_some_iff.mp hret
  obtain ⟨y,hy,hret⟩ := Option.bind_eq_some_iff.mp hret
  obtain ⟨u,hu,hw⟩ : ∃ u, oneDirtyBlock.startFlush ⟨narrowDisk,32,1000,0⟩ .request = some u ∧
      u.toWrite = [⟨3,1,[1,2]⟩] := ⟨_,rfl,by decide⟩
  have hok : Machine.Meets (Attached.step narrowDisk [⟨3,1,[1,2]⟩])
      (Attached.OwnData [⟨3,1,[1,2]⟩]) (.start 0 0 narrowDisk.negotiated zeros)
      (Attached.oneChunk c) := by
    cases hc
    exact Machine.meets_of_check (by decide +kernel)
  rw [← hw] at hok hy
  obtain ⟨ms,t,hms,ht,hd,hres⟩ := flush_refines hu (by decide) oneDirtyBlock_disjoint (by decide)
    (by decide) (by decide) hok hy
  rw [hw] at hy hres
  exact ⟨u,c,y,ms,t,hu,hc,hy,hms,ht,hd,(hres _ hret).2.1⟩

end IscsiFuse.Block
