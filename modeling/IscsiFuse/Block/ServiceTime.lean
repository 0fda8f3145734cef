import IscsiFuse.Block.BlockDevice
import IscsiFuse.Block.Progress
set_option autoImplicit false

namespace IscsiFuse.Block
open IscsiFuse.Iscsi

def Device.rounds (v : Device) (lba n clba : Nat) : Nat :=
  ((lba+n-1)/v.chunkBlocks*v.chunkBlocks+v.chunkBlocks-clba)/v.chunkBlocks

def Device.flushSteps (v : Device) (m : DirtyMap) : Nat :=
  (m.drainSorted.1.map (fun e => ((v.pipeline.writeCommands e.1 e.2).getD []).length)).sum+2

def Phase.stepsLeft (v : Device) (m : DirtyMap) : Phase → Nat
  | .idle | .stopped => 0
  | .reading r clba _ => 2*v.rounds r.startLba r.blockCount clba+1
  | .awaiting r clba _ => 2*v.rounds r.startLba r.blockCount clba
  | .invalidating w clba => v.rounds w.startLba w.blockCount clba+v.flushSteps m+1
  | .flushing _ _ cmds => cmds.countP (fun c => c.status = .pending)+2
  | .syncing _ _ => 1

def Worker.stepsLeft (v : Device) (s : Worker) : Nat := s.phase.stepsLeft v s.dirty

section Rounds

variable {v : Device} {lba n clba : Nat}

theorem rounds_next (hc : 0 < v.chunkBlocks) (h : clba ≤ (lba+n-1)/v.chunkBlocks*v.chunkBlocks) :
    v.rounds lba n (clba+v.chunkBlocks)+1 = v.rounds lba n clba := by
  unfold Device.rounds
  rw [← Nat.add_div_right _ hc]
  congr 1
  omega

theorem rounds_first (hc : 0 < v.chunkBlocks) (h : v.chunkLba lba = some clba) :
    v.rounds lba n clba ≤ n/v.chunkBlocks+2 := by
  obtain ⟨_,_,hle,hlt⟩ := chunkLba_bounds h
  have hdiv := Nat.div_mul_le_self (lba+n-1) v.chunkBlocks
  unfold Device.rounds
  refine (Nat.div_le_div_right (show _ ≤ n+2*v.chunkBlocks by omega)).trans ?_
  rw [Nat.add_mul_div_right _ _ hc]

end Rounds

theorem countP_set {cmds : List FlushCmd} {i : Nat} {c : FlushCmd} {x : CmdStatus}
    (hc : cmds[i]? = some c) (hp : c.status = .pending) (hx : x ≠ .pending) :
    (cmds.set i { c with status := x }).countP (fun c => c.status = .pending)+1 =
      cmds.countP (fun c => c.status = .pending) := by
  obtain ⟨hi,rfl⟩ := List.getElem?_eq_some_iff.mp hc
  have hpos : 0 < cmds.countP (fun c => decide (c.status = .pending)) :=
    List.countP_pos_iff.mpr ⟨cmds[i],List.getElem_mem hi,by simpa using hp⟩
  rw [List.countP_set hi]
  simp only [hp,hx,decide_true,decide_false,if_true,Bool.false_eq_true,if_false]
  omega

theorem countP_started {v : Device} {m : DirtyMap} {cmds : List (List WriteCommand)}
    (h : m.drainSorted.1.mapM (fun e => v.pipeline.writeCommands e.1 e.2) = some cmds) :
    (cmds.flatten.map (fun c => FlushCmd.mk c .pending)).countP (fun c => c.status = .pending)+2 =
      v.flushSteps m := by
  have hall : ∀ c ∈ cmds.flatten.map (fun c => FlushCmd.mk c .pending),
      decide (c.status = .pending) = true := by
    intro c hc
    obtain ⟨w,_,rfl⟩ := List.mem_map.mp hc
    rfl
  have hlen : ∀ (es : List (Nat × Bytes)) (cs : List (List WriteCommand)),
      es.mapM (fun e => v.pipeline.writeCommands e.1 e.2) = some cs → cs.flatten.length =
        (es.map (fun e => ((v.pipeline.writeCommands e.1 e.2).getD []).length)).sum := by
    intro es
    induction es with
    | nil =>
      intro cs hcs
      cases hcs
      rfl
    | cons e es ih =>
      intro cs hcs
      simp only [List.mapM_cons,Option.bind_eq_bind,Option.bind_eq_some_iff] at hcs
      obtain ⟨c,hc,cs',hcs',hcs⟩ := hcs
      cases hcs
      rw [List.flatten_cons,List.length_append,ih cs' hcs',List.map_cons,List.sum_cons,hc,
        Option.getD_some]
  rw [List.countP_eq_length.mpr hall,List.length_map,hlen _ _ h]
  rfl

section Step

variable {v : Device} {s t : Worker} {l : Label}

theorem flushDone_stepsLeft (s : Worker) (r : Reply Unit) (k : Caller) :
    (s.flushDone r k).stepsLeft v = 0 := by cases k <;> rfl

theorem startFlush_stepsLeft {k : Caller} (h : s.startFlush v k = some t) :
    t.stepsLeft v ≤ v.flushSteps s.dirty := by
  rcases Worker.startFlush_cases h with ⟨_,rfl⟩ | ⟨_,cmds,hc,rfl⟩
  · rw [flushDone_stepsLeft]
    exact Nat.zero_le _
  · exact le_of_eq (countP_started hc)

theorem readStep_stepsLeft (hc : 0 < v.chunkBlocks) {r : ReadCall} {clba : Nat} {acc : Bytes}
    (hp : s.phase = .reading r clba acc) (h : s.readStep v r clba acc = some t) :
    t.stepsLeft v+1 ≤ s.stepsLeft v := by
  obtain ⟨last,hl,h⟩ := Worker.readStep_cases h
  have hlast : last = (r.startLba+r.blockCount-1)/v.chunkBlocks*v.chunkBlocks := by
    rw [Device.chunkLba,if_neg (Nat.pos_iff_ne_zero.mp hc)] at hl
    exact (Option.some.inj hl).symm
  have hs : s.stepsLeft v = 2*v.rounds r.startLba r.blockCount clba+1 := by
    rw [Worker.stepsLeft,hp]
    rfl
  rw [hs]
  rcases h with ⟨hle,_,_,hk⟩ | ⟨_,_,_,rfl⟩ | ⟨_,_,rfl⟩ | ⟨_,ra,tasks,⟨_,rfl⟩ | rfl⟩
  · obtain ⟨_,piece,rfl,_⟩ := Worker.takeChunk_cases hk
    have hnext := rounds_next (v := v) hc (hlast ▸ hle)
    simp only [Worker.stepsLeft,Phase.stepsLeft]
    omega
  · exact le_refl _
  · exact le_refl _
  · exact Nat.le_add_left ..
  · exact Nat.le_add_left ..

theorem invalidateStep_stepsLeft (hc : 0 < v.chunkBlocks) {w : WriteCall} {clba : Nat}
    (hp : s.phase = .invalidating w clba) (h : s.invalidateStep v w clba = some t) :
    t.stepsLeft v+1 ≤ s.stepsLeft v := by
  have hs : s.stepsLeft v = v.rounds w.startLba w.blockCount clba+v.flushSteps s.dirty+1 := by
    rw [Worker.stepsLeft,hp]
    rfl
  rw [hs]
  unfold Worker.invalidateStep at h
  simp only [Device.chunkLba,if_neg (Nat.pos_iff_ne_zero.mp hc),Option.bind_eq_bind,
    Option.bind_some] at h
  split at h
  · rename_i hle
    simp only [Option.bind_eq_some_iff,addU64_eq_some] at h
    obtain ⟨_,⟨_,rfl⟩,h⟩ := h
    cases h
    have hnext := rounds_next (v := v) hc hle
    simp only [Worker.stepsLeft,Phase.stepsLeft]
    omega
  · split at h
    · have hf : t.stepsLeft v ≤ v.flushSteps s.dirty := (startFlush_stepsLeft h :)
      omega
    · cases h
      exact Nat.le_add_left ..

theorem awaitWrites_stepsLeft {k : Caller} {dr : List (Nat × Bytes)} {cmds : List FlushCmd}
    (hp : s.phase = .flushing k dr cmds) (h : s.awaitWrites k dr cmds = some t) :
    t.stepsLeft v+1 ≤ s.stepsLeft v := by
  have hs : s.stepsLeft v = cmds.countP (fun c => c.status = .pending)+2 := by
    rw [Worker.stepsLeft,hp]
    rfl
  rw [hs]
  rcases Worker.awaitWrites_cases h with ⟨_,rfl⟩ | ⟨_,_,_,_,left,e,rfl⟩
  · exact Nat.le_add_left ..
  · rw [flushDone_stepsLeft]
    omega

theorem drives_fetch {p : Phase} {c : Nat} (h : ∀ r acc, p ≠ .awaiting r c acc) :
    (Label.fetched c).drives p = false ∧ (Label.fetchFailed c).drives p = false := by
  cases p with
  | awaiting r clba acc =>
    have hne : clba ≠ c := fun hc => h r acc (hc ▸ rfl)
    exact ⟨decide_eq_false hne,decide_eq_false hne⟩
  | _ => exact ⟨rfl,rfl⟩

theorem fetchDone_stepsLeft (hv : v.Roomy) (h : s.Addressed v) {c : Nat}
    (hs : s.fetchDone v c = some t) :
    t.stepsLeft v+(if (Label.fetched c).drives s.phase then 1 else 0) ≤ s.stepsLeft v := by
  obtain ⟨chunk,tasks,_,⟨rfl,hne⟩ | ⟨r,acc,hp,hk⟩⟩ := Worker.fetchDone_cases hs
  · rw [(drives_fetch hne).1]
    exact le_refl _
  · obtain ⟨_,piece,rfl,_⟩ := Worker.takeChunk_cases hk
    have hnext := rounds_next (v := v) hv.chunk.1 (h.awaiting r c acc hp).2
    rw [Worker.stepsLeft,Worker.stepsLeft,hp]
    simp only [Phase.stepsLeft,Label.drives,decide_true,if_true]
    omega

theorem fetchFailed_stepsLeft (hv : v.Roomy) (h : s.Addressed v) {c : Nat}
    (hs : s.fetchFailed c = some t) :
    t.stepsLeft v+(if (Label.fetchFailed c).drives s.phase then 1 else 0) ≤ s.stepsLeft v := by
  unfold Worker.fetchFailed at hs
  split at hs
  · cases hs
  · simp only at hs
    split at hs
    · rename_i r clba acc hp
      split at hs
      · rename_i hcl
        subst hcl
        cases hs
        have hnext := rounds_next (v := v) hv.chunk.1 (h.awaiting r clba acc hp).2
        rw [Worker.stepsLeft,Worker.stepsLeft,hp]
        simp only [Phase.stepsLeft,Label.drives,Worker.readDone,Worker.answer,decide_true,if_true]
        omega
      · rename_i hcl
        cases hs
        simp [Worker.stepsLeft,hp,Label.drives,hcl]
    · rename_i hp
      cases hs
      rw [(drives_fetch (fun r acc => hp r c acc)).2]
      exact le_refl _

theorem stepsLeft_step (hv : v.Roomy) (h : s.Addressed v) (hl : l.work = true)
    (hs : step v s l = some t) :
    t.stepsLeft v+(if l.drives s.phase then 1 else 0) ≤ s.stepsLeft v := by
  cases l with
  | read | write | flush | setSyncWrites | tick | close => cases hl
  | cont =>
    cases hp : s.phase with
    | reading r clba acc =>
      exact readStep_stepsLeft hv.chunk.1 hp (by simpa only [step,hp] using hs)
    | invalidating w clba =>
      exact invalidateStep_stepsLeft hv.chunk.1 hp (by simpa only [step,hp] using hs)
    | flushing k dr cmds => exact awaitWrites_stepsLeft hp (by simpa only [step,hp] using hs)
    | idle | awaiting | syncing | stopped => simp [step,hp] at hs
  | good i =>
    cases hp : s.phase with
    | flushing k dr cmds =>
      simp only [step,hp,Option.bind_eq_bind,Option.bind_eq_some_iff] at hs
      obtain ⟨c,hc,hs⟩ := hs
      split at hs
      · rename_i hst
        cases hs
        have hset := countP_set (x := .good) hc hst (by simp)
        rw [Worker.stepsLeft,Worker.stepsLeft,hp]
        simp only [Phase.stepsLeft,Label.drives,if_true]
        omega
      · cases hs
    | _ => simp [step,hp] at hs
  | fail i applied panicked =>
    cases hp : s.phase with
    | flushing k dr cmds =>
      simp only [step,hp,Option.bind_eq_bind,Option.bind_eq_some_iff] at hs
      obtain ⟨c,hc,hs⟩ := hs
      split at hs
      · rename_i hst
        have hset := countP_set (x := .failed panicked) hc hst (by simp)
        have ht : t.stepsLeft v = (cmds.set i { c with status := .failed panicked }).countP
            (fun c => c.status = .pending)+2 := by cases applied <;> cases hs <;> rfl
        rw [ht,Worker.stepsLeft,hp]
        simp only [Phase.stepsLeft,Label.drives,if_true]
        omega
      · cases hs
    | _ => simp [step,hp] at hs
  | syncGood =>
    cases hp : s.phase with
    | syncing k dr =>
      simp only [step,hp] at hs
      cases hs
      rw [flushDone_stepsLeft,Worker.stepsLeft,hp]
      exact le_refl _
    | _ => simp [step,hp] at hs
  | syncFail =>
    cases hp : s.phase with
    | syncing k dr =>
      simp only [step,hp] at hs
      cases hs
      rw [flushDone_stepsLeft,Worker.stepsLeft,hp]
      exact le_refl _
    | _ => simp [step,hp] at hs
  | fetched c => exact fetchDone_stepsLeft hv h hs
  | fetchFailed c => exact fetchFailed_stepsLeft hv h hs
  | readahead i =>
    obtain ⟨tasks,ra,rfl | ⟨c,_,rfl⟩⟩ := Worker.raStep_cases hs <;> exact le_refl _
  | evict c =>
    cases hs
    exact le_refl _
  | strayApplied i good =>
    simp only [step,Option.bind_eq_bind,Option.bind_eq_some_iff] at hs
    obtain ⟨c,_,hs⟩ := hs
    cases good <;> cases hs <;> exact le_refl _

/-- Steps that a request needs on a worker whose dirty map is `before`, and `after` once the
request is received. -/
def Label.bound (v : Device) (before after : DirtyMap) : Label → Nat
  | .read offset size => 2*((v.readBlocks offset size).2/v.chunkBlocks+2)+1
  | .write offset data _ => (v.writeBlocks offset data).2/v.chunkBlocks+2+v.flushSteps after+1
  | .flush | .tick | .close => v.flushSteps before
  | _ => 0

theorem stepsLeft_received (hv : v.Roomy) (hl : l.work = false) (hs : step v s l = some t) :
    t.stepsLeft v ≤ l.bound v s.dirty t.dirty := by
  cases l with
  | cont | good | fail | syncGood | syncFail | fetched | fetchFailed | readahead | evict
  | strayApplied => cases hl
  | setSyncWrites enabled =>
    cases hp : s.phase with
    | idle =>
      simp only [step,hp] at hs
      cases hs
      simp [Worker.stepsLeft,Phase.stepsLeft]
    | _ => simp [step,hp] at hs
  | tick =>
    cases hp : s.phase with
    | idle =>
      simp only [step,hp] at hs
      split at hs
      · cases hs
        simp [Worker.stepsLeft,hp,Phase.stepsLeft]
      · exact startFlush_stepsLeft hs
    | _ => simp [step,hp] at hs
  | flush | close =>
    cases hp : s.phase with
    | idle => exact startFlush_stepsLeft (by simpa only [step,hp] using hs)
    | _ => simp [step,hp] at hs
  | read offset size =>
    cases hp : s.phase with
    | idle =>
      simp only [step,hp] at hs
      rcases Worker.recvRead_cases hs with rfl | ⟨r,hof,⟨_,_,_,rfl⟩ | ⟨_,clba,hc,rfl⟩⟩
      · exact Nat.zero_le _
      · exact Nat.zero_le _
      · have hle := rounds_first (n := r.blockCount) hv.chunk.1 hc
        obtain ⟨_,_,_,hn,_⟩ := computeAlignment_eq_some hof.aligned
        have hmod := Nat.mod_le (touched offset r.actualSize v.blockSize).2 (2^32)
        rw [← hn,hof.clamped] at hmod
        have hdiv := Nat.div_le_div_right (c := v.chunkBlocks) hmod
        simp only [Worker.stepsLeft,Phase.stepsLeft,Label.bound,Device.readBlocks]
        omega
    | _ => simp [step,hp] at hs
  | write offset data rmwOk =>
    cases hp : s.phase with
    | idle =>
      simp only [step,hp] at hs
      rcases Worker.recvWrite_cases hs with ⟨_,rfl,_⟩ | ⟨w,buf,clba,hof,_,hc,rfl⟩
      · exact Nat.zero_le _
      · have hle := rounds_first (n := w.blockCount) hv.chunk.1 hc
        obtain ⟨skip,ha⟩ := hof.aligned
        obtain ⟨_,_,_,hn,_⟩ := computeAlignment_eq_some ha
        have hmod := Nat.mod_le (touched offset w.actualLen v.blockSize).2 (2^32)
        rw [← hn,hof.clamped] at hmod
        have hdiv := Nat.div_le_div_right (c := v.chunkBlocks) hmod
        simp only [Worker.stepsLeft,Phase.stepsLeft,Label.bound,Device.writeBlocks,Device.writeLen]
        omega
    | _ => simp [step,hp] at hs

theorem Worker.Addressed.stepsLeft_pos (h : s.Addressed v) (hv : v.Roomy)
    (hz : s.stepsLeft v = 0) : s.phase = .idle ∨ s.phase = .stopped := by
  unfold Worker.stepsLeft at hz
  cases hp : s.phase with
  | idle => exact Or.inl rfl
  | stopped => exact Or.inr rfl
  | awaiting r clba acc =>
    have hnext := rounds_next (v := v) hv.chunk.1 (h.awaiting r clba acc hp).2
    simp only [hp,Phase.stepsLeft] at hz
    omega
  | _ => simp [hp,Phase.stepsLeft] at hz

/-- A request that the worker receives is answered after at most so many steps of the worker and of
what it waits for, whatever else happens between them. -/
theorem answered_within (hv : v.Roomy) {syncWrites : Bool} {d : Image} {ls ms : List Label}
    {u : Worker} (hr : Machine.run (step v) (Worker.start v syncWrites d) ls = some s)
    (hl : l.work = false) (hs : step v s l = some u) (hms : ∀ m ∈ ms, Label.work m = true)
    (ht : Machine.run (step v) u ms = some t) :
    let taken := Machine.count (step v) (fun s l => l.drives s.phase) u ms
    taken ≤ l.bound v s.dirty u.dirty ∧
      (t.phase ≠ .idle → t.phase ≠ .stopped → taken < l.bound v s.dirty u.dirty) := by
  have hu : u.Addressed v := (addressed_run hv hr).step hv hs
  have hmeets : Machine.Meets (step v) (fun _ m => Label.work m = true) u ms :=
    Machine.meets_of_forall (fun m hm _ => hms m hm)
  have hcount : Machine.count (step v) (fun s l => l.drives s.phase) u ms+t.stepsLeft v ≤
      u.stepsLeft v := Machine.count_le (I := Worker.Addressed v)
    (fun s m t hi hw hs => ⟨hi.step hv hs,stepsLeft_step hv hi hw hs⟩) hu hmeets ht
  have hbound := stepsLeft_received hv hl hs
  have hta : t.Addressed v := Machine.run_invariant (I := Worker.Addressed v)
    (fun _ _ _ h hs => h.step hv hs) hu ht
  refine ⟨by omega,fun hi hst => ?_⟩
  have hpos : t.stepsLeft v ≠ 0 := fun hz => (hta.stepsLeft_pos hv hz).elim hi hst
  omega

/-- A flush of one dirty entry: the command, the end of the await and the synchronization. -/
theorem answered_within_flush : ∃ s u t,
    Machine.run (step smallDevice) (Worker.start smallDevice false zeros)
      [.write 5 [1,2] true,.cont,.cont] = some s ∧ step smallDevice s .flush = some u ∧
    Machine.run (step smallDevice) u [.good 0,.evict 3,.cont,.syncGood] = some t ∧
    t.phase = .idle ∧ Label.bound smallDevice s.dirty u.dirty .flush = 3 ∧
    Machine.count (step smallDevice) (fun s l => l.drives s.phase) u
      [.good 0,.evict 3,.cont,.syncGood] ≤ 3 := by
  obtain ⟨s,u,t,hs,hu,ht,hi,hb⟩ : ∃ s u t,
      Machine.run (step smallDevice) (Worker.start smallDevice false zeros)
        [.write 5 [1,2] true,.cont,.cont] = some s ∧ step smallDevice s .flush = some u ∧
      Machine.run (step smallDevice) u [.good 0,.evict 3,.cont,.syncGood] = some t ∧
      t.phase = .idle ∧ Label.bound smallDevice s.dirty u.dirty .flush = 3 :=
    ⟨_,_,_,rfl,rfl,rfl,rfl,by decide⟩
  have h := answered_within (l := .flush) smallDevice_roomy hs rfl hu (by decide) ht
  exact ⟨s,u,t,hs,hu,ht,hi,hb,hb ▸ h.1⟩

end Step

end IscsiFuse.Block
