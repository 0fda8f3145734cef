import IscsiFuse.Block.Buffers
set_option autoImplicit false

/-!
The running total of the dirty map. Here the read half of a read-modify-write
may return any bytes; the worker's own step is the case in which it returns
what the target holds.
-/

namespace IscsiFuse.Block
open IscsiFuse.Iscsi

def Worker.recvWriteOver (v : Device) (s : Worker) (offset : Nat) (data : Bytes)
    (existing : Option Bytes) : Option Worker := do
  let s := { s with log := s.log ++ [Event.received offset data] }
  if data.isEmpty ∨ v.totalBytes ≤ offset then pure (s.answer (.writeReply offset data (.ok 0)))
  else do
    let actualLen := min data.length (v.totalBytes-offset)
    let new := data.take actualLen
    let (startLba,blockCount,skip) ← computeAlignment offset actualLen v.blockSize
    let w : WriteCall := ⟨offset,data,actualLen,startLba,blockCount,
      s.dirty.entries.get? startLba⟩
    if skip = 0 ∧ actualLen%v.blockSize = 0 then do
      let clba ← v.chunkLba startLba
      pure { s with dirty := s.dirty.insert startLba blockCount new,
                    phase := .invalidating w clba }
    else match existing with
      | none => pure (s.answer (.writeReply offset data (.err .rmwReadFailed)))
      | some existing =>
        let endInBuf := skip+actualLen
        if existing.length < endInBuf then
          pure (s.answer (.writeReply offset data (.err .rmwOverflow)))
        else do
          let buf := existing.take skip ++ new ++ existing.drop endInBuf
          let clba ← v.chunkLba startLba
          pure { s with dirty := s.dirty.insert startLba blockCount buf,
                        phase := .invalidating w clba }

/-- A step of the worker, or a Write whose read half returns what it likes. -/
inductive Input where
  | worker (l : Label)
  | write (offset : Nat) (data : Bytes) (existing : Option Bytes)
  deriving DecidableEq, Repr

def stepOver (v : Device) (s : Worker) : Input → Option Worker
  | .worker l => step v s l
  | .write offset data existing =>
    if s.phase = .idle then s.recvWriteOver v offset data existing else none

def Input.write? : Input → Option (Nat × Bytes)
  | .worker (.write offset data _) | .write offset data _ => some (offset,data)
  | _ => none

/-- A Write that needs no read half has fewer than `2^32` blocks. -/
def Input.Counts (v : Device) (i : Input) : Prop :=
  ∀ offset data, i.write? = some (offset,data) → offset%v.blockSize = 0 →
    v.writeLen offset data%v.blockSize = 0 → v.writeLen offset data/v.blockSize < 2^32

/-- The read half returns all the blocks it asks for. -/
def Input.ReadsFull (v : Device) : Input → Prop
  | .write offset data (some existing) => ∀ startLba blockCount skip,
      computeAlignment offset (v.writeLen offset data) v.blockSize =
        some (startLba,blockCount,skip) → existing.length = blockCount*v.blockSize
  | _ => True

def Phase.unchecked : Phase → Bool
  | .invalidating _ _ => true
  | _ => false

/-- The total is the sum of the lengths, the subtraction of an insertion finds what it takes
away, and after every request the total is zero or below the threshold. -/
structure Accounted (v : Device) (s : Worker) : Prop where
  total : s.dirty.totalBytes = s.dirty.entries.sum (fun e => e.data.length)
  replaced : ∀ startLba old, s.dirty.entries.get? startLba = some old →
    old.data.length ≤ s.dirty.totalBytes
  bounded : s.phase = .idle ∨ s.phase = .stopped →
    s.dirty.totalBytes = 0 ∨ s.dirty.totalBytes < v.coalesceMaxBytes

/-- Every entry holds the bytes of its blocks. -/
def Filled (v : Device) (s : Worker) : Prop :=
  ∀ e ∈ s.dirty.entries.entries, e.2.data.length = e.2.blockCount*v.blockSize

structure Balanced (v : Device) (s : Worker) : Prop where
  total : s.dirty.totalBytes = s.dirty.entries.sum (fun e => e.data.length)
  bounded : s.phase.unchecked = false →
    s.dirty.totalBytes = 0 ∨ s.dirty.totalBytes < v.coalesceMaxBytes

def Passes (v : Device) (c d : Core) : Prop :=
  d.dirty = .new ∨ (d.dirty = c.dirty ∧ (c.dirty.entries.entries = [] ∨
    c.dirty.totalBytes < v.coalesceMaxBytes ∨
    (d.phase.unchecked = false → c.phase.unchecked = false)))

inductive Inserts (v : Device) (offset : Nat) (data : Bytes) (existing : Option Bytes) :
    Nat → Bytes → Prop
  | aligned : 0 < v.blockSize → offset%v.blockSize = 0 →
      v.writeLen offset data%v.blockSize = 0 →
      Inserts v offset data existing (v.writeLen offset data/v.blockSize%2^32)
        (data.take (v.writeLen offset data))
  | merged (startLba blockCount skip : Nat) (old buf : Bytes) :
      computeAlignment offset (v.writeLen offset data) v.blockSize =
        some (startLba,blockCount,skip) →
      existing = some old →
      ¬ (offset%v.blockSize = 0 ∧ v.writeLen offset data%v.blockSize = 0) →
      buf.length = old.length → Inserts v offset data existing blockCount buf

theorem touched_aligned {offset size bs : Nat} (hb : 0 < bs) (ho : offset%bs = 0)
    (hs : size%bs = 0) : (touched offset size bs).2 = size/bs := by
  obtain ⟨a,rfl⟩ := Nat.dvd_of_mod_eq_zero ho
  obtain ⟨c,rfl⟩ := Nat.dvd_of_mod_eq_zero hs
  have hstop : (bs*a+bs*c+bs-1)/bs = a+c := by
    rw [← Nat.mul_add,Nat.add_sub_assoc hb,Nat.mul_add_div hb,Nat.div_eq_of_lt (by omega),Nat.add_zero]
  rw [touched,hstop,Nat.mul_div_cancel_left a hb,Nat.mul_div_cancel_left c hb]
  omega

namespace DirtyMap

variable {m : DirtyMap}

theorem insert_total (h : m.totalBytes = m.entries.sum (fun e => e.data.length)) (lba n : Nat)
    (data : Bytes) : (m.insert lba n data).totalBytes =
      (m.insert lba n data).entries.sum (fun e => e.data.length) := by
  have hs := m.entries.sum_insert (fun e => e.data.length) lba ⟨data,n⟩
  rw [insert_entries,insert]
  cases hg : m.entries.get? lba with
  | none =>
    rw [hg] at hs
    simp only [Option.map_none,Option.getD_none] at hs ⊢
    omega
  | some old =>
    have hle := OrdMap.le_sum (fun e : DirtyEntry => e.data.length) hg
    rw [hg] at hs
    simp only [Option.map_some,Option.getD_some] at hs hle ⊢
    omega

end DirtyMap

theorem Balanced.accounted {v : Device} {s : Worker} (h : Balanced v s) : Accounted v s where
  total := h.total
  replaced := fun startLba old hg => by
    rw [h.total]
    exact OrdMap.le_sum (fun e : DirtyEntry => e.data.length) hg
  bounded := fun hp => h.bounded (by rcases hp with hp | hp <;> rw [hp] <;> rfl)

namespace Worker

variable {v : Device} {s t : Worker}

theorem flushDone_dirty (s : Worker) (r : Reply Unit) (k : Caller) :
    (s.flushDone r k).dirty = s.dirty := by cases k <;> rfl

theorem startFlush_passes {k : Caller} {u : Worker} (h : u.startFlush v k = some t)
    (hd : u.dirty = s.dirty) : Passes v s.core t.core := by
  rcases startFlush_cases h with ⟨he,rfl⟩ | ⟨_,_,_,rfl⟩
  · rw [hd] at he
    exact Or.inr ⟨(flushDone_dirty ..).trans hd,Or.inl he⟩
  · exact Or.inl rfl

theorem invalidateStep_passes {w : WriteCall} {clba : Nat}
    (h : s.invalidateStep v w clba = some t) : Passes v s.core t.core := by
  unfold invalidateStep at h
  simp only [Option.bind_eq_bind,Option.bind_eq_some_iff] at h
  obtain ⟨last,_,h⟩ := h
  split at h
  · simp only [Option.bind_eq_some_iff] at h
    obtain ⟨next,_,h⟩ := h
    cases h
    exact Or.inr ⟨rfl,Or.inr (Or.inr (fun hu => by cases hu))⟩
  · split at h
    · exact startFlush_passes h rfl
    · rename_i hc
      cases h
      simp only [not_or,Nat.not_le] at hc
      exact Or.inr ⟨rfl,Or.inr (Or.inl hc.2)⟩

theorem recvWrite_over (v : Device) (s : Worker) (offset : Nat) (data : Bytes) (rmwOk : Bool) :
    ∃ existing, s.recvWrite v offset data rmwOk = s.recvWriteOver v offset data existing ∧
      (Input.write offset data existing).ReadsFull v := by
  cases rmwOk with
  | false =>
    refine ⟨none,?_,trivial⟩
    simp only [recvWrite,recvWriteOver,if_pos]
  | true =>
    cases hc : computeAlignment offset (v.writeLen offset data) v.blockSize with
    | none =>
      refine ⟨none,?_,trivial⟩
      rw [Device.writeLen] at hc
      simp only [recvWrite,recvWriteOver,hc,Option.bind_eq_bind,Option.bind_none]
    | some a =>
      refine ⟨some (s.disk.read (a.1*v.blockSize) (a.2.1*v.blockSize)),?_,?_⟩
      · rw [Device.writeLen] at hc
        simp only [recvWrite,recvWriteOver,hc,Option.bind_eq_bind,Option.bind_some,Bool.true_eq_false,
          if_false]
      · intro lba n skip hx
        rw [hc] at hx
        cases hx
        exact Image.read_length ..

theorem recvWriteOver_cases {offset : Nat} {data : Bytes} {existing : Option Bytes}
    (h : s.recvWriteOver v offset data existing = some t) :
    (t.dirty = s.dirty ∧ t.phase = .idle ∧ (Input.write offset data existing).Counts v) ∨
    ∃ lba n buf, Inserts v offset data existing n buf ∧ t.dirty = s.dirty.insert lba n buf ∧
      t.phase.unchecked = true := by
  unfold recvWriteOver at h
  simp only at h
  split at h
  · rename_i he
    cases h
    refine Or.inl ⟨rfl,rfl,fun o d hw => ?_⟩
    cases hw
    simp only [List.isEmpty_iff] at he
    have hlen : v.writeLen offset data = 0 := by
      rw [Device.writeLen]
      rcases he with he | he
      · rw [he,List.length_nil,Nat.zero_min]
      · omega
    simp [hlen]
  · simp only [Option.bind_eq_bind,Option.bind_eq_some_iff] at h
    obtain ⟨⟨lba,n,skip⟩,ha,h⟩ := h
    obtain ⟨hb,_,_,hn,hskip⟩ := computeAlignment_eq_some ha
    simp only at h
    split at h
    · rename_i hal
      rw [hskip] at hal
      simp only [Option.bind_eq_some_iff] at h
      obtain ⟨clba,_,h⟩ := h
      cases h
      refine Or.inr ⟨lba,n,_,?_,rfl,rfl⟩
      rw [hn,touched_aligned hb hal.1 hal.2]
      exact .aligned hb hal.1 hal.2
    · rename_i hun
      rw [hskip] at hun
      have hcounts : (Input.write offset data existing).Counts v := by
        intro o d hw ho hl
        cases hw
        exact absurd ⟨ho,hl⟩ hun
      split at h
      · cases h
        exact Or.inl ⟨rfl,rfl,hcounts⟩
      · rename_i old
        split at h
        · cases h
          exact Or.inl ⟨rfl,rfl,hcounts⟩
        · rename_i hlen
          simp only [Option.bind_eq_some_iff] at h
          obtain ⟨clba,_,h⟩ := h
          cases h
          refine Or.inr ⟨lba,n,_,.merged lba n skip old _ ha rfl hun ?_,rfl,rfl⟩
          simp only [List.length_append,List.length_take,List.length_drop]
          omega

theorem passes_keep {c d : Core} (hd : d.dirty = c.dirty) (hp : c.phase.unchecked = false) :
    Passes v c d := Or.inr ⟨hd,Or.inr (Or.inr (fun _ => hp))⟩

theorem passes_flushDone {c d : Core} {r : Reply Unit} {k : Caller} (hd : d.dirty = c.dirty)
    (hp : c.phase.unchecked = false) : Passes v c (d.flushDone r k) := by
  refine passes_keep ?_ hp
  cases k <;> exact hd

theorem step_passes {l : Label} (h : step v s l = some t)
    (hl : (Input.worker l).write? = none) : Passes v s.core t.core := by
  generalize htc : t.core = c
  cases htc ▸ step_core h with
  | background => exact Or.inr ⟨rfl,Or.inr (Or.inr id)⟩
  | emptyRead _ _ hp | dirtyRead _ _ _ _ hp | startRead _ _ _ _ hp | await _ _ _ hp
  | readDone _ _ _ _ hp | good _ _ _ _ _ hp | fail _ _ _ _ _ _ _ hp | sync _ _ _ hp =>
    exact passes_keep rfl (by rw [show s.core.phase = _ from hp]; rfl)
  | take _ _ _ _ _ _ ht =>
    cases ht with
    | hit hp | fetched hp => exact passes_keep rfl (by rw [show s.core.phase = _ from hp]; rfl)
  | readFailed _ _ _ _ _ hp =>
    rcases hp with hp | hp <;>
      exact passes_keep rfl (by rw [show s.core.phase = _ from hp]; rfl)
  | emptyWrite | failedWrite | insert => cases hl
  | invalidate => exact Or.inr ⟨rfl,Or.inr (Or.inr (fun hu => by cases hu))⟩
  | writeDone w clba hp =>
    have h : s.invalidateStep v w clba = some t := by simpa only [step,hp] using h
    exact htc ▸ invalidateStep_passes h
  | flushNothing _ k _ he =>
    refine Or.inr ⟨?_,Or.inl he⟩
    cases k <;> rfl
  | flushStart => exact Or.inl rfl
  | flushFailed _ _ _ _ _ _ _ hp | syncGood _ _ hp | syncFail _ _ hp =>
    exact passes_flushDone rfl (by rw [show s.core.phase = _ from hp]; rfl)
  | stray => exact Or.inr ⟨rfl,Or.inr (Or.inr id)⟩

theorem step_write {l : Label} {offset : Nat} {data : Bytes} (h : step v s l = some t)
    (hl : (Input.worker l).write? = some (offset,data)) : s.phase = .idle ∧
    ∃ existing, s.recvWriteOver v offset data existing = some t ∧
      (Input.write offset data existing).ReadsFull v := by
  cases l with
  | write o d rmwOk =>
    cases hl
    by_cases hp : s.phase = .idle
    · have h : s.recvWrite v offset data rmwOk = some t := by simpa only [step,hp] using h
      obtain ⟨existing,he,hfull⟩ := recvWrite_over v s offset data rmwOk
      exact ⟨hp,existing,he ▸ h,hfull⟩
    · simp [step,hp] at h
  | _ => cases hl

theorem stepOver_write {i : Input} {offset : Nat} {data : Bytes} (h : stepOver v s i = some t)
    (hi : i.write? = some (offset,data)) : s.phase = .idle ∧
    ∃ existing, s.recvWriteOver v offset data existing = some t ∧
      (i.ReadsFull v → (Input.write offset data existing).ReadsFull v) := by
  cases i with
  | worker l =>
    obtain ⟨hp,existing,hs,hfull⟩ := step_write h hi
    exact ⟨hp,existing,hs,fun _ => hfull⟩
  | write o d existing =>
    cases hi
    rw [stepOver] at h
    split at h
    · exact ⟨‹_›,existing,h,id⟩
    · cases h

theorem stepOver_cases {i : Input} (h : stepOver v s i = some t) :
    (Passes v s.core t.core ∧ i.Counts v) ∨
    ∃ offset data existing lba n buf, i.write? = some (offset,data) ∧
      (i.ReadsFull v → (Input.write offset data existing).ReadsFull v) ∧
      Inserts v offset data existing n buf ∧ t.dirty = s.dirty.insert lba n buf ∧
      t.phase.unchecked = true := by
  cases hw : i.write? with
  | none =>
    refine Or.inl ⟨?_,fun o d ho => by rw [hw] at ho; cases ho⟩
    cases i with
    | worker l => exact step_passes h hw
    | write => cases hw
  | some q =>
    obtain ⟨hp,existing,hs,hfull⟩ := stepOver_write h hw
    rcases recvWriteOver_cases hs with ⟨hd,_,hc⟩ | ⟨lba,n,buf,hi,hd,hu⟩
    · refine Or.inl ⟨passes_keep hd (by rw [show s.core.phase = _ from hp]; rfl),?_⟩
      intro o d ho
      rw [hw] at ho
      cases ho
      exact hc o d rfl
    · exact Or.inr ⟨q.1,q.2,existing,lba,n,buf,rfl,hfull,hi,hd,hu⟩

end Worker

open Worker

section Run

variable {v : Device} {s t : Worker} {i : Input}

theorem balanced_step (h : Balanced v s) (hs : stepOver v s i = some t) : Balanced v t := by
  rcases stepOver_cases hs with ⟨hd | ⟨hd,hc⟩,_⟩ | ⟨_,_,_,lba,n,buf,_,_,_,hd,hu⟩
  · have hd : t.dirty = .new := hd
    exact ⟨by rw [hd]; rfl,fun _ => Or.inl (by rw [hd]; rfl)⟩
  · have hd : t.dirty = s.dirty := hd
    refine ⟨by rw [hd]; exact h.total,fun hu => ?_⟩
    rw [hd]
    rcases hc with he | hlt | hp
    · refine Or.inl (h.total.trans ?_)
      rw [OrdMap.sum,show s.dirty.entries.entries = [] from he]
      rfl
    · exact Or.inr hlt
    · exact h.bounded (hp hu)
  · refine ⟨by rw [hd]; exact DirtyMap.insert_total h.total lba n buf,fun hx => ?_⟩
    rw [hu] at hx
    cases hx

theorem balanced_start (v : Device) (syncWrites : Bool) (disk : Image) :
    Balanced v (Worker.start v syncWrites disk) :=
  ⟨rfl,fun _ => Or.inl rfl⟩

theorem Inserts.filled_iff {offset n : Nat} {data buf : Bytes} {existing : Option Bytes}
    (h : Inserts v offset data existing n buf)
    (hf : (Input.write offset data existing).ReadsFull v) :
    buf.length = n*v.blockSize ↔ (Input.write offset data existing).Counts v := by
  cases h with
  | aligned hb ho hl =>
    have hlen : (data.take (v.writeLen offset data)).length = v.writeLen offset data := by
      rw [List.length_take,Device.writeLen]
      omega
    have hdiv := Nat.div_add_mod (v.writeLen offset data) v.blockSize
    rw [hl,Nat.add_zero,Nat.mul_comm] at hdiv
    rw [hlen]
    constructor
    · intro he o d hw _ _
      cases hw
      have hn := Nat.eq_of_mul_eq_mul_right hb (hdiv.trans he)
      exact hn ▸ Nat.mod_lt _ (by decide)
    · intro hc
      have hlt := hc offset data rfl ho hl
      rw [Nat.mod_eq_of_lt hlt,hdiv]
  | merged lba _ skip old _ ha he hu hlen =>
    subst he
    refine iff_of_true (hlen.trans (hf lba n skip ha)) (fun o d hw ho hl => ?_)
    cases hw
    exact absurd ⟨ho,hl⟩ hu

theorem filled_step_iff (h : Filled v s) (hf : i.ReadsFull v) (hs : stepOver v s i = some t) :
    Filled v t ↔ i.Counts v := by
  rcases stepOver_cases hs with ⟨hd,hc⟩ | ⟨offset,data,existing,lba,n,buf,hw,hfull,hi,hd,_⟩
  · refine iff_of_true ?_ hc
    rcases hd with hd | ⟨hd,_⟩
    · intro e he
      rw [show t.dirty = .new from hd] at he
      cases he
    · intro e he
      rw [show t.dirty = s.dirty from hd] at he
      exact h e he
  · have hcounts : i.Counts v ↔ (Input.write offset data existing).Counts v := by
      rw [Input.Counts,Input.Counts,hw]
      rfl
    rw [hcounts,← hi.filled_iff (hfull hf),Filled,hd,DirtyMap.insert_entries]
    constructor
    · intro he
      exact he (lba,⟨buf,n⟩) ((OrdMap.mem_insert ..).mpr (Or.inl rfl))
    · intro hb e he
      rcases (OrdMap.mem_insert ..).mp he with rfl | ⟨he,_⟩
      · exact hb
      · exact h e he

end Run

/-- In every run the dirty map is accounted for; and, when the read half of every Write returns
all its blocks, its entries hold the bytes of their blocks throughout the run exactly when every
Write without a read half has fewer than `2^32` blocks. -/
theorem dirty_accounted {v : Device} {syncWrites : Bool} {disk : Image} {ls : List Input} {t : Worker}
    (hr : Machine.run (stepOver v) (.start v syncWrites disk) ls = some t) :
    Accounted v t ∧ ((∀ i ∈ ls, i.ReadsFull v) →
      (Machine.Always (stepOver v) (Filled v) (.start v syncWrites disk) ls ↔
        ∀ i ∈ ls, i.Counts v)) := by
  have hb : Balanced v t := Machine.run_invariant (fun _ _ _ h hs => balanced_step h hs)
    (balanced_start v syncWrites disk) hr
  refine ⟨hb.accounted,fun hfull => ?_⟩
  rw [← Machine.meets_labels hr]
  have hg := (Machine.meets_labels hr).mpr hfull
  exact Machine.always_iff_meets (J := fun _ => True) (fun _ _ _ _ _ _ => trivial)
    (fun _ _ _ _ hp hf hs => filled_step_iff hp hf hs) trivial (fun e he => by cases he) hg hr

theorem small_counts (i : Input) : i.Counts smallDevice := by
  intro offset data _ _ _
  have hlen : smallDevice.writeLen offset data ≤ 16 :=
    (Nat.min_le_right ..).trans (Nat.sub_le ..)
  exact (Nat.div_le_self _ _).trans_lt (by omega)

def replacing : List Input :=
  [.write 0 [1,2] none,.worker .cont,.worker .cont,.write 0 [3] none,.worker .cont,.worker .cont]

theorem dirty_accounted_replacing : ∃ t,
    Machine.run (stepOver smallDevice) (.start smallDevice false zeros) replacing = some t ∧
    t.dirty.totalBytes = 1 ∧ Accounted smallDevice t ∧
    Machine.Always (stepOver smallDevice) (Filled smallDevice) (.start smallDevice false zeros)
      replacing := by
  obtain ⟨t,hr,htotal⟩ : ∃ t, Machine.run (stepOver smallDevice) (.start smallDevice false zeros)
      replacing = some t ∧ t.dirty.totalBytes = 1 := ⟨_,rfl,rfl⟩
  obtain ⟨ha,hf⟩ := dirty_accounted hr
  refine ⟨t,hr,htotal,ha,(hf (fun i hi => ?_)).mpr (fun i _ => small_counts i)⟩
  simp only [replacing,List.mem_cons,List.not_mem_nil,or_false] at hi
  rcases hi with rfl | rfl | rfl | rfl | rfl | rfl <;> trivial

namespace Worker

variable {v : Device} {s : Worker}

theorem recvWrite_aligned {offset : Nat} {data : Bytes} (rmwOk : Bool) (hd : data ≠ [])
    (hi : offset < v.totalBytes) (hs : offset+v.writeLen offset data < 2^64)
    (hb : 0 < v.blockSize) (hc : 0 < v.chunkBlocks) (ho : offset%v.blockSize = 0)
    (hl : v.writeLen offset data%v.blockSize = 0) :
    ∃ t, s.recvWrite v offset data rmwOk = some t := by
  rw [Device.writeLen] at hs hl
  have hne : ¬ (data.isEmpty = true ∨ v.totalBytes ≤ offset) := by
    rw [List.isEmpty_iff,not_or]
    exact ⟨hd,Nat.not_le.mpr hi⟩
  simp only [recvWrite,if_neg hne,computeAlignment,if_neg (Nat.ne_of_gt hb),addU64,if_pos hs,
    Option.bind_eq_bind,Option.bind_some,Option.pure_def,Device.chunkLba,if_neg (Nat.ne_of_gt hc),
    if_pos (And.intro ho hl)]
  exact ⟨_,rfl⟩

end Worker

def byteBlocks : Device where
  pipeline := ⟨0,1,8589934592,NegotiatedParams.defaults10g⟩
  totalBytes := 8589934592
  coalesceMaxBytes := 1048576
  raMaxKb := 0

theorem uncounted {data : Bytes} (hl : data.length = 2^32) : ∃ t,
    Machine.run (stepOver byteBlocks) (.start byteBlocks false zeros)
      [.worker (.write 0 data true)] = some t ∧ ¬ Filled byteBlocks t := by
  have hlen : byteBlocks.writeLen 0 data = 2^32 := by
    rw [Device.writeLen,hl]
    decide
  have hd : data ≠ [] := by
    intro he
    rw [he] at hl
    cases hl
  have hin : 0 < byteBlocks.totalBytes := by decide
  obtain ⟨t,ht⟩ := Worker.recvWrite_aligned (s := .start byteBlocks false zeros) true hd hin
    (by rw [hlen]; decide) (by decide) (by decide) (Nat.mod_one _) (Nat.mod_one _)
  have hs : stepOver byteBlocks (.start byteBlocks false zeros) (.worker (.write 0 data true)) =
    some t := ht
  refine ⟨t,Machine.run_one hs,fun hf => ?_⟩
  have hfull : (Input.worker (.write 0 data true)).ReadsFull byteBlocks := trivial
  have hc := (filled_step_iff (fun e he => by cases he) hfull hs).mp hf 0 data rfl rfl
    (Nat.mod_one _)
  rw [hlen] at hc
  revert hc
  decide

/-- The entry of the `2^32` blocks counts none of them. -/
theorem uncounted_write : ∃ t, Machine.run (stepOver byteBlocks) (.start byteBlocks false zeros)
    [.worker (.write 0 (List.replicate (2^32) 0) true)] = some t ∧ ¬ Filled byteBlocks t :=
  uncounted List.length_replicate

end IscsiFuse.Block
