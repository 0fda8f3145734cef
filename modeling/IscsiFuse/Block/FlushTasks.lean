import IscsiFuse.Block.FlushCommands
set_option autoImplicit false

/-!
The tasks of a flush. `flush_dirty` spawns one task for each drained entry, and
`scsi_write` one for each chunk of an entry that takes several commands; both
await theirs in order and return at the first that failed, and the tasks that
nobody awaits any more go on. What requests do to the worker matters here only
through the entries they put into the dirty map.
-/

namespace IscsiFuse.Block
open IscsiFuse.Iscsi

/-- Where the task of one SCSI WRITE command is. It may end without an answer of the target
to a command that was sent; the target may then still serve it. -/
inductive Fate where
  | queued | sent | good | failed (unanswered : Bool) | panicked (unanswered : Bool)
  deriving DecidableEq, Repr

/-- What can happen to a command. Submitting it may fail before or after it went out, and waiting
for the answer may end by the timeout or because the channel closes. `late` is what the target
does in the end with a command nobody waits for. -/
inductive Progress where
  | submit | refuse (unanswered : Bool) | good | error (applied : Bool) | timeout | panic
  | late (applied : Bool)
  deriving DecidableEq, Repr

def Fate.after : Fate → Progress → Option Fate
  | .queued, .submit => some .sent
  | .queued, .refuse unanswered => some (.failed unanswered)
  | .queued, .panic => some (.panicked false)
  | .sent, .good => some .good
  | .sent, .error _ => some (.failed false)
  | .sent, .timeout => some (.failed true)
  | .sent, .panic => some (.panicked true)
  | .failed true, .late _ => some (.failed false)
  | .panicked true, .late _ => some (.panicked false)
  | _, _ => none

def Progress.applies : Progress → Bool
  | .good => true
  | .error applied | .late applied => applied
  | _ => false

def Progress.fails : Progress → Bool
  | .refuse _ | .error _ | .timeout | .panic => true
  | _ => false

def Fate.live : Fate → Bool
  | .queued | .sent => true
  | .good => false
  | .failed unanswered | .panicked unanswered => unanswered

def Fate.isFailed : Fate → Bool
  | .failed _ | .panicked _ => true
  | _ => false

structure ChunkTask where
  cmd : WriteCommand
  fate : Fate
  deriving DecidableEq, Repr

/-- The spawned `scsi_write` of a drained entry. -/
structure EntryTask where
  lba : Nat
  data : Bytes
  chunks : List ChunkTask
  deriving DecidableEq, Repr

inductive TaskResult where
  | ok | err | panicked
  deriving DecidableEq, Repr

def awaitChunks : List ChunkTask → Option TaskResult
  | [] => some .ok
  | c :: cs => match c.fate with
    | .good => awaitChunks cs
    | .failed _ | .panicked _ => some .err
    | .queued | .sent => none

/-- The result of a `scsi_write` task. A single command runs in the task itself, so its panic
is the panic of the task. -/
def EntryTask.result (t : EntryTask) : Option TaskResult :=
  match t.chunks with
  | [c] => match c.fate with
    | .good => some .ok
    | .failed _ => some .err
    | .panicked _ => some .panicked
    | .queued | .sent => none
  | cs => awaitChunks cs

def awaitTasks : List EntryTask → Option (Reply Unit)
  | [] => some (.ok ())
  | t :: ts => match t.result with
    | some .ok => awaitTasks ts
    | some .err => some (.err .writeFailed)
    | some .panicked => some (.err .flushPanicked)
    | none => none

def EntryTask.spawn (v : Device) (e : Nat × Bytes) : Option EntryTask :=
  (v.pipeline.writeCommands e.1 e.2).map (fun cs => ⟨e.1,e.2,cs.map (⟨·,.queued⟩)⟩)

def chunkTasks (ts : List EntryTask) : List ChunkTask := ts.flatMap EntryTask.chunks

inductive FlushPhase where
  | idle
  | writing (ts : List EntryTask)
  | syncing (ts : List EntryTask)
  deriving DecidableEq, Repr

def FlushPhase.tasks : FlushPhase → List EntryTask
  | .idle => []
  | .writing ts | .syncing ts => ts

/-- `left` are the commands of the flushes that have returned. -/
structure Flusher where
  dirty : DirtyMap
  phase : FlushPhase
  left : List ChunkTask
  disk : Image
  returned : List (Reply Unit)

def Flusher.start (m : DirtyMap) (d : Image) : Flusher := ⟨m,.idle,[],d,[]⟩

namespace Flusher

def ret (s : Flusher) (ts : List EntryTask) (r : Reply Unit) : Flusher :=
  { s with phase := .idle, left := s.left ++ chunkTasks ts, returned := s.returned ++ [r] }

def serve (v : Device) (s : Flusher) (c : ChunkTask) (p : Progress) : Flusher :=
  if p.applies then { s with disk := (c.cmd.patch v.blockSize).apply s.disk } else s

end Flusher

/-- What happens next: an insertion into the dirty map, a call of `flush_dirty`, progress of
chunk `j` of entry `i` or of a command of a flush that has returned, the end of the awaits,
the answer to SYNCHRONIZE CACHE. -/
inductive FlushLabel where
  | insert (lba n : Nat) (data : Bytes)
  | flush
  | chunk (i j : Nat) (p : Progress)
  | left (k : Nat) (p : Progress)
  | awaited
  | synced (good : Bool)
  deriving DecidableEq, Repr

namespace Flusher

def step (v : Device) (s : Flusher) (l : FlushLabel) : Option Flusher :=
  match l, s.phase with
  | .insert lba n data, .idle => some { s with dirty := s.dirty.insert lba n data }
  | .flush, .idle =>
    if s.dirty.isEmpty then some (s.ret [] (.ok ()))
    else do
      let (entries,rest) := s.dirty.drainSorted
      let ts ← entries.mapM (EntryTask.spawn v)
      pure { s with dirty := rest, phase := .writing ts }
  | .chunk i j p, .writing ts => do
      let t ← ts[i]?
      let c ← t.chunks[j]?
      let fate ← c.fate.after p
      pure { s.serve v c p with
        phase := .writing (ts.set i { t with chunks := t.chunks.set j { c with fate := fate } }) }
  | .left k p, _ => do
      let c ← s.left[k]?
      let fate ← c.fate.after p
      pure { s.serve v c p with left := s.left.set k { c with fate := fate } }
  | .awaited, .writing ts => match awaitTasks ts with
    | none => none
    | some (.ok _) => some { s with phase := .syncing ts }
    | some (.err e) => some (s.ret ts (.err e))
  | .synced good, .syncing ts => some (s.ret ts (if good then .ok () else .err .syncFailed))
  | _, _ => none

end Flusher

theorem after_eq_none {f : Fate} : (∀ p, f.after p = none) ↔ f.live = false := by
  constructor
  · intro h
    cases f with
    | queued => exact absurd (h .submit) (by simp [Fate.after])
    | sent => exact absurd (h .good) (by simp [Fate.after])
    | good => rfl
    | failed b | panicked b =>
      cases b with
      | false => rfl
      | true => exact absurd (h (.late true)) (by simp [Fate.after])
  · intro h p
    cases f with
    | queued | sent => cases h
    | good => cases p <;> rfl
    | failed b | panicked b =>
      cases h
      cases p <;> rfl

theorem after_isFailed {f g : Fate} {p : Progress} (h : f.after p = some g) :
    g.isFailed = (f.isFailed || p.fails) := by
  cases f with
  | queued | sent | good => cases p <;> cases h <;> rfl
  | failed b | panicked b =>
    cases b <;> cases p <;> cases h
    rfl

theorem awaitChunks_eq (cs : List ChunkTask) : awaitChunks cs =
    match cs.find? (fun c => c.fate ≠ .good) with
    | none => some .ok
    | some c => if c.fate.isFailed then some .err else none := by
  induction cs with
  | nil => rfl
  | cons c cs ih =>
    cases hf : c.fate with
    | good => simp [awaitChunks,hf,ih]
    | queued | sent | failed | panicked => simp [awaitChunks,hf,Fate.isFailed]

theorem EntryTask.result_cases (t : EntryTask) :
    (t.chunks.find? (fun c => c.fate ≠ .good) = none ∧ t.result = some .ok) ∨
    ∃ c, t.chunks.find? (fun c => c.fate ≠ .good) = some c ∧
      ((c.fate.isFailed = true ∧ (t.result = some .err ∨ t.result = some .panicked)) ∨
        (c.fate.isFailed = false ∧ t.result = none)) := by
  unfold result
  split
  · rename_i c hc
    cases hf : c.fate with
    | good => simp [hc,hf]
    | queued | sent | failed | panicked => simp [hc,hf,Fate.isFailed]
  · rename_i hc
    rw [awaitChunks_eq]
    cases hx : t.chunks.find? (fun c => c.fate ≠ .good) with
    | none => exact Or.inl ⟨rfl,rfl⟩
    | some c =>
      refine Or.inr ⟨c,rfl,?_⟩
      cases hf : c.fate.isFailed <;> simp [hf]

theorem awaitTasks_cases (ts : List EntryTask) :
    ((∀ c ∈ chunkTasks ts, c.fate = .good) ∧ awaitTasks ts = some (.ok ())) ∨
    ∃ c, (chunkTasks ts).find? (fun c => c.fate ≠ .good) = some c ∧
      ((c.fate.isFailed = true ∧ ∃ e, awaitTasks ts = some (.err e)) ∨
        (c.fate.isFailed = false ∧ awaitTasks ts = none)) := by
  induction ts with
  | nil => exact Or.inl ⟨fun c h => (by cases h),rfl⟩
  | cons t ts ih =>
    simp only [chunkTasks,List.flatMap_cons,List.find?_append,awaitTasks] at ih ⊢
    rcases t.result_cases with ⟨hn,hr⟩ | ⟨c,hc,⟨hf,hr | hr⟩ | ⟨hf,hr⟩⟩
    · rw [hn,hr,Option.none_or]
      rcases ih with ⟨hg,ha⟩ | ih
      · refine Or.inl ⟨fun c hc => ?_,ha⟩
        rcases List.mem_append.mp hc with hc | hc
        · simpa using List.find?_eq_none.mp hn c hc
        · exact hg c hc
      · exact Or.inr ih
    · rw [hc,hr]
      exact Or.inr ⟨c,rfl,Or.inl ⟨hf,_,rfl⟩⟩
    · rw [hc,hr]
      exact Or.inr ⟨c,rfl,Or.inl ⟨hf,_,rfl⟩⟩
    · rw [hc,hr]
      exact Or.inr ⟨c,rfl,Or.inr ⟨hf,rfl⟩⟩

theorem awaitTasks_ok {ts : List EntryTask} (h : awaitTasks ts = some (.ok ())) :
    ∀ c ∈ chunkTasks ts, c.fate = .good := by
  rcases awaitTasks_cases ts with ⟨hg,_⟩ | ⟨c,_,⟨_,e,he⟩ | ⟨_,hn⟩⟩
  · exact hg
  · rw [he] at h
    cases h
  · rw [hn] at h
    cases h

theorem awaitTasks_err {ts : List EntryTask} {e : IoError} (h : awaitTasks ts = some (.err e)) :
    ∃ c ∈ chunkTasks ts, c.fate.isFailed = true := by
  rcases awaitTasks_cases ts with ⟨_,ho⟩ | ⟨c,hc,⟨hf,_⟩ | ⟨_,hn⟩⟩
  · rw [ho] at h
    cases h
  · exact ⟨c,List.mem_of_find?_eq_some hc,hf⟩
  · rw [hn] at h
    cases h

def Reply.isErr {α : Type} : Reply α → Bool
  | .ok _ => false
  | .err _ => true

def Fate.status : Fate → CmdStatus
  | .queued | .sent => .pending
  | .good => .good
  | .failed _ => .failed false
  | .panicked _ => .failed true

def ChunkTask.flushCmd (c : ChunkTask) : FlushCmd := ⟨c.cmd,c.fate.status⟩

theorem awaitWrites_chunkTasks (s : Worker) (k : Caller) (dr : List (Nat × Bytes))
    (ts : List EntryTask) :
    s.awaitWrites k dr ((chunkTasks ts).map ChunkTask.flushCmd) = none ∧ awaitTasks ts = none ∨
    s.awaitWrites k dr ((chunkTasks ts).map ChunkTask.flushCmd) =
      some { s with phase := .syncing k dr, log := s.log ++ [.syncIssued] } ∧
        awaitTasks ts = some (.ok ()) ∨
    ∃ left e e', s.awaitWrites k dr ((chunkTasks ts).map ChunkTask.flushCmd) =
      some ({ s with stray := left }.flushDone (.err e) k) ∧ awaitTasks ts = some (.err e') := by
  have hgood : ∀ c : ChunkTask, c.flushCmd.status = .good ↔ c.fate = .good := by
    intro c
    simp only [ChunkTask.flushCmd]
    cases c.fate <;> simp [Fate.status]
  rcases awaitTasks_cases ts with ⟨hg,ha⟩ | ⟨c,hc,h⟩
  · refine Or.inr (Or.inl ⟨Worker.awaitWrites_good fun x hx => ?_,ha⟩)
    obtain ⟨c,hc,rfl⟩ := List.mem_map.mp hx
    exact (hgood c).mpr (hg c hc)
  · have hf : ((chunkTasks ts).map ChunkTask.flushCmd).find? (fun x => x.status ≠ .good) =
        some c.flushCmd := by
      rw [List.find?_map]
      have he : ((fun x : FlushCmd => decide (x.status ≠ .good)) ∘ ChunkTask.flushCmd) =
          fun c => decide (c.fate ≠ .good) := by
        funext c
        simp only [Function.comp_apply,ne_eq,hgood]
      rw [he,hc]
      rfl
    simp only [Worker.awaitWrites,hf]
    rcases h with ⟨hx,e,he⟩ | ⟨hx,hn⟩
    · refine Or.inr (Or.inr ?_)
      cases hfate : c.fate with
      | failed b | panicked b =>
        simp only [ChunkTask.flushCmd,hfate,Fate.status]
        exact ⟨_,_,e,rfl,he⟩
      | queued | sent | good =>
        rw [hfate] at hx
        cases hx
    · refine Or.inl ⟨?_,hn⟩
      cases hfate : c.fate with
      | failed b | panicked b =>
        rw [hfate] at hx
        cases hx
      | good => exact absurd hfate (by simpa using List.find?_some hc)
      | queued | sent => simp only [ChunkTask.flushCmd,hfate,Fate.status]

namespace Flusher

variable {v : Device} {s t u : Flusher}

/-- No command of a flush that has returned can be sent or applied any more. -/
def Over (v : Device) (s : Flusher) : Prop := ∀ k p, step v s (.left k p) = none

/-- If the flush returns at a command that failed, that command and all behind it in the order
of the awaits are over. -/
def EndsClean (s : Flusher) (l : FlushLabel) : Prop :=
  l = .awaited → (awaitTasks s.phase.tasks).any Reply.isErr = true →
    ∀ c ∈ (chunkTasks s.phase.tasks).dropWhile (fun c => c.fate = .good), c.fate.live = false

instance (s : Flusher) (l : FlushLabel) : Decidable (s.EndsClean l) :=
  inferInstanceAs (Decidable (_ → _ → ∀ c ∈ _, _))

def WritesDone (s : Flusher) : Prop := ∀ ts, s.phase = .syncing ts → ∀ c ∈ chunkTasks ts, c.fate = .good

@[simp] theorem serve_left (v : Device) (s : Flusher) (c : ChunkTask) (p : Progress) :
    (s.serve v c p).left = s.left := by
  unfold serve
  split <;> rfl

@[simp] theorem serve_phase (v : Device) (s : Flusher) (c : ChunkTask) (p : Progress) :
    (s.serve v c p).phase = s.phase := by
  unfold serve
  split <;> rfl

@[simp] theorem serve_dirty (v : Device) (s : Flusher) (c : ChunkTask) (p : Progress) :
    (s.serve v c p).dirty = s.dirty := by
  unfold serve
  split <;> rfl

@[simp] theorem serve_returned (v : Device) (s : Flusher) (c : ChunkTask) (p : Progress) :
    (s.serve v c p).returned = s.returned := by
  unfold serve
  split <;> rfl

theorem over_iff : s.Over v ↔ ∀ c ∈ s.left, c.fate.live = false := by
  constructor
  · intro h c hc
    obtain ⟨k,hk,hx⟩ := List.getElem_of_mem hc
    rw [← after_eq_none]
    intro p
    have hs := h k p
    rw [step,List.getElem?_eq_getElem hk,hx] at hs
    cases ha : c.fate.after p with
    | none => rfl
    | some f => simp [ha] at hs
  · intro h k p
    rw [step]
    cases hk : s.left[k]? with
    | none => rfl
    | some c => simp [after_eq_none.mpr (h c (List.mem_of_getElem? hk)) p]

end Flusher

/-- What a step of the flusher can do. -/
inductive FlusherStep (v : Device) (s : Flusher) : FlushLabel → Flusher → Prop
  | insert (lba n : Nat) (data : Bytes) : s.phase = .idle →
      FlusherStep v s (.insert lba n data) { s with dirty := s.dirty.insert lba n data }
  | nothing : s.phase = .idle → s.dirty.isEmpty = true →
      FlusherStep v s .flush (s.ret [] (.ok ()))
  | spawn (ts : List EntryTask) : s.phase = .idle →
      s.dirty.drainSorted.1.mapM (EntryTask.spawn v) = some ts →
      FlusherStep v s .flush { s with dirty := .new, phase := .writing ts }
  | chunk (i j : Nat) (p : Progress) (ts : List EntryTask) (x : EntryTask) (c : ChunkTask)
      (f : Fate) : s.phase = .writing ts → ts[i]? = some x → x.chunks[j]? = some c →
      c.fate.after p = some f → FlusherStep v s (.chunk i j p) { s.serve v c p with
        phase := .writing (ts.set i { x with chunks := x.chunks.set j { c with fate := f } }) }
  | left (k : Nat) (p : Progress) (c : ChunkTask) (f : Fate) : s.left[k]? = some c →
      c.fate.after p = some f →
      FlusherStep v s (.left k p) { s.serve v c p with left := s.left.set k { c with fate := f } }
  | written (ts : List EntryTask) : s.phase = .writing ts → awaitTasks ts = some (.ok ()) →
      FlusherStep v s .awaited { s with phase := .syncing ts }
  | failed (ts : List EntryTask) (e : IoError) : s.phase = .writing ts →
      awaitTasks ts = some (.err e) → FlusherStep v s .awaited (s.ret ts (.err e))
  | synced (ts : List EntryTask) (good : Bool) : s.phase = .syncing ts →
      FlusherStep v s (.synced good) (s.ret ts (if good then .ok () else .err .syncFailed))

namespace Flusher

variable {v : Device} {s t u : Flusher} {l : FlushLabel}

theorem step_cases (h : step v s l = some t) : FlusherStep v s l t := by
  unfold step at h
  split at h
  · cases h
    exact .insert _ _ _ ‹_›
  · split at h
    · rename_i he
      cases h
      exact .nothing ‹_› he
    · simp only [Option.bind_eq_bind,Option.bind_eq_some_iff] at h
      obtain ⟨ts,hts,h⟩ := h
      cases h
      exact .spawn ts ‹_› hts
  · simp only [Option.bind_eq_bind,Option.bind_eq_some_iff] at h
    obtain ⟨x,hx,c,hc,f,hf,h⟩ := h
    cases h
    exact .chunk _ _ _ _ x c f ‹_› hx hc hf
  · simp only [Option.bind_eq_bind,Option.bind_eq_some_iff] at h
    obtain ⟨c,hc,f,hf,h⟩ := h
    cases h
    exact .left _ _ c f hc hf
  · split at h
    · cases h
    · rename_i ha
      cases h
      exact .written _ ‹_› ha
    · rename_i e ha
      cases h
      exact .failed _ e ‹_› ha
  · cases h
    exact .synced _ _ ‹_›
  · cases h

theorem writesDone_step (hj : s.WritesDone) (h : step v s l = some t) : t.WritesDone := by
  intro ts hts
  cases step_cases h with
  | insert => exact hj ts hts
  | left =>
    simp only [serve_phase] at hts
    exact hj ts hts
  | nothing | failed | synced | spawn | chunk => cases hts
  | written ts' _ ha =>
    cases hts
    exact awaitTasks_ok ha

theorem endsClean_of_ne (h : l ≠ .awaited) : s.EndsClean l := fun hl => absurd hl h

theorem dead_iff_behind (cs : List ChunkTask) : (∀ c ∈ cs, c.fate.live = false) ↔
    ∀ c ∈ cs.dropWhile (fun c => c.fate = .good), c.fate.live = false := by
  constructor
  · intro h c hc
    exact h c ((List.dropWhile_sublist _).mem hc)
  · intro h c hc
    rw [← List.takeWhile_append_dropWhile (p := fun c => decide (c.fate = .good)) (l := cs),
      List.mem_append] at hc
    rcases hc with hc | hc
    · have hg : c.fate = .good := of_decide_eq_true (List.all_eq_true.mp List.all_takeWhile c hc)
      rw [hg]
      rfl
    · exact h c hc

theorem over_step (hj : s.WritesDone) (ho : s.Over v) (h : step v s l = some t) :
    t.Over v ↔ s.EndsClean l := by
  have hdead := over_iff.mp ho
  rw [over_iff]
  cases step_cases h with
  | insert | spawn => exact iff_of_true hdead (endsClean_of_ne (by simp))
  | nothing =>
    refine iff_of_true ?_ (endsClean_of_ne (by simp))
    simpa [ret,chunkTasks] using hdead
  | chunk =>
    refine iff_of_true ?_ (endsClean_of_ne (by simp))
    simpa using hdead
  | left k p =>
    rw [ho k p] at h
    cases h
  | written ts hp ha =>
    refine iff_of_true hdead fun _ he => ?_
    rw [hp,FlushPhase.tasks,ha] at he
    cases he
  | failed ts e hp ha =>
    have hends : s.EndsClean .awaited ↔ ∀ c ∈ chunkTasks ts, c.fate.live = false := by
      rw [dead_iff_behind,EndsClean,hp,FlushPhase.tasks,ha]
      exact ⟨fun hc => hc rfl rfl,fun hc _ _ => hc⟩
    rw [hends]
    constructor
    · intro hc c hm
      exact hc c (List.mem_append.mpr (Or.inr hm))
    · intro hc c hm
      rcases List.mem_append.mp hm with hm | hm
      · exact hdead c hm
      · exact hc c hm
  | synced ts good hp =>
    refine iff_of_true (fun c hm => ?_) (endsClean_of_ne (by simp))
    rcases List.mem_append.mp hm with hm | hm
    · exact hdead c hm
    · rw [hj ts hp c hm]
      rfl

end Flusher

open Flusher

/-- No write outlives its flush in a run if and only if every flush of the run that fails in
its writes ends clean. -/
theorem over_iff_ends_clean {v : Device} {m : DirtyMap} {d : Image} {ls : List FlushLabel}
    {t : Flusher} (hr : Machine.run (Flusher.step v) (.start m d) ls = some t) :
    Machine.Always (Flusher.step v) (Over v) (.start m d) ls ↔
      Machine.Meets (Flusher.step v) EndsClean (.start m d) ls := by
  have hg : Machine.Meets (Flusher.step v) (fun _ _ => True) (.start m d) ls :=
    Machine.meets_of_forall fun _ _ _ => trivial
  exact Machine.always_iff_meets (J := WritesDone) (fun _ _ _ hj _ h => writesDone_step hj h)
    (fun _ _ _ hj ho _ h => over_step hj ho h) (fun _ h => by cases h)
    (over_iff.mpr fun _ h => by cases h) hg hr

def twoEntries : DirtyMap := (DirtyMap.new.insert 0 1 [7]).insert 5 1 [1]

/-- The first write fails after the second one is Good. -/
theorem over_ends_clean : Machine.Always (Flusher.step smallDevice) (Over smallDevice)
    (.start twoEntries zeros) [.flush,.chunk 0 0 .submit,.chunk 1 0 .submit,.chunk 1 0 .good,
      .chunk 0 0 (.error false),.awaited] :=
  (over_iff_ends_clean (t := Flusher.mk .new .idle _ _ [.err .writeFailed]) rfl).mpr
    (Machine.meets_of_check (by decide))

/-- The flush returns an error while its second write is under way. The block is written again
and flushed, and then the target applies the old write over the acknowledged one. -/
theorem stale_overwrite : ∃ s t, Machine.run (Flusher.step smallDevice) (.start twoEntries zeros)
      [.flush,.chunk 0 0 .submit,.chunk 1 0 .submit,.chunk 0 0 (.error false),.awaited] = some s ∧
    s.returned = [.err .writeFailed] ∧ ¬ s.Over smallDevice ∧
    Machine.run (Flusher.step smallDevice) s [.insert 5 1 [2],.flush,.chunk 0 0 .submit,
      .chunk 0 0 .good,.awaited,.synced true,.left 1 .good] = some t ∧
    t.returned = [.err .writeFailed,.ok ()] ∧ t.disk 5 = 1 := by
  refine ⟨_,_,rfl,rfl,fun h => ?_,rfl,rfl,rfl⟩
  cases h 1 .good

def EntryTask.Confirmed (t : EntryTask) : Prop := ∀ c ∈ t.chunks, c.fate = .good

def EntryTask.entry (t : EntryTask) : Nat × Bytes := (t.lba,t.data)

/-- Every entry of `m` whose task in `ts` is not confirmed is still in the dirty map and counted. -/
def Keeps (m : DirtyMap) (ts : List EntryTask) (t : Flusher) : Prop :=
  ∀ (i : Nat) e (x : EntryTask), m.entries.entries[i]? = some e → ts[i]? = some x →
    ¬ x.Confirmed →
    e ∈ t.dirty.entries.entries ∧
      t.dirty.totalBytes = (t.dirty.entries.entries.map (fun e => e.2.data.length)).sum

/-- A SCSI WRITE of the flush in progress fails. -/
def FlushLabel.failsWrite : FlushLabel → Bool
  | .chunk _ _ p => p.fails
  | _ => false

def FailedAt (ts : List EntryTask) : Prop :=
  ∃ (i : Nat) (x : EntryTask) (j : Nat) (c : ChunkTask), ts[i]? = some x ∧
    x.chunks[j]? = some c ∧ c.fate.isFailed = true

section Failed

variable {v : Device} {s t u : Flusher} {l : FlushLabel}

theorem mem_chunkTasks {ts : List EntryTask} {c : ChunkTask} (h : c ∈ chunkTasks ts) :
    ∃ (i : Nat) (x : EntryTask) (j : Nat), ts[i]? = some x ∧ x.chunks[j]? = some c := by
  obtain ⟨x,hx,hc⟩ := List.mem_flatMap.mp h
  obtain ⟨i,hi⟩ := List.getElem?_of_mem hx
  obtain ⟨j,hj⟩ := List.getElem?_of_mem hc
  exact ⟨i,x,j,hi,hj⟩

theorem failedAt_set {ts : List EntryTask} {i j : Nat} {x : EntryTask} {c : ChunkTask} {f : Fate}
    {p : Progress} (hx : ts[i]? = some x) (hc : x.chunks[j]? = some c)
    (hf : c.fate.after p = some f) :
    FailedAt (ts.set i { x with chunks := x.chunks.set j { c with fate := f } }) ↔
      FailedAt ts ∨ p.fails = true := by
  have hi : i < ts.length := (List.getElem?_eq_some_iff.mp hx).1
  have hj : j < x.chunks.length := (List.getElem?_eq_some_iff.mp hc).1
  have hfail := after_isFailed hf
  constructor
  · intro ⟨i',x',j',c',hx',hc',hf'⟩
    by_cases hii : i' = i
    · subst hii
      rw [List.getElem?_set_self hi] at hx'
      cases hx'
      by_cases hjj : j' = j
      · subst hjj
        rw [List.getElem?_set_self hj] at hc'
        cases hc'
        rw [hfail,Bool.or_eq_true] at hf'
        exact hf'.imp (fun h => ⟨i',x,j',c,hx,hc,h⟩) id
      · rw [List.getElem?_set_ne (Ne.symm hjj)] at hc'
        exact Or.inl ⟨i',x,j',c',hx,hc',hf'⟩
    · rw [List.getElem?_set_ne (Ne.symm hii)] at hx'
      exact Or.inl ⟨i',x',j',c',hx',hc',hf'⟩
  · intro h
    have hnew : (c.fate.isFailed || p.fails) = true → FailedAt (ts.set i { x with
        chunks := x.chunks.set j { c with fate := f } }) := by
      intro hb
      exact ⟨i,_,j,_,List.getElem?_set_self hi,List.getElem?_set_self hj,hfail.trans hb⟩
    rcases h with ⟨i',x',j',c',hx',hc',hf'⟩ | hp
    · by_cases hii : i' = i
      · subst hii
        rw [hx] at hx'
        cases hx'
        by_cases hjj : j' = j
        · subst hjj
          rw [hc] at hc'
          cases hc'
          exact hnew (by rw [hf']; rfl)
        · exact ⟨i',_,j',c',List.getElem?_set_self hi,
            (List.getElem?_set_ne (Ne.symm hjj)).trans hc',hf'⟩
      · exact ⟨i',x',j',c',(List.getElem?_set_ne (Ne.symm hii)).trans hx',hc',hf'⟩
    · exact hnew (by rw [hp,Bool.or_true])

theorem flushTasks_step (h : Flusher.step v s l = some t) (hl : l ≠ .flush) (ht : t.phase ≠ .idle) :
    s.phase ≠ .idle ∧ t.dirty = s.dirty ∧
      t.phase.tasks.map EntryTask.entry = s.phase.tasks.map EntryTask.entry ∧
      (FailedAt t.phase.tasks ↔ FailedAt s.phase.tasks ∨ l.failsWrite = true) := by
  cases step_cases h with
  | insert _ _ _ hp => exact absurd hp ht
  | nothing | spawn => exact absurd rfl hl
  | failed | synced => exact absurd rfl ht
  | left =>
    simp only [serve_phase,serve_dirty] at ht ⊢
    exact ⟨ht,trivial,trivial,by simp [FlushLabel.failsWrite]⟩
  | written ts hp =>
    refine ⟨by simp [hp],rfl,by rw [hp]; rfl,?_⟩
    simp [hp,FlushPhase.tasks,FlushLabel.failsWrite]
  | chunk i j p ts x c f hp hx hc hf =>
    refine ⟨by simp [hp],serve_dirty _ _ _ _,?_,?_⟩
    · simp only [hp,FlushPhase.tasks,List.map_set]
      refine List.ext_getElem? fun k => ?_
      by_cases hk : k = i
      · subst hk
        have hi : k < ts.length := (List.getElem?_eq_some_iff.mp hx).1
        rw [List.getElem?_set_self (by simpa using hi),List.getElem?_map,hx]
        rfl
      · rw [List.getElem?_set_ne (Ne.symm hk)]
    · rw [hp]
      exact failedAt_set hx hc hf

theorem flushTasks_run {ls : List FlushLabel} (hr : Machine.run (Flusher.step v) s ls = some u)
    (hl : .flush ∉ ls) (hu : u.phase ≠ .idle) :
    s.phase ≠ .idle ∧ u.dirty = s.dirty ∧
      u.phase.tasks.map EntryTask.entry = s.phase.tasks.map EntryTask.entry ∧
      (FailedAt u.phase.tasks ↔ FailedAt s.phase.tasks ∨ ∃ l ∈ ls, l.failsWrite = true) := by
  induction ls generalizing s with
  | nil =>
    cases hr
    exact ⟨hu,rfl,rfl,by simp⟩
  | cons l ls ih =>
    rw [Machine.run_cons] at hr
    obtain ⟨w,hw,hr⟩ := Option.bind_eq_some_iff.mp hr
    rw [List.mem_cons,not_or] at hl
    obtain ⟨hwp,hd,he,hf⟩ := ih hr hl.2
    obtain ⟨hsp,hd',he',hf'⟩ := flushTasks_step hw (Ne.symm hl.1) hwp
    refine ⟨hsp,hd.trans hd',he.trans he',?_⟩
    rw [hf,hf',or_assoc,List.exists_mem_cons_iff]

theorem spawn_entries {es : List (Nat × Bytes)} {ts : List EntryTask}
    (h : es.mapM (EntryTask.spawn v) = some ts) :
    ts.map EntryTask.entry = es ∧ ∀ t ∈ ts, ∀ c ∈ t.chunks, c.fate = .queued := by
  induction es generalizing ts with
  | nil =>
    simp only [List.mapM_nil,Option.pure_def,Option.some.injEq] at h
    subst h
    exact ⟨rfl,fun t ht => by cases ht⟩
  | cons e es ih =>
    simp only [List.mapM_cons,Option.bind_eq_bind,Option.bind_eq_some_iff,Option.pure_def,
      Option.some.injEq] at h
    obtain ⟨t,ht,ts',hts,rfl⟩ := h
    obtain ⟨cs,_,rfl⟩ := Option.map_eq_some_iff.mp ht
    obtain ⟨hmap,hq⟩ := ih hts
    refine ⟨by rw [List.map_cons,hmap]; rfl,fun t' ht' c hc => ?_⟩
    rcases List.mem_cons.mp ht' with rfl | ht'
    · obtain ⟨w,_,rfl⟩ := List.mem_map.mp hc
      rfl
    · exact hq t' ht' c hc

theorem err_returned {e : IoError} (h : Flusher.step v s l = some t)
    (he : t.returned = s.returned ++ [.err e]) : s.phase ≠ .idle ∧ t.dirty = s.dirty ∧
      (FailedAt s.phase.tasks ∨ ∃ ts, s.phase = .syncing ts) := by
  cases step_cases h with
  | insert | spawn | chunk | left | written => simp at he
  | nothing =>
    cases List.append_cancel_left he
  | failed ts e' hp ha =>
    obtain ⟨c,hc,hf⟩ := awaitTasks_err ha
    obtain ⟨i,x,j,hx,hj⟩ := mem_chunkTasks hc
    refine ⟨by simp [hp],rfl,Or.inl ⟨i,x,j,c,?_,hj,hf⟩⟩
    rw [hp]
    exact hx
  | synced ts good hp => exact ⟨by simp [hp],rfl,Or.inr ⟨ts,hp⟩⟩

end Failed

/-- A flush that returns an error keeps what it did not write if and only if none of its
writes failed. -/
theorem failed_flush_keeps_iff {v : Device} {s u t : Flusher} {ls : List FlushLabel}
    {l : FlushLabel} {e : IoError} (hr : Machine.run (Flusher.step v) s (.flush :: ls) = some u)
    (hl : .flush ∉ ls) (hs : Flusher.step v u l = some t)
    (he : t.returned = u.returned ++ [.err e]) :
    Keeps s.dirty u.phase.tasks t ↔ ∀ x ∈ ls, x.failsWrite = false := by
  obtain ⟨hphase,hdirty,herr⟩ : u.phase ≠ .idle ∧ t.dirty = u.dirty ∧
      (FailedAt u.phase.tasks ∨ ∃ ts, u.phase = .syncing ts) := err_returned hs he
  rw [Machine.run_cons] at hr
  obtain ⟨w,hw,hr⟩ := Option.bind_eq_some_iff.mp hr
  obtain ⟨hwp,hud,hmap,hfail⟩ := flushTasks_run hr hl hphase
  obtain ⟨ts,hidle,hts,rfl⟩ : ∃ ts, s.phase = .idle ∧
      s.dirty.drainSorted.1.mapM (EntryTask.spawn v) = some ts ∧
      w = { s with dirty := .new, phase := .writing ts } := by
    cases step_cases hw with
    | nothing => exact absurd rfl hwp
    | spawn ts hp hts => exact ⟨ts,hp,hts,rfl⟩
  obtain ⟨hent,hqueued⟩ := spawn_entries hts
  have hnone : ¬ FailedAt ts := by
    intro ⟨i,x,j,c,hx,hc,hf⟩
    rw [hqueued x (List.mem_of_getElem? hx) c (List.mem_of_getElem? hc)] at hf
    cases hf
  have hempty : t.dirty = .new := hdirty.trans hud
  have hsync : u.WritesDone := Machine.run_invariant (fun _ _ _ hj h => writesDone_step hj h)
    (writesDone_step (fun _ h => by rw [hidle] at h; cases h) hw) hr
  constructor
  · intro hk
    by_contra hx
    simp only [not_forall] at hx
    obtain ⟨x,hm,hx⟩ := hx
    obtain ⟨i,x,j,c,hi,hj,hf⟩ := hfail.mpr (Or.inr ⟨x,hm,by simpa using hx⟩)
    have hlen : i < s.dirty.entries.entries.length := by
      have hl := congrArg List.length (hmap.trans hent)
      simp only [List.length_map,DirtyMap.drainSorted] at hl
      have hlt := (List.getElem?_eq_some_iff.mp hi).1
      omega
    obtain ⟨hmem,_⟩ := hk i _ x (List.getElem?_eq_getElem hlen) hi fun hg => by
      rw [hg c (List.mem_of_getElem? hj)] at hf
      cases hf
    rw [hempty] at hmem
    cases hmem
  · intro hn i en x _ hx hc
    refine absurd (fun c hm => ?_) hc
    rcases herr with hf | ⟨ts',hp⟩
    · rcases hfail.mp hf with hf | ⟨y,hy,hyf⟩
      · exact absurd hf hnone
      · rw [hn y hy] at hyf
        cases hyf
    · rw [hp] at hx
      exact hsync ts' hp c (List.mem_flatMap.mpr ⟨x,List.mem_of_getElem? hx,hm⟩)

/-- Both writes are Good, SYNCHRONIZE CACHE fails. -/
theorem failed_sync_keeps : ∃ u t, Machine.run (Flusher.step smallDevice) (.start twoEntries zeros)
      [.flush,.chunk 0 0 .submit,.chunk 0 0 .good,.chunk 1 0 .submit,.chunk 1 0 .good,.awaited] =
        some u ∧
    Flusher.step smallDevice u (.synced false) = some t ∧ Keeps twoEntries u.phase.tasks t := by
  have hr : Machine.run (Flusher.step smallDevice) (.start twoEntries zeros) [.flush,
      .chunk 0 0 .submit,.chunk 0 0 .good,.chunk 1 0 .submit,.chunk 1 0 .good,.awaited] =
      some _ := rfl
  refine ⟨_,_,hr,rfl,?_⟩
  exact (failed_flush_keeps_iff (l := .synced false) (e := .syncFailed) hr (by decide) rfl rfl).mpr
    (by decide)

/-- The write of the first entry fails; its acknowledged byte is neither on the target nor in
the dirty map, and a flush that follows has nothing to write. -/
theorem failed_write_lost : ∃ u t w, Machine.run (Flusher.step smallDevice) (.start twoEntries zeros)
      [.flush,.chunk 0 0 .submit,.chunk 1 0 .submit,.chunk 1 0 .good,.chunk 0 0 (.error false)] =
        some u ∧
    Flusher.step smallDevice u .awaited = some t ∧ t.returned = [.err .writeFailed] ∧
    t.dirty.entries.entries = [] ∧ t.dirty.totalBytes = 0 ∧ t.disk 0 = 0 ∧
    ¬ Keeps twoEntries u.phase.tasks t ∧
    Flusher.step smallDevice t .flush = some w ∧ w.returned = [.err .writeFailed,.ok ()] ∧
    w.disk 0 = 0 := by
  refine ⟨_,_,_,rfl,rfl,rfl,rfl,rfl,rfl,fun h => ?_,rfl,rfl,rfl⟩
  have hk := h 0 _ _ rfl rfl fun hc => by cases hc _ (List.mem_singleton.mpr rfl)
  cases hk.1

end IscsiFuse.Block
