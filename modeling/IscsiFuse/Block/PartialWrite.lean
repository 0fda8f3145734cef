import IscsiFuse.Block.Buffers
set_option autoImplicit false

/-!
What a Write of part of a block leaves in the dirty map. The read half of the
read-modify-write asks the target, so a byte beside the Write that an earlier
Write changed and no flush has written yet goes back to the target's.
-/

namespace IscsiFuse.Block
open IscsiFuse.Iscsi

/-- Follow the Writes of a log: those acknowledged and not flushed yet, and the one being
served. A flush has taken all of them out of the dirty map when it issues its
SYNCHRONIZE CACHE. -/
def Device.track (v : Device) (s : List Patch × Option Patch) : Event → List Patch × Option Patch
  | .received offset data => (s.1,some (v.writePatch offset data))
  | .writeReply _ _ (.ok _) => (s.1 ++ s.2.toList,none)
  | .writeReply _ _ (.err _) => (s.1,none)
  | .syncIssued => ([],none)
  | _ => s

def Device.tracked (v : Device) (log : List Event) : List Patch × Option Patch :=
  log.foldl v.track ([],none)

def Device.stillDirty (v : Device) (log : List Event) : List Patch := (v.tracked log).1

/-- What each byte was last: the byte of the last still-dirty Write that covers it, or else the
target's. -/
def Worker.latest (v : Device) (s : Worker) : Image := Patch.applyAll s.disk (v.stillDirty s.log)

def Device.Unaligned (v : Device) (offset : Nat) (data : Bytes) : Prop :=
  ¬ (offset%v.blockSize = 0 ∧ v.writeLen offset data%v.blockSize = 0)

def Device.Touches (v : Device) (offset : Nat) (data : Bytes) (p : Nat) : Prop :=
  (v.writeBlocks offset data).1*v.blockSize ≤ p ∧
    p < ((v.writeBlocks offset data).1+(v.writeBlocks offset data).2)*v.blockSize

/-- Whatever entry an unaligned Write leaves in the dirty map holds its data where it reaches,
and in the rest of the touched blocks what each byte was last. -/
def FramesWrite (v : Device) (s : Worker) (l : Label) : Prop :=
  ∀ offset data t, l = .write offset data true → v.Unaligned offset data →
    step v s l = some t → t.phase ≠ .idle →
    ∃ e, t.dirty.entries.get? (v.writeBlocks offset data).1 = some e ∧
      ∀ p, v.Touches offset data p →
        (Patch.mk ((v.writeBlocks offset data).1*v.blockSize) e.data).at? p =
          some ((v.writePatch offset data).apply (s.latest v) p)

/-- Beside the data of an unaligned Write of fewer than `2^32` blocks, every byte of the touched
blocks that a still-dirty Write covers is the target's. -/
def CleanBeside (v : Device) (s : Worker) (l : Label) : Prop :=
  ∀ offset data, l = .write offset data true → v.Unaligned offset data →
    v.inserts offset data true = true → (v.writeBlocks offset data).2 < 2^32 →
    ∀ p, v.Touches offset data p → ¬ (v.writePatch offset data).Covers p →
      ∀ x, Patch.lastAt? (v.stillDirty s.log) p = some x → s.disk p = x

variable {v : Device} {s t : Worker} {offset : Nat} {data : Bytes}

theorem latest_eq (v : Device) (s : Worker) (p : Nat) : s.latest v p = s.disk p ↔
    ∀ x, Patch.lastAt? (v.stillDirty s.log) p = some x → s.disk p = x := by
  rw [Worker.latest,Patch.applyAll_lastAt?]
  cases Patch.lastAt? (v.stillDirty s.log) p with
  | none => simp
  | some y => simp [eq_comm]

theorem WriteCall.Of.merged_span {w : WriteCall} {buf : Bytes} (h : w.Of v s offset data)
    (hu : v.Unaligned offset data) (hb : w.Buffer v s true buf) :
    (v.writeBlocks offset data).2 < 2^32 := by
  obtain ⟨skip,hal⟩ := h.aligned
  obtain ⟨hbs,_,_,hn,_⟩ := computeAlignment_eq_some hal
  have hlen : v.writeLen offset data = w.actualLen := h.clamped.symm
  cases hb with
  | aligned h₁ h₂ =>
    rw [h.args.1] at h₁
    exact absurd ⟨h₁,hlen ▸ h₂⟩ hu
  | merged old _ _ _ hle =>
    have htight := (span_touched offset hbs h.patch_length.2).tight
    rw [hn,h.args.1] at hle
    have hm : (touched offset w.actualLen v.blockSize).2 <
        (touched offset w.actualLen v.blockSize).2%2^32+1 := by
      rw [← Nat.mul_lt_mul_right hbs,Nat.add_mul]
      omega
    rw [Device.writeBlocks,hlen]
    omega

theorem WriteCall.Of.uncut_span {w : WriteCall} (h : w.Of v s offset data)
    (hlt : (v.writeBlocks offset data).2 < 2^32) :
    (w.startLba,w.blockCount) = v.writeBlocks offset data ∧
      Span w.startLba w.blockCount (offset%v.blockSize) offset w.actualLen v.blockSize := by
  obtain ⟨skip,hal⟩ := h.aligned
  obtain ⟨hb,_,hlba,hn,_⟩ := computeAlignment_eq_some hal
  have hlen : v.writeLen offset data = w.actualLen := h.clamped.symm
  rw [Device.writeBlocks,hlen] at hlt ⊢
  rw [Nat.mod_eq_of_lt hlt] at hn
  have hsp := span_touched offset hb h.patch_length.2
  rw [← hlba,← hn] at hsp
  exact ⟨by rw [hlba,hn],hsp⟩

theorem recvWrite_merged (hu : v.Unaligned offset data) (hi : v.inserts offset data true = true)
    (hlt : (v.writeBlocks offset data).2 < 2^32)
    (h : s.recvWrite v offset data true = some t) : t.phase ≠ .idle := by
  simp only [Device.inserts,decide_eq_true_eq] at hi
  rw [Device.writeBlocks,Device.writeLen] at hlt
  unfold Worker.recvWrite at h
  simp only [List.isEmpty_iff] at h
  rw [if_neg (by simp [hi.1,hi.2.1])] at h
  simp only [Option.bind_eq_bind,Option.bind_eq_some_iff] at h
  obtain ⟨⟨lba,n,skip⟩,ha,h⟩ := h
  obtain ⟨hbs,_,_,hn,hskip⟩ := computeAlignment_eq_some ha
  have hpos : 0 < min data.length (v.totalBytes-offset) := by
    have hd := List.length_pos_iff.mpr hi.1
    omega
  have hstop := (span_touched offset hbs hpos).stop
  simp only at h
  split at h
  · rename_i hal
    exact absurd ⟨hskip ▸ hal.1,hal.2⟩ hu
  · split at h
    · rename_i hf
      cases hf
    · split at h
      · rename_i hover
        rw [Image.read_length,hn,Nat.mod_eq_of_lt hlt,hskip] at hover
        omega
      · simp only [Option.bind_eq_some_iff] at h
        obtain ⟨clba,_,h⟩ := h
        cases h
        simp

theorem recvWrite_entry (hu : v.Unaligned offset data) (h : s.recvWrite v offset data true = some t)
    (hp : t.phase ≠ .idle) : ∃ e, t.dirty.entries.get? (v.writeBlocks offset data).1 = some e ∧
      ∀ p, v.Touches offset data p →
        (Patch.mk ((v.writeBlocks offset data).1*v.blockSize) e.data).at? p =
          some ((v.writePatch offset data).apply s.disk p) := by
  rcases Worker.recvWrite_cases h with ⟨x,rfl,_⟩ | ⟨w,buf,clba,hw,hb,_,rfl⟩
  · exact absurd rfl hp
  · obtain ⟨hblocks,hsp⟩ := hw.uncut_span (hw.merged_span hu hb)
    obtain ⟨hfull,hbyte⟩ := buffered_of_span hw hb hsp
    have hpatch : w.patch v = v.writePatch offset data := by
      rw [WriteCall.patch,hw.args.1,hw.args.2]
    rw [hpatch] at hbyte
    refine ⟨⟨buf,w.blockCount⟩,?_,fun p hp => ?_⟩
    · rw [← hblocks,OrdMap.get?_eq_some]
      simp
    · rw [Device.Touches,← hblocks,Nat.add_mul] at hp
      rw [← hblocks]
      obtain ⟨x,hx⟩ := Patch.exists_at? (w := ⟨w.startLba*v.blockSize,buf⟩) (p := p)
        ⟨hp.1,by rw [hfull]; exact hp.2⟩
      rw [hx,Patch.apply_eq]
      rcases hbyte p x hx with h | ⟨h,rfl⟩
      · rw [h]
        rfl
      · rw [Patch.at?_eq_none.mpr h]
        rfl

theorem recvWrite_inserted (hu : v.Unaligned offset data)
    (h : s.recvWrite v offset data true = some t) (hp : t.phase ≠ .idle) :
    v.inserts offset data true = true ∧ (v.writeBlocks offset data).2 < 2^32 := by
  rcases Worker.recvWrite_cases h with ⟨x,rfl,_⟩ | ⟨w,buf,clba,hw,hb,_,rfl⟩
  · exact absurd rfl hp
  · exact ⟨inserts_of_buffer hw hb,hw.merged_span hu hb⟩

theorem step_write {rmwOk : Bool} (h : step v s (.write offset data rmwOk) = some t) :
    s.recvWrite v offset data rmwOk = some t := by
  cases hp : s.phase with
  | idle => simpa only [step,hp] using h
  | _ => simp [step,hp] at h

theorem framesWrite_iff {l : Label} (hs : step v s l = some t) :
    FramesWrite v s l ↔ CleanBeside v s l := by
  constructor
  · intro h offset data hl hu hi hlt p hp hc
    subst hl
    have hr := step_write hs
    have hne := recvWrite_merged hu hi hlt hr
    obtain ⟨e,he,hb⟩ := recvWrite_entry hu hr hne
    obtain ⟨e',he',hb'⟩ := h offset data t rfl hu hs hne
    rw [he] at he'
    cases he'
    have heq := Option.some.inj ((hb p hp).symm.trans (hb' p hp))
    rw [Patch.apply_outside hc,Patch.apply_outside hc] at heq
    exact (latest_eq v s p).mp heq.symm
  · intro h offset data t' hl hu hs' hne
    subst hl
    have hr := step_write hs'
    obtain ⟨hi,hlt⟩ := recvWrite_inserted hu hr hne
    obtain ⟨e,he,hb⟩ := recvWrite_entry hu hr hne
    refine ⟨e,he,fun p hp => ?_⟩
    rw [hb p hp]
    by_cases hc : (v.writePatch offset data).Covers p
    · obtain ⟨x,hx⟩ := Patch.exists_at? hc
      rw [Patch.apply_inside hx,Patch.apply_inside hx]
    · rw [Patch.apply_outside hc,Patch.apply_outside hc]
      exact congrArg some ((latest_eq v s p).mpr (h offset data rfl hu hi hlt p hp hc)).symm

/-- The Writes of a run change only the bytes they name if and only if each finds what is beside
it clean. -/
theorem writes_framed_iff {b : Bool} {d : Image} {ls : List Label}
    (hr : Machine.run (step v) (.start v b d) ls = some t) :
    Machine.Meets (step v) (FramesWrite v) (.start v b d) ls ↔
      Machine.Meets (step v) (CleanBeside v) (.start v b d) ls :=
  Machine.meets_congr (fun _ _ _ hs => framesWrite_iff hs) hr

@[simp] theorem tracked_append (v : Device) (log m : List Event) :
    v.tracked (log ++ m) = m.foldl v.track (v.tracked log) := List.foldl_append

def Core.held (v : Device) (c : Core) : List Patch :=
  if c.phase.flushes then [] else v.stillDirty c.log ++ c.phase.handled v

/-- The keys of the dirty map are the start LBAs of the Writes that are still dirty or being
served. -/
structure Holding (v : Device) (c : Core) : Prop where
  keys : ∀ k, (∃ e ∈ c.dirty.entries.entries, e.1 = k) ↔
    ∃ w ∈ c.held v, w.data ≠ [] ∧ w.off/v.blockSize = k
  served : ∀ w clba, c.phase = .invalidating w clba →
    (v.tracked c.log).2 = some (w.patch v) ∧ (w.patch v).data ≠ []
  synced : ∀ k dr, c.phase = .syncing k dr → v.tracked c.log = ([],none)
  unfailed : ∀ x ∈ c.phase.commands, ∀ b, x.status ≠ .failed b

def Label.failsFlush : Label → Bool
  | .fail _ _ _ | .syncFail => true
  | _ => false

namespace Holding

variable {c : Core}

theorem start (v : Device) (b : Bool) (d : Image) : Holding v (Worker.start v b d).core where
  keys := fun k => by simp [Worker.start,Worker.core,DirtyMap.new,Core.held,Device.stillDirty,
    Device.tracked,Phase.handled,Phase.call,Phase.flushes]
  served := fun w clba h => by cases h
  synced := fun k dr h => by cases h
  unfailed := fun x h => by cases h

theorem held_eq (hf : c.phase.flushes = false) :
    c.held v = v.stillDirty c.log ++ c.phase.handled v := by rw [Core.held,hf]; rfl

theorem invalidating_of_call {p : Phase} {w : WriteCall} (hc : p.call = some w)
    (hf : p.flushes = false) : ∃ clba, p = .invalidating w clba := by
  cases p with
  | invalidating u clba =>
    cases hc
    exact ⟨clba,rfl⟩
  | flushing | syncing => cases hf
  | _ => cases hc

theorem no_commands {p : Phase} (hf : p.flushes = false) : p.commands = [] := by
  cases p with
  | flushing => cases hf
  | _ => rfl

theorem keep (h : Holding v s.core) (hd : c.dirty = s.dirty) (hf : s.phase.flushes = false)
    (hl : v.tracked c.log = v.tracked s.log) (hcf : c.phase.flushes = false)
    (hc : c.phase.call = s.phase.call) : Holding v c := by
  have hheld : c.held v = s.core.held v := by
    rw [held_eq hcf,held_eq (show s.core.phase.flushes = false from hf),Phase.handled,hc,
      Device.stillDirty,hl]
    rfl
  constructor
  · intro k
    rw [hd,hheld]
    exact h.keys k
  · intro w clba hw
    rw [hw] at hc
    obtain ⟨clba',hp⟩ := invalidating_of_call hc.symm hf
    rw [hl]
    exact h.served w clba' hp
  · intro k dr hk
    rw [hk] at hcf
    cases hcf
  · intro x hx
    rw [no_commands hcf] at hx
    cases hx

theorem done (h : Holding v s.core) (hd : c.dirty = s.dirty) (hf : s.phase.flushes = false)
    (hc : c.phase.call = none ∧ c.phase.flushes = false)
    (hl : v.stillDirty c.log = v.stillDirty s.log ++ s.phase.handled v) : Holding v c := by
  have hheld : c.held v = s.core.held v := by
    rw [held_eq hc.2,held_eq (show s.core.phase.flushes = false from hf),Phase.handled,hc.1,hl]
    exact List.append_nil _
  constructor
  · intro k
    rw [hd,hheld]
    exact h.keys k
  · intro w clba hw
    rw [hw] at hc
    cases hc.1
  · intro k dr hk
    rw [hk] at hc
    cases hc.2
  · intro x hx
    rw [no_commands hc.2] at hx
    cases hx

theorem flushes (h : Holding v s.core) (hs : s.phase.flushes = true) (hd : c.dirty = s.dirty)
    (hc : c.held v = []) (hw : ∀ w clba, c.phase ≠ .invalidating w clba)
    (hk : ∀ k dr, c.phase = .syncing k dr → v.tracked c.log = ([],none))
    (hu : ∀ x ∈ c.phase.commands, ∀ b, x.status ≠ .failed b) : Holding v c := by
  have hheld : s.core.held v = [] := by
    rw [Core.held,show s.core.phase.flushes = true from hs]
    rfl
  constructor
  · intro k
    have hkeys := h.keys k
    rw [hheld] at hkeys
    rw [hd,hc]
    exact hkeys
  · exact fun w clba hx => absurd hx (hw w clba)
  · exact hk
  · exact hu

theorem insert {w : WriteCall} {buf : Bytes} {clba : Nat} (h : Holding v s.core)
    (hp : s.phase = .idle) (hw : w.Of v s offset data) :
    Holding v { s.core with
      log := s.log ++ [Event.received offset data]
      dirty := s.dirty.insert w.startLba w.blockCount buf
      phase := .invalidating w clba } := by
  have hpatch : w.patch v = v.writePatch offset data := by
    rw [WriteCall.patch,hw.args.1,hw.args.2]
  have hne : (w.patch v).data ≠ [] := by
    rw [← List.length_pos_iff,hw.patch_length.1]
    exact hw.patch_length.2
  obtain ⟨skip,hal⟩ := hw.aligned
  have hlba : (w.patch v).off/v.blockSize = w.startLba := by
    rw [(computeAlignment_eq_some hal).2.2.1,hpatch]
    rfl
  have hold : s.core.held v = v.stillDirty s.log := by
    rw [held_eq (by simp [Worker.core,hp,Phase.flushes])]
    simp [Worker.core,hp,Phase.handled,Phase.call]
  constructor
  · intro k
    have hkeys := h.keys k
    rw [hold] at hkeys
    have hheld : Core.held v { s.core with
          log := s.log ++ [Event.received offset data],
          dirty := s.dirty.insert w.startLba w.blockCount buf,
          phase := .invalidating w clba } = v.stillDirty s.log ++ [w.patch v] := by
      rw [held_eq rfl,Device.stillDirty,tracked_append]
      rfl
    rw [hheld]
    simp only [DirtyMap.insert_entries,OrdMap.mem_insert]
    constructor
    · intro hx
      obtain ⟨e,he | ⟨he,_⟩,hk⟩ := hx
      · rw [he] at hk
        exact ⟨w.patch v,by simp,hne,hlba.trans hk⟩
      · obtain ⟨u,hu,hx⟩ := hkeys.mp ⟨e,he,hk⟩
        exact ⟨u,List.mem_append_left _ hu,hx⟩
    · intro hx
      obtain ⟨u,hu,hune,huk⟩ := hx
      by_cases hk : k = w.startLba
      · exact ⟨_,Or.inl rfl,hk.symm⟩
      · rcases List.mem_append.mp hu with hu | hu
        · obtain ⟨e,he,hek⟩ := hkeys.mpr ⟨u,hu,hune,huk⟩
          exact ⟨e,Or.inr ⟨he,fun hx => hk (hek.symm.trans hx)⟩,hek⟩
        · rw [List.mem_singleton.mp hu] at huk
          exact absurd (huk.symm.trans hlba) hk
  · intro w' clba' hx
    cases hx
    rw [tracked_append,hpatch]
    exact ⟨rfl,hpatch ▸ hne⟩
  · intro k dr hk
    cases hk
  · intro x hx
    cases hx

theorem emptyWrite (h : Holding v s.core) (hp : s.phase = .idle)
    (he : data = [] ∨ v.totalBytes ≤ offset) :
    Holding v ({ s.core with log := s.log ++ [Event.received offset data] }.answer
      (.writeReply offset data (.ok 0))) := by
  have hnil : (v.writePatch offset data).data = [] := by
    rcases he with rfl | he
    · simp [Device.writePatch]
    · simp [Device.writePatch,Nat.sub_eq_zero_of_le he]
  have hold : s.core.held v = v.stillDirty s.log := by
    rw [held_eq (by simp [Worker.core,hp,Phase.flushes])]
    simp [Worker.core,hp,Phase.handled,Phase.call]
  have hnew : Core.held v ({ s.core with log := s.log ++ [Event.received offset data] }.answer
      (.writeReply offset data (.ok 0))) = v.stillDirty s.log ++ [v.writePatch offset data] := by
    rw [held_eq rfl,Device.stillDirty]
    simp only [Core.answer,tracked_append]
    exact List.append_nil _
  constructor
  · intro k
    have hkeys := h.keys k
    rw [hold] at hkeys
    rw [hnew]
    refine hkeys.trans (Iff.intro (fun hx => ?_) (fun hx => ?_))
    · obtain ⟨u,hu,hx⟩ := hx
      exact ⟨u,List.mem_append_left _ hu,hx⟩
    · obtain ⟨u,hu,hx⟩ := hx
      rcases List.mem_append.mp hu with hu | hu
      · exact ⟨u,hu,hx⟩
      · rw [List.mem_singleton.mp hu] at hx
        exact absurd hnil hx.1
  · intro w clba hw
    cases hw
  · intro k dr hk
    cases hk
  · intro x hx
    cases hx

theorem tracked_read (v : Device) (log : List Event) (offset size : Nat) (x : Reply Bytes) :
    v.tracked (log ++ [.readReply offset size x]) = v.tracked log := by
  rw [tracked_append]
  rfl

theorem writeDone {w : WriteCall} {clba n : Nat} (h : Holding v s.core)
    (hp : s.phase = .invalidating w clba) : Holding v (s.core.writeDone w (.ok n)) := by
  refine h.done rfl (by rw [hp]; rfl) ⟨rfl,rfl⟩ ?_
  show v.stillDirty (s.log ++ [_]) = _
  rw [Device.stillDirty,tracked_append,hp]
  show (v.tracked s.log).1 ++ (v.tracked s.log).2.toList = _
  have hw : (v.tracked s.log).2 = some (w.patch v) := (h.served w clba hp).1
  rw [hw]
  rfl

theorem nothing {k : Caller} {l : Label} (h : Holding v s.core) (hk : Triggers s.phase l k) :
    Holding v (s.core.flushDone (.ok ()) k) := by
  generalize hp : s.phase = p at hk
  cases hk with
  | flush =>
    refine h.keep rfl (by rw [hp]; rfl) ?_ rfl (by rw [hp]; rfl)
    show v.tracked (s.log ++ [_]) = _
    rw [tracked_append]
    rfl
  | tick | close => exact h.keep rfl (by rw [hp]; rfl) rfl rfl (by rw [hp]; rfl)
  | write w clba => exact h.writeDone hp

theorem flushed {k : Caller} {dr : List (Nat × Bytes)} (h : Holding v s.core)
    (hp : s.phase = .syncing k dr) :
    Holding v ({ s.core with log := s.log ++ [Event.syncGood] }.flushDone (.ok ()) k) := by
  have hsync : v.tracked s.log = ([],none) := h.synced k dr hp
  have hf : s.phase.flushes = true := by
    rw [hp]
    rfl
  have hheld : ∀ m : List Event, m.foldl v.track ([],none) = ([],none) →
      v.stillDirty (s.log ++ m) = [] := by
    intro m hm
    rw [Device.stillDirty,tracked_append,hsync,hm]
  have hidle : ∀ c : Core, c.dirty = s.dirty → c.held v = [] → c.phase.call = none →
      c.phase.flushes = false → Holding v c := by
    intro c hd hc hcall hcf
    refine h.flushes hf hd hc (fun w clba hw => ?_) (fun k dr hk => ?_) (fun x hx => ?_)
    · rw [hw] at hcall
      cases hcall
    · rw [hk] at hcf
      cases hcf
    · rw [no_commands hcf] at hx
      cases hx
  cases k with
  | request =>
    refine hidle _ rfl ?_ rfl rfl
    rw [held_eq rfl]
    refine List.append_eq_nil_iff.mpr ⟨?_,rfl⟩
    show v.stillDirty (s.log ++ [_] ++ [_]) = []
    rw [List.append_assoc]
    exact hheld _ rfl
  | write w =>
    refine hidle _ rfl ?_ rfl rfl
    rw [held_eq rfl]
    refine List.append_eq_nil_iff.mpr ⟨?_,rfl⟩
    show v.stillDirty (s.log ++ [_] ++ [_]) = []
    rw [List.append_assoc]
    exact hheld _ rfl
  | timer | closing =>
    refine hidle _ rfl ?_ rfl rfl
    rw [held_eq rfl]
    exact List.append_eq_nil_iff.mpr ⟨hheld [_] rfl,rfl⟩

theorem spawn {k : Caller} {cmds : List FlushCmd}
    (hc : ∀ x ∈ cmds, x.status = .pending) (dr : List (Nat × Bytes)) :
    Holding v { s.core with dirty := .new, phase := .flushing k dr cmds } where
  keys := fun n => by simp [DirtyMap.new,Core.held,Phase.flushes]
  served := fun w clba hw => by cases hw
  synced := fun k dr hk => by cases hk
  unfailed := fun x hx b hb => by
    rw [hc x hx] at hb
    cases hb

theorem stray (h : Holding v s.core) (hc : c.dirty = s.dirty)
    (hp : c.phase = s.phase) (hl : v.tracked c.log = v.tracked s.log) : Holding v c := by
  cases hf : s.phase.flushes with
  | false => exact h.keep hc hf hl (hp ▸ hf) (by rw [hp])
  | true =>
    refine h.flushes hf hc ?_ (fun w clba hw => ?_) (fun k dr hk => ?_) (fun x hx => ?_)
    · rw [Core.held,hp,hf]
      rfl
    · rw [hp.symm.trans hw] at hf
      cases hf
    · rw [hl]
      exact h.synced k dr (hp.symm.trans hk)
    · rw [hp] at hx
      exact h.unfailed x hx

theorem step {l : Label} (h : Holding v s.core) (hl : l.failsFlush = false)
    (hs : step v s l = some t) : Holding v t.core := by
  generalize htc : t.core = c
  cases htc ▸ step_core hs with
  | background => exact h
  | emptyRead _ _ hp | dirtyRead _ _ _ _ hp =>
    exact h.keep rfl (by rw [hp]; rfl) (tracked_read _ _ _ _ _) rfl (by rw [hp]; rfl)
  | startRead _ _ _ _ hp | await _ _ _ hp =>
    exact h.keep rfl (by rw [hp]; rfl) rfl rfl (by rw [hp]; rfl)
  | take _ _ _ _ _ _ ht =>
    cases ht with
    | hit hp | fetched hp => exact h.keep rfl (by rw [hp]; rfl) rfl rfl (by rw [hp]; rfl)
  | readDone _ _ _ _ hp =>
    exact h.keep rfl (by rw [hp]; rfl) (tracked_read _ _ _ _ _) rfl (by rw [hp]; rfl)
  | readFailed _ _ _ _ _ hp =>
    rcases hp with hp | hp <;>
      exact h.keep rfl (by rw [hp]; rfl) (tracked_read _ _ _ _ _) rfl (by rw [hp]; rfl)
  | emptyWrite _ _ _ hp he => exact h.emptyWrite hp he
  | failedWrite offset data _ _ hp =>
    refine h.done rfl (by rw [hp]; rfl) ⟨rfl,rfl⟩ ?_
    rw [Device.stillDirty,hp]
    simp only [Core.answer,tracked_append]
    exact (List.append_nil _).symm
  | insert _ _ _ _ _ _ hp hw => exact h.insert hp hw
  | invalidate w clba next hp => exact h.keep rfl (by rw [hp]; rfl) rfl rfl (by rw [hp]; rfl)
  | writeDone w clba hp => exact h.writeDone hp
  | flushNothing _ _ hk => exact h.nothing hk
  | flushStart _ k cmds =>
    refine spawn (fun x hx => ?_) _
    obtain ⟨y,_,rfl⟩ := List.mem_map.mp hx
    rfl
  | good i k dr cmds x hp hx =>
    refine h.flushes (by rw [hp]; rfl) rfl rfl (fun w clba hw => by cases hw)
      (fun k dr hk => by cases hk) (fun y hy => ?_)
    have hu := h.unfailed
    rw [show s.core.phase = _ from hp] at hu
    rcases List.mem_or_eq_of_mem_set hy with hy | rfl
    · exact hu y hy
    · simp
  | fail => cases hl
  | sync k dr cmds hp =>
    refine h.flushes (by rw [hp]; rfl) rfl rfl (fun w clba hw => by cases hw) (fun k dr hk => ?_)
      (fun y hy => by cases hy)
    rw [tracked_append]
    rfl
  | flushFailed k dr cmds x b left e hp hm hx =>
    have hu := h.unfailed
    rw [show s.core.phase = _ from hp] at hu
    exact absurd hx (hu x hm b)
  | syncGood k dr hp => exact h.flushed hp
  | syncFail => cases hl
  | stray i good x hx =>
    refine h.stray rfl rfl ?_
    cases good with
    | true =>
      rw [tracked_append]
      rfl
    | false => rw [if_neg (by simp),List.append_nil]

end Holding

theorem stillDirty_keys {b : Bool} {d : Image} {ls : List Label}
    (hl : ∀ l ∈ ls, l.failsFlush = false)
    (hr : Machine.run (step v) (.start v b d) ls = some t) (hp : t.phase = .idle) (k : Nat) :
    (∃ e ∈ t.dirty.entries.entries, e.1 = k) ↔
      ∃ w ∈ v.stillDirty t.log, w.data ≠ [] ∧ w.off/v.blockSize = k := by
  have ht : Holding v t.core := Machine.run_invariant_of (I := fun s => Holding v s.core)
    (fun _ _ _ hi hl hs => hi.step hl hs) (Holding.start v b d) hl hr
  have hkeys := ht.keys k
  have hheld : t.core.held v = v.stillDirty t.log := by
    rw [Holding.held_eq (by simp [Worker.core,hp,Phase.flushes])]
    simp [Worker.core,hp,Phase.handled,Phase.call]
  rwa [hheld] at hkeys

def fourBlocks : Device where
  pipeline := ⟨0,4,4,NegotiatedParams.defaults10g⟩
  totalBytes := 16
  coalesceMaxBytes := 1000
  raMaxKb := 0

theorem cleanBeside_of_flushed {l : Label} (h : v.stillDirty s.log = []) : CleanBeside v s l := by
  intro offset data _ _ _ _ p _ _ x hx
  rw [h] at hx
  cases hx

/-- Two Writes to one block with a flush between them. -/
theorem writes_framed_flushed : ∃ t, Machine.run (step fourBlocks) (.start fourBlocks false zeros)
      [.write 1 [7] true,.cont,.cont,.flush,.good 0,.cont,.syncGood,.write 2 [9] true] = some t ∧
    Machine.Meets (step fourBlocks) (FramesWrite fourBlocks) (.start fourBlocks false zeros)
      [.write 1 [7] true,.cont,.cont,.flush,.good 0,.cont,.syncGood,.write 2 [9] true] := by
  have hother : ∀ s l, (∀ offset data, l ≠ .write offset data true) →
      CleanBeside fourBlocks s l := fun s l h offset data hl => absurd hl (h offset data)
  have hr : Machine.run (step fourBlocks) (.start fourBlocks false zeros)
      [.write 1 [7] true,.cont,.cont,.flush,.good 0,.cont,.syncGood,.write 2 [9] true] =
      some _ := rfl
  refine ⟨_,hr,(writes_framed_iff hr).mpr ?_⟩
  rw [Machine.meets_cons rfl,Machine.meets_cons rfl,Machine.meets_cons rfl,Machine.meets_cons rfl,
    Machine.meets_cons rfl,Machine.meets_cons rfl,Machine.meets_cons rfl]
  refine ⟨cleanBeside_of_flushed rfl,hother _ _ (by simp),hother _ _ (by simp),hother _ _ (by simp),
    hother _ _ (by simp),hother _ _ (by simp),hother _ _ (by simp),cleanBeside_of_flushed rfl,?_⟩
  exact fun _ _ => trivial

/-- Two Writes to one block with no flush between them: the second entry replaces the first and
holds the target's zero at byte 1, where 7 was acknowledged. -/
theorem writes_unframed : ∃ s t, Machine.run (step fourBlocks) (.start fourBlocks false zeros)
      [.write 1 [7] true,.cont,.cont] = some s ∧
    s.log = [.received 1 [7],.writeReply 1 [7] (.ok 1)] ∧
    step fourBlocks s (.write 2 [9] true) = some t ∧
    t.dirty.entries.entries = [(0,⟨[0,0,9,0],1⟩)] ∧
    ¬ Machine.Meets (step fourBlocks) (FramesWrite fourBlocks) (.start fourBlocks false zeros)
      [.write 1 [7] true,.cont,.cont,.write 2 [9] true] := by
  refine ⟨_,_,rfl,rfl,rfl,rfl,fun h => ?_⟩
  rw [Machine.meets_cons rfl,Machine.meets_cons rfl,Machine.meets_cons rfl] at h
  have hc := (framesWrite_iff rfl).mp h.2.2.2.1 2 [9] rfl (by unfold Device.Unaligned; decide)
    (by decide) (by decide) 1 (by unfold Device.Touches; decide) (by decide) 7 rfl
  cases hc

end IscsiFuse.Block
