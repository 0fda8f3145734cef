import IscsiFuse.Library.Log
import IscsiFuse.Block.Coherence
import IscsiFuse.Block.FlushCommands
import IscsiFuse.Block.Buffers
set_option autoImplicit false

/-!
Read-your-writes. The target, the commands in flight and the dirty map together
hold the reference image as long as dirty entries keep apart and no write to the
target runs under a cached chunk.
-/

namespace IscsiFuse.Block
open IscsiFuse.Iscsi

def Device.readBlocks (v : Device) (offset size : Nat) : Nat × Nat :=
  touched offset (min size ((v.totalBytes-offset)%2^32)) v.blockSize

def Device.Replaces (v : Device) (offset : Nat) (data : Bytes) (e : Nat × DirtyEntry) : Prop :=
  e.1*v.blockSize = offset ∧ (e.1+e.2.blockCount)*v.blockSize ≤ offset+v.writeLen offset data

instance (v : Device) (offset : Nat) (data : Bytes) (e : Nat × DirtyEntry) :
    Decidable (v.Replaces offset data e) := inferInstanceAs (Decidable (_ ∧ _))

def Label.separate (v : Device) (m : DirtyMap) : Label → Bool
  | .read offset size => ∀ e ∈ m.entries.entries,
      Clear (v.readBlocks offset size).1 (v.readBlocks offset size).2 e ∨
      Inside (v.readBlocks offset size).1 (v.readBlocks offset size).2 e
  | .write offset data rmwOk => v.inserts offset data rmwOk = true →
      (v.writeBlocks offset data).2*v.blockSize < 2^32 ∧ ∀ e ∈ m.entries.entries,
        Clear (v.writeBlocks offset data).1 (v.writeBlocks offset data).2 e ∨
        v.Replaces offset data e
  | .fail _ _ _ | .syncFail | .strayApplied _ _ => false
  | _ => true

/-- Moreover the target changes no chunk that is cached or being fetched. -/
def SeparateStep (v : Device) (s : Worker) (l : Label) : Prop :=
  l.separate v s.dirty = true ∧ LeavesHeld v s l

theorem separate_read {v : Device} {s : Worker} {offset size : Nat}
    (h : SeparateStep v s (.read offset size)) : ∀ e ∈ s.dirty.entries.entries,
      Clear (v.readBlocks offset size).1 (v.readBlocks offset size).2 e ∨
      Inside (v.readBlocks offset size).1 (v.readBlocks offset size).2 e :=
  of_decide_eq_true h.1

theorem separate_write {v : Device} {s : Worker} {offset : Nat} {data : Bytes} {rmwOk : Bool}
    (h : SeparateStep v s (.write offset data rmwOk)) (hi : v.inserts offset data rmwOk = true) :
    (v.writeBlocks offset data).2*v.blockSize < 2^32 ∧ ∀ e ∈ s.dirty.entries.entries,
      Clear (v.writeBlocks offset data).1 (v.writeBlocks offset data).2 e ∨
      v.Replaces offset data e :=
  of_decide_eq_true h.1 hi

/-- Every Read reply in the log holds the bytes of the image that the Writes
acknowledged before it make of `d`. -/
def ReadsCurrent (v : Device) (d : Image) (log : List Event) : Prop :=
  ∀ pre post offset size bytes, log = pre ++ .readReply offset size (.ok bytes) :: post →
    ∀ i x, bytes[i]? = some x → Patch.applyAll d (v.acked pre) (offset+i) = x

namespace ReadsCurrent

variable {v : Device} {d : Image}

theorem nil : ReadsCurrent v d [] := by
  intro pre post offset size bytes h
  simp at h

theorem snoc {log : List Event} {e : Event} (h : ReadsCurrent v d log)
    (he : ∀ offset size bytes, e = .readReply offset size (.ok bytes) →
      ∀ i x, bytes[i]? = some x → Patch.applyAll d (v.acked log) (offset+i) = x) :
    ReadsCurrent v d (log ++ [e]) := by
  intro pre post offset size bytes hl
  rcases Log.split_snoc hl with ⟨_,hx,rfl⟩ | ⟨post',_,hlog⟩
  · exact he offset size bytes hx
  · exact h pre post' offset size bytes hlog

theorem other {log : List Event} {e : Event} (h : ReadsCurrent v d log)
    (he : ∀ offset size bytes, e ≠ .readReply offset size (.ok bytes)) :
    ReadsCurrent v d (log ++ [e]) :=
  h.snoc (fun offset size bytes hx => absurd hx (he offset size bytes))

end ReadsCurrent

structure Reading (v : Device) (c : Core) (r : ReadCall) (clba : Nat) (acc : Bytes) : Prop where
  of : ∃ offset size, r.Of v offset size
  clear : ∀ e ∈ c.dirty.entries.entries, Clear r.startLba r.blockCount e
  chunk : v.chunkBlocks ∣ clba
  acc : acc = c.disk.read (r.startLba*v.blockSize)
    ((min (max clba r.startLba) (r.startLba+r.blockCount)-r.startLba)*v.blockSize)

def Phase.read : Phase → Option (ReadCall × Nat × Bytes)
  | .reading r clba acc | .awaiting r clba acc => some (r,clba,acc)
  | _ => none

/-- Target, commands in flight and dirty map together make the reference image. -/
structure Represents (v : Device) (d : Image) (c : Core) : Prop where
  disjoint : c.dirty.Disjoint v.blockSize
  image : Patch.applyAll c.disk (v.pending c.phase.commands ++ c.dirty.patches v.blockSize) =
    Patch.applyAll d (v.acked c.log ++ c.phase.handled v)
  apart : (v.pending c.phase.commands).Pairwise Patch.Apart
  unfailed : ∀ x ∈ c.phase.commands, ∀ b, x.status ≠ .failed b
  reading : ∀ r clba acc, c.phase.read = some (r,clba,acc) → 0 < r.actualSize →
    Reading v c r clba acc
  current : ReadsCurrent v d c.log

theorem ReadCall.Of.span {v : Device} {offset size : Nat} {r : ReadCall} (h : r.Of v offset size)
    (hs : 0 < r.actualSize) :
    (r.startLba,r.blockCount) = v.readBlocks offset size ∧
      Span r.startLba r.blockCount r.skip r.offset r.actualSize v.blockSize := by
  obtain ⟨hb,_,hlba,hn,hskip⟩ := computeAlignment_eq_some h.aligned
  have hlt : r.actualSize < 2^32 := by
    have hm := Nat.mod_lt (v.totalBytes-offset) (show 0 < 2^32 by decide)
    rw [h.clamped]
    omega
  rw [Nat.mod_eq_of_lt (touched_lt hb hs hlt)] at hn
  have hsp := span_touched offset hb hs
  rw [← hlba,← hn,← hskip,← h.args.1] at hsp
  refine ⟨?_,hsp⟩
  rw [Device.readBlocks,← h.clamped,hlba,hn]

theorem Represents.ref_at {v : Device} {d : Image} {c : Core} (h : Represents v d c)
    (hc : c.phase.commands = []) {p : Nat} :
    Patch.applyAll c.disk (c.dirty.patches v.blockSize) p =
      Patch.applyAll d (v.acked c.log ++ c.phase.handled v) p := by
  have hi := h.image
  rw [hc] at hi
  exact congrFun hi p

theorem Represents.clear_at {v : Device} {d : Image} {c : Core} (h : Represents v d c)
    (hc : c.phase.commands = []) {lba n p : Nat}
    (hcl : ∀ e ∈ c.dirty.entries.entries, Clear lba n e) (h₁ : lba*v.blockSize ≤ p)
    (h₂ : p < (lba+n)*v.blockSize) :
    c.disk p = Patch.applyAll d (v.acked c.log ++ c.phase.handled v) p := by
  rw [← h.ref_at hc,DirtyMap.Disjoint.image_outside]
  intro e he
  exact DirtyMap.Disjoint.clear_apart (h.disjoint.full e he) (hcl e he) h₁ h₂

theorem Represents.keep {v : Device} {d : Image} {s c : Core} (h : Represents v d s)
    (m : List Event) (hd : c.dirty = s.dirty) (hk : c.disk = s.disk)
    (hc : c.phase.commands = s.phase.commands) (hl : c.log = s.log ++ m)
    (hh : v.acked m ++ c.phase.handled v = s.phase.handled v)
    (hr : ∀ r clba acc, c.phase.read = some (r,clba,acc) → 0 < r.actualSize →
      Reading v c r clba acc) (hcur : ReadsCurrent v d c.log) : Represents v d c where
  disjoint := hd ▸ h.disjoint
  image := by rw [hd,hk,hc,hl,acked_append,List.append_assoc,hh,h.image]
  apart := hc ▸ h.apart
  unfailed := hc ▸ h.unfailed
  reading := hr
  current := hcur

theorem read_bytes_clear {v : Device} {d : Image} {c : Core} (h : Represents v d c)
    (hc : c.phase.commands = []) {r : ReadCall} (hr : Span r.startLba r.blockCount r.skip r.offset
      r.actualSize v.blockSize) (hcl : ∀ e ∈ c.dirty.entries.entries, Clear r.startLba r.blockCount e)
    {i : Nat} {x : UInt8} (hx : (((c.disk.read (r.startLba*v.blockSize)
      (r.blockCount*v.blockSize)).drop r.skip).take r.actualSize)[i]? = some x) :
    Patch.applyAll d (v.acked c.log ++ c.phase.handled v) (r.offset+i) = x := by
  have hstart := hr.start
  have hstop := hr.stop
  rw [Image.read_window c.disk hr.stop,Image.getElem?_read] at hx
  split at hx
  · rename_i hi
    cases hx
    rw [hstart]
    refine (h.clear_at hc hcl ?_ ?_).symm
    · omega
    · rw [Nat.add_mul]
      omega
  · cases hx

theorem read_bytes_inside {v : Device} {d : Image} {c : Core} (h : Represents v d c)
    (hc : c.phase.commands = []) {r : ReadCall} (hr : Span r.startLba r.blockCount r.skip r.offset
      r.actualSize v.blockSize) {e : Nat × DirtyEntry} (he : e ∈ c.dirty.entries.entries)
    (hi : Inside r.startLba r.blockCount e) {i : Nat} {x : UInt8}
    (hx : ((((e.2.data.drop ((r.startLba-e.1)*v.blockSize)).take (r.blockCount*v.blockSize)).drop
      r.skip).take r.actualSize)[i]? = some x) :
    Patch.applyAll d (v.acked c.log ++ c.phase.handled v) (r.offset+i) = x := by
  have hstart := hr.start
  have hstop := hr.stop
  have hle := Nat.mul_le_mul_right v.blockSize hi.1
  rw [← h.ref_at hc]
  refine h.disjoint.image_entry he ?_
  rw [List.getElem?_take] at hx
  split at hx
  · rename_i hlt
    rw [List.getElem?_drop,List.getElem?_take,if_pos (by omega),List.getElem?_drop,Nat.sub_mul] at hx
    simp only [Patch.at?]
    rw [if_pos (by omega),← hx]
    congr 1
    omega
  · cases hx

theorem readTo_take {v : Device} {d : Image} {r : ReadCall} {clba : Nat} {piece : Bytes}
    (hle : max r.startLba clba ≤ min (r.startLba+r.blockCount) (clba+v.chunkBlocks))
    (hp : piece = ((v.chunkOf d clba).drop ((max r.startLba clba-clba)*v.blockSize)).take
      ((min (r.startLba+r.blockCount) (clba+v.chunkBlocks)-max r.startLba clba)*v.blockSize)) :
    d.read (r.startLba*v.blockSize)
        ((min (max clba r.startLba) (r.startLba+r.blockCount)-r.startLba)*v.blockSize) ++ piece =
      d.read (r.startLba*v.blockSize)
        ((min (max (clba+v.chunkBlocks) r.startLba) (r.startLba+r.blockCount)-r.startLba)*
          v.blockSize) := by
  have hwin : (max r.startLba clba-clba)*v.blockSize+
      (min (r.startLba+r.blockCount) (clba+v.chunkBlocks)-max r.startLba clba)*v.blockSize ≤
      v.chunkBytes := by
    rw [Device.chunkBytes,← Nat.add_mul]
    exact Nat.mul_le_mul_right _ (by omega)
  have hoff : clba*v.blockSize+(max r.startLba clba-clba)*v.blockSize =
      r.startLba*v.blockSize+
        (min (max clba r.startLba) (r.startLba+r.blockCount)-r.startLba)*v.blockSize := by
    rw [← Nat.add_mul,← Nat.add_mul]
    congr 1
    omega
  have hlen : (min (max (clba+v.chunkBlocks) r.startLba) (r.startLba+r.blockCount)-r.startLba)*
        v.blockSize =
      (min (max clba r.startLba) (r.startLba+r.blockCount)-r.startLba)*v.blockSize+
        (min (r.startLba+r.blockCount) (clba+v.chunkBlocks)-max r.startLba clba)*v.blockSize := by
    rw [← Nat.add_mul]
    congr 1
    omega
  rw [hp,Device.chunkOf,Image.read_window d hwin,hlen,Image.read_append,hoff]

theorem Reading.take {v : Device} {c : Core} {r : ReadCall} {clba : Nat} {acc piece : Bytes}
    (h : Reading v c r clba acc)
    (hle : max r.startLba clba ≤ min (r.startLba+r.blockCount) (clba+v.chunkBlocks))
    (hp : piece = ((v.chunkOf c.disk clba).drop ((max r.startLba clba-clba)*v.blockSize)).take
      ((min (r.startLba+r.blockCount) (clba+v.chunkBlocks)-max r.startLba clba)*v.blockSize)) :
    Reading v { c with phase := .reading r (clba+v.chunkBlocks) (acc ++ piece) } r
      (clba+v.chunkBlocks) (acc ++ piece) where
  of := h.of
  clear := h.clear
  chunk := Nat.dvd_add h.chunk (Nat.dvd_refl _)
  acc := by rw [h.acc,readTo_take hle hp]

theorem Represents.received {v : Device} {d : Image} {c : Core} (h : Represents v d c)
    (offset : Nat) (data : Bytes) :
    Represents v d { c with log := c.log ++ [Event.received offset data] } where
  disjoint := h.disjoint
  image := by simpa [Device.acked] using h.image
  apart := h.apart
  unfailed := h.unfailed
  reading := fun r clba acc hr hs =>
    ⟨(h.reading r clba acc hr hs).of,(h.reading r clba acc hr hs).clear,
      (h.reading r clba acc hr hs).chunk,(h.reading r clba acc hr hs).acc⟩
  current := h.current.other (by simp)

section Insert

variable {v : Device} {d : Image} {s : Worker} {offset : Nat} {data buf : Bytes} {rmwOk : Bool}
  {w : WriteCall}

theorem replaced_outside (h : s.dirty.Disjoint v.blockSize) (hw : w.Of v s offset data)
    (hlt : (v.writeBlocks offset data).2*v.blockSize < 2^32) {e : Nat × DirtyEntry}
    (he : e ∈ s.dirty.entries.entries)
    (hsep : Clear (v.writeBlocks offset data).1 (v.writeBlocks offset data).2 e ∨
      v.Replaces offset data e) {p : Nat} (h₁ : w.startLba*v.blockSize ≤ p)
    (h₂ : p < (w.startLba+w.blockCount)*v.blockSize) (hp : ¬ (w.patch v).Covers p) :
    ¬ (Patch.mk (e.1*v.blockSize) e.2.data).Covers p := by
  obtain ⟨hblocks,hsp⟩ := hw.span hlt
  rw [← hblocks] at hsep
  rcases hsep with hc | ⟨hr₁,hr₂⟩
  · exact DirtyMap.Disjoint.clear_apart (h.full e he) hc h₁ h₂
  · rw [DirtyMap.Disjoint.patch_covers (h.full e he)]
    intro ⟨hl,hu⟩
    have hoff : (w.patch v).off = offset := hw.args.1
    rw [Device.writeLen,← hw.clamped] at hr₂
    refine hp ⟨by omega,?_⟩
    rw [hoff,hw.patch_length.1]
    omega

theorem insert_disjoint (h : s.dirty.Disjoint v.blockSize) (hw : w.Of v s offset data)
    (hb : Buffered v s.disk w buf) (hsep : SeparateStep v s (.write offset data rmwOk))
    (hi : v.inserts offset data rmwOk = true) :
    (s.dirty.insert w.startLba w.blockCount buf).Disjoint v.blockSize := by
  obtain ⟨hlt,hsep⟩ := separate_write hsep hi
  obtain ⟨hblocks,hsp⟩ := hw.span hlt
  have hold : ∀ e ∈ s.dirty.entries.entries, e.1 ≠ w.startLba →
      Clear w.startLba w.blockCount e := by
    intro e he hk
    have hs := hsep e he
    rw [← hblocks] at hs
    rcases hs with hs | ⟨hr,_⟩
    · exact hs
    · obtain ⟨skip,hal⟩ := hw.aligned
      obtain ⟨hbs,_,_,_,_⟩ := computeAlignment_eq_some hal
      have hstart := hsp.start
      rw [← hr,Nat.mul_mod_left,Nat.add_zero] at hstart
      exact absurd (Nat.eq_of_mul_eq_mul_right hbs hstart).symm hk
  constructor
  · intro e he
    rw [DirtyMap.insert_entries,OrdMap.mem_insert] at he
    rcases he with rfl | ⟨he,_⟩
    · exact hb.full
    · exact h.full e he
  · intro e he
    rw [DirtyMap.insert_entries,OrdMap.mem_insert] at he
    rcases he with rfl | ⟨he,_⟩
    · exact hsp.some_block
    · exact h.some_block e he
  · intro e he
    rw [DirtyMap.insert_entries,OrdMap.mem_insert] at he
    rcases he with rfl | ⟨he,_⟩
    · rw [← hblocks] at hlt
      show buf.length < 2^32
      rw [hb.full]
      exact hlt
    · exact h.short e he
  · intro e he f hf hne
    rw [DirtyMap.insert_entries,OrdMap.mem_insert] at he hf
    rcases he with rfl | ⟨he,hek⟩
    · rcases hf with rfl | ⟨hf,hfk⟩
      · exact absurd rfl hne
      · exact hold f hf hfk
    · rcases hf with rfl | ⟨hf,hfk⟩
      · have hc := hold e he hek
        unfold Clear at hc ⊢
        simp only
        omega
      · exact h.clear e he f hf hne

theorem insert_image (h : Represents v d s.core) (hp : s.phase = .idle) (hw : w.Of v s offset data)
    (hb : Buffered v s.disk w buf) (hsep : SeparateStep v s (.write offset data rmwOk))
    (hi : v.inserts offset data rmwOk = true) :
    Patch.applyAll s.disk ((s.dirty.insert w.startLba w.blockCount buf).patches v.blockSize) =
      (w.patch v).apply (Patch.applyAll d (v.acked s.log)) := by
  have hdis := insert_disjoint h.disjoint hw hb hsep hi
  obtain ⟨hlt,hsep⟩ := separate_write hsep hi
  obtain ⟨hblocks,hsp⟩ := hw.span hlt
  have hoff : (w.patch v).off = offset := hw.args.1
  have hcmds : s.core.phase.commands = [] := by
    simp [Worker.core,hp,Phase.commands]
  have hhandled : s.core.phase.handled v = [] := by
    simp [Worker.core,hp,Phase.handled,Phase.call]
  have href : ∀ p, Patch.applyAll s.disk (s.dirty.patches v.blockSize) p =
      Patch.applyAll d (v.acked s.log) p := by
    intro p
    have hr := h.ref_at hcmds (p := p)
    rwa [hhandled,List.append_nil] at hr
  have hnew : (w.startLba,DirtyEntry.mk buf w.blockCount) ∈
      (s.dirty.insert w.startLba w.blockCount buf).entries.entries := by
    simp
  have hin : ∀ p, (Patch.mk (w.startLba*v.blockSize) buf).Covers p ↔
      w.startLba*v.blockSize ≤ p ∧ p < (w.startLba+w.blockCount)*v.blockSize :=
    fun p => DirtyMap.Disjoint.patch_covers (e := ⟨buf,w.blockCount⟩) hb.full
  have hout : ∀ e ∈ s.dirty.entries.entries, ∀ p,
      (Patch.mk (w.startLba*v.blockSize) buf).Covers p → ¬ (w.patch v).Covers p →
      ¬ (Patch.mk (e.1*v.blockSize) e.2.data).Covers p := by
    intro e he p hc hn
    rw [hin] at hc
    exact replaced_outside h.disjoint hw hlt he (hsep e he) hc.1 hc.2 hn
  funext p
  by_cases hc : (Patch.mk (w.startLba*v.blockSize) buf).Covers p
  · obtain ⟨x,hx⟩ := Patch.exists_at? hc
    rw [hdis.image_entry hnew hx]
    rcases hb.byte p x hx with hw' | ⟨hn,rfl⟩
    · exact (Patch.apply_inside hw').symm
    · rw [Patch.apply_outside hn,← href,DirtyMap.Disjoint.image_outside]
      exact fun e he => hout e he p hc hn
  · have hn : ¬ (w.patch v).Covers p := by
      intro hwp
      have hstart := hsp.start
      have hstop := hsp.stop
      simp only [Patch.Covers,hoff,hw.patch_length.1] at hwp
      rw [hin,Nat.add_mul] at hc
      omega
    rw [Patch.apply_outside hn,← href]
    by_cases hex : ∃ e ∈ s.dirty.entries.entries, (Patch.mk (e.1*v.blockSize) e.2.data).Covers p
    · obtain ⟨e,he,hec⟩ := hex
      obtain ⟨x,hx⟩ := Patch.exists_at? hec
      have hk : e.1 ≠ w.startLba := by
        intro hk
        have hs := hsep e he
        rw [← hblocks] at hs
        rcases hs with hs | ⟨hr₁,hr₂⟩
        · have h₁ := h.disjoint.some_block e he
          have h₂ := hsp.some_block
          unfold Clear at hs
          omega
        · rw [DirtyMap.Disjoint.patch_covers (h.disjoint.full e he)] at hec
          rw [Device.writeLen,← hw.clamped] at hr₂
          refine hn ⟨by omega,?_⟩
          rw [hoff,hw.patch_length.1]
          omega
      have hold : Patch.applyAll s.disk (s.dirty.patches v.blockSize) p = x :=
        h.disjoint.image_entry he hx
      rw [hold]
      exact hdis.image_entry (by simp [he,hk]) hx
    · rw [DirtyMap.Disjoint.image_outside,DirtyMap.Disjoint.image_outside]
      · intro e he hec
        exact hex ⟨e,he,hec⟩
      · intro e he
        rw [DirtyMap.insert_entries,OrdMap.mem_insert] at he
        rcases he with rfl | ⟨he,_⟩
        · exact hc
        · exact fun hec => hex ⟨e,he,hec⟩

theorem Represents.insert {clba : Nat} (h : Represents v d s.core) (hp : s.phase = .idle)
    (hw : w.Of v s offset data) (hb : w.Buffer v s rmwOk buf)
    (hsep : SeparateStep v s (.write offset data rmwOk)) :
    Represents v d { s.core with log := s.log ++ [Event.received offset data],
                                 dirty := s.dirty.insert w.startLba w.blockCount buf,
                                 phase := .invalidating w clba } := by
  have hi := inserts_of_buffer hw hb
  have hbuf := buffered_of_buffer hw hb (separate_write hsep hi).1
  constructor
  · exact insert_disjoint h.disjoint hw hbuf hsep hi
  · show Patch.applyAll s.disk ((s.dirty.insert w.startLba w.blockCount buf).patches v.blockSize) =
      Patch.applyAll d (v.acked (s.log ++ [Event.received offset data]) ++ [w.patch v])
    rw [insert_image h hp hw hbuf hsep hi,Patch.applyAll_append]
    simp [Device.acked]
  · exact List.Pairwise.nil
  · intro x hx
    cases hx
  · intro r k acc hr
    cases hr
  · exact h.current.other (by simp)

end Insert

theorem submitted_eq {v : Device} {m : DirtyMap} (h : m.Disjoint v.blockSize) :
    m.drainSorted.1.map v.submitted = m.patches v.blockSize := by
  simp only [DirtyMap.drainSorted,DirtyMap.patches,List.map_map]
  refine List.map_congr_left (fun e he => ?_)
  have hd : v.blockSize ∣ e.2.data.length := by
    rw [h.full e he]
    exact Nat.dvd_mul_left _ _
  simp only [Function.comp,Device.submitted]
  rw [Pipeline.carried_eq (h.short e he) hd]

theorem Represents.start {v : Device} {d : Image} {s : Worker} {l : Label} {k : Caller}
    {cmds : List (List WriteCommand)} (h : Represents v d s.core) (hk : Triggers s.phase l k)
    (hc : s.dirty.drainSorted.1.mapM (fun e => v.pipeline.writeCommands e.1 e.2) = some cmds) :
    Represents v d { s.core with
      dirty := .new
      phase := .flushing k s.dirty.drainSorted.1 (cmds.flatten.map (fun c => ⟨c,.pending⟩)) } := by
  have hall : v.AllCommands s.dirty.drainSorted.1 cmds.flatten := ⟨cmds,hc,rfl⟩
  have hcmds : s.core.phase.commands = [] := triggers_commands hk
  have himg := h.image
  rw [hcmds] at himg
  have hsub := submitted_eq h.disjoint
  constructor
  · exact DirtyMap.Disjoint.empty _
  · simp only [Phase.commands]
    rw [pending_new,DirtyMap.patches_new,List.append_nil,
      triggers_handled hk s.dirty.drainSorted.1 (cmds.flatten.map (fun c => ⟨c,.pending⟩))]
    refine Eq.trans ?_ himg
    rw [hall.applyAll]
    exact congrArg _ hsub
  · simp only [Phase.commands]
    rw [pending_new]
    refine hall.apart ?_
    rw [show s.dirty.drainSorted.1.map v.submitted = _ from hsub]
    exact h.disjoint.apart
  · intro x hx b
    obtain ⟨y,_,rfl⟩ := List.mem_map.mp hx
    simp
  · intro r clba acc hr
    cases hr
  · exact h.current

theorem Represents.good {v : Device} {d : Image} {s : Worker} {k : Caller} {dr : List (Nat × Bytes)}
    {cmds : List FlushCmd} {c : FlushCmd} {i : Nat} (h : Represents v d s.core)
    (hp : s.phase = .flushing k dr cmds) (hc : cmds[i]? = some c) (hpend : c.status = .pending) :
    Represents v d { s.core with
      disk := (c.cmd.patch v.blockSize).apply s.disk
      log := s.log ++ [Event.accepted (c.cmd.patch v.blockSize)]
      phase := .flushing k dr (cmds.set i { c with status := .good }) } := by
  have hset := pending_set (v := v) (x := .good) hc hpend (by simp)
  have hcmds : s.core.phase.commands = cmds := by
    simp [Worker.core,hp,Phase.commands]
  have hap := h.apart
  have himg := h.image
  rw [hcmds] at hap himg
  have hperm := Patch.applyAll_perm hset hap s.disk
  constructor
  · exact h.disjoint
  · have hhandled : (Phase.flushing k dr (cmds.set i { c with status := .good })).handled v =
        s.core.phase.handled v := by
      simp only [Worker.core,hp]
      cases k <;> rfl
    have hlog : v.acked [Event.accepted (c.cmd.patch v.blockSize)] = [] := rfl
    rw [Patch.applyAll_append] at himg
    simp only [Phase.commands,hhandled,acked_append,hlog,List.append_nil]
    refine Eq.trans ?_ himg
    rw [Patch.applyAll_append]
    exact congrArg (Patch.applyAll · (s.dirty.patches v.blockSize)) hperm.symm
  · exact (List.pairwise_cons.mp (hset.pairwise hap (fun h => h.symm))).2
  · intro y hy
    have hf := h.unfailed
    rw [hcmds] at hf
    rcases List.mem_or_eq_of_mem_set hy with hy | rfl
    · exact hf y hy
    · simp
  · intro r clba acc hr
    cases hr
  · exact h.current.other (by simp)

theorem Represents.quiet {v : Device} {d : Image} {s c : Core} (h : Represents v d s)
    (m : List Event) (hd : c.dirty = s.dirty) (hk : c.disk = s.disk)
    (hc : c.phase.commands = s.phase.commands) (hl : c.log = s.log ++ m)
    (hh : v.acked m ++ c.phase.handled v = s.phase.handled v) (hr : c.phase.read = none)
    (hcur : ReadsCurrent v d (s.log ++ m)) : Represents v d c :=
  h.keep m hd hk hc hl hh (fun r clba acc hx => by rw [hr] at hx; cases hx) (hl ▸ hcur)

theorem ReadsCurrent.write {v : Device} {d : Image} {log : List Event} (h : ReadsCurrent v d log)
    (offset : Nat) (data : Bytes) (x : Reply Nat) :
    ReadsCurrent v d (log ++ [.received offset data,.writeReply offset data x]) := by
  have h₁ := (h.other (e := .received offset data) (by simp)).other
    (e := .writeReply offset data x) (by simp)
  simpa using h₁

theorem Represents.emptyWrite {v : Device} {d : Image} {s : Worker} {offset : Nat} {data : Bytes}
    (h : Represents v d s.core) (hp : s.phase = .idle) (he : data = [] ∨ v.totalBytes ≤ offset) :
    Represents v d ({ s.core with log := s.log ++ [Event.received offset data] }.answer
      (.writeReply offset data (.ok 0))) := by
  have hn : (v.writePatch offset data).data = [] := by
    rcases he with rfl | he
    · simp [Device.writePatch]
    · simp [Device.writePatch,Nat.sub_eq_zero_of_le he]
  have himg := h.image
  simp only [Worker.core,hp,Phase.commands,Phase.handled,Phase.call] at himg
  constructor
  · exact h.disjoint
  · show Patch.applyAll s.disk (v.pending [] ++ s.dirty.patches v.blockSize) =
      Patch.applyAll d (v.acked (s.log ++ [Event.received offset data] ++
        [.writeReply offset data (.ok 0)]) ++ [])
    rw [himg]
    simp [Device.acked,Patch.applyAll_append,Patch.apply,hn]
  · exact List.Pairwise.nil
  · intro x hx
    cases hx
  · intro r k acc hr
    cases hr
  · exact (h.current.other (by simp)).other (by simp)

theorem Represents.sync {v : Device} {d : Image} {s : Worker} {k : Caller} {dr : List (Nat × Bytes)}
    {cmds : List FlushCmd} (h : Represents v d s.core) (hp : s.phase = .flushing k dr cmds)
    (hg : ∀ c ∈ cmds, c.status = .good) :
    Represents v d { s.core with phase := .syncing k dr, log := s.log ++ [Event.syncIssued] } := by
  have himg := h.image
  have hk : (Phase.flushing k dr cmds).handled v = (Phase.syncing k dr).handled v := by
    cases k <;> rfl
  simp only [Worker.core,hp,Phase.commands,pending_eq_nil hg,hk] at himg
  constructor
  · exact h.disjoint
  · show Patch.applyAll s.disk (v.pending [] ++ s.dirty.patches v.blockSize) =
      Patch.applyAll d (v.acked (s.log ++ [Event.syncIssued]) ++ (Phase.syncing k dr).handled v)
    rw [acked_append,List.append_assoc]
    exact himg
  · exact List.Pairwise.nil
  · intro x hx
    cases hx
  · intro r k acc hr
    cases hr
  · exact h.current.other (by simp)

theorem Represents.syncGood {v : Device} {d : Image} {s : Worker} {k : Caller}
    {dr : List (Nat × Bytes)} (h : Represents v d s.core) (hp : s.phase = .syncing k dr) :
    Represents v d ({ s.core with log := s.log ++ [Event.syncGood] }.flushDone (.ok ()) k) := by
  have hcmds : s.core.phase.commands = [] := by
    simp [Worker.core,hp,Phase.commands]
  have hhandled : s.core.phase.handled v = (Phase.syncing k dr).handled v := by
    simp [Worker.core,hp]
  have hcur : ReadsCurrent v d (s.core.log ++ [Event.syncGood]) := h.current.other (by simp)
  cases k with
  | request =>
    refine h.quiet [.syncGood,.flushReply (.ok ())] rfl rfl hcmds.symm
      (List.append_assoc _ _ _) hhandled.symm rfl ?_
    rw [List.append_cons]
    exact hcur.other (by simp)
  | write w =>
    refine h.quiet [.syncGood,.writeReply w.offset w.data (.ok (w.actualLen%2^32))] rfl rfl
      hcmds.symm (List.append_assoc _ _ _) hhandled.symm rfl ?_
    rw [List.append_cons]
    exact hcur.other (by simp)
  | timer => exact h.quiet [.syncGood] rfl rfl hcmds.symm rfl hhandled.symm rfl hcur
  | closing => exact h.quiet [.syncGood] rfl rfl hcmds.symm rfl hhandled.symm rfl hcur

theorem ReadsCurrent.empty {v : Device} {d : Image} {log : List Event} (h : ReadsCurrent v d log)
    (offset size : Nat) : ReadsCurrent v d (log ++ [.readReply offset size (.ok [])]) :=
  h.snoc (fun o n bytes he i x hx => by cases he; simp at hx)

theorem startRead_clear {v : Device} {s : Worker} {offset size : Nat} {r : ReadCall}
    (h : s.dirty.Disjoint v.blockSize) (hr : r.Of v offset size) (hs : 0 < r.actualSize)
    (hsep : SeparateStep v s (.read offset size))
    (hd : ∀ e, s.dirty.readOverlap r.startLba r.blockCount v.blockSize = some e →
      e.length < r.skip+r.actualSize) :
    ∀ e ∈ s.dirty.entries.entries, Clear r.startLba r.blockCount e := by
  obtain ⟨hblocks,hsp⟩ := hr.span hs
  intro e he
  have hse := separate_read hsep e he
  rw [← hblocks] at hse
  rcases hse with hc | hin
  · exact hc
  · have hin : Inside r.startLba r.blockCount e := hin
    have ho := h.readOverlap_inside he hsp.some_block hin
    have hlen := hd _ ho
    have hfull := h.full e he
    have hle := Nat.mul_le_mul_right v.blockSize hin.2
    have hstop := hsp.stop
    have hlow := Nat.mul_le_mul_right v.blockSize hin.1
    rw [List.length_take,List.length_drop,hfull,Nat.sub_mul] at hlen
    rw [Nat.add_mul,Nat.add_mul] at hle
    omega

theorem dirtyRead_current {v : Device} {d : Image} {s : Worker} {offset size : Nat} {r : ReadCall}
    {b : Bytes} (h : Represents v d s.core) (hp : s.phase = .idle) (hr : r.Of v offset size)
    (hsep : SeparateStep v s (.read offset size))
    (hd : s.dirty.readOverlap r.startLba r.blockCount v.blockSize = some b) {i : Nat} {x : UInt8}
    (hx : ((b.drop r.skip).take r.actualSize)[i]? = some x) :
    Patch.applyAll d (v.acked s.log) (r.offset+i) = x := by
  have hs : 0 < r.actualSize := by
    by_contra h0
    rw [Nat.eq_zero_of_not_pos h0] at hx
    simp at hx
  obtain ⟨hblocks,hsp⟩ := hr.span hs
  have hcmds : s.core.phase.commands = [] := by
    simp [Worker.core,hp,Phase.commands]
  have hhandled : s.core.phase.handled v = [] := by
    simp [Worker.core,hp,Phase.handled,Phase.call]
  have hin : ∃ e ∈ s.dirty.entries.entries, Inside r.startLba r.blockCount e := by
    by_contra hno
    have hc := h.disjoint.readOverlap_clear hsp.some_block (fun e he => by
      have hse := separate_read hsep e he
      rw [← hblocks] at hse
      exact hse.resolve_right (fun hi => hno ⟨e,he,hi⟩))
    have hd' : s.core.dirty.readOverlap r.startLba r.blockCount v.blockSize = some b := hd
    rw [hc] at hd'
    cases hd'
  obtain ⟨e,he,hi⟩ := hin
  have ho := h.disjoint.readOverlap_inside he hsp.some_block hi
  have hb : b = (e.2.data.drop ((r.startLba-e.1)*v.blockSize)).take (r.blockCount*v.blockSize) :=
    Option.some.inj (hd.symm.trans ho)
  rw [hb] at hx
  have hx' := read_bytes_inside h hcmds hsp he hi hx
  rwa [hhandled,List.append_nil] at hx'

theorem readDone_current {v : Device} {d : Image} {s : Worker} {r : ReadCall} {clba last : Nat}
    {acc : Bytes} (h : Represents v d s.core) (hp : s.phase = .reading r clba acc)
    (hl : v.chunkLba (r.startLba+r.blockCount-1) = some last) (hlt : last < clba) {i : Nat}
    {x : UInt8} (hx : ((acc.drop r.skip).take r.actualSize)[i]? = some x) :
    Patch.applyAll d (v.acked s.log) (r.offset+i) = x := by
  have hs : 0 < r.actualSize := by
    by_contra h0
    rw [Nat.eq_zero_of_not_pos h0] at hx
    simp at hx
  have hrd : s.core.phase.read = some (r,clba,acc) := by
    simp [Worker.core,hp,Phase.read]
  obtain ⟨⟨o,n,hof⟩,hclear,hdvd,hacc⟩ := h.reading r clba acc hrd hs
  obtain ⟨_,hsp⟩ := hof.span hs
  have hcmds : s.core.phase.commands = [] := by
    simp [Worker.core,hp,Phase.commands]
  have hhandled : s.core.phase.handled v = [] := by
    simp [Worker.core,hp,Phase.handled,Phase.call]
  have hend : r.startLba+r.blockCount ≤ clba := le_of_last_lt hl hdvd hlt
  rw [show min (max clba r.startLba) (r.startLba+r.blockCount)-r.startLba = r.blockCount by omega]
    at hacc
  rw [hacc] at hx
  have hx' := read_bytes_clear h hcmds hsp hclear hx
  rwa [hhandled,List.append_nil] at hx'

theorem represents_step {v : Device} {d : Image} {s : Worker} {l : Label} {c : Core}
    (h : Represents v d s.core) (hf : Fresh v s) (hsep : SeparateStep v s l)
    (hstep : CoreStep v s l c) : Represents v d c := by
  have hcmds : ∀ {p : Phase}, s.phase = p → s.core.phase.commands = p.commands :=
    fun hp => by rw [← hp]; rfl
  have hhandled : ∀ {p : Phase}, s.phase = p → s.core.phase.handled v = p.handled v :=
    fun hp => by rw [← hp]; rfl
  cases hstep with
  | background l _ => exact h
  | emptyRead offset size hp =>
    exact h.quiet [_] rfl rfl (hcmds hp).symm rfl (hhandled hp).symm rfl (h.current.empty offset size)
  | dirtyRead offset size r b hp hr hd hlen =>
    refine h.quiet [_] rfl rfl (hcmds hp).symm rfl (hhandled hp).symm rfl (h.current.snoc ?_)
    intro o n bytes he i x hx
    cases he
    exact dirtyRead_current h hp hr hsep hd hx
  | startRead offset size r clba hp hr hd hc =>
    refine h.keep [] rfl rfl (hcmds hp).symm (List.append_nil _).symm (hhandled hp).symm ?_ h.current
    intro r' k acc hrd hs
    cases hrd
    obtain ⟨_,hdvd,hle,_⟩ := chunkLba_bounds hc
    refine ⟨⟨offset,size,hr⟩,startRead_clear h.disjoint hr hs hsep hd,hdvd,?_⟩
    rw [show min (max clba r.startLba) (r.startLba+r.blockCount)-r.startLba = 0 by omega]
    simp [Image.read]
  | await r clba acc hp =>
    refine h.keep [] rfl rfl (hcmds hp).symm (List.append_nil _).symm (hhandled hp).symm ?_ h.current
    intro r' k acc' hrd hs
    cases hrd
    obtain ⟨h₁,h₂,h₃,h₄⟩ := h.reading r clba acc (by simp [Worker.core,hp,Phase.read]) hs
    exact ⟨h₁,h₂,h₃,h₄⟩
  | take r clba acc chunk piece l ht hle hpiece =>
    have hrd : s.core.phase.read = some (r,clba,acc) ∧ chunk = v.chunkOf s.disk clba ∧
        s.core.phase.commands = [] ∧ s.core.phase.handled v = [] := by
      cases ht with
      | hit hp hi =>
        exact ⟨by simp [Worker.core,hp,Phase.read],hf.inner clba chunk hi,hcmds hp,hhandled hp⟩
      | fetched hp hi =>
        exact ⟨by simp [Worker.core,hp,Phase.read],hf.fetches clba chunk hi,hcmds hp,hhandled hp⟩
    obtain ⟨hrd,hchunk,hcm,hhd⟩ := hrd
    refine h.keep [] rfl rfl hcm.symm (List.append_nil _).symm hhd.symm ?_ h.current
    intro r' k acc' hrd' hs
    cases hrd'
    have hr := h.reading r clba acc hrd hs
    refine hr.take hle ?_
    rw [hpiece (by rw [hchunk,Device.chunkOf,Image.read_length]),hchunk]
    rfl
  | readDone r clba last acc hp hlast hlt =>
    refine h.quiet [_] rfl rfl (hcmds hp).symm rfl (hhandled hp).symm rfl (h.current.snoc ?_)
    intro o n bytes he i x hx
    cases he
    exact readDone_current h hp hlast hlt hx
  | readFailed r clba acc e l hp =>
    rcases hp with hp | hp <;>
      exact h.quiet [_] rfl rfl (hcmds hp).symm rfl (hhandled hp).symm rfl (h.current.other (by simp))
  | emptyWrite offset data rmwOk hp he => exact h.emptyWrite hp he
  | failedWrite offset data rmwOk e hp =>
    exact h.quiet [.received offset data,.writeReply offset data (.err e)] rfl rfl (hcmds hp).symm
      (List.append_assoc _ _ _) (hhandled hp).symm rfl (h.current.write offset data _)
  | insert offset data rmwOk w buf clba hp hw hb => exact h.insert hp hw hb hsep
  | invalidate w clba next hp =>
    exact h.quiet [] rfl rfl (hcmds hp).symm (List.append_nil _).symm (hhandled hp).symm rfl
      (by simpa using h.current)
  | writeDone w clba hp =>
    exact h.quiet [_] rfl rfl (hcmds hp).symm rfl (hhandled hp).symm rfl (h.current.other (by simp))
  | flushNothing l k ht _ =>
    generalize hp : s.phase = p at ht
    cases ht with
    | flush =>
      exact h.quiet [_] rfl rfl (hcmds hp).symm rfl (hhandled hp).symm rfl (h.current.other (by simp))
    | tick =>
      exact h.quiet [] rfl rfl (hcmds hp).symm (List.append_nil _).symm (hhandled hp).symm rfl
        (by simpa using h.current)
    | close =>
      exact h.quiet [] rfl rfl (hcmds hp).symm (List.append_nil _).symm (hhandled hp).symm rfl
        (by simpa using h.current)
    | write w clba =>
      exact h.quiet [_] rfl rfl (hcmds hp).symm rfl (hhandled hp).symm rfl (h.current.other (by simp))
  | flushStart l k cmds ht _ hc => exact h.start ht hc
  | good i k dr cmds x hp hc hpend => exact h.good hp hc hpend
  | fail i applied panicked k dr cmds x hp _ _ => cases hsep.1
  | sync k dr cmds hp hg => exact h.sync hp hg
  | flushFailed k dr cmds x panicked left e hp hx hb =>
    have hn := h.unfailed
    rw [hcmds hp] at hn
    exact absurd hb (hn x hx panicked)
  | syncGood k dr hp => exact h.syncGood hp
  | syncFail k dr hp => cases hsep.1
  | stray i good x _ => cases hsep.1

theorem represents_start (v : Device) (syncWrites : Bool) (d : Image) :
    Represents v d (Worker.start v syncWrites d).core where
  disjoint := DirtyMap.Disjoint.empty _
  image := rfl
  apart := List.Pairwise.nil
  unfailed := fun x hx => by cases hx
  reading := fun r k acc hr => by cases hr
  current := ReadsCurrent.nil

/-- Read-your-writes, for every run whose requests keep apart from the dirty
entries they do not nest with, and whose flushes run under no cached chunk. -/
theorem reads_current_of_separate {v : Device} {syncWrites : Bool} {d : Image} {ls : List Label}
    {t : Worker} (hm : Machine.Meets (step v) (SeparateStep v) (Worker.start v syncWrites d) ls)
    (hr : Machine.run (step v) (Worker.start v syncWrites d) ls = some t) :
    ReadsCurrent v d t.log := by
  have hinv := Machine.invariant (I := fun s => Represents v d s.core ∧ Fresh v s)
    (fun s l t hi hsep hs => ⟨represents_step hi.1 hi.2 hsep (step_core hs),
      fresh_step hi.2 hsep.2 hs⟩)
    ⟨represents_start v syncWrites d,fresh_start v syncWrites d⟩ hm hr
  exact hinv.1.current

/-- A Write is read back from the dirty map and, after its flush, from a chunk. -/
theorem reads_current_around_flush :
    ∃ t, Machine.run (step smallDevice) (Worker.start smallDevice false zeros)
        ([.write 5 [1,2] true,.cont,.cont,.read 6 1,.flush] ++ ([.good 0] ++
          [.cont,.syncGood,.read 6 1,.cont]) ++ ([.fetched 0] ++ [.cont])) = some t ∧
      ReadsCurrent smallDevice zeros t.log := by
  have hn : ∀ ls : List Label, (∀ l ∈ ls, ∀ s, l.target smallDevice s = none) → ∀ s,
      Machine.Meets (step smallDevice) (LeavesHeld smallDevice) s ls :=
    fun ls h s => Machine.meets_of_forall (fun l hl s => leavesHeld_of_target_none (h l hl s))
  have hw : ∃ inner fetches, Machine.run (step smallDevice) (Worker.start smallDevice false zeros)
      ([.write 5 [1,2] true,.cont,.cont,.read 6 1,.flush] ++ ([.good 0] ++
          [.cont,.syncGood,.read 6 1,.cont])) = some (awaitingChunk inner fetches .new
      (zeros.write 5 [1,2]) [.received 5 [1,2],.writeReply 5 [1,2] (.ok 2),.readReply 6 1 (.ok [2]),
        .accepted ⟨5,[1,2]⟩,.syncIssued,.syncGood,.flushReply (.ok ())]) ∧
      fetches 0 = some ((zeros.write 5 [1,2]).read 0 65536) := ⟨_,_,rfl,rfl⟩
  obtain ⟨inner,fetches,hw,hf⟩ := hw
  have hc : ∃ t, Machine.run (step smallDevice) (receivedChunk inner fetches .new
      (zeros.write 5 [1,2])
      [.received 5 [1,2],.writeReply 5 [1,2] (.ok 2),.readReply 6 1 (.ok [2]),.accepted ⟨5,[1,2]⟩,
        .syncIssued,.syncGood,.flushReply (.ok ())]) [.cont] = some t := ⟨_,rfl⟩
  obtain ⟨t,ht⟩ := hc
  have hr := Machine.run_trans hw
    (Machine.run_trans (Machine.run_one (chunk_received _ _ hf)) ht)
  have hheld := (Machine.meets_append hw).mpr ⟨(Machine.meets_append rfl).mpr
    ⟨hn [.write 5 [1,2] true,.cont,.cont,.read 6 1,.flush] (by simp; exact ⟨fun _ => rfl,fun _ => rfl,
      fun _ => rfl,fun _ => rfl⟩) _,(Machine.meets_append rfl).mpr
      ⟨⟨leavesHeld_of_holds_none ?_,fun _ _ => trivial⟩,hn [.cont,.syncGood,.read 6 1,.cont]
        (by simp; exact ⟨fun _ => rfl,fun _ => rfl,fun _ => rfl,fun _ => rfl⟩) _⟩⟩,
    hn ([.fetched 0] ++ [.cont]) (by simp; exact ⟨fun _ => rfl,fun _ => rfl⟩) _⟩
  · have hlast : ∀ s, Machine.Meets (step smallDevice)
        (fun s l => l.separate smallDevice s.dirty = true) s ([.fetched 0] ++ [.cont]) :=
      fun s => Machine.meets_of_forall (by simp; exact ⟨fun _ => rfl,fun _ => rfl⟩)
    have hsep := (Machine.meets_append hw).mpr ⟨Machine.meets_of_check (by decide),hlast _⟩
    exact ⟨t,hr,reads_current_of_separate (Machine.meets_and hsep hheld) hr⟩
  · intro c hc
    by_cases h0 : c = 0
    · subst h0
      rcases hc with hc | hc <;> exact hc rfl
    · rcases hc with hc | hc
      · exact hc (dif_neg h0)
      · exact hc rfl

/-- The entry of an older Write answers a Read of blocks written since. -/
theorem overlapped_entry_read_stale :
    ∃ t, Machine.run (step smallDevice) (Worker.start smallDevice false zeros)
        [.write 5 [1] true,.cont,.cont,.write 3 [2,2,2,2] true,.cont,.cont,.read 5 1] = some t ∧
      ¬ ReadsCurrent smallDevice zeros t.log := by
  refine ⟨_,rfl,fun h => ?_⟩
  have hx := h [.received 5 [1],.writeReply 5 [1] (.ok 1),.received 3 [2,2,2,2],
    .writeReply 3 [2,2,2,2] (.ok 4)] [] 5 1 [1] rfl 0 1 rfl
  revert hx
  decide

end IscsiFuse.Block
