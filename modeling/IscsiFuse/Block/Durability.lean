import Mathlib.Data.List.DropRight
import IscsiFuse.Library.Log
import IscsiFuse.Block.FlushCommands
import IscsiFuse.Block.Buffers
set_option autoImplicit false

/-!
Durability of Flush, read off the event log. A byte of an acknowledged Write is
in the dirty map, in a command of the flush in progress, accepted and waiting
for a SYNCHRONIZE CACHE, or safe.
-/

namespace IscsiFuse.Block
open IscsiFuse.Iscsi Log

def Event.isReceived : Event → Bool
  | .received _ _ => true
  | _ => false

/-- `r` is the log since the Write was received, and no other came since. -/
def Open (l : List Event) (offset : Nat) (data : Bytes) (r : List Event) : Prop :=
  ∃ pre, l = pre ++ .received offset data :: r ∧ ∀ e ∈ r, e.isReceived = false

/-- The Write was acknowledged: `r` is the log since it was received, `post` the
log since its reply. -/
def Acks (l : List Event) (offset : Nat) (data : Bytes) (r post : List Event) : Prop :=
  ∃ pre mid n, l = pre ++ .received offset data :: r ∧
    r = mid ++ .writeReply offset data (.ok n) :: post ∧ ∀ e ∈ mid, e.isReceived = false

def Overwritten (ws : List Patch) (p : Nat) : Prop := ∃ u ∈ ws, u.Covers p

/-- The target accepted the byte with status Good, and a SYNCHRONIZE CACHE issued
after that completed with Good. -/
def Synced (r : List Event) (p : Nat) (x : UInt8) : Prop :=
  ∃ w : Patch, w.at? p = some x ∧ [.accepted w,.syncIssued,.syncGood].Sublist r

def DurableAt (v : Device) (l : List Event) : Prop :=
  ∀ offset data r post, Acks l offset data r post →
    ∀ p x, (v.writePatch offset data).at? p = some x →
      Overwritten (v.acked post) p ∨ Synced r p x

/-- Whenever a Flush is answered Ok, what was acknowledged before it is durable. -/
def FlushDurable (v : Device) (log : List Event) : Prop :=
  ∀ pre post, log = pre ++ .flushReply (.ok ()) :: post → DurableAt v pre

theorem open_snoc {l : List Event} {e : Event} {offset : Nat} {data : Bytes} {r : List Event}
    (h : Open (l ++ [e]) offset data r) :
    (r = [] ∧ e = .received offset data) ∨
      ∃ r', r = r' ++ [e] ∧ e.isReceived = false ∧ Open l offset data r' := by
  obtain ⟨pre,hl,hr⟩ := h
  rcases split_snoc hl with ⟨rfl,he,_⟩ | ⟨r',rfl,hl'⟩
  · exact Or.inl ⟨rfl,he⟩
  · exact Or.inr ⟨r',rfl,hr e (by simp),pre,hl',fun y hy => hr y (by simp [hy])⟩

theorem acks_snoc {l : List Event} {e : Event} {offset : Nat} {data : Bytes} {r post : List Event}
    (h : Acks (l ++ [e]) offset data r post) :
    (∃ mid n, e = .writeReply offset data (.ok n) ∧ r = mid ++ [e] ∧ post = [] ∧
      Open l offset data mid) ∨
    ∃ r' post', r = r' ++ [e] ∧ post = post' ++ [e] ∧ Acks l offset data r' post' := by
  obtain ⟨pre,mid,n,hl,hr,hm⟩ := h
  rcases split_snoc hl with ⟨rfl,_,_⟩ | ⟨r',rfl,hl'⟩
  · simp at hr
  · rcases split_snoc hr with ⟨rfl,he,rfl⟩ | ⟨post',rfl,hr'⟩
    · exact Or.inl ⟨r',n,he,rfl,rfl,pre,hl',hm⟩
    · exact Or.inr ⟨r',post',rfl,rfl,pre,mid,n,hl',hr',hm⟩

theorem acks_append {l m : List Event} {offset : Nat} {data : Bytes} {r post : List Event}
    (hm : ∀ e ∈ m, ∀ o d n, e ≠ .writeReply o d (.ok n))
    (h : Acks (l ++ m) offset data r post) :
    ∃ r' post', r = r' ++ m ∧ post = post' ++ m ∧ Acks l offset data r' post' := by
  induction m using List.reverseRecOn generalizing r post with
  | nil => exact ⟨r,post,by simp,by simp,by simpa using h⟩
  | append_singleton m e ih =>
    rw [← List.append_assoc] at h
    rcases acks_snoc h with ⟨_,n,he,_⟩ | ⟨r',post',rfl,rfl,h'⟩
    · exact absurd he (hm e (by simp) offset data n)
    · obtain ⟨r₁,p₁,rfl,rfl,h₁⟩ := ih (fun y hy => hm y (by simp [hy])) h'
      exact ⟨r₁,p₁,by simp,by simp,h₁⟩

theorem open_append {l m : List Event} {offset : Nat} {data : Bytes} {r : List Event}
    (hm : ∀ e ∈ m, e.isReceived = false) (h : Open (l ++ m) offset data r) :
    ∃ r', r = r' ++ m ∧ Open l offset data r' := by
  induction m using List.reverseRecOn generalizing r with
  | nil => exact ⟨r,by simp,by simpa using h⟩
  | append_singleton m e ih =>
    rw [← List.append_assoc] at h
    rcases open_snoc h with ⟨_,he⟩ | ⟨r',rfl,_,h'⟩
    · have hr := hm e (by simp)
      rw [he] at hr
      cases hr
    · obtain ⟨r₁,rfl,h₁⟩ := ih (fun y hy => hm y (by simp [hy])) h'
      exact ⟨r₁,by simp,h₁⟩

theorem Synced.append {r : List Event} {p : Nat} {x : UInt8} (h : Synced r p x) (m : List Event) :
    Synced (r ++ m) p x := by
  obtain ⟨w,hw,hs⟩ := h
  exact ⟨w,hw,hs.trans (List.sublist_append_left r m)⟩

theorem Overwritten.append {ws : List Patch} {p : Nat} (h : Overwritten ws p) (us : List Patch) :
    Overwritten (ws ++ us) p := by
  obtain ⟨u,hu,hc⟩ := h
  exact ⟨u,by simp [hu],hc⟩

theorem DurableAt.append {v : Device} {l : List Event} (h : DurableAt v l) {m : List Event}
    (hm : ∀ e ∈ m, ∀ o d n, e ≠ .writeReply o d (.ok n)) : DurableAt v (l ++ m) := by
  intro offset data r post ha p x hx
  obtain ⟨r',post',rfl,rfl,ha'⟩ := acks_append hm ha
  rcases h offset data r' post' ha' p x hx with ho | hs
  · rw [acked_append]
    exact Or.inl (ho.append _)
  · exact Or.inr (hs.append m)

theorem FlushDurable.snoc {v : Device} {l : List Event} (h : FlushDurable v l) {e : Event}
    (he : e = .flushReply (.ok ()) → DurableAt v l) : FlushDurable v (l ++ [e]) := by
  intro pre post hl
  rcases split_snoc hl with ⟨_,hx,rfl⟩ | ⟨post',_,hl'⟩
  · exact he hx
  · exact h pre post' hl'

theorem FlushDurable.append {v : Device} {l m : List Event} (h : FlushDurable v l)
    (hm : ∀ e ∈ m, e ≠ .flushReply (.ok ())) : FlushDurable v (l ++ m) := by
  induction m using List.reverseRecOn with
  | nil => simpa using h
  | append_singleton m e ih =>
    rw [← List.append_assoc]
    exact (ih (fun y hy => hm y (by simp [hy]))).snoc
      (fun hx => absurd hx (hm e (by simp)))

def sinceSync (log : List Event) : List Event := log.rtakeWhile (fun e => e ≠ .syncGood)

theorem sinceSync_append {l m : List Event} (h : .syncGood ∉ m) :
    sinceSync (l ++ m) = sinceSync l ++ m := by
  induction m using List.reverseRecOn with
  | nil => simp
  | append_singleton m e ih =>
    have he : e ≠ .syncGood := fun he => h (by simp [he])
    have hm := ih (fun hm => h (by simp [hm]))
    rw [← List.append_assoc,sinceSync,List.rtakeWhile_concat_pos _ _ _ (by simpa using he)]
    rw [← List.append_assoc,← hm]
    rfl

theorem acked_sinceSync {v : Device} {l post : List Event} {offset : Nat} {data : Bytes}
    {r : List Event} (h : Acks l offset data r post) (hn : .syncGood ∉ post) :
    v.writePatch offset data ∈ v.acked (sinceSync l) := by
  obtain ⟨pre,mid,n,rfl,rfl,_⟩ := h
  have hs : .syncGood ∉ Event.writeReply offset data (.ok n) :: post := by simp [hn]
  have hl := sinceSync_append (l := pre ++ .received offset data :: mid) hs
  rw [List.append_assoc,List.cons_append] at hl
  rw [hl,acked_append]
  simp [Device.acked]

/-- Where a byte is that is not overwritten. -/
inductive Kept (v : Device) (c : Core) (r : List Event) (p : Nat) (x : UInt8) : Prop
  | synced : Synced r p x → Kept v c r p x
  | dirty (e : Nat × DirtyEntry) : e ∈ c.dirty.entries.entries →
      (Patch.mk (e.1*v.blockSize) e.2.data).at? p = some x → Kept v c r p x
  | pending (y : FlushCmd) : y ∈ c.phase.commands → y.status = .pending →
      (y.cmd.patch v.blockSize).at? p = some x → Kept v c r p x
  | accepted (k : Caller) (dr : List (Nat × Bytes)) (cmds : List FlushCmd) (w : Patch) :
      c.phase = .flushing k dr cmds → w.at? p = some x → .accepted w ∈ r → Kept v c r p x
  | syncing (k : Caller) (dr : List (Nat × Bytes)) (w : Patch) : c.phase = .syncing k dr →
      w.at? p = some x → [.accepted w,.syncIssued].Sublist r → Kept v c r p x

def Core.Unfailed (c : Core) : Prop := ∀ y ∈ c.phase.commands, ∀ b, y.status ≠ .failed b

def Waits (v : Device) (c : Core) (r post : List Event) (p : Nat) (x : UInt8) : Prop :=
  .syncGood ∉ post ∧ c.Unfailed ∧ (Overwritten (c.phase.handled v) p ∨ Kept v c r p x)

structure Tracks (v : Device) (c : Core) : Prop where
  sized : ∀ e ∈ c.dirty.entries.entries, v.blockSize ∣ e.2.data.length ∧ e.2.data.length < 2^32
  drained : c.phase.flushes = true → c.dirty.entries.entries = []
  acked : ∀ offset data r post, Acks c.log offset data r post →
    ∀ p x, (v.writePatch offset data).at? p = some x →
      Overwritten (v.acked post) p ∨ Synced r p x ∨ Waits v c r post p x
  current : ∀ w, c.phase.call = some w → ∀ r, Open c.log w.offset w.data r → c.Unfailed →
    ∀ p x, (w.patch v).at? p = some x → Kept v c r p x
  flushes : FlushDurable v c.log

def Event.plain : Event → Bool
  | .writeReply _ _ (.ok _) | .flushReply (.ok _) | .syncGood => false
  | _ => true

namespace Tracks

variable {v : Device} {s c : Core}

theorem keep (h : Tracks v s) {m : List Event} (hm : ∀ e ∈ m, e.plain = true)
    (hr : c.phase.call ≠ none → ∀ e ∈ m, e.isReceived = false)
    (hd : c.dirty = s.dirty ∨ c.dirty = .new)
    (hdr : c.phase.flushes = true → c.dirty.entries.entries = [])
    (hl : c.log = s.log ++ m) (hc : c.phase.call = s.phase.call) (hu : s.Unfailed → c.Unfailed)
    (hu' : c.Unfailed → s.Unfailed)
    (hk : ∀ r p x, s.Unfailed → Kept v s r p x → Kept v c (r ++ m) p x) : Tracks v c := by
  have hw : ∀ e ∈ m, ∀ o d n, e ≠ .writeReply o d (.ok n) := by
    intro e he o d n hx
    have hp := hm e he
    rw [hx] at hp
    cases hp
  have hs : .syncGood ∉ m := fun hx => by cases hm _ hx
  constructor
  · rcases hd with hd | hd
    · rw [hd]
      exact h.sized
    · rw [hd]
      intro e he
      cases he
  · exact hdr
  · intro offset data r post ha p x hx
    rw [hl] at ha
    obtain ⟨r',post',rfl,rfl,ha'⟩ := acks_append hw ha
    rcases h.acked offset data r' post' ha' p x hx with ho | hy | ⟨hn,hun,hov⟩
    · rw [acked_append]
      exact Or.inl (ho.append _)
    · exact Or.inr (Or.inl (hy.append m))
    · refine Or.inr (Or.inr ⟨by simp [hn,hs],hu hun,?_⟩)
      rcases hov with hov | hkept
      · left
        rw [Phase.handled,hc]
        exact hov
      · exact Or.inr (hk r' p x hun hkept)
  · intro w hwc r ho hun p x hx
    rw [hl] at ho
    obtain ⟨r',rfl,ho'⟩ := open_append (hr (by simp [hwc])) ho
    rw [hc] at hwc
    exact hk r' p x (hu' hun) (h.current w hwc r' ho' (hu' hun) p x hx)
  · rw [hl]
    refine h.flushes.append (fun e he hx => ?_)
    have hp := hm e he
    rw [hx] at hp
    cases hp

theorem of_durable (hd : DurableAt v c.log) (hf : FlushDurable v c.log)
    (hs : ∀ e ∈ c.dirty.entries.entries, v.blockSize ∣ e.2.data.length ∧ e.2.data.length < 2^32)
    (hdr : c.phase.flushes = true → c.dirty.entries.entries = [])
    (hc : ∀ w, c.phase.call = some w → ¬ c.Unfailed) : Tracks v c where
  sized := hs
  drained := hdr
  acked := fun offset data r post ha p x hx => by
    rcases hd offset data r post ha p x hx with ho | hy
    · exact Or.inl ho
    · exact Or.inr (Or.inl hy)
  current := fun w hw r ho hun => absurd hun (hc w hw)
  flushes := hf

theorem durable (h : Tracks v c) (hw : ∀ offset data r post, Acks c.log offset data r post →
    ∀ p x, (v.writePatch offset data).at? p = some x → Waits v c r post p x →
      Overwritten (v.acked post) p ∨ Synced r p x) : DurableAt v c.log := by
  intro offset data r post ha p x hx
  rcases h.acked offset data r post ha p x hx with ho | hy | hwait
  · exact Or.inl ho
  · exact Or.inr hy
  · exact hw offset data r post ha p x hx hwait

theorem durable_of_failed (h : Tracks v c) (hu : ¬ c.Unfailed) : DurableAt v c.log :=
  h.durable (fun _ _ _ _ _ _ _ _ hw => absurd hw.2.1 hu)

theorem durable_of_empty (h : Tracks v c) (he : ∀ w ∈ v.acked (sinceSync c.log), w.data = []) :
    DurableAt v c.log := by
  refine h.durable (fun offset data r post ha p x hx hw => ?_)
  have hemp := he _ (acked_sinceSync ha hw.1)
  have hcov := Patch.covers_of_at? hx
  simp only [Patch.Covers,hemp,List.length_nil] at hcov
  omega

theorem durable_of_clean (h : Tracks v c) (he : c.dirty.entries.entries = [])
    (hc : c.phase.call = none) (hf : c.phase.flushes = false) : DurableAt v c.log := by
  refine h.durable (fun offset data r post ha p x hx hw => ?_)
  obtain ⟨_,_,ho | hk⟩ := hw
  · obtain ⟨u,hu,_⟩ := ho
    simp [Phase.handled,hc] at hu
  · cases hk with
    | synced hy => exact Or.inr hy
    | dirty e hm _ =>
      rw [he] at hm
      cases hm
    | pending y hy _ _ =>
      cases hp : c.phase <;> simp [hp,Phase.commands,Phase.flushes] at hy hf
    | accepted k dr cmds w hp _ _ =>
      rw [hp] at hf
      cases hf
    | syncing k dr w hp _ _ =>
      rw [hp] at hf
      cases hf

end Tracks

/-- An insertion drops no byte of a Write acknowledged since the last good
SYNCHRONIZE CACHE that it does not overwrite and no other entry holds. -/
def KeepsAcked (v : Device) (s : Worker) (offset : Nat) (data : Bytes) : Prop :=
  ∀ e ∈ s.dirty.entries.entries, e.1 = (v.writeBlocks offset data).1 →
    ∀ w ∈ v.acked (sinceSync s.log), ∀ i < w.data.length,
      (Patch.mk (e.1*v.blockSize) e.2.data).at? (w.off+i) = w.at? (w.off+i) →
      (v.writePatch offset data).Covers (w.off+i) ∨ ∃ f ∈ s.dirty.entries.entries, f.1 ≠ e.1 ∧
        (Patch.mk (f.1*v.blockSize) f.2.data).at? (w.off+i) = w.at? (w.off+i)

/-- A Write loses no waiting byte, and a flush fails only when no byte waits. -/
def DurableStep (v : Device) (s : Worker) : Label → Prop
  | .write offset data rmwOk => v.inserts offset data rmwOk = true →
      (v.writeBlocks offset data).2*v.blockSize < 2^32 ∧ KeepsAcked v s offset data
  | .fail _ _ _ | .syncFail => ∀ w ∈ v.acked (sinceSync s.log), w.data = []
  | _ => True

instance (v : Device) (s : Worker) (offset : Nat) (data : Bytes) :
    Decidable (KeepsAcked v s offset data) := inferInstanceAs (Decidable (∀ _ ∈ _, _))

instance (v : Device) (s : Worker) : ∀ l, Decidable (DurableStep v s l)
  | .write _ _ _ => inferInstanceAs (Decidable (_ → _ ∧ _))
  | .fail _ _ _ | .syncFail => inferInstanceAs (Decidable (∀ _ ∈ _, _))
  | .read _ _ | .flush | .setSyncWrites _ | .tick | .close | .cont | .good _ | .syncGood
  | .fetched _ | .fetchFailed _ | .readahead _ | .evict _ | .strayApplied _ _ =>
    inferInstanceAs (Decidable True)

theorem KeepsAcked.kept {v : Device} {s : Worker} {offset : Nat} {data : Bytes}
    (h : KeepsAcked v s offset data) {e : Nat × DirtyEntry} (he : e ∈ s.dirty.entries.entries)
    (hk : e.1 = (v.writeBlocks offset data).1) {w : Patch} (hw : w ∈ v.acked (sinceSync s.log))
    {p : Nat} {x : UInt8} (hx : w.at? p = some x)
    (hex : (Patch.mk (e.1*v.blockSize) e.2.data).at? p = some x) :
    (v.writePatch offset data).Covers p ∨ ∃ f ∈ s.dirty.entries.entries, f.1 ≠ e.1 ∧
      (Patch.mk (f.1*v.blockSize) f.2.data).at? p = some x := by
  obtain ⟨hl,hu⟩ := Patch.covers_of_at? hx
  obtain ⟨i,rfl⟩ := Nat.exists_eq_add_of_le hl
  have hi := h e he hk w hw i (by omega)
  rw [hx] at hi
  exact hi hex

namespace Tracks

variable {v : Device} {s : Worker} {c : Core}

theorem insert {offset : Nat} {data buf : Bytes} {rmwOk : Bool} {w : WriteCall} {clba : Nat}
    (h : Tracks v s.core) (hp : s.phase = .idle) (hw : w.Of v s offset data)
    (hb : w.Buffer v s rmwOk buf) (hd : DurableStep v s (.write offset data rmwOk)) :
    Tracks v { s.core with log := s.log ++ [Event.received offset data],
                           dirty := s.dirty.insert w.startLba w.blockCount buf,
                           phase := .invalidating w clba } := by
  obtain ⟨hlt,hkeep⟩ := hd (inserts_of_buffer hw hb)
  have hbuf := buffered_of_buffer hw hb hlt
  obtain ⟨hblocks,hsp⟩ := hw.span hlt
  have hstart : w.startLba = (v.writeBlocks offset data).1 := by rw [← hblocks]
  have hpatch : w.patch v = v.writePatch offset data := by
    rw [WriteCall.patch,hw.args.1,hw.args.2]
  constructor
  · intro e he
    simp only [DirtyMap.insert_entries,OrdMap.mem_insert] at he
    rcases he with rfl | ⟨he,_⟩
    · have hn : w.blockCount*v.blockSize < 2^32 := by
        rw [← hblocks] at hlt
        exact hlt
      exact ⟨hbuf.full ▸ Nat.dvd_mul_left _ _,hbuf.full ▸ hn⟩
    · exact h.sized e he
  · intro hf
    cases hf
  · intro o d r post ha p x hx
    have hwe : ∀ e ∈ [Event.received offset data], ∀ o d n, e ≠ .writeReply o d (.ok n) := by simp
    obtain ⟨r',post',rfl,rfl,ha'⟩ := acks_append hwe ha
    rcases h.acked o d r' post' ha' p x hx with ho | hy | ⟨hn,hun,hov⟩
    · rw [acked_append]
      exact Or.inl (ho.append _)
    · exact Or.inr (Or.inl (hy.append _))
    · refine Or.inr (Or.inr ⟨by simp [hn],fun y hy => (by cases hy),?_⟩)
      rcases hov with hov | hkept
      · obtain ⟨u,hu,_⟩ := hov
        simp [Worker.core,hp,Phase.handled,Phase.call] at hu
      · cases hkept with
        | synced hy => exact Or.inr (.synced (hy.append _))
        | dirty e he hex =>
          have he : e ∈ s.dirty.entries.entries := he
          by_cases hk : e.1 = w.startLba
          · rcases hkeep.kept he (hk.trans hstart) (acked_sinceSync ha' hn) hx hex with
              hc | ⟨f,hf,hne,hfx⟩
            · left
              exact ⟨w.patch v,by simp [Phase.handled,Phase.call],hpatch ▸ hc⟩
            · exact Or.inr (.dirty f (by simp [hf,hk ▸ hne]) hfx)
          · exact Or.inr (.dirty e (by simp [he,hk]) hex)
        | pending y hy _ _ => simp [Worker.core,hp,Phase.commands] at hy
        | accepted k dr cmds u hph _ _ => simp [Worker.core,hp] at hph
        | syncing k dr u hph _ _ => simp [Worker.core,hp] at hph
  · intro w' hw' r ho hun p x hx
    cases hw'
    exact .dirty (w.startLba,⟨buf,w.blockCount⟩) (by simp) (buffered_patch hw hbuf hlt hx)
  · exact h.flushes.append (by simp)

theorem ack {w : WriteCall} {n : Nat} (h : Tracks v c) (hc : c.phase.call = some w)
    (hf : c.phase.flushes = false) : Tracks v (c.writeDone w (.ok n)) := by
  have hcmds : c.phase.commands = [] := by
    cases hp : c.phase <;> simp [hp,Phase.commands,Phase.flushes] at hf ⊢
  have hun : c.Unfailed := fun y hy => by
    rw [hcmds] at hy
    cases hy
  have hkept : ∀ r p x, Kept v c r p x →
      Kept v (c.writeDone w (.ok n)) (r ++ [.writeReply w.offset w.data (.ok n)]) p x := by
    intro r p x hk
    cases hk with
    | synced hy => exact .synced (hy.append _)
    | dirty e he hx => exact .dirty e he hx
    | pending y hy _ _ =>
      rw [hcmds] at hy
      cases hy
    | accepted k dr cmds u hp _ _ =>
      rw [hp] at hf
      cases hf
    | syncing k dr u hp _ _ =>
      rw [hp] at hf
      cases hf
  have hun' : (c.writeDone w (.ok n)).Unfailed := fun y hy => by cases hy
  constructor
  · exact h.sized
  · intro hx
    cases hx
  · intro o d r post ha p x hx
    rcases acks_snoc ha with ⟨mid,m,he,rfl,rfl,ho⟩ | ⟨r',post',rfl,rfl,ha'⟩
    · cases he
      exact Or.inr (Or.inr ⟨by simp,hun',Or.inr (hkept _ _ _ (h.current w hc mid ho hun p x hx))⟩)
    · rcases h.acked o d r' post' ha' p x hx with ho | hy | ⟨hn,_,hov⟩
      · rw [acked_append]
        exact Or.inl (ho.append _)
      · exact Or.inr (Or.inl (hy.append _))
      · rcases hov with hov | hk
        · left
          obtain ⟨u,hu,huc⟩ := hov
          have huw : u = w.patch v := by simpa [Phase.handled,hc,eq_comm] using hu
          subst huw
          exact ⟨w.patch v,by simp [Device.acked,WriteCall.patch],huc⟩
        · exact Or.inr (Or.inr ⟨by simp [hn],hun',Or.inr (hkept _ _ _ hk)⟩)
  · intro w' hw'
    cases hw'
  · exact h.flushes.snoc (fun he => by cases he)

theorem start {l : Label} {k : Caller} {cmds : List (List WriteCommand)} (h : Tracks v s.core)
    (hk : Triggers s.phase l k)
    (hc : s.dirty.drainSorted.1.mapM (fun e => v.pipeline.writeCommands e.1 e.2) = some cmds) :
    Tracks v { s.core with
      dirty := .new
      phase := .flushing k s.dirty.drainSorted.1 (cmds.flatten.map (fun c => ⟨c,.pending⟩)) } := by
  have hall : v.AllCommands s.dirty.drainSorted.1 cmds.flatten := ⟨cmds,hc,rfl⟩
  have hcall : s.phase.call = (Phase.flushing k s.dirty.drainSorted.1
      (cmds.flatten.map (fun c => ⟨c,.pending⟩))).call := by
    generalize s.phase = p at hk
    cases hk <;> rfl
  have hcmds : s.core.phase.commands = [] := triggers_commands hk
  refine h.keep (m := []) (by simp) (by simp) (Or.inr rfl) (fun _ => rfl) (by simp [Worker.core])
    hcall.symm ?_ ?_ ?_
  · intro _ y hy b
    obtain ⟨z,_,rfl⟩ := List.mem_map.mp hy
    simp
  · intro _ y hy
    rw [hcmds] at hy
    cases hy
  · intro r p x _ hkept
    rw [List.append_nil]
    cases hkept with
    | synced hy => exact .synced hy
    | dirty e he hx =>
      obtain ⟨hdvd,hlt⟩ := h.sized e he
      have hsub : (v.submitted (e.1,e.2.data)).at? p = some x := by
        rw [Device.submitted,Pipeline.carried_eq hlt hdvd]
        exact hx
      have hm : (e.1,e.2.data) ∈ s.dirty.drainSorted.1 := List.mem_map.mpr ⟨e,he,rfl⟩
      obtain ⟨u,hu,hux⟩ := hall.covers hm hsub
      obtain ⟨z,hz,rfl⟩ := List.mem_map.mp hu
      exact .pending ⟨z,.pending⟩ (List.mem_map.mpr ⟨z,hz,rfl⟩) rfl hux
    | pending y hy _ _ =>
      rw [hcmds] at hy
      cases hy
    | accepted k' dr cs u hp _ _ =>
      have hp : s.phase = _ := hp
      rw [hp] at hk
      cases hk
    | syncing k' dr u hp _ _ =>
      have hp : s.phase = _ := hp
      rw [hp] at hk
      cases hk

theorem good {k : Caller} {dr : List (Nat × Bytes)} {cmds : List FlushCmd} {y : FlushCmd} {i : Nat}
    (h : Tracks v s.core) (hp : s.phase = .flushing k dr cmds) (hy : cmds[i]? = some y)
    (hpend : y.status = .pending) : Tracks v { s.core with
      disk := (y.cmd.patch v.blockSize).apply s.disk
      log := s.log ++ [Event.accepted (y.cmd.patch v.blockSize)]
      phase := .flushing k dr (cmds.set i { y with status := .good }) } := by
  have hcmds : s.core.phase.commands = cmds := by
    simp [Worker.core,hp,Phase.commands]
  have hcall : (Phase.flushing k dr (cmds.set i { y with status := .good })).call =
      s.core.phase.call := by
    simp only [Worker.core,hp]
    cases k <;> rfl
  have hset : ∀ z ∈ cmds, z = y ∨ z ∈ cmds.set i { y with status := .good } := by
    intro z hz
    obtain ⟨j,hj⟩ := List.getElem?_of_mem hz
    by_cases hji : j = i
    · subst hji
      exact Or.inl (Option.some.inj (hj.symm.trans hy))
    · refine Or.inr (List.mem_of_getElem? (i := j) ?_)
      rw [List.getElem?_set_ne (fun h => hji h.symm)]
      exact hj
  refine h.keep (m := [.accepted (y.cmd.patch v.blockSize)]) (by simp [Event.plain])
    (by simp [Event.isReceived]) (Or.inl rfl) ?_ rfl hcall ?_ ?_ ?_
  · intro _
    exact h.drained (by simp [Worker.core,hp,Phase.flushes])
  · intro hun z hz b
    rcases List.mem_or_eq_of_mem_set hz with hz | rfl
    · exact hun z (hcmds ▸ hz) b
    · simp
  · intro hun z hz b hb
    rw [hcmds] at hz
    rcases hset z hz with rfl | hz
    · rw [hpend] at hb
      cases hb
    · exact hun z hz b hb
  · intro r p x _ hkept
    cases hkept with
    | synced hs => exact .synced (hs.append _)
    | dirty e he hx => exact .dirty e he hx
    | pending z hz hpend hx =>
      rw [hcmds] at hz
      rcases hset z hz with rfl | hz
      · exact .accepted k dr _ (z.cmd.patch v.blockSize) rfl hx (by simp)
      · exact .pending z hz hpend hx
    | accepted k' dr' cs u _ hx hu =>
      exact .accepted k dr _ u rfl hx (by simp [hu])
    | syncing k' dr' u hp' _ _ => simp [Worker.core,hp] at hp'

theorem fail {k : Caller} {dr : List (Nat × Bytes)} {cmds : List FlushCmd} {y : FlushCmd} {i : Nat}
    {applied panicked : Bool} (h : Tracks v s.core) (hp : s.phase = .flushing k dr cmds)
    (hy : cmds[i]? = some y) (hd : DurableStep v s (.fail i applied panicked)) :
    Tracks v { s.core with
      disk := if applied then (y.cmd.patch v.blockSize).apply s.disk else s.disk
      stray := if applied then s.stray else s.stray ++ [y.cmd]
      phase := .flushing k dr (cmds.set i { y with status := .failed panicked }) } := by
  refine of_durable (h.durable_of_empty hd) h.flushes h.sized ?_ ?_
  · intro _
    exact h.drained (by simp [Worker.core,hp,Phase.flushes])
  · intro w _ hun
    have hlt : i < cmds.length := (List.getElem?_eq_some_iff.mp hy).1
    exact hun _ (List.mem_set hlt _) panicked rfl

theorem sync {k : Caller} {dr : List (Nat × Bytes)} {cmds : List FlushCmd} (h : Tracks v s.core)
    (hp : s.phase = .flushing k dr cmds) (hg : ∀ y ∈ cmds, y.status = .good) :
    Tracks v { s.core with phase := .syncing k dr, log := s.log ++ [Event.syncIssued] } := by
  have hcmds : s.core.phase.commands = cmds := by
    simp [Worker.core,hp,Phase.commands]
  have hcall : (Phase.syncing k dr).call = s.core.phase.call := by
    simp only [Worker.core,hp]
    cases k <;> rfl
  refine h.keep (m := [.syncIssued]) (by simp [Event.plain]) (by simp [Event.isReceived]) (Or.inl rfl)
    ?_ rfl hcall ?_ ?_ ?_
  · intro _
    exact h.drained (by simp [Worker.core,hp,Phase.flushes])
  · intro _ z hz
    cases hz
  · intro _ z hz b hb
    rw [hcmds] at hz
    simp [hg z hz] at hb
  · intro r p x _ hkept
    cases hkept with
    | synced hs => exact .synced (hs.append _)
    | dirty e he hx => exact .dirty e he hx
    | pending z hz hpend _ =>
      rw [hcmds] at hz
      simp [hg z hz] at hpend
    | accepted k' dr' cs u _ hx hu =>
      refine .syncing k dr u rfl hx ?_
      exact (List.singleton_sublist.mpr hu).append (List.Sublist.refl _)
    | syncing k' dr' u hp' _ _ => simp [Worker.core,hp] at hp'

theorem syncGood_kept {k : Caller} {dr : List (Nat × Bytes)} {r : List Event} {p : Nat} {x : UInt8}
    (h : Tracks v c) (hp : c.phase = .syncing k dr) (hk : Kept v c r p x) :
    Synced (r ++ [.syncGood]) p x := by
  cases hk with
  | synced hs => exact hs.append _
  | dirty e he _ =>
    rw [h.drained (by rw [hp]; rfl)] at he
    cases he
  | pending z hz _ _ =>
    rw [hp] at hz
    cases hz
  | accepted k' dr' cs u hp' _ _ =>
    rw [hp] at hp'
    cases hp'
  | syncing k' dr' u _ hx hs => exact ⟨u,hx,hs.append (List.Sublist.refl _)⟩

theorem syncGood {k : Caller} {dr : List (Nat × Bytes)} (h : Tracks v s.core)
    (hp : s.phase = .syncing k dr) :
    Tracks v ({ s.core with log := s.log ++ [Event.syncGood] }.flushDone (.ok ()) k) := by
  have hph : s.core.phase = .syncing k dr := hp
  have hf : FlushDurable v (s.log ++ [Event.syncGood]) := h.flushes.append (by simp)
  have hplain : ∀ e ∈ [Event.syncGood], ∀ o d n, e ≠ .writeReply o d (.ok n) := by simp
  -- What waited is synced now, unless the Write being answered covers it.
  have hall : ∀ offset data r post, Acks (s.log ++ [Event.syncGood]) offset data r post →
      ∀ p x, (v.writePatch offset data).at? p = some x →
        Overwritten (v.acked post) p ∨ Synced r p x ∨ Overwritten (s.core.phase.handled v) p := by
    intro o d r post ha p x hx
    obtain ⟨r',post',rfl,rfl,ha'⟩ := acks_append hplain ha
    rcases h.acked o d r' post' ha' p x hx with ho | hy | ⟨_,_,ho | hk⟩
    · rw [acked_append]
      exact Or.inl (ho.append _)
    · exact Or.inr (Or.inl (hy.append _))
    · exact Or.inr (Or.inr ho)
    · exact Or.inr (Or.inl (h.syncGood_kept hph hk))
  have hnone : s.core.phase.call = none → DurableAt v (s.log ++ [Event.syncGood]) := by
    intro hc o d r post ha p x hx
    rcases hall o d r post ha p x hx with ho | hy | ⟨u,hu,_⟩
    · exact Or.inl ho
    · exact Or.inr hy
    · simp [Phase.handled,hc] at hu
  cases k with
  | request =>
    have hd := hnone (by rw [hph]; rfl)
    exact of_durable (hd.append (m := [.flushReply (.ok ())]) (by simp)) (hf.snoc (fun _ => hd))
      h.sized (fun hx => by cases hx) (fun w hw => by cases hw)
  | write w =>
    refine of_durable ?_ (hf.snoc (fun hx => by cases hx)) h.sized (fun hx => by cases hx)
      (fun w hw => by cases hw)
    intro o d r post ha p x hx
    rcases acks_snoc ha with ⟨mid,n,he,rfl,rfl,hopen⟩ | ⟨r',post',rfl,rfl,ha'⟩
    · cases he
      obtain ⟨mid',rfl,hopen'⟩ := open_append (m := [.syncGood]) (by simp [Event.isReceived]) hopen
      have hkept := h.current w (by rw [hph]; rfl) mid' hopen' (fun y hy => by rw [hph] at hy; cases hy)
        p x hx
      exact Or.inr ((h.syncGood_kept hph hkept).append _)
    · rcases hall o d r' post' ha' p x hx with ho | hy | ⟨u,hu,hc⟩
      · rw [acked_append]
        exact Or.inl (ho.append _)
      · exact Or.inr (hy.append _)
      · have huw : u = w.patch v := by simpa [hph,Phase.handled,Phase.call] using hu
        subst huw
        exact Or.inl ⟨w.patch v,by simp [Device.acked,WriteCall.patch],hc⟩
  | timer =>
    exact of_durable (hnone (by rw [hph]; rfl)) hf h.sized (fun hx => by cases hx)
      (fun w hw => by cases hw)
  | closing =>
    exact of_durable (hnone (by rw [hph]; rfl)) hf h.sized (fun hx => by cases hx)
      (fun w hw => by cases hw)

theorem flushError {k : Caller} {e : IoError} (h : Tracks v c) (hd : DurableAt v c.log)
    (left : List WriteCommand) : Tracks v ({ c with stray := left }.flushDone (.err e) k) := by
  cases k with
  | request =>
    exact of_durable (hd.append (m := [.flushReply (.err e)]) (by simp))
      (h.flushes.snoc (fun hx => by cases hx)) h.sized (fun hx => by cases hx)
      (fun w hw => by cases hw)
  | write w =>
    exact of_durable (hd.append (m := [.writeReply w.offset w.data (.err e)]) (by simp))
      (h.flushes.snoc (fun hx => by cases hx)) h.sized (fun hx => by cases hx)
      (fun w hw => by cases hw)
  | timer =>
    exact of_durable hd h.flushes h.sized (fun hx => by cases hx) (fun w hw => by cases hw)
  | closing =>
    exact of_durable hd h.flushes h.sized (fun hx => by cases hx) (fun w hw => by cases hw)

end Tracks

theorem Kept.idle {v : Device} {s c : Core} {r : List Event} {p : Nat} {x : UInt8}
    (hk : Kept v s r p x) (hf : s.phase.flushes = false) (hd : c.dirty = s.dirty) {m : List Event} :
    Kept v c (r ++ m) p x := by
  cases hk with
  | synced hs => exact .synced (hs.append _)
  | dirty e he hx => exact .dirty e (hd ▸ he) hx
  | pending y hy _ _ => cases hp : s.phase <;> simp [hp,Phase.commands,Phase.flushes] at hy hf
  | accepted k dr cs u hp _ _ =>
    rw [hp] at hf
    cases hf
  | syncing k dr u hp _ _ =>
    rw [hp] at hf
    cases hf

theorem unfailed_of_not_flushes {c : Core} (h : c.phase.flushes = false) : c.Unfailed := by
  intro y hy
  cases hp : c.phase <;> simp [hp,Phase.commands,Phase.flushes] at hy h

namespace Tracks

variable {v : Device} {s : Worker} {c : Core}

theorem quiet (h : Tracks v s.core) {m : List Event} (hf : s.phase.flushes = false)
    (hm : ∀ e ∈ m, e.plain = true) (hr : c.phase.call ≠ none → ∀ e ∈ m, e.isReceived = false)
    (hd : c.dirty = s.dirty) (hl : c.log = s.log ++ m) (hc : c.phase.call = s.phase.call)
    (hf' : c.phase.flushes = false) : Tracks v c :=
  h.keep hm hr (Or.inl hd) (fun hx => by rw [hf'] at hx; cases hx) hl hc
    (fun _ => unfailed_of_not_flushes hf') (fun _ => unfailed_of_not_flushes hf)
    (fun _ _ _ _ hk => hk.idle hf hd)

theorem emptyWrite {offset : Nat} {data : Bytes} (h : Tracks v s.core) (hp : s.phase = .idle)
    (he : data = [] ∨ v.totalBytes ≤ offset) :
    Tracks v ({ s.core with log := s.log ++ [Event.received offset data] }.answer
      (.writeReply offset data (.ok 0))) := by
  have hn : (v.writePatch offset data).data = [] := by
    rcases he with rfl | he
    · simp [Device.writePatch]
    · simp [Device.writePatch,Nat.sub_eq_zero_of_le he]
  have hf : s.phase.flushes = false := by rw [hp]; rfl
  have h₁ : Tracks v { s.core with log := s.log ++ [Event.received offset data] } := by
    refine h.quiet (m := [.received offset data]) hf (by simp [Event.plain]) ?_ rfl rfl rfl hf
    intro hc
    simp [Worker.core,hp,Phase.call] at hc
  constructor
  · exact h.sized
  · intro hx
    cases hx
  · intro o d r post ha p x hx
    rcases acks_snoc ha with ⟨mid,n,hw,_,_,_⟩ | ⟨r',post',rfl,rfl,ha'⟩
    · cases hw
      have hcov := Patch.covers_of_at? hx
      simp only [Patch.Covers,hn,List.length_nil] at hcov
      omega
    · rcases h₁.acked o d r' post' ha' p x hx with ho | hy | ⟨hn',_,ho | hk⟩
      · rw [acked_append]
        exact Or.inl (ho.append _)
      · exact Or.inr (Or.inl (hy.append _))
      · obtain ⟨u,hu,_⟩ := ho
        simp [Worker.core,hp,Phase.handled,Phase.call] at hu
      · have hs : { s.core with log := s.log ++ [Event.received offset data] }.phase.flushes =
            false := hf
        refine Or.inr (Or.inr ⟨by simp [hn'],fun y hy => (by cases hy),Or.inr ?_⟩)
        refine hk.idle hs ?_
        rfl
  · intro w hw
    cases hw
  · exact h₁.flushes.snoc (fun hx => by cases hx)

theorem flushNothing {l : Label} {k : Caller} (h : Tracks v s.core) (hk : Triggers s.phase l k)
    (he : s.dirty.entries.entries = []) : Tracks v (s.core.flushDone (.ok ()) k) := by
  generalize hp : s.phase = p at hk
  have hph : s.core.phase = p := hp
  have hclean : p.call = none → p.flushes = false → DurableAt v s.core.log :=
    fun hc hf => h.durable_of_clean he (hph ▸ hc) (hph ▸ hf)
  cases hk with
  | flush =>
    have hd := hclean rfl rfl
    exact of_durable (hd.append (m := [.flushReply (.ok ())]) (by simp))
      (h.flushes.snoc (fun _ => hd)) h.sized (fun hx => by cases hx) (fun w hw => by cases hw)
  | tick =>
    exact of_durable (hclean rfl rfl) h.flushes h.sized (fun hx => by cases hx)
      (fun w hw => by cases hw)
  | close =>
    exact of_durable (hclean rfl rfl) h.flushes h.sized (fun hx => by cases hx)
      (fun w hw => by cases hw)
  | write w clba => exact h.ack (by rw [hph]; rfl) (by rw [hph]; rfl)

end Tracks

theorem tracks_step {v : Device} {s : Worker} {l : Label} {c : Core} (h : Tracks v s.core)
    (hd : DurableStep v s l) (hstep : CoreStep v s l c) : Tracks v c := by
  have hfl : ∀ {p : Phase}, s.phase = p → s.core.phase.flushes = p.flushes :=
    fun hp => by rw [← hp]; rfl
  have hca : ∀ {p : Phase}, s.phase = p → s.phase.call = p.call :=
    fun hp => by rw [← hp]
  cases hstep with
  | background l _ => exact h
  | emptyRead offset size hp =>
    exact h.quiet (m := [_]) (hfl hp) (by simp [Event.plain]) (fun hc => absurd rfl hc) rfl rfl
      (hca hp).symm rfl
  | dirtyRead offset size r b hp _ _ _ =>
    exact h.quiet (m := [_]) (hfl hp) (by simp [Event.plain]) (fun hc => absurd rfl hc) rfl rfl
      (hca hp).symm rfl
  | startRead offset size r clba hp _ _ _ =>
    exact h.quiet (m := []) (hfl hp) (by simp) (by simp) rfl (List.append_nil _).symm (hca hp).symm rfl
  | await r clba acc hp =>
    exact h.quiet (m := []) (hfl hp) (by simp) (by simp) rfl (List.append_nil _).symm (hca hp).symm rfl
  | take r clba acc chunk piece l ht _ _ =>
    cases ht with
    | hit hp _ =>
      exact h.quiet (m := []) (hfl hp) (by simp) (by simp) rfl (List.append_nil _).symm
        (hca hp).symm rfl
    | fetched hp _ =>
      exact h.quiet (m := []) (hfl hp) (by simp) (by simp) rfl (List.append_nil _).symm
        (hca hp).symm rfl
  | readDone r clba last acc hp _ _ =>
    exact h.quiet (m := [_]) (hfl hp) (by simp [Event.plain]) (fun hc => absurd rfl hc) rfl rfl
      (hca hp).symm rfl
  | readFailed r clba acc e l hp =>
    rcases hp with hp | hp <;>
      exact h.quiet (m := [_]) (hfl hp) (by simp [Event.plain]) (fun hc => absurd rfl hc) rfl rfl
        (hca hp).symm rfl
  | emptyWrite offset data rmwOk hp he => exact h.emptyWrite hp he
  | failedWrite offset data rmwOk e hp =>
    exact h.quiet (m := [.received offset data,.writeReply offset data (.err e)]) (hfl hp)
      (by simp [Event.plain]) (fun hc => absurd rfl hc) rfl (List.append_assoc _ _ _) (hca hp).symm rfl
  | insert offset data rmwOk w buf clba hp hw hb => exact h.insert hp hw hb hd
  | invalidate w clba next hp =>
    exact h.quiet (m := []) (hfl hp) (by simp) (by simp) rfl (List.append_nil _).symm (hca hp).symm rfl
  | writeDone w clba hp => exact h.ack (by rw [show s.core.phase = _ from hp]; rfl) (hfl hp)
  | flushNothing l k ht he => exact h.flushNothing ht he
  | flushStart l k cmds ht _ hc => exact h.start ht hc
  | good i k dr cmds y hp hy hpend => exact h.good hp hy hpend
  | fail i applied panicked k dr cmds y hp hy _ => exact h.fail hp hy hd
  | sync k dr cmds hp hg => exact h.sync hp hg
  | flushFailed k dr cmds y panicked left e hp hy hb =>
    refine h.flushError (h.durable_of_failed (fun hun => hun y ?_ panicked hb)) left
    rw [show s.core.phase = _ from hp]
    exact hy
  | syncGood k dr hp => exact h.syncGood hp
  | syncFail k dr hp => exact h.flushError (h.durable_of_empty hd) s.stray
  | stray i good y _ =>
    have hm : ∀ e ∈ if good then [Event.accepted (y.patch v.blockSize)] else [],
        e.plain = true ∧ e.isReceived = false := by
      cases good <;> simp [Event.plain,Event.isReceived]
    refine h.keep (fun e he => (hm e he).1) (fun _ e he => (hm e he).2) (Or.inl rfl) h.drained rfl
      rfl (fun hun => hun) (fun hun => hun) ?_
    intro r p x _ hk
    cases hk with
    | synced hs => exact .synced (hs.append _)
    | dirty e he hx => exact .dirty e he hx
    | pending z hz hpend hx => exact .pending z hz hpend hx
    | accepted k dr cmds u hp hx hu => exact .accepted k dr cmds u hp hx (by simp [hu])
    | syncing k dr u hp hx hs =>
      exact .syncing k dr u hp hx (hs.trans (List.sublist_append_left r _))

theorem tracks_start (v : Device) (syncWrites : Bool) (d : Image) :
    Tracks v (Worker.start v syncWrites d).core where
  sized := fun e he => by cases he
  drained := fun hf => by cases hf
  acked := fun offset data r post ha => by
    obtain ⟨pre,_,_,hl,_⟩ := ha
    simp [Worker.core,Worker.start] at hl
  current := fun w hw => by cases hw
  flushes := fun pre post hl => by simp [Worker.core,Worker.start] at hl

/-- Durability of Flush, for every run whose Writes lose no waiting byte and whose
flushes fail only when no byte waits. -/
theorem flush_durable_of_kept {v : Device} {syncWrites : Bool} {d : Image} {ls : List Label}
    {t : Worker} (hm : Machine.Meets (step v) (DurableStep v) (Worker.start v syncWrites d) ls)
    (hr : Machine.run (step v) (Worker.start v syncWrites d) ls = some t) :
    FlushDurable v t.log := by
  have hinv := Machine.invariant (I := fun s => Tracks v s.core)
    (fun s l t hi hd hs => tracks_step hi hd (step_core hs)) (tracks_start v syncWrites d) hm hr
  exact hinv.flushes

/-- A Write is acknowledged, flushed by the timer, and a Flush finds it safe. -/
theorem flush_durable_after_timer :
    ∃ t, Machine.run (step smallDevice) (Worker.start smallDevice false zeros)
        [.write 5 [1,2] true,.cont,.cont,.write 5 [3,4,5] true,.cont,.cont,.tick,.good 0,.cont,
          .syncGood,.flush] = some t ∧ FlushDurable smallDevice t.log := by
  have hm : Machine.Meets (step smallDevice) (DurableStep smallDevice)
      (Worker.start smallDevice false zeros)
      [.write 5 [1,2] true,.cont,.cont,.write 5 [3,4,5] true,.cont,.cont,.tick,.good 0,.cont,
        .syncGood,.flush] := Machine.meets_of_check (by decide)
  exact ⟨_,rfl,flush_durable_of_kept hm rfl⟩

/-- The flush of the timer drains the map and fails; nothing is left for a Flush
to do, and it is answered Ok. -/
theorem failed_timer_flush_forgotten :
    ∃ t, Machine.run (step smallDevice) (Worker.start smallDevice false zeros)
        [.write 5 [1] true,.cont,.cont,.tick,.fail 0 false false,.cont,.flush] = some t ∧
      ¬ FlushDurable smallDevice t.log := by
  refine ⟨_,rfl,fun h => ?_⟩
  have hd := h [.received 5 [1],.writeReply 5 [1] (.ok 1)] [] rfl
  have ha : Acks [.received 5 [1],.writeReply 5 [1] (.ok 1)] 5 [1]
      [.writeReply 5 [1] (.ok 1)] [] := ⟨[],[],1,rfl,rfl,by simp⟩
  rcases hd 5 [1] _ [] ha 5 1 rfl with ⟨u,hu,_⟩ | ⟨w,_,hs⟩
  · cases hu
  · have hmem := hs.subset (show Event.syncGood ∈ _ by simp)
    simp at hmem

end IscsiFuse.Block
