import IscsiFuse.Library.Log
import IscsiFuse.Block.FlushCommands
set_option autoImplicit false

/-!
What a flush makes of the Writes coalesced in the dirty map. The map holds the
Writes that no later Write with the same start replaced, whatever they overlap.
-/

namespace IscsiFuse.Block
open IscsiFuse.Iscsi

/-- The insertion of a block-aligned Write. -/
def DirtyMap.receive (bs : Nat) (m : DirtyMap) (w : Patch) : DirtyMap :=
  if w.data = [] then m
  else m.insert (w.off/bs) ((touched w.off w.data.length bs).2%2^32) w.data

def coalesce (bs : Nat) (ws : List Patch) : DirtyMap := ws.foldl (DirtyMap.receive bs) .new

theorem coalesce_snoc (bs : Nat) (ws : List Patch) (w : Patch) :
    coalesce bs (ws ++ [w]) = (coalesce bs ws).receive bs w := by simp [coalesce]

def Survives (bs : Nat) (ws : List Patch) (w : Patch) : Prop :=
  ∃ pre post, ws = pre ++ w :: post ∧ w.data ≠ [] ∧
    ∀ u ∈ post, u.data = [] ∨ u.off/bs ≠ w.off/bs

theorem not_survives_nil (bs : Nat) (w : Patch) : ¬ Survives bs [] w := by
  intro ⟨pre,post,h,_⟩
  simp at h

theorem survives_snoc (bs : Nat) (ws : List Patch) (u w : Patch) :
    Survives bs (ws ++ [u]) w ↔ (w = u ∧ u.data ≠ []) ∨
      (Survives bs ws w ∧ (u.data = [] ∨ u.off/bs ≠ w.off/bs)) := by
  constructor
  · intro ⟨pre,post,h,hne,hpost⟩
    rcases Log.split_snoc h with ⟨rfl,hw,_⟩ | ⟨post',rfl,hws⟩
    · subst hw
      exact Or.inl ⟨rfl,hne⟩
    · exact Or.inr ⟨⟨pre,post',hws,hne,fun y hy => hpost y (by simp [hy])⟩,hpost u (by simp)⟩
  · intro h
    rcases h with ⟨rfl,hne⟩ | ⟨⟨pre,post,rfl,hne,hpost⟩,hu⟩
    · exact ⟨ws,[],rfl,hne,by simp⟩
    · refine ⟨pre,post ++ [u],by simp,hne,fun y hy => ?_⟩
      rcases List.mem_append.mp hy with hy | hy
      · exact hpost y hy
      · rw [List.mem_singleton.mp hy]
        exact hu

def entryOf (bs : Nat) (w : Patch) : Nat × DirtyEntry :=
  (w.off/bs,⟨w.data,(touched w.off w.data.length bs).2%2^32⟩)

theorem mem_coalesce (bs : Nat) (ws : List Patch) (e : Nat × DirtyEntry) :
    e ∈ (coalesce bs ws).entries.entries ↔ ∃ w, Survives bs ws w ∧ e = entryOf bs w := by
  induction ws using List.reverseRecOn generalizing e with
  | nil => simp [coalesce,DirtyMap.new,not_survives_nil]
  | append_singleton ws u ih =>
    rw [coalesce_snoc,DirtyMap.receive]
    simp only [survives_snoc]
    split
    · rename_i hu
      simp [ih,hu]
    · rename_i hu
      rw [DirtyMap.insert_entries,OrdMap.mem_insert,ih]
      constructor
      · intro h
        rcases h with rfl | ⟨⟨w,hw,rfl⟩,hk⟩
        · exact ⟨u,Or.inl ⟨rfl,hu⟩,rfl⟩
        · exact ⟨w,Or.inr ⟨hw,Or.inr (fun h => hk h.symm)⟩,rfl⟩
      · intro ⟨w,hw,he⟩
        rcases hw with ⟨rfl,_⟩ | ⟨hw,hk⟩
        · exact Or.inl he
        · rcases hk with hk | hk
          · exact absurd hk hu
          · exact Or.inr ⟨⟨w,hw,he⟩,fun h => hk (by rw [← h,he]; rfl)⟩

def Device.submittedOf (v : Device) (w : Patch) : Patch :=
  v.submitted (w.off/v.blockSize,w.data)

theorem mem_drained {v : Device} {ws : List Patch} {e : Nat × Bytes} :
    e ∈ (coalesce v.blockSize ws).drainSorted.1 ↔
      ∃ w, Survives v.blockSize ws w ∧ e = (w.off/v.blockSize,w.data) := by
  simp only [DirtyMap.drainSorted,List.mem_map,mem_coalesce]
  constructor
  · intro ⟨f,⟨w,hw,hf⟩,he⟩
    subst hf
    exact ⟨w,hw,he.symm⟩
  · intro ⟨w,hw,he⟩
    exact ⟨_,⟨w,hw,rfl⟩,he.symm⟩

/-- Where a Write covers a position, some surviving Write submits that position,
and every one that does submits the byte of the last Write. -/
def Settled (v : Device) (ws : List Patch) : Prop :=
  ∀ p x, Patch.lastAt? ws p = some x →
    (∃ w, Survives v.blockSize ws w ∧ (v.submittedOf w).Covers p) ∧
    ∀ w, Survives v.blockSize ws w → ∀ y, (v.submittedOf w).at? p = some y → y = x

theorem Survives.mem {bs : Nat} {ws : List Patch} {w : Patch} (h : Survives bs ws w) : w ∈ ws := by
  obtain ⟨pre,post,rfl,_⟩ := h
  simp

theorem submittedOf_covers {v : Device} {w : Patch} (ha : v.blockSize ∣ w.off) {p : Nat}
    (h : (v.submittedOf w).Covers p) : w.Covers p := by
  have hl : (v.pipeline.carried w.data).length ≤ w.data.length := by
    simp [Pipeline.carried]
  simp only [Patch.Covers,Device.submittedOf,Device.submitted,Nat.div_mul_cancel ha] at h ⊢
  omega

theorem settled_of_apart {v : Device} {ws : List Patch} (ha : ws.Pairwise Patch.Apart)
    (hw : ∀ w ∈ ws, v.submittedOf w = w) : Settled v ws := by
  intro p x hx
  obtain ⟨w,hm,hwx⟩ := Patch.lastAt?_mem hx
  have hcov := Patch.covers_of_at? hwx
  have hsame : ∀ u ∈ ws, u.Covers p → u = w := by
    intro u hu hup
    by_contra hne
    exact Patch.apart_of_mem ha hu hm hne p hup hcov
  constructor
  · obtain ⟨pre,post,rfl⟩ := List.append_of_mem hm
    refine ⟨w,⟨pre,post,rfl,?_,fun u hu => ?_⟩,by rw [hw w hm]; exact hcov⟩
    · intro he
      simp [Patch.Covers,he] at hcov
      omega
    · by_contra hno
      rw [not_or,not_not] at hno
      have hoff : ∀ z, v.submittedOf z = z → z.off = z.off/v.blockSize*v.blockSize :=
        fun z hz => (congrArg Patch.off hz).symm
      have huo := hoff u (hw u (by simp [hu]))
      have hwo := hoff w (hw w hm)
      have hlen := List.length_pos_iff.mpr hno.1
      have hap := (List.pairwise_cons.mp (List.pairwise_append.mp ha).2.1).1 u hu
      refine hap w.off ⟨Nat.le_refl _,?_⟩ ⟨?_,?_⟩
      · unfold Patch.Covers at hcov
        omega
      · rw [huo,hno.2,← hwo]
      · rw [huo,hno.2,← hwo]
        omega
  · intro u hu y hy
    rw [hw u hu.mem] at hy
    rw [hsame u hu.mem (Patch.covers_of_at? hy),hwx] at hy
    exact (Option.some.inj hy).symm

theorem settled_applyAll {v : Device} {ws : List Patch} {cs : List WriteCommand}
    (hc : v.AllCommands (coalesce v.blockSize ws).drainSorted.1 cs) {ps : List Patch}
    (hps : ps.Perm (v.pieces cs)) (hset : Settled v ws)
    (ha : ∀ w ∈ ws, v.blockSize ∣ w.off) (d : Image) :
    Patch.applyAll d ps = Patch.applyAll d ws := by
  funext p
  have hpiece : ∀ u ∈ ps, ∀ y, u.at? p = some y →
      ∃ w, Survives v.blockSize ws w ∧ (v.submittedOf w).at? p = some y := by
    intro u hu y hy
    obtain ⟨e,he,hex⟩ := hc.at? (hps.subset hu)
    obtain ⟨w,hw,rfl⟩ := mem_drained.mp he
    exact ⟨w,hw,hex p y hy⟩
  rw [Patch.applyAll_lastAt? d ws p]
  cases hx : Patch.lastAt? ws p with
  | none =>
    refine Patch.applyAll_outside (fun u hu hcov => ?_)
    obtain ⟨y,hy⟩ := Patch.exists_at? hcov
    obtain ⟨w,hw,hwy⟩ := hpiece u hu y hy
    have hwp := submittedOf_covers (ha w hw.mem) (Patch.covers_of_at? hwy)
    exact Patch.lastAt?_eq_none.mp hx w hw.mem hwp
  | some x =>
    obtain ⟨⟨w,hw,hwc⟩,hall⟩ := hset p x hx
    refine Patch.applyAll_agree ?_ ?_
    · obtain ⟨y,hy⟩ := Patch.exists_at? hwc
      obtain ⟨u,hu,hux⟩ := hc.covers (mem_drained.mpr ⟨w,hw,rfl⟩) hy
      exact ⟨u,hps.symm.subset hu,Patch.covers_of_at? hux⟩
    · intro u hu hcov
      obtain ⟨y,hy⟩ := Patch.exists_at? hcov
      obtain ⟨w',hw',hwy⟩ := hpiece u hu y hy
      rw [hy,hall w' hw' y hwy]
      rfl

def Label.aligned (v : Device) : Label → Bool
  | .write offset data _ =>
    offset%v.blockSize = 0 ∧ min data.length (v.totalBytes-offset)%v.blockSize = 0
  | _ => true

/-- The step is not part of a flush, and a Write it serves is block-aligned. -/
def AlignedStep (v : Device) (s : Worker) (l : Label) : Prop :=
  s.phase.flushes = false ∧ l.aligned v = true

instance (v : Device) (s : Worker) (l : Label) : Decidable (AlignedStep v s l) :=
  inferInstanceAs (Decidable (_ ∧ _))

/-- The dirty map holds what the Writes since the log `before` make of it; when a
flush has just started, its commands do. -/
inductive Coalescing (v : Device) (before : List Event) (c : Core) : Prop
  | gathers (l : List Event) : c.phase.flushes = false → c.log = before ++ l →
      c.dirty = coalesce v.blockSize (v.acked l ++ c.phase.handled v) →
      (∀ w ∈ v.acked l ++ c.phase.handled v, v.blockSize ∣ w.off) → Coalescing v before c
  | drained (l : List Event) (k : Caller) (dr : List (Nat × Bytes)) (cs : List WriteCommand) :
      c.phase = .flushing k dr (cs.map (fun x => ⟨x,.pending⟩)) → c.log = before ++ l →
      dr = (coalesce v.blockSize (v.acked l ++ c.phase.handled v)).drainSorted.1 →
      v.AllCommands dr cs → (∀ w ∈ v.acked l ++ c.phase.handled v, v.blockSize ∣ w.off) →
      Coalescing v before c

theorem aligned_dvd {v : Device} {offset : Nat} {data : Bytes} {rmwOk : Bool}
    (h : (Label.write offset data rmwOk).aligned v = true) : v.blockSize ∣ offset := by
  simp only [Label.aligned,decide_eq_true_eq] at h
  exact Nat.dvd_of_mod_eq_zero h.1

theorem insert_receive {v : Device} {s : Worker} {offset : Nat} {data buf : Bytes} {rmwOk : Bool}
    {w : WriteCall} (hw : w.Of v s offset data) (hb : w.Buffer v s rmwOk buf)
    (ha : (Label.write offset data rmwOk).aligned v = true) :
    s.dirty.insert w.startLba w.blockCount buf = s.dirty.receive v.blockSize (w.patch v) := by
  obtain ⟨skip,hal⟩ := hw.aligned
  obtain ⟨_,_,hlba,hn,_⟩ := computeAlignment_eq_some hal
  obtain ⟨hlen,hpos⟩ := hw.patch_length
  cases hb with
  | aligned _ _ =>
    have hne : (w.patch v).data ≠ [] := by
      intro he
      simp [he] at hlen
      omega
    rw [DirtyMap.receive,if_neg hne,hlen,hw.take_eq,hlba,hn]
    simp only [WriteCall.patch,Device.writePatch,hw.args.1,touched]
  | merged old _ hun _ _ =>
    have hal : w.offset%v.blockSize = 0 ∧ w.actualLen%v.blockSize = 0 := by
      rw [hw.args.1,hw.clamped]
      simpa [Label.aligned] using ha
    exact absurd hal hun

theorem Coalescing.keep {v : Device} {before : List Event} {s c : Core}
    (hi : Coalescing v before s) (hs : s.phase.flushes = false) (m : List Event)
    (hp : c.phase.flushes = false) (hl : c.log = s.log ++ m) (hd : c.dirty = s.dirty)
    (hh : v.acked m ++ c.phase.handled v = s.phase.handled v) : Coalescing v before c := by
  cases hi with
  | gathers l _ hlog hdirty hal =>
    have he : v.acked (l ++ m) ++ c.phase.handled v = v.acked l ++ s.phase.handled v := by
      rw [acked_append,List.append_assoc,hh]
    refine .gathers (l ++ m) hp (by rw [hl,hlog,List.append_assoc]) ?_ ?_
    · rw [he,hd,hdirty]
    · rw [he]
      exact hal
  | drained l k dr cs hf _ _ _ _ =>
    rw [hf] at hs
    cases hs

theorem Coalescing.start {v : Device} {before : List Event} {s : Worker} {l : Label} {k : Caller}
    {cmds : List (List WriteCommand)} (hi : Coalescing v before s.core)
    (hk : Triggers s.phase l k)
    (hc : s.dirty.drainSorted.1.mapM (fun e => v.pipeline.writeCommands e.1 e.2) = some cmds) :
    Coalescing v before { s.core with
      dirty := .new
      phase := .flushing k s.dirty.drainSorted.1 (cmds.flatten.map (fun c => ⟨c,.pending⟩)) } := by
  have hh := triggers_handled (v := v) hk s.dirty.drainSorted.1
    (cmds.flatten.map (fun c => ⟨c,.pending⟩))
  cases hi with
  | gathers m _ hlog hdirty hal =>
    have hdr : s.dirty = coalesce v.blockSize (v.acked m ++ s.phase.handled v) := hdirty
    refine .drained m k _ cmds.flatten rfl hlog ?_ ⟨cmds,hc,rfl⟩ ?_
    · simp only [hh]
      rw [← hdr]
    · simp only [hh]
      exact hal
  | drained m k' dr cs hf _ _ _ _ =>
    have hp : s.phase = _ := hf
    rw [hp] at hk
    cases hk

theorem Coalescing.insert {v : Device} {before : List Event} {s : Worker} {c : Core}
    {offset : Nat} {data : Bytes} {w : WriteCall} {clba : Nat} (hi : Coalescing v before s.core)
    (hp : s.phase = .idle) (hw : w.Of v s offset data) (ha : v.blockSize ∣ offset)
    (hd : c.dirty = s.dirty.receive v.blockSize (w.patch v))
    (hl : c.log = s.log ++ [Event.received offset data]) (hc : c.phase = .invalidating w clba) :
    Coalescing v before c := by
  cases hi with
  | gathers m _ hlog hdirty hal =>
    have hh : s.core.phase.handled v = [] := by
      simp [Worker.core,hp,Phase.handled,Phase.call]
    have he : v.acked (m ++ [Event.received offset data]) ++ c.phase.handled v =
        v.acked m ++ [w.patch v] := by
      simp [hc,Phase.handled,Phase.call,Device.acked]
    rw [hh,List.append_nil] at hdirty hal
    refine .gathers (m ++ [Event.received offset data]) (by rw [hc]; rfl) ?_ ?_ ?_
    · rw [hl,← List.append_assoc,← hlog]
      rfl
    · rw [he,hd,coalesce_snoc,← hdirty]
      rfl
    · rw [he]
      intro x hx
      rcases List.mem_append.mp hx with hx | hx
      · exact hal x hx
      · rw [List.mem_singleton.mp hx]
        show v.blockSize ∣ w.offset
        rwa [hw.args.1]
  | drained m k dr cs hf _ _ _ _ =>
    have hf : s.phase = _ := hf
    rw [hp] at hf
    cases hf

theorem Coalescing.empty {v : Device} {before : List Event} {s : Worker} {offset : Nat} {data : Bytes}
    (hi : Coalescing v before s.core) (hp : s.phase = .idle) (ha : v.blockSize ∣ offset)
    (he : data = [] ∨ v.totalBytes ≤ offset) : Coalescing v before
      ({ s.core with log := s.log ++ [Event.received offset data] }.answer
        (.writeReply offset data (.ok 0))) := by
  cases hi with
  | gathers m _ hlog hdirty hal =>
    have hh : s.core.phase.handled v = [] := by
      simp [Worker.core,hp,Phase.handled,Phase.call]
    have hn : (v.writePatch offset data).data = [] := by
      rcases he with rfl | he
      · simp [Device.writePatch]
      · simp [Device.writePatch,Nat.sub_eq_zero_of_le he]
    rw [hh,List.append_nil] at hdirty hal
    have hacked : v.acked (m ++ [.received offset data,.writeReply offset data (.ok 0)]) ++
        Phase.idle.handled v = v.acked m ++ [v.writePatch offset data] := by
      simp [Phase.handled,Phase.call,Device.acked]
    refine .gathers (m ++ [.received offset data,.writeReply offset data (.ok 0)]) rfl ?_ ?_ ?_
    · have hl : s.log = before ++ m := hlog
      simp [Core.answer,hl]
    · show s.dirty = coalesce v.blockSize (v.acked _ ++ Phase.idle.handled v)
      rw [hacked,coalesce_snoc,DirtyMap.receive,if_pos hn]
      exact hdirty
    · show ∀ x ∈ v.acked _ ++ Phase.idle.handled v, v.blockSize ∣ x.off
      rw [hacked]
      intro x hx
      rcases List.mem_append.mp hx with hx | hx
      · exact hal x hx
      · rw [List.mem_singleton.mp hx]
        exact ha
  | drained m k dr cs hf _ _ _ _ =>
    have hf : s.phase = _ := hf
    rw [hp] at hf
    cases hf

theorem coalescing_step {v : Device} {before : List Event} {s : Worker} {l : Label} {c : Core}
    (hi : Coalescing v before s.core) (ha : AlignedStep v s l) (h : CoreStep v s l c) :
    Coalescing v before c := by
  have hs : s.core.phase.flushes = false := ha.1
  have hk : ∀ {p : Phase}, s.phase = p → s.core.phase.handled v = p.handled v :=
    fun hp => by rw [← hp]; rfl
  cases h with
  | background l _ => exact hi
  | emptyRead offset size hp => exact hi.keep hs [_] rfl rfl rfl (hk hp).symm
  | dirtyRead offset size r d hp _ _ _ => exact hi.keep hs [_] rfl rfl rfl (hk hp).symm
  | startRead offset size r clba hp _ _ _ =>
    exact hi.keep hs [] rfl (List.append_nil _).symm rfl (hk hp).symm
  | await r clba acc hp => exact hi.keep hs [] rfl (List.append_nil _).symm rfl (hk hp).symm
  | take r clba acc chunk piece l ht _ _ =>
    cases ht with
    | hit hp _ => exact hi.keep hs [] rfl (List.append_nil _).symm rfl (hk hp).symm
    | fetched hp _ => exact hi.keep hs [] rfl (List.append_nil _).symm rfl (hk hp).symm
  | readDone r clba last acc hp _ _ => exact hi.keep hs [_] rfl rfl rfl (hk hp).symm
  | readFailed r clba acc e l hp =>
    rcases hp with hp | hp <;> exact hi.keep hs [_] rfl rfl rfl (hk hp).symm
  | emptyWrite offset data rmwOk hp he => exact hi.empty hp (aligned_dvd ha.2) he
  | failedWrite offset data rmwOk e hp =>
    refine hi.keep hs [.received offset data,.writeReply offset data (.err e)] rfl ?_ rfl (hk hp).symm
    simp [Core.answer,Worker.core]
  | insert offset data rmwOk w buf clba hp hw hb =>
    exact hi.insert hp hw (aligned_dvd ha.2) (insert_receive hw hb ha.2) rfl rfl
  | invalidate w clba next hp => exact hi.keep hs [] rfl (List.append_nil _).symm rfl (hk hp).symm
  | writeDone w clba hp => exact hi.keep hs [_] rfl rfl rfl (hk hp).symm
  | flushNothing l k ht _ =>
    generalize hp : s.phase = p at ht
    cases ht with
    | flush => exact hi.keep hs [_] rfl rfl rfl (hk hp).symm
    | tick => exact hi.keep hs [] rfl (List.append_nil _).symm rfl (hk hp).symm
    | close => exact hi.keep hs [] rfl (List.append_nil _).symm rfl (hk hp).symm
    | write w clba => exact hi.keep hs [_] rfl rfl rfl (hk hp).symm
  | flushStart l k cmds ht _ hc => exact hi.start ht hc
  | good i k dr cmds c hp _ _ => simp [Worker.core,hp,Phase.flushes] at hs
  | fail i applied panicked k dr cmds c hp _ _ => simp [Worker.core,hp,Phase.flushes] at hs
  | sync k dr cmds hp _ => simp [Worker.core,hp,Phase.flushes] at hs
  | flushFailed k dr cmds c panicked left e hp _ _ => simp [Worker.core,hp,Phase.flushes] at hs
  | syncGood k dr hp => simp [Worker.core,hp,Phase.flushes] at hs
  | syncFail k dr hp => simp [Worker.core,hp,Phase.flushes] at hs
  | stray i good c _ =>
    cases good <;> exact hi.keep hs _ hs rfl rfl rfl

theorem coalescing_run {v : Device} {s t : Worker} {ls : List Label} (hp : s.phase = .idle)
    (he : s.dirty = .new) (hm : Machine.Meets (step v) (AlignedStep v) s ls)
    (hr : Machine.run (step v) s ls = some t) : Coalescing v s.log t.core := by
  have h0 : Coalescing v s.log s.core := by
    refine .gathers [] ?_ (List.append_nil _).symm ?_ ?_
    · simp [Worker.core,hp,Phase.flushes]
    · simp [Worker.core,hp,he,Phase.handled,Phase.call,Device.acked,coalesce]
    · simp [Worker.core,hp,Phase.handled,Phase.call,Device.acked]
  exact Machine.invariant (I := fun s' => Coalescing v s.log s'.core)
    (fun _ _ _ hi ha h => coalescing_step hi ha (step_core h)) h0 hm hr

def Label.succeeds : Label → Bool
  | .cont | .good _ => true
  | l => l.background

inductive Flushing (v : Device) (d : Image) (ps : List Patch) (c : Core) : Prop
  | writing (k : Caller) (dr : List (Nat × Bytes)) (cmds : List FlushCmd) (done : List Patch) :
      c.phase = .flushing k dr cmds → (∀ x ∈ cmds, ∀ b, x.status ≠ .failed b) →
      c.disk = Patch.applyAll d done → (done ++ v.pending cmds).Perm ps → Flushing v d ps c
  | written (k : Caller) (dr : List (Nat × Bytes)) (done : List Patch) : c.phase = .syncing k dr →
      c.disk = Patch.applyAll d done → done.Perm ps → Flushing v d ps c

theorem flushing_step {v : Device} {d : Image} {ps : List Patch} {s : Worker} {l : Label} {c : Core}
    (hi : Flushing v d ps s.core) (hl : l.succeeds = true) (h : CoreStep v s l c) :
    Flushing v d ps c := by
  cases hi with
  | writing k dr cmds done hp hf hd hps =>
    have hp : s.phase = .flushing k dr cmds := hp
    cases h with
    | background l _ => exact .writing k dr cmds done hp hf hd hps
    | good i k' dr' cmds' x hp' hx hpend =>
      rw [hp] at hp'
      cases hp'
      refine .writing k dr _ (done ++ [x.cmd.patch v.blockSize]) rfl ?_ ?_ ?_
      · intro y hy
        rcases List.mem_or_eq_of_mem_set hy with hy | rfl
        · exact hf y hy
        · simp
      · rw [Patch.applyAll_append,← hd]
        rfl
      · have hset := pending_set (v := v) (x := .good) hx hpend (by simp)
        rw [List.append_assoc]
        exact (List.Perm.append_left done hset.symm).trans hps
    | sync k' dr' cmds' hp' hg =>
      rw [hp] at hp'
      cases hp'
      rw [pending_eq_nil hg,List.append_nil] at hps
      exact .written k dr done rfl hd hps
    | flushFailed k' dr' cmds' x b left e hp' hx hb =>
      rw [hp] at hp'
      cases hp'
      exact absurd hb (hf x hx b)
    | flushNothing l k ht _ =>
      rw [hp] at ht
      cases ht
    | flushStart l k cmds ht _ _ =>
      rw [hp] at ht
      cases ht
    | take r clba acc chunk piece l ht _ _ =>
      cases ht with
      | hit hp' _ => simp [hp] at hp'
      | fetched hp' _ => simp [hp] at hp'
    | readFailed r clba acc e l hp' => simp [hp] at hp'
    | await r clba acc hp' => simp [hp] at hp'
    | readDone r clba last acc hp' _ _ => simp [hp] at hp'
    | invalidate w clba next hp' => simp [hp] at hp'
    | writeDone w clba hp' => simp [hp] at hp'
    | _ => cases hl
  | written k dr done hp hd hps =>
    have hp : s.phase = .syncing k dr := hp
    cases h with
    | background l _ => exact .written k dr done hp hd hps
    | flushNothing l k ht _ =>
      rw [hp] at ht
      cases ht
    | flushStart l k cmds ht _ _ =>
      rw [hp] at ht
      cases ht
    | take r clba acc chunk piece l ht _ _ =>
      cases ht with
      | hit hp' _ => simp [hp] at hp'
      | fetched hp' _ => simp [hp] at hp'
    | good i k' dr' cmds' x hp' _ _ => simp [hp] at hp'
    | sync k' dr' cmds' hp' hg => simp [hp] at hp'
    | flushFailed k' dr' cmds' x b left e hp' _ _ => simp [hp] at hp'
    | readFailed r clba acc e l hp' => simp [hp] at hp'
    | await r clba acc hp' => simp [hp] at hp'
    | readDone r clba last acc hp' _ _ => simp [hp] at hp'
    | invalidate w clba next hp' => simp [hp] at hp'
    | writeDone w clba hp' => simp [hp] at hp'
    | _ => cases hl

theorem flushing_run {v : Device} {d : Image} {ps : List Patch} {s t : Worker} {ls : List Label}
    (hi : Flushing v d ps s.core) (hl : ∀ l ∈ ls, l.succeeds = true)
    (hr : Machine.run (step v) s ls = some t) : Flushing v d ps t.core :=
  Machine.run_invariant_of (I := fun s => Flushing v d ps s.core)
    (fun _ _ _ hi hl h => flushing_step hi hl (step_core h)) hi hl hr

theorem step_syncGood {v : Device} {s t : Worker} (h : step v s .syncGood = some t) :
    ∃ k dr, s.phase = .syncing k dr ∧
      t = { s with log := s.log ++ [Event.syncGood] }.flushDone (.ok ()) k := by
  cases hp : s.phase with
  | syncing k dr =>
    simp only [step,hp,Option.some.injEq] at h
    rw [hp] at *
    exact ⟨k,dr,rfl,h.symm⟩
  | _ => simp [step,hp] at h

def Device.nth (v : Device) (cmds : List FlushCmd) (i : Nat) : Option Patch :=
  cmds[i]?.map (fun c => c.cmd.patch v.blockSize)

theorem goods_run {v : Device} {k : Caller} {dr : List (Nat × Bytes)} (is : List Nat)
    (cmds : List FlushCmd) (s : Worker) (hs : s.phase = .flushing k dr cmds) (hn : is.Nodup)
    (hp : ∀ i ∈ is, ∃ c, cmds[i]? = some c ∧ c.status = .pending) :
    ∃ t cmds', Machine.run (step v) s (is.map .good) = some t ∧ t.phase = .flushing k dr cmds' ∧
      t.disk = Patch.applyAll s.disk (is.filterMap (v.nth cmds)) ∧
      ∀ j c, cmds'[j]? = some c → c.status = .good ∨ (cmds[j]? = some c ∧ j ∉ is) := by
  induction is generalizing cmds s with
  | nil => exact ⟨s,cmds,rfl,hs,rfl,fun j c hc => Or.inr ⟨hc,by simp⟩⟩
  | cons i is ih =>
    obtain ⟨hi,hn⟩ := List.nodup_cons.mp hn
    obtain ⟨c,hc,hpend⟩ := hp i (by simp)
    have hset : ∀ j, j ≠ i → (cmds.set i { c with status := .good })[j]? = cmds[j]? := by
      intro j hj
      exact List.getElem?_set_ne (fun h => hj h.symm)
    have hstep : step v s (.good i) = some { s.writeGood v c.cmd with
        phase := .flushing k dr (cmds.set i { c with status := .good }) } := by
      simp [step,hs,hc,hpend]
    obtain ⟨t,cmds',hr,ht,hd,hst⟩ := ih (cmds.set i { c with status := .good })
      { s.writeGood v c.cmd with
        phase := .flushing k dr (cmds.set i { c with status := .good }) } rfl hn (by
          intro j hj
          rw [hset j (fun h => hi (h ▸ hj))]
          exact hp j (by simp [hj]))
    refine ⟨t,cmds',?_,ht,?_,?_⟩
    · rw [List.map_cons,Machine.run_cons,hstep]
      exact hr
    · have hfm : is.filterMap (v.nth (cmds.set i { c with status := .good })) =
          is.filterMap (v.nth cmds) := by
        refine List.filterMap_congr (fun j hj => ?_)
        rw [Device.nth,Device.nth,hset j (fun h => hi (h ▸ hj))]
      rw [hd,hfm]
      simp [Device.nth,hc,Worker.writeGood]
    · intro j x hx
      rcases hst j x hx with h | ⟨h,hj⟩
      · exact Or.inl h
      · by_cases hji : j = i
        · subst hji
          rw [List.getElem?_set_self (by grind)] at h
          cases h
          exact Or.inl rfl
        · rw [hset j hji] at h
          exact Or.inr ⟨h,by simp [hji,hj]⟩

theorem flush_order_run {v : Device} {u : Worker} {k : Caller} {dr : List (Nat × Bytes)}
    {cs : List WriteCommand} (hu : u.phase = .flushing k dr (cs.map (fun x => ⟨x,.pending⟩)))
    {is : List Nat} (his : is.Perm (List.range cs.length)) :
    ∃ ls t, (∀ l ∈ ls, l.succeeds = true) ∧
      Machine.run (step v) u (ls ++ [.syncGood]) = some t ∧
      t.disk = Patch.applyAll u.disk (is.filterMap (fun i => (v.pieces cs)[i]?)) := by
  obtain ⟨t,cmds,hr,ht,hd,hg⟩ := goods_run (v := v) is _ u hu
    (his.nodup_iff.mpr List.nodup_range) (by
      intro i hi
      have hlt := List.mem_range.mp (his.subset hi)
      exact ⟨⟨cs[i],.pending⟩,by simp [hlt],rfl⟩)
  have hall : ∀ c ∈ cmds, c.status = .good := by
    intro c hc
    obtain ⟨j,hj⟩ := List.getElem?_of_mem hc
    rcases hg j c hj with h | ⟨h,hn⟩
    · exact h
    · have hlt : j < cs.length := by
        by_contra hge
        simp [List.getElem?_eq_none (Nat.not_lt.mp hge)] at h
      exact absurd (his.symm.subset (List.mem_range.mpr hlt)) hn
  let synced : Worker := { t with phase := .syncing k dr, log := t.log ++ [Event.syncIssued] }
  let last := { synced with log := synced.log ++ [Event.syncGood] }.flushDone (.ok ()) k
  have hcont : step v t .cont = some synced := by
    simp only [step,ht,Worker.awaitWrites_good hall]
    rfl
  have hsync : step v synced .syncGood = some last := rfl
  have hdisk : last.disk = t.disk := (Worker.flushDone_sameStore _ (.ok ()) k).disk
  refine ⟨is.map .good ++ [.cont],last,?_,?_,?_⟩
  · intro l hl
    simp at hl
    rcases hl with ⟨i,_,rfl⟩ | rfl <;> rfl
  · exact Machine.run_trans (Machine.run_trans hr (Machine.run_one hcont)) (Machine.run_one hsync)
  · rw [hdisk,hd]
    refine congrArg _ (List.filterMap_congr (fun i _ => ?_))
    simp [Device.nth,Device.pieces,Function.comp_def]

/-- However the target orders the commands, a flush that goes well leaves the
image the Writes make in turn. -/
def FlushWrites (v : Device) (u : Worker) (ws : List Patch) : Prop :=
  ∀ d ls t, (∀ l ∈ ls, l.succeeds = true) →
    Machine.run (step v) { u with disk := d } (ls ++ [.syncGood]) = some t →
    t.disk = Patch.applyAll d ws

theorem flushWrites_of_settled {v : Device} {u : Worker} {k : Caller} {dr : List (Nat × Bytes)}
    {cs : List WriteCommand} {ws : List Patch}
    (hu : u.phase = .flushing k dr (cs.map (fun x => ⟨x,.pending⟩)))
    (hc : v.AllCommands (coalesce v.blockSize ws).drainSorted.1 cs) (hset : Settled v ws)
    (ha : ∀ w ∈ ws, v.blockSize ∣ w.off) : FlushWrites v u ws := by
  intro d ls t hl hr
  obtain ⟨s,hs,hstep⟩ := Machine.run_snoc hr
  have h0 : Flushing v d (v.pieces cs) { u with disk := d }.core := by
    refine .writing k dr _ [] hu ?_ rfl ?_
    · intro x hx b
      obtain ⟨c,_,rfl⟩ := List.mem_map.mp hx
      simp
    · rw [List.nil_append,pending_new]
  obtain ⟨k',dr',hp,rfl⟩ := step_syncGood hstep
  have hdisk := (Worker.flushDone_sameStore { s with log := s.log ++ [Event.syncGood] } (.ok ())
    k').disk
  rw [hdisk]
  cases flushing_run h0 hl hs with
  | writing k dr cmds done hf _ _ _ =>
    have hf : s.phase = _ := hf
    rw [hp] at hf
    cases hf
  | written k dr done _ hd hps =>
    have hd : s.disk = _ := hd
    exact hd.trans (settled_applyAll hc hps hset ha d)

theorem settled_of_flushWrites {v : Device} {u : Worker} {k : Caller} {dr : List (Nat × Bytes)}
    {cs : List WriteCommand} {ws : List Patch}
    (hu : u.phase = .flushing k dr (cs.map (fun x => ⟨x,.pending⟩)))
    (hc : v.AllCommands (coalesce v.blockSize ws).drainSorted.1 cs) (hf : FlushWrites v u ws) :
    Settled v ws := by
  intro p x hx
  have hws : ∀ d, Patch.applyAll d ws p = x := by
    intro d
    rw [Patch.applyAll_lastAt?,hx]
    rfl
  constructor
  · by_contra hno
    have hout : ∀ w ∈ (List.range cs.length).filterMap (fun i => (v.pieces cs)[i]?),
        ¬ w.Covers p := by
      intro w hw hcov
      obtain ⟨i,_,hi⟩ := List.mem_filterMap.mp hw
      obtain ⟨y,hy⟩ := Patch.exists_at? hcov
      obtain ⟨e,he,hex⟩ := hc.at? (List.mem_of_getElem? hi)
      obtain ⟨z,hz,rfl⟩ := mem_drained.mp he
      exact hno ⟨z,hz,Patch.covers_of_at? (hex p y hy)⟩
    obtain ⟨ls,t,hl,hr,hd⟩ := flush_order_run (v := v) (u := { u with disk := fun _ => x+1 }) hu
      (List.Perm.refl _)
    have ht := congrFun (hf _ ls t hl hr) p
    rw [hd,Patch.applyAll_outside hout,hws] at ht
    simp at ht
  · intro w hw y hy
    obtain ⟨q,hq,hqy⟩ := hc.covers (mem_drained.mpr ⟨w,hw,rfl⟩) hy
    obtain ⟨i,hi⟩ := List.getElem?_of_mem hq
    have hlt : i < cs.length := by
      by_contra hge
      rw [List.getElem?_eq_none (by simpa [Device.pieces] using hge)] at hi
      cases hi
    have hperm : ((List.range cs.length).erase i ++ [i]).Perm (List.range cs.length) :=
      List.perm_append_comm.trans (List.perm_cons_erase (List.mem_range.mpr hlt)).symm
    obtain ⟨ls,t,hl,hr,hd⟩ := flush_order_run (v := v) hu hperm
    have ht := congrFun (hf u.disk ls t hl hr) p
    rw [hd,List.filterMap_append,hws] at ht
    have hlast : ([i].filterMap fun i => (v.pieces cs)[i]?) = [q] := by simp [hi]
    rw [hlast,Patch.applyAll_last hqy (by simp)] at ht
    exact ht

/-- A flush writes the last-writer image, in every order of its commands, exactly
when the Writes that survive in the map agree with the last Write wherever they
reach and reach wherever a Write did. -/
theorem flush_last_writer_iff {v : Device} {s u : Worker} {ls : List Label} {k : Caller}
    {dr : List (Nat × Bytes)} {cmds : List FlushCmd} (hp : s.phase = .idle) (he : s.dirty = .new)
    (hm : Machine.Meets (step v) (AlignedStep v) s ls)
    (hr : Machine.run (step v) s ls = some u) (hu : u.phase = .flushing k dr cmds) :
    FlushWrites v u (v.acked (u.log.drop s.log.length) ++ u.phase.handled v) ↔
      Settled v (v.acked (u.log.drop s.log.length) ++ u.phase.handled v) := by
  cases coalescing_run hp he hm hr with
  | gathers l hf _ _ _ =>
    have hf : u.phase.flushes = false := hf
    rw [hu] at hf
    cases hf
  | drained l k' dr' cs hph hlog hdr hc ha =>
    have hlog : u.log = s.log ++ l := hlog
    have hl : u.log.drop s.log.length = l := by rw [hlog,List.drop_left]
    rw [hl]
    subst hdr
    constructor
    · exact settled_of_flushWrites hph hc
    · intro hset
      exact flushWrites_of_settled hph hc hset ha

theorem flush_last_writer_two_writes :
    ∃ u, Machine.run (step smallDevice) (Worker.start smallDevice false zeros)
        [.write 0 [1,2] true,.cont,.cont,.write 4 [3] true,.cont,.cont,.flush] = some u ∧
      FlushWrites smallDevice u [⟨0,[1,2]⟩,⟨4,[3]⟩] := by
  have hset : Settled smallDevice [⟨0,[1,2]⟩,⟨4,[3]⟩] := by
    refine settled_of_apart (List.pairwise_pair.mpr (fun p hp hq => ?_)) (fun w hw => ?_)
    · simp [Patch.Covers] at hp hq
      omega
    · have hm : w = ⟨0,[1,2]⟩ ∨ w = ⟨4,[3]⟩ := by simpa using hw
      rcases hm with rfl | rfl <;> rfl
  have hm : Machine.Meets (step smallDevice) (AlignedStep smallDevice)
      (Worker.start smallDevice false zeros)
      [.write 0 [1,2] true,.cont,.cont,.write 4 [3] true,.cont,.cont,.flush] :=
    Machine.meets_of_check (by decide)
  exact ⟨_,rfl,(flush_last_writer_iff rfl rfl hm rfl rfl).mpr hset⟩

/-- A shorter Write with the same start drops the tail of the longer one. -/
theorem shorter_write_drops_tail :
    ∃ t, Machine.run (step smallDevice) (Worker.start smallDevice false zeros)
        [.write 0 [1,1,1,1] true,.cont,.cont,.write 0 [2,2] true,.cont,.cont,
          .flush,.good 0,.cont,.syncGood] = some t ∧
      t.disk ≠ Patch.applyAll zeros [⟨0,[1,1,1,1]⟩,⟨0,[2,2]⟩] := by
  refine ⟨_,rfl,fun h => ?_⟩
  have h2 := congrFun h 2
  revert h2
  decide

end IscsiFuse.Block
