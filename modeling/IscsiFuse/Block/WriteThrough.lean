import IscsiFuse.Block.Durability
import IscsiFuse.Block.ReadYourWrites
set_option autoImplicit false

namespace IscsiFuse.Block
open IscsiFuse.Iscsi

def Phase.Holds (v : Device) (dirty : DirtyMap) (w : WriteCall) (r : List Event) : Phase → Prop
  | .invalidating _ _ => ∀ p x, (w.patch v).at? p = some x →
      ∃ e ∈ dirty.entries.entries, (Patch.mk (e.1*v.blockSize) e.2.data).at? p = some x
  | .flushing _ _ cmds => ∀ p x, (w.patch v).at? p = some x →
      ∃ y ∈ cmds, (y.cmd.patch v.blockSize).at? p = some x ∧
        (y.status = .good → .accepted (y.cmd.patch v.blockSize) ∈ r)
  | .syncing _ _ => ∀ p x, (w.patch v).at? p = some x →
      ∃ u : Patch, u.at? p = some x ∧ [.accepted u,.syncIssued].Sublist r
  | _ => True

/-- The Write being handled is somewhere on its way to the target. -/
structure InHand (v : Device) (c : Core) : Prop where
  sized : ∀ e ∈ c.dirty.entries.entries, v.blockSize ∣ e.2.data.length ∧ e.2.data.length < 2^32
  holds : ∀ w, c.phase.call = some w → ∀ r, Open c.log w.offset w.data r →
    c.phase.Holds v c.dirty w r

/-- The blocks of a Write that is inserted fit in a command. -/
def FitsCommand (v : Device) (_ : Worker) : Label → Prop
  | .write offset data rmwOk => v.inserts offset data rmwOk = true →
      (v.writeBlocks offset data).2*v.blockSize < 2^32
  | _ => True

namespace InHand

variable {v : Device} {s : Worker} {c : Core}

theorem of_none (hs : ∀ e ∈ c.dirty.entries.entries,
    v.blockSize ∣ e.2.data.length ∧ e.2.data.length < 2^32) (hc : c.phase.call = none) :
    InHand v c where
  sized := hs
  holds := fun w hw => by
    rw [hc] at hw
    cases hw

theorem grow (h : InHand v s.core) {m : List Event} (hm : ∀ e ∈ m, e.isReceived = false)
    (hd : c.dirty = s.dirty) (hp : c.phase = s.phase) (hl : c.log = s.log ++ m) : InHand v c where
  sized := hd ▸ h.sized
  holds := by
    intro w hw r ho
    rw [hp] at hw ⊢
    rw [hl] at ho
    obtain ⟨r',rfl,ho'⟩ := open_append hm ho
    have hh := h.holds w hw r' ho'
    change s.phase.Holds v s.dirty w r' at hh
    rw [hd]
    generalize s.phase = p at hh ⊢
    cases p with
    | invalidating w' clba => exact hh
    | flushing k dr cmds =>
      intro p x hx
      obtain ⟨y,hy,hyx,hg⟩ := hh p x hx
      exact ⟨y,hy,hyx,fun hs => List.mem_append_left _ (hg hs)⟩
    | syncing k dr =>
      intro p x hx
      obtain ⟨u,hu,hs⟩ := hh p x hx
      exact ⟨u,hu,hs.trans (List.sublist_append_left r' m)⟩
    | idle | reading r clba acc | awaiting r clba acc | stopped => trivial

theorem insert {offset : Nat} {data buf : Bytes} {rmwOk : Bool} {w : WriteCall} {clba : Nat}
    (h : InHand v s.core) (hw : w.Of v s offset data) (hb : w.Buffer v s rmwOk buf)
    (hf : FitsCommand v s (.write offset data rmwOk)) :
    InHand v { s.core with log := s.log ++ [Event.received offset data],
                           dirty := s.dirty.insert w.startLba w.blockCount buf,
                           phase := .invalidating w clba } := by
  have hlt := hf (inserts_of_buffer hw hb)
  have hbuf := buffered_of_buffer hw hb hlt
  obtain ⟨hblocks,_⟩ := hw.span hlt
  constructor
  · intro e he
    simp only [DirtyMap.insert_entries,OrdMap.mem_insert] at he
    rcases he with rfl | ⟨he,_⟩
    · have hn : w.blockCount*v.blockSize < 2^32 := by
        rw [← hblocks] at hlt
        exact hlt
      exact ⟨hbuf.full ▸ Nat.dvd_mul_left _ _,hbuf.full ▸ hn⟩
    · exact h.sized e he
  · intro w' hw' r _ p x hx
    cases hw'
    exact ⟨(w.startLba,⟨buf,w.blockCount⟩),by simp,buffered_patch hw hbuf hlt hx⟩

theorem start {l : Label} {k : Caller} {cmds : List (List WriteCommand)} (h : InHand v s.core)
    (hk : Triggers s.phase l k)
    (hc : s.dirty.drainSorted.1.mapM (fun e => v.pipeline.writeCommands e.1 e.2) = some cmds) :
    InHand v { s.core with
      dirty := .new
      phase := .flushing k s.dirty.drainSorted.1 (cmds.flatten.map (fun c => ⟨c,.pending⟩)) } := by
  have hall : v.AllCommands s.dirty.drainSorted.1 cmds.flatten := ⟨cmds,hc,rfl⟩
  constructor
  · intro e he
    cases he
  · intro w hw r ho p x hx
    generalize hp : s.phase = q at hk
    cases hk with
    | flush | tick | close => cases hw
    | write w' clba =>
      cases hw
      have hh := h.holds w (by rw [show s.core.phase = _ from hp]; rfl) r ho
      rw [show s.core.phase = _ from hp] at hh
      obtain ⟨e,he,hex⟩ := hh p x hx
      obtain ⟨hdvd,hlt⟩ := h.sized e he
      have hsub : (v.submitted (e.1,e.2.data)).at? p = some x := by
        rw [Device.submitted,Pipeline.carried_eq hlt hdvd]
        exact hex
      obtain ⟨u,hu,hux⟩ := hall.covers (List.mem_map.mpr ⟨e,he,rfl⟩) hsub
      obtain ⟨z,hz,rfl⟩ := List.mem_map.mp hu
      exact ⟨⟨z,.pending⟩,List.mem_map.mpr ⟨z,hz,rfl⟩,hux,fun hg => by cases hg⟩

theorem outcome {k : Caller} {dr : List (Nat × Bytes)} {cmds : List FlushCmd} {y : FlushCmd}
    {i : Nat} {st : CmdStatus} {m : List Event} (h : InHand v s.core)
    (hp : s.phase = .flushing k dr cmds) (hy : cmds[i]? = some y)
    (hm : ∀ e ∈ m, e.isReceived = false)
    (hg : st = .good → .accepted (y.cmd.patch v.blockSize) ∈ m) (hd : c.dirty = s.dirty)
    (hc : c.phase = .flushing k dr (cmds.set i { y with status := st })) (hl : c.log = s.log ++ m) :
    InHand v c := by
  constructor
  · rw [hd]
    exact h.sized
  · intro w hw r ho
    rw [hl] at ho
    obtain ⟨r',rfl,ho'⟩ := open_append hm ho
    have hcall : s.core.phase.call = some w := by
      rw [show s.core.phase = _ from hp,← hw,hc]
      cases k <;> rfl
    have hh := h.holds w hcall r' ho'
    rw [show s.core.phase = _ from hp] at hh
    rw [hc]
    intro p x hx
    obtain ⟨z,hz,hzx,hzg⟩ := hh p x hx
    obtain ⟨j,hj⟩ := List.getElem?_of_mem hz
    by_cases hji : j = i
    · subst hji
      obtain rfl := Option.some.inj (hj.symm.trans hy)
      have hlt := (List.getElem?_eq_some_iff.mp hy).1
      exact ⟨_,List.mem_set hlt _,hzx,fun hs => List.mem_append_right _ (hg hs)⟩
    · refine ⟨z,List.mem_of_getElem? (i := j) ?_,hzx,fun hs => List.mem_append_left _ (hzg hs)⟩
      rw [List.getElem?_set_ne (fun h => hji h.symm)]
      exact hj

theorem sync {k : Caller} {dr : List (Nat × Bytes)} {cmds : List FlushCmd} (h : InHand v s.core)
    (hp : s.phase = .flushing k dr cmds) (hg : ∀ y ∈ cmds, y.status = .good) :
    InHand v { s.core with phase := .syncing k dr, log := s.log ++ [Event.syncIssued] } := by
  refine ⟨h.sized,fun w hw r ho p x hx => ?_⟩
  obtain ⟨r',rfl,ho'⟩ := open_append (m := [.syncIssued]) (by simp [Event.isReceived]) ho
  have hcall : s.core.phase.call = some w := by
    rw [show s.core.phase = _ from hp,← hw]
    cases k <;> rfl
  have hh := h.holds w hcall r' ho'
  rw [show s.core.phase = _ from hp] at hh
  obtain ⟨y,hy,hyx,ha⟩ := hh p x hx
  exact ⟨_,hyx,(List.singleton_sublist.mpr (ha (hg y hy))).append (List.Sublist.refl _)⟩

end InHand

theorem in_hand_step {v : Device} {s : Worker} {l : Label} {c : Core} (h : InHand v s.core)
    (hf : FitsCommand v s l) (hstep : CoreStep v s l c) : InHand v c := by
  cases hstep with
  | background l _ => exact h
  | emptyRead | dirtyRead | startRead | readDone | readFailed | emptyWrite | failedWrite
  | writeDone => exact .of_none h.sized rfl
  | await r clba acc hp | take r clba acc chunk piece l ht => exact .of_none h.sized rfl
  | insert offset data rmwOk w buf clba hp hw hb => exact h.insert hw hb hf
  | invalidate w clba next hp =>
    refine ⟨h.sized,fun w' hw' r ho => ?_⟩
    cases hw'
    have hh := h.holds w (by rw [show s.core.phase = _ from hp]; rfl) r ho
    rw [show s.core.phase = _ from hp] at hh
    exact hh
  | flushNothing l k _ he => cases k <;> exact .of_none h.sized rfl
  | flushStart l k cmds hk _ hc => exact h.start hk hc
  | good i k dr cmds y hp hy _ =>
    exact h.outcome (m := [_]) hp hy (by simp [Event.isReceived]) (by simp) rfl rfl rfl
  | fail i applied panicked k dr cmds y hp hy _ =>
    exact h.outcome (m := []) hp hy (by simp) (fun hs => by cases hs) rfl rfl
      (List.append_nil _).symm
  | sync k dr cmds hp hg => exact h.sync hp hg
  | flushFailed k | syncGood k | syncFail k => cases k <;> exact .of_none h.sized rfl
  | stray i good y hy =>
    refine h.grow (m := if good then [_] else []) ?_ rfl rfl rfl
    cases good <;> simp [Event.isReceived]

theorem invalidateStep_sync {v : Device} {s t : Worker} {w : WriteCall} {clba : Nat}
    (hm : s.syncWrites = true) (h : s.invalidateStep v w clba = some t) :
    (∃ next, t.phase = .invalidating w next ∧ t.log = s.log) ∨
    ∃ ra, { s with ra := ra }.startFlush v (.write w) = some t := by
  unfold Worker.invalidateStep at h
  simp only [Option.bind_eq_bind,Option.bind_eq_some_iff] at h
  obtain ⟨last,_,h⟩ := h
  split at h
  · simp only [Option.bind_eq_some_iff] at h
    obtain ⟨next,_,h⟩ := h
    cases h
    exact Or.inl ⟨next,rfl,rfl⟩
  · rw [if_pos (Or.inl hm)] at h
    exact Or.inr ⟨_,h⟩

theorem acks_last {l : List Event} {e : Event} {offset : Nat} {data : Bytes} {r : List Event}
    (h : Acks (l ++ [e]) offset data r []) : ∃ mid n, e = .writeReply offset data (.ok n) ∧
      r = mid ++ [e] ∧ Open l offset data mid := by
  rcases acks_snoc h with ⟨mid,n,he,hr,_,ho⟩ | ⟨_,post',_,hp,_⟩
  · exact ⟨mid,n,he,hr,ho⟩
  · exact absurd hp.symm (by simp)

theorem InHand.answered {v : Device} {s : Worker} {l : Label} {c : Core} {offset : Nat}
    {data : Bytes} {r : List Event} (h : InHand v s.core) (hstep : CoreStep v s l c)
    (hnew : c.log ≠ s.log) (ha : Acks c.log offset data r []) :
    (∀ p x, (v.writePatch offset data).at? p = some x → Synced r p x) ∨
    (∃ w clba, s.phase = .invalidating w clba ∧ l = .cont ∧ w.offset = offset ∧ w.data = data ∧
      ∃ mid, Open s.log offset data mid) := by
  cases hstep with
  | background l _ | startRead | await | take | invalidate | flushStart | fail =>
    exact absurd rfl hnew
  | emptyRead | dirtyRead | readDone | readFailed | good | sync | insert | failedWrite =>
    obtain ⟨_,_,he,_⟩ := acks_last ha
    cases he
  | emptyWrite o d rmwOk hp hempty =>
    obtain ⟨_,_,he,_⟩ := acks_last ha
    cases he
    left
    intro p x hx
    have hcov := Patch.covers_of_at? hx
    have hn : (v.writePatch offset data).data = [] := by
      rcases hempty with rfl | hempty
      · simp [Device.writePatch]
      · simp [Device.writePatch,Nat.sub_eq_zero_of_le hempty]
    simp only [Patch.Covers,hn,List.length_nil] at hcov
    omega
  | writeDone w clba hp =>
    obtain ⟨mid,_,he,_,ho⟩ := acks_last ha
    cases he
    exact Or.inr ⟨w,clba,hp,rfl,rfl,rfl,mid,ho⟩
  | flushNothing l k hk he =>
    generalize hp : s.phase = q at hk
    cases hk with
    | flush =>
      obtain ⟨_,_,he,_⟩ := acks_last ha
      cases he
    | tick | close => exact absurd rfl hnew
    | write w clba =>
      obtain ⟨mid,_,hx,_,ho⟩ := acks_last ha
      cases hx
      exact Or.inr ⟨w,clba,rfl,rfl,rfl,rfl,mid,ho⟩
  | flushFailed k dr cmds y panicked left e hp hy hb =>
    cases k with
    | request | write w =>
      obtain ⟨_,_,he,_⟩ := acks_last ha
      cases he
    | timer | closing => exact absurd rfl hnew
  | syncFail k dr hp =>
    cases k with
    | request | write w =>
      obtain ⟨_,_,he,_⟩ := acks_last ha
      cases he
    | timer | closing => exact absurd rfl hnew
  | syncGood k dr hp =>
    cases k with
    | request | timer | closing =>
      obtain ⟨_,_,he,_⟩ := acks_last ha
      cases he
    | write w =>
      obtain ⟨mid,_,he,rfl,ho⟩ := acks_last ha
      cases he
      obtain ⟨r',rfl,ho'⟩ := open_append (m := [.syncGood]) (by simp [Event.isReceived]) ho
      left
      intro p x hx
      have hh := h.holds w (by rw [show s.core.phase = _ from hp]; rfl) r' ho'
      rw [show s.core.phase = _ from hp] at hh
      obtain ⟨u,hu,hs⟩ := hh p x hx
      have hsynced : Synced (r' ++ [.syncGood]) p x := ⟨u,hu,hs.append (List.Sublist.refl _)⟩
      exact hsynced.append _
  | stray i good y hy =>
    cases good with
    | false => exact absurd (List.append_nil _) hnew
    | true =>
      obtain ⟨_,_,he,_⟩ := acks_last ha
      cases he

/-- A Write that is answered Ok while sync mode is on was accepted by the target, and a
SYNCHRONIZE CACHE issued after that completed, before the answer. -/
theorem sync_write_through {v : Device} {syncWrites : Bool} {d : Image} {ls : List Label}
    {s t : Worker} {l : Label} {offset : Nat} {data : Bytes} {r : List Event}
    (hfit : Machine.Meets (step v) (FitsCommand v) (Worker.start v syncWrites d) ls)
    (hr : Machine.run (step v) (Worker.start v syncWrites d) ls = some s)
    (hm : s.syncWrites = true) (hs : step v s l = some t) (hnew : t.log ≠ s.log)
    (ha : Acks t.log offset data r []) :
    ∀ p x, (v.writePatch offset data).at? p = some x → Synced r p x := by
  have hstart : InHand v (Worker.start v syncWrites d).core :=
    .of_none (fun e he => by cases he) rfl
  have h : InHand v s.core := Machine.invariant (I := fun s => InHand v s.core)
    (fun s l t hi hf hs => in_hand_step hi hf (step_core hs)) hstart hfit hr
  rcases h.answered (step_core hs) hnew ha with hsync | ⟨w,clba,hp,rfl,rfl,rfl,mid,ho⟩
  · exact hsync
  -- The Write was answered at the end of its invalidation, so nothing of it was dirty.
  · have hstep : s.invalidateStep v w clba = some t := by simpa only [step,hp] using hs
    rcases invalidateStep_sync hm hstep with ⟨_,_,hl⟩ | ⟨ra,hflush⟩
    · exact absurd hl hnew
    · rcases Worker.startFlush_cases hflush with ⟨he,_⟩ | ⟨_,_,_,rfl⟩
      · intro p x hx
        have hh := h.holds w (by rw [show s.core.phase = _ from hp]; rfl) mid ho
        rw [show s.core.phase = _ from hp] at hh
        obtain ⟨e,hmem,_⟩ := hh p x hx
        have he : s.dirty.entries.entries = [] := he
        rw [show s.core.dirty = s.dirty from rfl,he] at hmem
        cases hmem
      · exact absurd rfl hnew

/-- A Write that waits in the dirty map when the mode is switched, and one after it. -/
theorem sync_write_through_switched : ∃ s t, Machine.run (step smallDevice)
      (Worker.start smallDevice false zeros) [.write 5 [1,2] true,.cont,.cont,.setSyncWrites true,
        .write 6 [3] true,.cont,.cont,.good 1,.good 0,.cont] = some s ∧
    step smallDevice s .syncGood = some t ∧
    ∀ p x, (smallDevice.writePatch 6 [3]).at? p = some x →
      Synced [.accepted ⟨6,[3]⟩,.accepted ⟨5,[1,2]⟩,.syncIssued,.syncGood,
        .writeReply 6 [3] (.ok 1)] p x := by
  have hfit : Machine.Meets (step smallDevice) (FitsCommand smallDevice)
      (Worker.start smallDevice false zeros) [.write 5 [1,2] true,.cont,.cont,.setSyncWrites true,
        .write 6 [3] true,.cont,.cont,.good 1,.good 0,.cont] := by
    refine Machine.meets_of_forall (fun l hl s => ?_)
    simp only [List.mem_cons,List.not_mem_nil,or_false] at hl
    rcases hl with rfl | rfl | rfl | rfl | rfl | rfl | rfl | rfl | rfl | rfl
    all_goals first | trivial | exact fun _ => by decide
  refine ⟨_,_,rfl,rfl,sync_write_through (l := .syncGood) hfit rfl rfl rfl (fun h => ?_) ?_⟩
  · have hlen := congrArg List.length h
    revert hlen
    decide
  · exact ⟨[.received 5 [1,2],.writeReply 5 [1,2] (.ok 2)],[.accepted ⟨6,[3]⟩,.accepted ⟨5,[1,2]⟩,
      .syncIssued,.syncGood],1,rfl,rfl,by simp [Event.isReceived]⟩

namespace Worker

variable {v : Device} {s t : Worker}

theorem flushDone_mode (s : Worker) (r : Reply Unit) (k : Caller) :
    (s.flushDone r k).syncWrites = s.syncWrites := by cases k <;> rfl

theorem startFlush_mode {k : Caller} (h : s.startFlush v k = some t) :
    t.syncWrites = s.syncWrites := by
  rcases startFlush_cases h with ⟨_,rfl⟩ | ⟨_,_,_,rfl⟩
  · exact flushDone_mode s _ k
  · rfl

theorem takeChunk_mode {r : ReadCall} {clba : Nat} {acc chunk : Bytes}
    (h : s.takeChunk v r clba acc chunk = some t) : t.syncWrites = s.syncWrites := by
  obtain ⟨_,_,rfl,_⟩ := takeChunk_cases h
  rfl

theorem step_mode {l : Label} (h : step v s l = some t) :
    t.syncWrites = s.syncWrites ∨ l = .setSyncWrites t.syncWrites := by
  unfold step at h
  split at h
  · rcases recvRead_cases h with rfl | ⟨r,_,⟨_,_,_,rfl⟩ | ⟨_,_,_,rfl⟩⟩ <;> exact Or.inl rfl
  · rcases recvWrite_cases h with ⟨_,rfl,_⟩ | ⟨_,_,_,_,_,_,rfl⟩ <;> exact Or.inl rfl
  · exact Or.inl (startFlush_mode h)
  · cases h
    exact Or.inr rfl
  · split at h
    · cases h
      exact Or.inl rfl
    · exact Or.inl (startFlush_mode h)
  · exact Or.inl (startFlush_mode h)
  · obtain ⟨_,_,h⟩ := readStep_cases h
    rcases h with ⟨_,_,_,h⟩ | ⟨_,_,_,rfl⟩ | ⟨_,_,rfl⟩ | ⟨_,_,_,⟨_,rfl⟩ | rfl⟩
    · exact Or.inl (takeChunk_mode h)
    all_goals exact Or.inl rfl
  · rcases invalidateStep_cases h with ⟨_,rfl⟩ | ⟨_,h⟩ | ⟨_,rfl⟩
    · exact Or.inl rfl
    · have hm := startFlush_mode h
      exact Or.inl hm
    · exact Or.inl rfl
  · rcases awaitWrites_cases h with ⟨_,rfl⟩ | ⟨_,_,_,_,_,_,rfl⟩
    · exact Or.inl rfl
    · exact Or.inl (flushDone_mode _ _ _)
  · simp only [Option.bind_eq_bind,Option.bind_eq_some_iff] at h
    obtain ⟨c,_,h⟩ := h
    split at h
    · cases h
      exact Or.inl rfl
    · cases h
  · simp only [Option.bind_eq_bind,Option.bind_eq_some_iff] at h
    obtain ⟨c,_,h⟩ := h
    split at h
    · split at h <;> cases h <;> exact Or.inl rfl
    · cases h
  · cases h
    exact Or.inl (flushDone_mode _ _ _)
  · cases h
    exact Or.inl (flushDone_mode _ _ _)
  · obtain ⟨_,_,_,⟨rfl,_⟩ | ⟨_,_,_,h⟩⟩ := fetchDone_cases h
    · exact Or.inl rfl
    · have hm := takeChunk_mode h
      exact Or.inl hm
  · obtain ⟨_,rfl | ⟨_,_,_,rfl⟩⟩ := fetchFailed_cases h <;> exact Or.inl rfl
  · obtain ⟨_,_,rfl | ⟨_,_,rfl⟩⟩ := raStep_cases h <;> exact Or.inl rfl
  · cases h
    exact Or.inl rfl
  · simp only [Option.bind_eq_bind,Option.bind_eq_some_iff] at h
    obtain ⟨c,_,h⟩ := h
    split at h <;> cases h <;> exact Or.inl rfl
  · cases h

end Worker

def Label.steady (v : Device) : Label → Bool
  | .write offset data rmwOk => v.inserts offset data rmwOk = true →
      (v.writeBlocks offset data).2*v.blockSize < 2^32
  | .fail _ _ _ | .syncFail | .strayApplied _ _ => false
  | .setSyncWrites enabled => enabled
  | _ => true

/-- Moreover the target changes no chunk that is cached or being fetched. -/
def SteadyStep (v : Device) (s : Worker) (l : Label) : Prop :=
  l.steady v = true ∧ LeavesHeld v s l

structure Through (v : Device) (d : Image) (s : Worker) : Prop where
  mode : s.syncWrites = true
  clean : (∀ w clba, s.phase ≠ .invalidating w clba) → s.dirty.entries.entries = []
  represents : Represents v d s.core
  fresh : Fresh v s

namespace Through

variable {v : Device} {d : Image} {s t : Worker} {l : Label}

theorem separate (h : Through v d s) (hs : step v s l = some t) (hl : SteadyStep v s l) :
    SeparateStep v s l := by
  have hidle : s.phase = .idle → s.dirty.entries.entries = [] := fun hp =>
    h.clean (fun w clba hq => by rw [hp] at hq; cases hq)
  refine ⟨?_,hl.2⟩
  have hst := hl.1
  cases l with
  | read offset size =>
    cases hp : s.phase with
    | idle => simp [Label.separate,hidle hp]
    | _ => simp [step,hp] at hs
  | write offset data rmwOk =>
    cases hp : s.phase with
    | idle =>
      simp only [Label.steady,decide_eq_true_eq] at hst
      simp only [Label.separate,hidle hp,decide_eq_true_eq]
      exact fun hi => ⟨hst hi,by simp⟩
    | _ => simp [step,hp] at hs
  | fail | syncFail | strayApplied => cases hst
  | _ => rfl

theorem clean_step (h : Through v d s) (hs : step v s l = some t) :
    (∀ w clba, t.phase ≠ .invalidating w clba) → t.dirty.entries.entries = [] := by
  have hkeep : ∀ {p : Phase}, s.phase = p → (∀ w clba, p ≠ .invalidating w clba) →
      s.dirty.entries.entries = [] := fun hp hn => h.clean (hp ▸ hn)
  have hc := step_core hs
  generalize htc : t.core = c at hc
  have hph : t.phase = c.phase := htc ▸ rfl
  have hd : t.dirty = c.dirty := htc ▸ rfl
  intro hn
  rw [hph] at hn
  rw [hd]
  cases hc with
  | background l _ | stray => exact h.clean hn
  | emptyRead _ _ hp | dirtyRead _ _ _ _ hp | startRead _ _ _ _ hp | await _ _ _ hp
  | readDone _ _ _ _ hp | emptyWrite _ _ _ hp | failedWrite _ _ _ _ hp =>
    exact hkeep hp (fun _ _ hq => by cases hq)
  | take r clba acc chunk piece l ht =>
    cases ht with
    | hit hp _ | fetched hp _ => exact hkeep hp (fun _ _ hq => by cases hq)
  | readFailed r clba acc e l hp =>
    rcases hp with hp | hp <;> exact hkeep hp (fun _ _ hq => by cases hq)
  | insert | invalidate => exact absurd rfl (hn _ _)
  | flushNothing l k _ he => cases k <;> exact he
  | flushStart => rfl
  | good _ _ _ _ _ hp | fail _ _ _ _ _ _ _ hp | sync _ _ _ hp =>
    exact hkeep hp (fun _ _ hq => by cases hq)
  | flushFailed k _ _ _ _ _ _ hp | syncGood k _ hp | syncFail k _ hp =>
    have he := hkeep hp (fun _ _ hq => by cases hq)
    cases k <;> exact he
  | writeDone w clba hp =>
    have hstep : s.invalidateStep v w clba = some t := by simpa only [step,hp] using hs
    have hidle : t.phase = .idle := hph
    rcases invalidateStep_sync h.mode hstep with ⟨_,hq,_⟩ | ⟨ra,hflush⟩
    · rw [hidle] at hq
      cases hq
    · rcases Worker.startFlush_cases hflush with ⟨he,_⟩ | ⟨_,_,_,rfl⟩
      · exact he
      · cases hidle

theorem through_step (h : Through v d s) (hs : step v s l = some t) (hl : SteadyStep v s l) :
    Through v d t where
  mode := by
    rcases Worker.step_mode hs with hm | hm
    · exact hm.trans h.mode
    · have hst := hl.1
      rw [hm] at hst
      exact hst
  clean := h.clean_step hs
  represents := represents_step h.represents h.fresh (h.separate hs hl) (step_core hs)
  fresh := fresh_step h.fresh hl.2 hs

theorem medium (h : Through v d s) (hp : s.phase = .idle) :
    s.disk = Patch.applyAll d (v.acked s.log) := by
  have he := h.clean (fun _ _ hq => by rw [hp] at hq; cases hq)
  have hi := h.represents.image
  simp only [Worker.core,hp,Phase.commands,Phase.handled,Phase.call,DirtyMap.patches,he,
    Device.pending,List.filter_nil,List.map_nil,Option.map_none,Option.toList_none,
    List.append_nil,Patch.applyAll_nil] at hi
  exact hi

end Through

/-- In sync mode no Read returns old data and the target is never behind the answers, for every
overlap of the requests. -/
theorem sync_mode_current {v : Device} {d : Image} {ls : List Label} {t : Worker}
    (hm : Machine.Meets (step v) (SteadyStep v) (Worker.start v true d) ls)
    (hr : Machine.run (step v) (Worker.start v true d) ls = some t) :
    ReadsCurrent v d t.log ∧ (t.phase = .idle → t.disk = Patch.applyAll d (v.acked t.log)) := by
  have hstart : Through v d (Worker.start v true d) :=
    ⟨rfl,fun _ => rfl,represents_start v true d,fresh_start v true d⟩
  have h : Through v d t := Machine.invariant (I := Through v d)
    (fun s l t hi hl hs => hi.through_step hs hl) hstart hm hr
  exact ⟨h.represents.current,h.medium⟩

theorem sync_mode_current_written : ∃ t, Machine.run (step smallDevice)
      (Worker.start smallDevice true zeros)
      ([.write 5 [1] true,.cont,.cont] ++ ([.good 0] ++ [.cont,.syncGood,.read 4 2])) = some t ∧
    ReadsCurrent smallDevice zeros t.log ∧
    (t.phase = .idle → t.disk = Patch.applyAll zeros (smallDevice.acked t.log)) := by
  have hn : ∀ ls : List Label, (∀ l ∈ ls, ∀ s, l.target smallDevice s = none) → ∀ s,
      Machine.Meets (step smallDevice) (LeavesHeld smallDevice) s ls :=
    fun ls h s => Machine.meets_of_forall (fun l hl s => leavesHeld_of_target_none (h l hl s))
  have hheld : Machine.Meets (step smallDevice) (LeavesHeld smallDevice)
      (Worker.start smallDevice true zeros)
      ([.write 5 [1] true,.cont,.cont] ++ ([.good 0] ++ [.cont,.syncGood,.read 4 2])) := by
    refine (Machine.meets_append rfl).mpr ⟨hn _ (by simp; exact ⟨fun _ => rfl,fun _ => rfl⟩) _,
      (Machine.meets_append rfl).mpr ⟨⟨leavesHeld_of_holds_none (fun c hc => ?_),
        fun _ _ => trivial⟩,hn _ (by simp; exact ⟨fun _ => rfl,fun _ => rfl,fun _ => rfl⟩) _⟩⟩
    -- Nothing was read, so no chunk is cached or on its way.
    rcases hc with hc | hc
    · by_cases h0 : c = 0
      · subst h0
        exact hc rfl
      · exact hc (dif_neg h0)
    · exact hc rfl
  have hsteady : Machine.Meets (step smallDevice) (fun _ l => l.steady smallDevice = true)
      (Worker.start smallDevice true zeros)
      ([.write 5 [1] true,.cont,.cont] ++ ([.good 0] ++ [.cont,.syncGood,.read 4 2])) :=
    Machine.meets_of_check (by decide)
  exact ⟨_,rfl,sync_mode_current (Machine.meets_and hsteady hheld) rfl⟩

end IscsiFuse.Block
