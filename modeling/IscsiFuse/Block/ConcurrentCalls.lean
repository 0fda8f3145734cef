import IscsiFuse.Block.BlockDevice
set_option autoImplicit false

/-!
Calls from several threads. Every call takes its effect when the worker replies, so the history is
linearizable; what the worker guarantees in sequence holds between threads.
-/

namespace IscsiFuse.Block
open IscsiFuse.Iscsi

/-- The reply of the worker behind the effect of a call. -/
def replied : Nat × BlockRequest × Except CallError Answer → Option (BlockRequest × Answer)
  | (_,.setSyncWrites _,_) => none
  | (_,q,.ok a) => some (q,a)
  | (_,_,.error _) => none

def CallState.In (h : CallHistory) (k : Nat) : CallState → Prop
  | .idle => ∀ q, .invoke k q ∉ h
  | .sending q | .waiting q => .invoke k q ∈ h ∧ ∀ q' x, .effect k q' x ∉ h
  | .answered x => ∃ q, .effect k q x ∈ h
  | .returned => ∃ q x, .effect k q x ∈ h

theorem CallState.In.other {h : CallHistory} {k : Nat} {c : CallState} (hc : c.In h k)
    {e : CallEvent Nat BlockRequest (Except CallError Answer)} (hk : e.key ≠ k) :
    c.In (h ++ [e]) k := by
  have hne : ∀ e', e' ∉ h → e'.key = k → e' ∉ h ++ [e] := by
    intro e' hn he hm
    rcases List.mem_append.mp hm with hm | hm
    · exact hn hm
    · exact hk (List.mem_singleton.mp hm ▸ he)
  cases c with
  | idle => exact fun q => hne _ (hc q) rfl
  | sending | waiting => exact ⟨List.mem_append_left _ hc.1,fun q x => hne _ (hc.2 q x) rfl⟩
  | answered =>
    obtain ⟨q,hq⟩ := hc
    exact ⟨q,List.mem_append_left _ hq⟩
  | returned =>
    obtain ⟨q,x,hq⟩ := hc
    exact ⟨q,x,List.mem_append_left _ hq⟩

/-- History and calls agree, and the messages that are not answered are those in the channel and
the one that is served. -/
structure Wired (s : BlockDevice) : Prop where
  pointed : CallEvent.Pointed s.history
  calls : ∀ k, (s.calls k).In s.history k
  queued : ∀ c ∈ s.serving.toList ++ s.channel, s.calls c.1 = .waiting c.2
  apart : ((s.serving.toList ++ s.channel).map Prod.fst).Nodup
  serving : s.running = true → s.serving.map Prod.snd = s.worker.phase.request
  crashed : s.running = false → s.serving = none ∧ s.channel = []
  replies : (CallEvent.effects s.history).filterMap replied = s.worker.log.filterMap Event.answer?
  sent : s.running = true → s.sent =
    (CallEvent.effects s.history).map (fun x => (x.1,x.2.1)) ++ s.serving.toList ++ s.channel

theorem calls_in {f : Nat → CallState} {h : CallHistory} (hf : ∀ k, (f k).In h k) {j : Nat}
    {c : CallState} {e : CallEvent Nat BlockRequest (Except CallError Answer)} (he : e.key = j)
    (hc : c.In (h ++ [e]) j) (k : Nat) : (Function.update f j c k).In (h ++ [e]) k := by
  by_cases hk : k = j
  · subst hk
    rwa [Function.update_self]
  · rw [Function.update_of_ne hk]
    exact (hf k).other (fun h' => hk (h'.symm.trans he))

namespace Wired

variable {v : Device} {s t : BlockDevice}

theorem spawn (v : Device) (syncWrites : Bool) (d : Image) : Wired (.spawn v syncWrites d) where
  pointed := .nil
  calls := fun _ _ hm => by cases hm
  queued := fun _ hc => by cases hc
  apart := List.nodup_nil
  serving := fun _ => rfl
  crashed := fun hr => by cases hr
  replies := rfl
  sent := fun _ => rfl

theorem queued_other {k : Nat} (h : Wired s) (hk : ∀ q, s.calls k ≠ .waiting q) (x : CallState)
    {c : Call} (hc : c ∈ s.serving.toList ++ s.channel) :
    Function.update s.calls k x c.1 = .waiting c.2 := by
  have hq := h.queued c hc
  exact (Function.update_of_ne (fun he => hk c.2 (by rw [← he]; exact hq)) _ _).trans hq

theorem answered {k : Nat} {q : BlockRequest} (x : Except CallError Answer) (h : Wired s)
    (hk : s.calls k = .sending q ∨ s.calls k = .waiting q) :
    CallEvent.Pointed (s.answer k q x).history ∧
      ∀ j, ((s.answer k q x).calls j).In (s.answer k q x).history j := by
  have hin := h.calls k
  have hi : .invoke k q ∈ s.history ∧ ∀ q' x', .effect k q' x' ∉ s.history := by
    rcases hk with hk | hk <;> rwa [hk] at hin
  exact ⟨h.pointed.snoc_effect hi.1 hi.2,
    calls_in h.calls rfl ⟨q,List.mem_append_right _ (List.mem_singleton_self _)⟩⟩

theorem call {k : Nat} {q : BlockRequest} {active : Finset Nat} (h : Wired s)
    (hk : s.calls k = .idle) : Wired { s with
      calls := Function.update s.calls k (.sending q)
      active := active
      history := s.history ++ [.invoke k q] } where
  pointed := by
    have hin := h.calls k
    rw [hk] at hin
    exact h.pointed.snoc_invoke hin
  calls := by
    have hin := h.calls k
    rw [hk] at hin
    refine calls_in h.calls rfl ⟨by simp,fun q' x hm => ?_⟩
    have hm : .effect k q' x ∈ s.history := by simpa using hm
    exact hin q' (h.pointed.invoked hm)
  queued := fun c hc => h.queued_other (by simp [hk]) _ hc
  apart := h.apart
  serving := h.serving
  crashed := h.crashed
  replies := by simpa [CallEvent.effects] using h.replies
  sent := by simpa [CallEvent.effects] using h.sent

theorem send {k : Nat} {q : BlockRequest} (h : Wired s) (hk : s.calls k = .sending q)
    (hr : s.running = true) : Wired { s with
      calls := Function.update s.calls k (.waiting q)
      channel := s.channel ++ [(k,q)]
      sent := s.sent ++ [(k,q)] } where
  pointed := h.pointed
  calls := fun j => by
    have hin := h.calls j
    by_cases hj : j = k
    · subst hj
      rw [hk] at hin
      show (Function.update s.calls j _ j).In _ _
      rwa [Function.update_self]
    · show (Function.update s.calls k _ j).In _ _
      rwa [Function.update_of_ne hj]
  queued := fun c hc => by
    rw [← List.append_assoc] at hc
    rcases List.mem_append.mp hc with hc | hc
    · exact h.queued_other (by simp [hk]) _ hc
    · rw [List.mem_singleton.mp hc]
      exact Function.update_self ..
  apart := by
    rw [← List.append_assoc,List.map_append]
    refine List.nodup_append.mpr ⟨h.apart,List.nodup_singleton _,fun j hj i hi hji => ?_⟩
    obtain ⟨c,hc,rfl⟩ := List.mem_map.mp hj
    have hi : i = k := List.mem_singleton.mp hi
    have hq := h.queued c hc
    rw [hji,hi,hk] at hq
    cases hq
  serving := h.serving
  crashed := fun hn => by rw [hr] at hn; cases hn
  replies := h.replies
  sent := fun _ => by rw [h.sent hr,List.append_assoc]

theorem panic (h : Wired s) :
    Wired { s with running := false, channel := [], serving := none } where
  pointed := h.pointed
  calls := h.calls
  queued := fun _ hc => by cases hc
  apart := List.nodup_nil
  serving := fun hn => by cases hn
  crashed := fun _ => ⟨rfl,rfl⟩
  replies := h.replies
  sent := fun hn => by cases hn

theorem lose {k : Nat} {q : BlockRequest} {e : CallError} (h : Wired s)
    (hk : s.calls k = .sending q ∨ s.calls k = .waiting q) (hr : s.running = false) :
    Wired (s.answer k q (.error e)) where
  pointed := (h.answered _ hk).1
  calls := (h.answered _ hk).2
  queued := fun c hc => by
    rw [show (s.answer k q (.error e)).serving = none from (h.crashed hr).1,
      show (s.answer k q (.error e)).channel = [] from (h.crashed hr).2] at hc
    cases hc
  apart := h.apart
  serving := fun hn => by cases hr.symm.trans hn
  crashed := h.crashed
  replies := by
    have hn : replied (k,q,q.returns (.error e)) = none := by cases q <;> rfl
    simpa [BlockDevice.answer,CallEvent.effects,hn] using h.replies
  sent := fun hn => by cases hr.symm.trans hn

theorem ret {k : Nat} {x : Except CallError Answer} {active : Finset Nat} (h : Wired s)
    (hk : s.calls k = .answered x) : Wired { s with
      calls := Function.update s.calls k .returned
      active := active
      history := s.history ++ [.respond k x] } where
  pointed := by
    have hin := h.calls k
    rw [hk] at hin
    obtain ⟨q,hq⟩ := hin
    exact h.pointed.snoc_respond hq
  calls := by
    have hin := h.calls k
    rw [hk] at hin
    obtain ⟨q,hq⟩ := hin
    exact calls_in h.calls rfl ⟨q,x,List.mem_append_left _ hq⟩
  queued := fun c hc => h.queued_other (by simp [hk]) _ hc
  apart := h.apart
  serving := h.serving
  crashed := h.crashed
  replies := by simpa [CallEvent.effects] using h.replies
  sent := by simpa [CallEvent.effects] using h.sent

end Wired

inductive Turn (log : List Event) (u : BlockDevice) : Prop
  | goesOn (m : List Event) : u.worker.log = log ++ m → m.filterMap Event.answer? = [] →
      u.serving.map Prod.snd = u.worker.phase.request → Turn log u
  | replies (m : List Event) (k : Nat) (q : BlockRequest) (a : Answer) : u.worker.log = log ++ m →
      m.filterMap Event.answer? = (replied (k,q,.ok a)).toList → u.serving = some (k,q) →
      u.worker.phase = .idle → q.answer u.worker.log = some a → Turn log u

theorem answer_last {e : Event} {q : BlockRequest} {a : Answer} (he : e.answer? = some (q,a))
    (l : List Event) : q.answer (l ++ [e]) = some a ∧ replied (0,q,.ok a) = some (q,a) := by
  cases e with
  | readReply | writeReply | flushReply =>
    cases he
    simp [BlockRequest.answer,Event.answer?,replied]
  | _ => cases he

theorem replied_key {k j : Nat} {q : BlockRequest} {x : Except CallError Answer} :
    replied (k,q,x) = replied (j,q,x) := by cases q <;> cases x <;> rfl

theorem label_idle {v : Device} {s t : Worker} {q : BlockRequest} {rmwOk : Bool}
    (h : step v s (q.label rmwOk) = some t) : s.phase = .idle := by
  cases q with
  | read | write | flush => exact request_idle h (by simp [BlockRequest.label,Label.request])
  | setSyncWrites =>
    cases hp : s.phase with
    | idle => rfl
    | _ => simp [BlockRequest.label,step,hp] at h

theorem turn_of_served {s : BlockDevice} {w : Worker} {channel : List Call} {serving : Option Call}
    {asked : Option BlockRequest} (h : Served asked s.worker.core w.core)
    (ha : serving.map Prod.snd = asked) :
    Turn s.worker.log { s with channel := channel, serving := serving, worker := w } := by
  cases h with
  | goesOn m hl hm hp => exact .goesOn m hl hm (ha.trans hp.symm)
  | replies m e q a hl hm he hq hp =>
    rw [hq] at ha
    obtain ⟨⟨k,_⟩,hk,rfl⟩ := Option.map_eq_some_iff.mp ha
    have hl : w.log = s.worker.log ++ m ++ [e] := hl
    obtain ⟨hans,hrep⟩ := answer_last he (s.worker.log ++ m)
    refine .replies (m ++ [e]) k _ a (hl.trans (List.append_assoc ..)) ?_ hk hp (hl ▸ hans)
    rw [List.filterMap_append,hm,replied_key,hrep]
    simp [he]

theorem turn_of_step {v : Device} {s : BlockDevice} {m : Label} {channel : List Call}
    {serving : Option Call} {w : Worker} (h : Wired s) (hr : s.running = true)
    (hw : step v s.worker m = some w)
    (hm : (channel = s.channel ∧ serving = s.serving ∧ (m.work = true ∨ m = .tick ∨ m = .close ∧
        s.channel = [] ∧ s.handles = 0 ∧ s.active = ∅)) ∨
      (∃ k q rmwOk, s.channel = (k,q) :: channel ∧ serving = some (k,q) ∧ m = q.label rmwOk)) :
    Turn s.worker.log { s with channel := channel, serving := serving, worker := w } ∧
      serving.toList ++ channel = s.serving.toList ++ s.channel := by
  have hserve := served_step (step_core hw) (request_idle hw)
  have hbusy := h.serving hr
  rcases hm with ⟨rfl,rfl,hm⟩ | ⟨k,q,rmwOk,hc,rfl,rfl⟩
  · have hn : m.request = none := by
      rcases hm with hm | rfl | ⟨rfl,_⟩
      · cases m <;> first | rfl | cases hm
      · rfl
      · rfl
    rw [hn] at hserve
    exact ⟨turn_of_served hserve hbusy,rfl⟩
  · have hidle := label_idle hw
    rw [hidle] at hbusy
    have hnone : s.serving = none := Option.map_eq_none_iff.mp hbusy
    refine ⟨?_,by rw [hnone,hc]; rfl⟩
    cases q with
    | setSyncWrites b =>
      have hw : w = { s.worker with syncWrites := b } := by
        simpa [BlockRequest.label,step,hidle,eq_comm] using hw
      subst hw
      exact .replies [] k _ .switched (List.append_nil _).symm rfl rfl hidle rfl
    | _ => exact turn_of_served hserve rfl

namespace BlockDevice

variable {u : BlockDevice}

theorem reply_goesOn (h : u.serving.map Prod.snd = u.worker.phase.request) : u.reply = u := by
  unfold reply
  split
  · rfl
  · rename_i hs
    rw [hs] at h
    rw [if_neg (fun hp => by rw [hp] at h; cases h)]

theorem reply_replies {k : Nat} {q : BlockRequest} {a : Answer} (hs : u.serving = some (k,q))
    (hp : u.worker.phase = .idle) (ha : q.answer u.worker.log = some a) :
    u.reply = { u with serving := none }.answer k q (.ok a) := by
  simp only [reply,hs,if_pos hp,ha]

end BlockDevice

namespace Wired

variable {v : Device} {s t : BlockDevice}

theorem advance {channel : List Call} {serving : Option Call} {w : Worker} (h : Wired s)
    (hr : s.running = true)
    (ht : Turn s.worker.log { s with channel := channel, serving := serving, worker := w })
    (hq : serving.toList ++ channel = s.serving.toList ++ s.channel) :
    Wired { s with channel := channel, serving := serving, worker := w }.reply := by
  have hqueued : ∀ c ∈ serving.toList ++ channel, s.calls c.1 = .waiting c.2 := hq ▸ h.queued
  have hapart : ((serving.toList ++ channel).map Prod.fst).Nodup := hq ▸ h.apart
  have hsent := h.sent hr
  rw [List.append_assoc,← hq,← List.append_assoc] at hsent
  have hn : s.running ≠ false := by simp [hr]
  cases ht with
  | goesOn m hl hm hp =>
    rw [BlockDevice.reply_goesOn hp]
    have hl : w.log = s.worker.log ++ m := hl
    exact ⟨h.pointed,h.calls,hqueued,hapart,fun _ => hp,fun hf => absurd hf hn,
      by rw [h.replies,hl,List.filterMap_append,hm,List.append_nil],fun _ => hsent⟩
  | replies m k q a hl hm hs hp ha =>
    rw [BlockDevice.reply_replies hs hp ha]
    have hs : serving = some (k,q) := hs
    have hl : w.log = s.worker.log ++ m := hl
    subst hs
    obtain ⟨hpointed,hcalls⟩ := h.answered (.ok a) (Or.inr (hqueued (k,q) (by simp)))
    refine ⟨hpointed,hcalls,fun c hc => ?_,hapart.of_cons,
      fun _ => (congrArg Phase.request (show w.phase = .idle from hp)).symm,
      fun hf => absurd hf hn,?_,fun _ => ?_⟩
    · have hc : c ∈ channel := hc
      have hk : c.1 ≠ k := fun he => (List.nodup_cons.mp hapart).1 (List.mem_map.mpr ⟨c,hc,he⟩)
      exact (Function.update_of_ne hk _ _).trans (hqueued c (List.mem_append_right _ hc))
    · have hr : replied (k,q,q.returns (.ok a)) = replied (k,q,.ok a) := by cases q <;> rfl
      show (CallEvent.effects (s.history ++ [_])).filterMap replied = w.log.filterMap Event.answer?
      rw [hl,List.filterMap_append,hm,← h.replies,CallEvent.effects_append,List.filterMap_append]
      congr 1
      simp only [CallEvent.effects,List.filterMap_cons,List.filterMap_nil,hr]
      cases replied (k,q,.ok a) <;> rfl
    · show s.sent = (CallEvent.effects (s.history ++ [_])).map _ ++ [] ++ channel
      rw [hsent,CallEvent.effects_append,List.map_append,List.append_nil]
      rfl

theorem step (h : Wired s) {l : DeviceLabel} (hs : deviceStep v s l = some t) : Wired t := by
  cases deviceStep_cases hs with
  | call k q hk _ => exact h.call hk
  | send k q hk hr _ => exact h.send hk hr
  | advance _ m channel serving w _ hr hw hm =>
    obtain ⟨ht,hq⟩ := turn_of_step h hr hw hm
    exact h.advance hr ht hq
  | panic _ => exact h.panic
  | lose k q e hk hr => exact h.lose hk hr
  | ret k x hk => exact h.ret hk
  | handles => exact ⟨h.pointed,h.calls,h.queued,h.apart,h.serving,h.crashed,h.replies,h.sent⟩

theorem run {syncWrites : Bool} {d : Image} {ls : List DeviceLabel}
    (hr : Machine.run (deviceStep v) (.spawn v syncWrites d) ls = some t) : Wired t :=
  Machine.run_invariant (I := Wired) (fun _ _ _ h hs => h.step hs) (.spawn v syncWrites d) hr

end Wired

/-- Every call gets the reply of the worker to its own request, once; the worker replies in an
order that the threads can have seen, which is the order in which the messages were sent. -/
theorem calls_answered_in_order {v : Device} {syncWrites : Bool} {d : Image}
    {ls : List DeviceLabel} {t : BlockDevice}
    (hr : Machine.run (deviceStep v) (.spawn v syncWrites d) ls = some t) :
    ∃ seq, CallEvent.Linearizes
        (fun seq => seq.filterMap replied = t.worker.log.filterMap Event.answer?) t.history seq ∧
      (t.running = true →
        t.sent = seq.map (fun x => (x.1,x.2.1)) ++ t.serving.toList ++ t.channel) := by
  have h := Wired.run hr
  exact ⟨_,h.pointed.linearizes h.replies,h.sent⟩

/-- The second call overtakes the first one on the way into the channel. -/
theorem calls_answered_in_order_two : ∃ t, Machine.run (deviceStep smallDevice)
      (.spawn smallDevice false zeros) [.call 0 (.read 5 1),.call 1 (.write 5 [1,2]),.send 1,.send 0,
        .recv true,.work .cont,.work .cont,.recv true] = some t ∧
    ∃ seq, CallEvent.Linearizes
        (fun seq => seq.filterMap replied = t.worker.log.filterMap Event.answer?) t.history seq ∧
      t.sent = seq.map (fun x => (x.1,x.2.1)) ++ t.serving.toList ++ t.channel := by
  have hrun : ∃ t, Machine.run (deviceStep smallDevice) (.spawn smallDevice false zeros)
      [.call 0 (.read 5 1),.call 1 (.write 5 [1,2]),.send 1,.send 0,.recv true,.work .cont,
        .work .cont,.recv true] = some t ∧ t.running = true := ⟨_,rfl,rfl⟩
  obtain ⟨t,hr,hrunning⟩ := hrun
  obtain ⟨seq,hlin,hsent⟩ := calls_answered_in_order hr
  exact ⟨t,hr,seq,hlin,hsent hrunning⟩

def Device.readLen (v : Device) (offset size : Nat) : Nat :=
  if v.totalBytes ≤ offset then 0 else min size ((v.totalBytes-offset)%2^32)

/-- One call of a disk that is read and written at once and serves one call at a time; `none` when
it is gone. -/
inductive FlatStep (v : Device) :
    Option Image → BlockRequest → Except CallError Answer → Option Image → Prop
  | read (d : Image) (offset size : Nat) : FlatStep v (some d) (.read offset size)
      (.ok (.read (.ok (d.read offset (v.readLen offset size))))) (some d)
  | readFailed (d : Image) (offset size : Nat) (e : IoError) :
      FlatStep v (some d) (.read offset size) (.ok (.read (.err e))) (some d)
  | written (d : Image) (offset : Nat) (data : Bytes) : FlatStep v (some d) (.write offset data)
      (.ok (.written (.ok (v.writeLen offset data%2^32)))) (some ((v.writePatch offset data).apply d))
  | writeFailed (d : Image) (offset : Nat) (data : Bytes) (e : IoError) :
      FlatStep v (some d) (.write offset data) (.ok (.written (.err e))) (some d)
  | flushed (d : Image) (r : Reply Unit) : FlatStep v (some d) .flush (.ok (.flushed r)) (some d)
  | switched (d : Option Image) (enabled : Bool) :
      FlatStep v d (.setSyncWrites enabled) (.ok .switched) d
  | gone (d : Option Image) (q : BlockRequest) (e : CallError) : FlatStep v d q (.error e) none

/-- The calls in order take the disk from `d` to `d'`. -/
inductive FlatRun (v : Device) (d : Option Image) :
    List (Nat × BlockRequest × Except CallError Answer) → Option Image → Prop
  | nil : FlatRun v d [] d
  | snoc {seq : List (Nat × BlockRequest × Except CallError Answer)} {d₁ d₂ : Option Image} {k : Nat}
      {q : BlockRequest} {x : Except CallError Answer} : FlatRun v d seq d₁ → FlatStep v d₁ q x d₂ →
      FlatRun v d (seq ++ [(k,q,x)]) d₂

/-- Length of the bytes read, or the number reported for a Write. -/
def Event.Sized (v : Device) : Event → Prop
  | .readReply offset size (.ok bytes) => bytes.length = v.readLen offset size
  | .writeReply offset data (.ok n) => n = v.writeLen offset data%2^32
  | _ => True

structure Exact (v : Device) (d : Image) (log : List Event) : Prop where
  current : ReadsCurrent v d log
  sized : ∀ e ∈ log, e.Sized v

theorem Exact.of_append {v : Device} {d : Image} {log m : List Event} (h : Exact v d (log ++ m)) :
    Exact v d log where
  current := fun pre post offset size bytes hl =>
    h.current pre (post ++ m) offset size bytes (by rw [hl,List.append_assoc,List.cons_append])
  sized := fun e he => h.sized e (List.mem_append_left m he)

theorem acked_plain {v : Device} {m : List Event} (h : ∀ e ∈ m, e.answer? = none) :
    v.acked m = [] := by
  refine List.filterMap_eq_nil_iff.mpr (fun e he => ?_)
  have hn := h e he
  cases e with
  | writeReply => cases hn
  | _ => rfl

theorem flat_reply {v : Device} {d : Image} {log m : List Event} {q : BlockRequest} {a : Answer}
    (h : Exact v d (log ++ m)) (hm : m.filterMap Event.answer? = [(q,a)]) :
    FlatStep v (some (Patch.applyAll d (v.acked log))) q (.ok a)
      (some (Patch.applyAll d (v.acked (log ++ m)))) := by
  obtain ⟨m₁,e,m₂,rfl,h₁,he,h₂⟩ := List.filterMap_eq_cons_iff.mp hm
  have hack : v.acked (log ++ (m₁ ++ e :: m₂)) = v.acked log ++ v.acked [e] := by
    rw [← List.singleton_append,acked_append,acked_append,acked_append,acked_plain h₁,
      acked_plain (List.filterMap_eq_nil_iff.mp h₂),List.nil_append,List.append_nil]
  have hpre : v.acked (log ++ m₁) = v.acked log := by
    rw [acked_append,acked_plain h₁,List.append_nil]
  have hsize := h.sized e (by simp)
  rw [hack,Patch.applyAll_append]
  cases e with
  | readReply offset size r =>
    cases he
    cases r with
    | err e => exact .readFailed _ offset size e
    | ok bytes =>
      have hb : bytes = (Patch.applyAll d (v.acked log)).read offset (v.readLen offset size) := by
        refine List.ext_getElem? (fun i => ?_)
        rw [Image.getElem?_read]
        split
        · rename_i hi
          have hi : i < bytes.length := by rwa [show bytes.length = _ from hsize]
          have hc := h.current (log ++ m₁) m₂ offset size bytes (by simp) i _
            (List.getElem?_eq_getElem hi)
          rw [hpre] at hc
          rw [hc,List.getElem?_eq_getElem hi]
        · rename_i hi
          exact List.getElem?_eq_none_iff.mpr (by rw [show bytes.length = _ from hsize]; omega)
      rw [hb]
      exact .read _ offset size
  | writeReply offset data r =>
    cases he
    cases r with
    | err e => exact .writeFailed _ offset data e
    | ok n =>
      rw [show n = _ from hsize]
      exact .written _ offset data
  | flushReply r =>
    cases he
    exact .flushed _ r
  | _ => cases he

def Flat (v : Device) (d : Image) (s : BlockDevice) : Prop :=
  Exact v d s.worker.log → ∃ d', FlatRun v (some d) (CallEvent.effects s.history) d' ∧
    (s.running = true → d' = some (Patch.applyAll d (v.acked s.worker.log)))

theorem flat_step {v : Device} {d : Image} {s t : BlockDevice} {l : DeviceLabel} (hw : Wired s)
    (h : Flat v d s) (hs : deviceStep v s l = some t) : Flat v d t := by
  intro hexact
  cases deviceStep_cases hs with
  | call | ret =>
    have hf := h hexact
    simpa [CallEvent.effects] using hf
  | send | handles => exact h hexact
  | panic _ =>
    obtain ⟨d',hd,_⟩ := h hexact
    exact ⟨d',hd,fun hn => by cases hn⟩
  | lose k q e _ hr =>
    obtain ⟨d',hd,_⟩ := h hexact
    have hlost : ∃ d'', FlatStep v d' q (q.returns (.error e)) d'' := by
      cases q with
      | setSyncWrites b => exact ⟨d',.switched d' b⟩
      | _ => exact ⟨none,.gone d' _ e⟩
    obtain ⟨d'',hstep⟩ := hlost
    refine ⟨d'',?_,fun hn => by cases hr.symm.trans hn⟩
    show FlatRun v (some d) (CallEvent.effects (s.history ++ [.effect k q (q.returns (.error e))])) _
    rw [CallEvent.effects_append]
    exact hd.snoc hstep
  | advance _ m channel serving w _ hr hstep hm =>
    obtain ⟨ht,_⟩ := turn_of_step hw hr hstep hm
    rw [BlockDevice.reply_worker] at hexact
    cases ht with
    | goesOn m hl hm hp =>
      rw [BlockDevice.reply_goesOn hp]
      have hl : w.log = s.worker.log ++ m := hl
      have hexact : Exact v d w.log := hexact
      obtain ⟨d',hd,hcur⟩ := h (hl ▸ hexact).of_append
      refine ⟨d',hd,fun hn => ?_⟩
      show d' = some (Patch.applyAll d (v.acked w.log))
      rw [hl,acked_append,acked_plain (List.filterMap_eq_nil_iff.mp hm),List.append_nil,hcur hr]
    | replies m k q a hl hm hs hp ha =>
      rw [BlockDevice.reply_replies hs hp ha]
      have hl : w.log = s.worker.log ++ m := hl
      have hexact : Exact v d w.log := hexact
      rw [hl] at hexact
      obtain ⟨d',hd,hcur⟩ := h hexact.of_append
      have hcall : FlatStep v d' q (q.returns (.ok a)) (some (Patch.applyAll d (v.acked w.log))) := by
        rw [hcur hr,hl]
        cases q with
        | setSyncWrites b =>
          rw [acked_append,acked_plain (List.filterMap_eq_nil_iff.mp hm),List.append_nil]
          exact .switched _ b
        | _ => exact flat_reply hexact hm
      refine ⟨_,?_,fun _ => rfl⟩
      show FlatRun v (some d) (CallEvent.effects (s.history ++ [.effect k q (q.returns (.ok a))])) _
      rw [CallEvent.effects_append]
      exact hd.snoc hcall

theorem recvRead_nothing {v : Device} {s : Worker} {offset size : Nat}
    (h : s.recvRead v offset size = some (s.answer (.readReply offset size (.ok [])))) :
    v.readLen offset size = 0 := by
  rw [Device.readLen]
  split
  · rfl
  · rename_i ho
    by_cases hz : size = 0
    · rw [hz,Nat.zero_min]
    · rw [Worker.recvRead,if_neg (not_or.mpr ⟨hz,ho⟩)] at h
      simp only [Option.bind_eq_bind,Option.bind_eq_some_iff] at h
      obtain ⟨⟨lba,n,skip⟩,_,h⟩ := h
      simp only at h
      have hread : ∀ {clba : Option Nat} {r : ReadCall},
          (clba.bind fun c => some { s with phase := .reading r c [] }) ≠
            some (s.answer (.readReply offset size (.ok []))) := by
        intro clba r hc
        obtain ⟨c,_,hc⟩ := Option.bind_eq_some_iff.mp hc
        cases congrArg Worker.phase (Option.some.inj hc)
      split at h
      · split at h
        · obtain ⟨bytes,hb,h⟩ := Option.bind_eq_some_iff.mp h
          obtain ⟨hle,rfl⟩ := slice_eq_some.mp hb
          have hlog := List.append_cancel_left (congrArg Worker.log (Option.some.inj h))
          simp only [List.cons.injEq,Event.readReply.injEq,Reply.ok.injEq,and_true] at hlog
          have hlen := congrArg List.length hlog.2.2
          simp only [List.length_take,List.length_drop,List.length_nil] at hlen
          omega
        · exact absurd h hread
      · exact absurd h hread

structure Measured (v : Device) (c : Core) : Prop where
  call : ∀ w, c.phase.call = some w → w.actualLen = v.writeLen w.offset w.data
  read : ∀ r clba acc, c.phase.read = some (r,clba,acc) → r.Of v r.offset r.size
  sized : ∀ e ∈ c.log, e.Sized v

namespace Measured

variable {v : Device} {c c' : Core}

theorem logged (h : Measured v c) {m : List Event} (hm : ∀ e ∈ m, e.Sized v) :
    ∀ e ∈ c.log ++ m, e.Sized v := by
  intro e he
  rcases List.mem_append.mp he with he | he
  · exact h.sized e he
  · exact hm e he

theorem of_none (hc : c.phase.call = none) (hr : c.phase.read = none)
    (hs : ∀ e ∈ c.log, e.Sized v) : Measured v c where
  call := fun w hw => by rw [hc] at hw; cases hw
  read := fun r clba acc hx => by rw [hr] at hx; cases hx
  sized := hs

theorem of_call {w : WriteCall} (hw : w.actualLen = v.writeLen w.offset w.data)
    (hc : c.phase.call = some w) (hr : c.phase.read = none) (hs : ∀ e ∈ c.log, e.Sized v) :
    Measured v c where
  call := fun w' hw' => by
    rw [hc] at hw'
    cases hw'
    exact hw
  read := fun r clba acc hx => by rw [hr] at hx; cases hx
  sized := hs

theorem of_read {r : ReadCall} {clba : Nat} {acc : Bytes} (hr : r.Of v r.offset r.size)
    (hc : c.phase.call = none) (hp : c.phase.read = some (r,clba,acc))
    (hs : ∀ e ∈ c.log, e.Sized v) : Measured v c where
  call := fun w hw => by rw [hc] at hw; cases hw
  read := fun r' clba' acc' hx => by
    rw [hp] at hx
    cases hx
    exact hr
  sized := hs

theorem flushing (h : Measured v c) (hc : c'.phase.call = c.phase.call) (hr : c'.phase.read = none)
    {m : List Event} (hl : c'.log = c.log ++ m) (hm : ∀ e ∈ m, e.Sized v) : Measured v c' where
  call := by
    rw [hc]
    exact h.call
  read := fun r clba acc hx => by rw [hr] at hx; cases hx
  sized := by
    rw [hl]
    exact h.logged hm

theorem flushDone (h : Measured v c) (left : List WriteCommand) {k : Caller} {r : Reply Unit}
    {m : List Event} (hk : ∀ w, k = .write w → w.actualLen = v.writeLen w.offset w.data)
    (hm : ∀ e ∈ m, e.Sized v) :
    Measured v ({ c with stray := left, log := c.log ++ m }.flushDone r k) := by
  have hlog := h.logged hm
  cases k with
  | request =>
    refine of_none rfl rfl (fun e he => ?_)
    rcases List.mem_append.mp he with he | he
    · exact hlog e he
    · rw [List.mem_singleton.mp he]
      trivial
  | write w =>
    refine of_none rfl rfl (fun e he => ?_)
    rcases List.mem_append.mp he with he | he
    · exact hlog e he
    · rw [List.mem_singleton.mp he]
      cases r with
      | ok _ => exact congrArg (·%2^32) (hk w rfl)
      | err e => trivial
  | timer | closing => exact of_none rfl rfl hlog

end Measured

theorem readDone_sized {v : Device} {d : Image} {s : Worker} {r : ReadCall} {clba last : Nat}
    {acc : Bytes} (h : Represents v d s.core) (hp : s.phase = .reading r clba acc)
    (hof : r.Of v r.offset r.size) (hl : v.chunkLba (r.startLba+r.blockCount-1) = some last)
    (hlt : last < clba) :
    ((acc.drop r.skip).take r.actualSize).length = v.readLen r.offset r.size := by
  have hlen : v.readLen r.offset r.size = r.actualSize := by
    rw [Device.readLen,if_neg (Nat.not_le.mpr hof.inside),hof.clamped]
  rw [hlen]
  by_cases hz : r.actualSize = 0
  · simp [hz]
  · have hpos := Nat.pos_of_ne_zero hz
    have hread := h.reading r clba acc (by rw [show s.core.phase = _ from hp]; rfl) hpos
    have hstop := (hof.span hpos).2.stop
    have hle := le_of_last_lt hl hread.chunk hlt
    have hall : min (max clba r.startLba) (r.startLba+r.blockCount)-r.startLba = r.blockCount := by
      omega
    rw [List.length_take,List.length_drop,hread.acc,Image.read_length,hall]
    omega

theorem flushing_call (k : Caller) (dr dr' : List (Nat × Bytes)) (cmds : List FlushCmd) :
    (Phase.flushing k dr cmds).call = (Phase.syncing k dr').call := by cases k <;> rfl

theorem triggers_call {p : Phase} {l : Label} {k : Caller} (h : Triggers p l k)
    (dr : List (Nat × Bytes)) : p.call = (Phase.syncing k dr).call := by cases h <;> rfl

theorem measured_step {v : Device} {d : Image} {s t : Worker} {l : Label} (h : Measured v s.core)
    (hrep : Represents v d s.core) (hs : step v s l = some t) : Measured v t.core := by
  have hcall : ∀ {p : Phase} {w : WriteCall}, s.phase = p → p.call = some w →
      w.actualLen = v.writeLen w.offset w.data := fun hp hw => h.call _ (by rw [← hw,← hp]; rfl)
  have hread : ∀ {p : Phase} {r : ReadCall} {clba : Nat} {acc : Bytes}, s.phase = p →
      p.read = some (r,clba,acc) → r.Of v r.offset r.size :=
    fun hp hr => h.read _ _ _ (by rw [← hr,← hp]; rfl)
  have hcaller : ∀ {k : Caller} {d : List (Nat × Bytes)}, s.phase.call = (Phase.syncing k d).call →
      ∀ w, k = .write w → w.actualLen = v.writeLen w.offset w.data := by
    intro k d hp w hk
    subst hk
    exact hcall rfl hp
  have hone : ∀ {e : Event}, e.Sized v → ∀ e' ∈ s.core.log ++ [e], e'.Sized v :=
    fun he => h.logged (fun e' hm => List.mem_singleton.mp hm ▸ he)
  have hnil : s.core.log = s.core.log ++ [] := (List.append_nil _).symm
  have hcore := step_core hs
  generalize ht : t.core = c at hcore
  cases hcore with
  | background => exact h
  | emptyRead offset size hp =>
    have hnow : s.recvRead v offset size = some t := by simpa only [step,hp] using hs
    have heq : t = s.answer (.readReply offset size (.ok [])) := by
      rcases Worker.recvRead_cases hnow with rfl | ⟨r,_,⟨b,_,_,rfl⟩ | ⟨_,clba,_,rfl⟩⟩
      · rfl
      · have hl := List.append_cancel_left (congrArg Core.log ht)
        rw [Worker.readDone,(List.cons.inj hl).1]
      · cases congrArg Core.phase ht
    refine .of_none rfl rfl (hone ?_)
    exact (recvRead_nothing (heq ▸ hnow)).symm
  | dirtyRead offset size r b hp hr _ hl =>
    refine .of_none rfl rfl (hone ?_)
    show ((b.drop r.skip).take r.actualSize).length = v.readLen r.offset r.size
    rw [Device.readLen,hr.args.1,hr.args.2,if_neg (Nat.not_le.mpr hr.inside),← hr.clamped,
      List.length_take,List.length_drop]
    omega
  | startRead offset size r clba hp hr _ _ =>
    exact .of_read (by rwa [hr.args.1,hr.args.2]) rfl rfl h.sized
  | await r clba acc hp => exact .of_read (hread hp rfl) rfl rfl h.sized
  | take r clba acc chunk piece _ htake _ _ =>
    refine .of_read ?_ rfl rfl h.sized
    cases htake with
    | hit hp _ | fetched hp _ => exact hread hp rfl
  | readDone r clba last acc hp hl hlt =>
    exact .of_none rfl rfl (hone (readDone_sized hrep hp (hread hp rfl) hl hlt))
  | readFailed r clba acc e _ _ => exact .of_none rfl rfl (hone trivial)
  | emptyWrite offset data rmwOk hp he =>
    have hz : 0 = v.writeLen offset data%2^32 := by
      rcases he with rfl | he
      · rw [Device.writeLen,List.length_nil,Nat.zero_min,Nat.zero_mod]
      · rw [Device.writeLen,Nat.sub_eq_zero_of_le he,Nat.min_zero,Nat.zero_mod]
    have hl := h.logged (m := [.received offset data,.writeReply offset data (.ok 0)])
      (by simpa [Event.Sized] using hz)
    refine .of_none rfl rfl ?_
    show ∀ e ∈ s.log ++ [_] ++ [_], _
    rw [List.append_assoc]
    exact hl
  | failedWrite offset data rmwOk e hp =>
    have hl := h.logged (m := [.received offset data,.writeReply offset data (.err e)])
      (by simp [Event.Sized])
    refine .of_none rfl rfl ?_
    show ∀ e ∈ s.log ++ [_] ++ [_], _
    rw [List.append_assoc]
    exact hl
  | insert offset data rmwOk w buf clba hp hw _ =>
    refine .of_call ?_ rfl rfl (hone trivial)
    rw [Device.writeLen,hw.args.1,hw.args.2,hw.clamped]
  | invalidate w clba next hp => exact .of_call (hcall hp rfl) rfl rfl h.sized
  | writeDone w clba hp => exact .of_none rfl rfl (hone (congrArg (·%2^32) (hcall hp rfl)))
  | flushNothing _ k hk _ =>
    have hd := h.flushDone s.stray (k := k) (r := .ok ()) (m := [])
      (hcaller (triggers_call hk [])) (by simp)
    rwa [← hnil] at hd
  | flushStart _ k cmds hk _ _ =>
    exact h.flushing ((flushing_call ..).trans (triggers_call hk []).symm) rfl hnil (by simp)
  | good i k dr cmds y hp _ _ =>
    exact h.flushing (by rw [show s.core.phase = _ from hp]; cases k <;> rfl) rfl rfl
      (by simp [Event.Sized])
  | fail i applied panicked k dr cmds y hp _ _ =>
    exact h.flushing (by rw [show s.core.phase = _ from hp]; cases k <;> rfl) rfl hnil (by simp)
  | sync k dr cmds hp _ =>
    exact h.flushing (by rw [show s.core.phase = _ from hp]; cases k <;> rfl) rfl rfl
      (by simp [Event.Sized])
  | flushFailed k dr cmds y panicked left e hp _ _ =>
    have hd := h.flushDone left (k := k) (r := .err e) (m := [])
      (hcaller (d := dr) (by rw [hp]; cases k <;> rfl)) (by simp)
    rwa [← hnil] at hd
  | syncGood k dr hp =>
    exact h.flushDone s.stray (k := k) (r := .ok ()) (m := [.syncGood])
      (hcaller (d := dr) (by rw [hp])) (by simp [Event.Sized])
  | syncFail k dr hp =>
    have hd := h.flushDone s.stray (k := k) (r := .err .syncFailed) (m := [])
      (hcaller (d := dr) (by rw [hp])) (by simp)
    rwa [← hnil] at hd
  | stray i good y _ =>
    refine ⟨h.call,h.read,h.logged (fun e he => ?_)⟩
    cases good with
    | true =>
      rw [List.mem_singleton.mp he]
      trivial
    | false => cases he

theorem measured_start (v : Device) (syncWrites : Bool) (d : Image) :
    Measured v (Worker.start v syncWrites d).core :=
  .of_none rfl rfl (fun e he => by cases he)

/-- Calls from any number of threads look like calls of a flat disk, one after the other. -/
theorem calls_linearizable {v : Device} {syncWrites : Bool} {d : Image} {ls : List DeviceLabel}
    {t : BlockDevice}
    (hm : Machine.Meets (deviceStep v) (OnWorker (SeparateStep v)) (.spawn v syncWrites d) ls)
    (hr : Machine.run (deviceStep v) (.spawn v syncWrites d) ls = some t) :
    ∃ seq, CallEvent.Linearizes (fun seq => ∃ d', FlatRun v (some d) seq d') t.history seq := by
  obtain ⟨ms,hrun,hsep⟩ := run_worker hm hr
  have hworker := Machine.invariant
    (I := fun s => Represents v d s.core ∧ Fresh v s ∧ Measured v s.core)
    (fun s l t hi hl hs => ⟨represents_step hi.1 hi.2.1 hl (step_core hs),
      fresh_step hi.2.1 hl.2 hs,measured_step hi.2.2 hi.1 hs⟩)
    ⟨represents_start v syncWrites d,fresh_start v syncWrites d,measured_start v syncWrites d⟩ hsep hrun
  have hflat : Wired t ∧ Flat v d t := Machine.run_invariant (I := fun s => Wired s ∧ Flat v d s)
    (fun s l t hi hs => ⟨hi.1.step hs,flat_step hi.1 hi.2 hs⟩)
    ⟨.spawn v syncWrites d,fun _ => ⟨some d,.nil,fun _ => rfl⟩⟩ hr
  obtain ⟨d',hd,_⟩ := hflat.2 ⟨hworker.1.current,hworker.2.2.sized⟩
  exact ⟨_,hflat.1.pointed.linearizes ⟨d',hd⟩⟩

/-- A Read that starts while a Write is in progress and is answered from the dirty map. -/
theorem calls_linearizable_overlapping : ∃ t, Machine.run (deviceStep smallDevice)
      (.spawn smallDevice false zeros) [.call 0 (.write 5 [1,2]),.call 1 (.read 5 1),.send 0,.send 1,
        .recv true,.work .cont,.work .cont,.recv true,.ret 1,.ret 0] = some t ∧
    ∃ seq, CallEvent.Linearizes (fun seq => ∃ d', FlatRun smallDevice (some zeros) seq d')
      t.history seq := by
  have hheld : Machine.Meets (deviceStep smallDevice) (OnWorker (LeavesHeld smallDevice))
      (.spawn smallDevice false zeros) [.call 0 (.write 5 [1,2]),.call 1 (.read 5 1),.send 0,.send 1,
        .recv true,.work .cont,.work .cont,.recv true,.ret 1,.ret 0] := by
    have hrecv : ∀ s, OnWorker (LeavesHeld smallDevice) s (.recv true) := by
      intro s m hm
      obtain ⟨⟨_,q⟩,_,rfl⟩ := Option.map_eq_some_iff.mp hm
      exact leavesHeld_of_target_none (by cases q <;> rfl)
    have hcont : ∀ s, OnWorker (LeavesHeld smallDevice) s (.work .cont) := by
      intro s m hm
      cases hm
      exact leavesHeld_of_target_none rfl
    refine Machine.meets_of_forall (fun l hl s => ?_)
    simp only [List.mem_cons,List.not_mem_nil,or_false] at hl
    rcases hl with rfl | rfl | rfl | rfl | rfl | rfl | rfl | rfl | rfl | rfl
    all_goals first | exact hrecv s | exact hcont s | exact fun m hm => by cases hm
  have hsep : Machine.Meets (deviceStep smallDevice)
      (OnWorker (fun s l => l.separate smallDevice s.dirty = true)) (.spawn smallDevice false zeros)
      [.call 0 (.write 5 [1,2]),.call 1 (.read 5 1),.send 0,.send 1,.recv true,.work .cont,
        .work .cont,.recv true,.ret 1,.ret 0] := Machine.meets_of_check (by decide)
  have hboth := Machine.meets_and hsep hheld
  refine ⟨_,rfl,calls_linearizable ((Machine.meets_congr (fun s l t _ => ?_) rfl).mp hboth) rfl⟩
  exact ⟨fun h m hm => ⟨h.1 m hm,h.2 m hm⟩,fun h => ⟨fun m hm => (h m hm).1,fun m hm => (h m hm).2⟩⟩

end IscsiFuse.Block
