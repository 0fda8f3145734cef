import IscsiFuse.Library.Linearizable
import IscsiFuse.Block.ReadYourWrites
import IscsiFuse.Block.Durability
set_option autoImplicit false

/-!
The handle of the block device. Calls from several threads wait for room in a channel of 256
messages, wait there for the worker, and wait for its answer. The worker may panic at any time.
-/

namespace IscsiFuse.Block
open IscsiFuse.Iscsi

/-- Without the sender for the reply, which belongs to the call. -/
inductive BlockRequest where
  | read (offset size : Nat)
  | write (offset : Nat) (data : Bytes)
  | flush
  | setSyncWrites (enabled : Bool)
  deriving DecidableEq, Repr

inductive Answer where
  | read (r : Reply Bytes)
  | written (r : Reply Nat)
  | flushed (r : Reply Unit)
  | switched
  deriving DecidableEq, Repr

inductive CallError where
  | channelClosed | replyDropped
  deriving DecidableEq, Repr

def CallError.message : CallError → String
  | .channelClosed => "block device channel closed"
  | .replyDropped => "block device reply dropped"

def BlockRequest.returns (q : BlockRequest) (x : Except CallError Answer) : Except CallError Answer :=
  match q with
  | .setSyncWrites _ => .ok .switched
  | _ => x

inductive CallState where
  | idle
  | sending (q : BlockRequest)
  | waiting (q : BlockRequest)
  | answered (x : Except CallError Answer)
  | returned
  deriving DecidableEq, Repr

abbrev Call := Nat × BlockRequest

abbrev CallHistory := List (CallEvent Nat BlockRequest (Except CallError Answer))

/-- `serving` is the request whose arm the worker is in. Every call in `active` holds a sender of
its own beside those of the handles. `sent` and `history` record what happened. -/
structure BlockDevice where
  worker : Worker
  running : Bool
  channel : List Call
  serving : Option Call
  calls : Nat → CallState
  handles : Nat
  active : Finset Nat
  sent : List Call
  history : CallHistory

def BlockDevice.spawn (v : Device) (syncWrites : Bool) (disk : Image) : BlockDevice where
  worker := Worker.start v syncWrites disk
  running := true
  channel := []
  serving := none
  calls := fun _ => .idle
  handles := 1
  active := ∅
  sent := []
  history := []

def BlockRequest.label (rmwOk : Bool) : BlockRequest → Label
  | .read offset size => .read offset size
  | .write offset data => .write offset data rmwOk
  | .flush => .flush
  | .setSyncWrites enabled => .setSyncWrites enabled

/-- A reply of the worker, with the request it replies to. -/
def Event.answer? : Event → Option (BlockRequest × Answer)
  | .readReply offset size r => some (.read offset size,.read r)
  | .writeReply offset data r => some (.write offset data,.written r)
  | .flushReply r => some (.flush,.flushed r)
  | _ => none

def BlockRequest.answer (q : BlockRequest) (log : List Event) : Option Answer :=
  match q with
  | .setSyncWrites _ => some .switched
  | _ => (log.getLast?.bind Event.answer?).map Prod.snd

/-- Progress of the worker that is no request. -/
def Label.work : Label → Bool
  | .read _ _ | .write _ _ _ | .flush | .setSyncWrites _ | .tick | .close => false
  | _ => true

namespace BlockDevice

def answer (s : BlockDevice) (k : Nat) (q : BlockRequest) (x : Except CallError Answer) :
    BlockDevice :=
  { s with calls := Function.update s.calls k (.answered (q.returns x)),
           history := s.history ++ [.effect k q (q.returns x)] }

def reply (s : BlockDevice) : BlockDevice :=
  match s.serving with
  | none => s
  | some (k,q) =>
    if s.worker.phase = .idle then
      match q.answer s.worker.log with
      | some a => { s with serving := none }.answer k q (.ok a)
      | none => s
    else s

def advance (v : Device) (s : BlockDevice) (l : Label) : Option BlockDevice :=
  if s.running then (step v s.worker l).map (fun w => { s with worker := w }.reply) else none

end BlockDevice

/-- A thread calls a method, its message enters the channel, the worker receives one, the timer
ticks, all senders are gone, the worker goes on or panics, a call that gets no answer finds out,
a call returns, a handle is cloned or dropped. -/
inductive DeviceLabel where
  | call (k : Nat) (q : BlockRequest)
  | send (k : Nat)
  | recv (rmwOk : Bool)
  | tick
  | close
  | work (l : Label)
  | panic
  | lose (k : Nat)
  | ret (k : Nat)
  | clone
  | drop
  deriving DecidableEq, Repr

open BlockDevice

def deviceStep (v : Device) (s : BlockDevice) : DeviceLabel → Option BlockDevice
  | .call k q =>
    if s.calls k = .idle ∧ 0 < s.handles then
      some { s with calls := Function.update s.calls k (.sending q), active := insert k s.active,
                    history := s.history ++ [.invoke k q] }
    else none
  | .send k => match s.calls k with
    | .sending q =>
      if s.running ∧ s.channel.length < 256 then
        some { s with calls := Function.update s.calls k (.waiting q),
                      channel := s.channel ++ [(k,q)],
                      sent := s.sent ++ [(k,q)] }
      else none
    | _ => none
  | .recv rmwOk => match s.channel with
    | (k,q) :: rest =>
      { s with channel := rest, serving := some (k,q) }.advance v (q.label rmwOk)
    | [] => none
  | .tick => if s.channel = [] ∧ (0 < s.handles ∨ s.active ≠ ∅) then s.advance v .tick else none
  | .close => if s.channel = [] ∧ s.handles = 0 ∧ s.active = ∅ then s.advance v .close else none
  | .work l => if l.work then s.advance v l else none
  | .panic => if s.running then some { s with running := false, channel := [], serving := none }
      else none
  | .lose k => match s.calls k with
    | .sending q => if s.running then none else some (s.answer k q (.error .channelClosed))
    | .waiting q => if s.running then none else some (s.answer k q (.error .replyDropped))
    | _ => none
  | .ret k => match s.calls k with
    | .answered x => some { s with calls := Function.update s.calls k .returned,
                                   active := s.active.erase k,
                                   history := s.history ++ [.respond k x] }
    | _ => none
  | .clone => if 0 < s.handles then some { s with handles := s.handles+1 } else none
  | .drop => if 0 < s.handles then some { s with handles := s.handles-1 } else none

/-- What the worker does in a step. -/
def DeviceLabel.worker (s : BlockDevice) : DeviceLabel → Option Label
  | .recv rmwOk => s.channel.head?.map (fun c => c.2.label rmwOk)
  | .tick => some .tick
  | .close => some .close
  | .work l => some l
  | _ => none

/-- A condition on the steps of the worker. -/
def OnWorker (ok : Worker → Label → Prop) (s : BlockDevice) (l : DeviceLabel) : Prop :=
  ∀ m, l.worker s = some m → ok s.worker m

instance (ok : Worker → Label → Prop) [∀ s l, Decidable (ok s l)] (s : BlockDevice)
    (l : DeviceLabel) : Decidable (OnWorker ok s l) :=
  inferInstanceAs (Decidable (∀ m ∈ l.worker s, ok s.worker m))

namespace BlockDevice

variable {v : Device} {s t : BlockDevice} {l : Label}

@[simp] theorem answer_worker (s : BlockDevice) (k : Nat) (q : BlockRequest)
    (x : Except CallError Answer) : (s.answer k q x).worker = s.worker := rfl

theorem reply_cases (s : BlockDevice) : s.reply = s ∨
    ∃ k q a, s.reply = { s with serving := none }.answer k q (.ok a) := by
  unfold reply
  split
  · exact Or.inl rfl
  · split
    · split
      · exact Or.inr ⟨_,_,_,rfl⟩
      · exact Or.inl rfl
    · exact Or.inl rfl

@[simp] theorem reply_worker (s : BlockDevice) : s.reply.worker = s.worker := by
  rcases reply_cases s with h | ⟨k,q,a,h⟩
  · rw [h]
  · rw [h]
    rfl

@[simp] theorem reply_channel (s : BlockDevice) : s.reply.channel = s.channel := by
  rcases reply_cases s with h | ⟨k,q,a,h⟩
  · rw [h]
  · rw [h]
    rfl

@[simp] theorem reply_running (s : BlockDevice) : s.reply.running = s.running := by
  rcases reply_cases s with h | ⟨k,q,a,h⟩
  · rw [h]
  · rw [h]
    rfl

theorem advance_cases (h : s.advance v l = some t) :
    s.running = true ∧ ∃ w, step v s.worker l = some w ∧ t = { s with worker := w }.reply := by
  unfold advance at h
  split at h
  · rename_i hr
    obtain ⟨w,hw,rfl⟩ := Option.map_eq_some_iff.mp h
    exact ⟨hr,w,hw,rfl⟩
  · cases h

end BlockDevice

inductive DeviceStep (v : Device) (s : BlockDevice) : DeviceLabel → BlockDevice → Prop
  | call (k : Nat) (q : BlockRequest) : s.calls k = .idle → 0 < s.handles →
      DeviceStep v s (.call k q) { s with
        calls := Function.update s.calls k (.sending q)
        active := insert k s.active
        history := s.history ++ [.invoke k q] }
  | send (k : Nat) (q : BlockRequest) : s.calls k = .sending q → s.running = true →
      s.channel.length < 256 →
      DeviceStep v s (.send k) { s with
        calls := Function.update s.calls k (.waiting q)
        channel := s.channel ++ [(k,q)]
        sent := s.sent ++ [(k,q)] }
  | advance (l : DeviceLabel) (m : Label) (channel : List Call) (serving : Option Call) (w : Worker) :
      l.worker s = some m → s.running = true → step v s.worker m = some w →
      (channel = s.channel ∧ serving = s.serving ∧ (m.work = true ∨ m = .tick ∨ m = .close ∧
        s.channel = [] ∧ s.handles = 0 ∧ s.active = ∅)) ∨
      (∃ k q rmwOk, s.channel = (k,q) :: channel ∧ serving = some (k,q) ∧ m = q.label rmwOk) →
      DeviceStep v s l
        { s with channel := channel, serving := serving, worker := w }.reply
  | panic : s.running = true →
      DeviceStep v s .panic { s with running := false, channel := [], serving := none }
  | lose (k : Nat) (q : BlockRequest) (e : CallError) :
      s.calls k = .sending q ∨ s.calls k = .waiting q → s.running = false →
      DeviceStep v s (.lose k) (s.answer k q (.error e))
  | ret (k : Nat) (x : Except CallError Answer) : s.calls k = .answered x →
      DeviceStep v s (.ret k) { s with
        calls := Function.update s.calls k .returned
        active := s.active.erase k
        history := s.history ++ [.respond k x] }
  | handles (l : DeviceLabel) (n : Nat) : l.worker s = none → 0 < s.handles →
      DeviceStep v s l { s with handles := n }

theorem deviceStep_cases {v : Device} {s t : BlockDevice} {l : DeviceLabel}
    (h : deviceStep v s l = some t) : DeviceStep v s l t := by
  cases l with
  | call k q =>
    simp only [deviceStep] at h
    split at h
    · rename_i hk
      cases h
      exact .call k q hk.1 hk.2
    · cases h
  | send k =>
    simp only [deviceStep] at h
    split at h
    · rename_i q hq
      split at h
      · rename_i hr
        cases h
        exact .send k q hq hr.1 hr.2
      · cases h
    · cases h
  | recv rmwOk =>
    simp only [deviceStep] at h
    split at h
    · rename_i k q rest hc
      obtain ⟨hr,w,hw,rfl⟩ := advance_cases h
      exact .advance (.recv rmwOk) (q.label rmwOk) rest (some (k,q)) w
        (by simp [DeviceLabel.worker,hc]) hr hw (Or.inr ⟨k,q,rmwOk,hc,rfl,rfl⟩)
    · cases h
  | tick =>
    simp only [deviceStep] at h
    split at h
    · obtain ⟨hr,w,hw,rfl⟩ := advance_cases h
      exact .advance .tick .tick s.channel s.serving w rfl hr hw
        (Or.inl ⟨rfl,rfl,Or.inr (Or.inl rfl)⟩)
    · cases h
  | close =>
    simp only [deviceStep] at h
    split at h
    · rename_i hc
      obtain ⟨hr,w,hw,rfl⟩ := advance_cases h
      exact .advance .close .close s.channel s.serving w rfl hr hw
        (Or.inl ⟨rfl,rfl,Or.inr (Or.inr ⟨rfl,hc⟩)⟩)
    · cases h
  | work m =>
    simp only [deviceStep] at h
    split at h
    · rename_i hm
      obtain ⟨hr,w,hw,rfl⟩ := advance_cases h
      exact .advance (.work m) m s.channel s.serving w rfl hr hw (Or.inl ⟨rfl,rfl,Or.inl hm⟩)
    · cases h
  | panic =>
    simp only [deviceStep] at h
    split at h
    · rename_i hr
      cases h
      exact .panic hr
    · cases h
  | lose k =>
    simp only [deviceStep] at h
    split at h
    · rename_i q hq
      split at h
      · cases h
      · rename_i hr
        cases h
        exact .lose k q _ (Or.inl hq) (Bool.eq_false_iff.mpr hr)
    · rename_i q hq
      split at h
      · cases h
      · rename_i hr
        cases h
        exact .lose k q _ (Or.inr hq) (Bool.eq_false_iff.mpr hr)
    · cases h
  | ret k =>
    simp only [deviceStep] at h
    split at h
    · rename_i x hx
      cases h
      exact .ret k x hx
    · cases h
  | clone =>
    simp only [deviceStep] at h
    split at h
    · rename_i hh
      cases h
      exact .handles .clone (s.handles+1) rfl hh
    · cases h
  | drop =>
    simp only [deviceStep] at h
    split at h
    · rename_i hh
      cases h
      exact .handles .drop (s.handles-1) rfl hh
    · cases h

theorem run_worker {v : Device} {ok : Worker → Label → Prop} {s t : BlockDevice}
    {ls : List DeviceLabel} (hm : Machine.Meets (deviceStep v) (OnWorker ok) s ls)
    (hr : Machine.run (deviceStep v) s ls = some t) :
    ∃ ms, Machine.run (step v) s.worker ms = some t.worker ∧ Machine.Meets (step v) ok s.worker ms := by
  refine (Machine.run_refines (I := fun _ => True) (f := BlockDevice.worker) (fun s l t _ hok hs =>
    ⟨trivial,?_⟩) trivial hm hr).2
  cases deviceStep_cases hs with
  | advance _ m channel serving w hl _ hw _ => exact Or.inr ⟨m,hok m hl,by simpa using hw⟩
  | call | send | panic | lose | ret | handles => exact Or.inl rfl

def Caller.asked : Caller → Option BlockRequest
  | .request => some .flush
  | .write w => some (.write w.offset w.data)
  | .timer | .closing => none

/-- The request that the worker is busy with. -/
def Phase.request : Phase → Option BlockRequest
  | .reading r _ _ | .awaiting r _ _ => some (.read r.offset r.size)
  | .invalidating w _ => some (.write w.offset w.data)
  | .flushing k _ _ | .syncing k _ => k.asked
  | .idle | .stopped => none

/-- The request that a step starts with; that of the mode is over at once. -/
def Label.request : Label → Option BlockRequest
  | .read offset size => some (.read offset size)
  | .write offset data _ => some (.write offset data)
  | .flush => some .flush
  | _ => none

/-- A step replies to nothing and is busy with `asked`, or it ends with the reply to it. -/
inductive Served (asked : Option BlockRequest) (c d : Core) : Prop
  | goesOn (m : List Event) : d.log = c.log ++ m → m.filterMap Event.answer? = [] →
      d.phase.request = asked → Served asked c d
  | replies (m : List Event) (e : Event) (q : BlockRequest) (a : Answer) :
      d.log = c.log ++ m ++ [e] → m.filterMap Event.answer? = [] → e.answer? = some (q,a) →
      asked = some q → d.phase = .idle → Served asked c d

theorem served_flush {c : Core} (r : Reply Unit) (k : Caller) {m : List Event}
    (hm : m.filterMap Event.answer? = []) (left : List WriteCommand) :
    Served k.asked c ({ c with log := c.log ++ m, stray := left }.flushDone r k) := by
  cases k with
  | request => exact .replies m (.flushReply r) .flush _ rfl hm rfl rfl rfl
  | write w => exact .replies m (.writeReply w.offset w.data _) _ _ rfl hm rfl rfl rfl
  | timer | closing => exact .goesOn m rfl hm rfl

theorem triggers_request {p : Phase} {l : Label} {k : Caller} (h : Triggers p l k) :
    l.request.or p.request = k.asked := by cases h <;> rfl

theorem request_idle {v : Device} {s t : Worker} {l : Label} (h : step v s l = some t)
    (hl : l.request ≠ none) : s.phase = .idle := by
  cases hp : s.phase with
  | idle => rfl
  | _ =>
    cases l with
    | read | write | flush => simp [step,hp] at h
    | _ => exact absurd rfl hl

theorem served_step {v : Device} {s : Worker} {l : Label} {c : Core} (h : CoreStep v s l c)
    (hl : l.request ≠ none → s.phase = .idle) :
    Served (l.request.or s.phase.request) s.core c := by
  have hnil : s.core.log = s.core.log ++ [] := (List.append_nil _).symm
  cases h with
  | background _ hb =>
    have hn : l.request = none := by cases l <;> first | rfl | cases hb
    exact .goesOn [] hnil rfl (by rw [hn]; rfl)
  | emptyRead offset size hp =>
    exact .replies [] (.readReply offset size (.ok [])) _ _ (by rw [← hnil]; rfl) rfl rfl rfl rfl
  | dirtyRead offset size r d hp hr _ _ =>
    refine .replies [] (.readReply r.offset r.size _) _ _ (by rw [← hnil]; rfl) rfl rfl ?_ rfl
    rw [hr.args.1,hr.args.2]
    rfl
  | startRead offset size r clba hp hr _ _ =>
    refine .goesOn [] hnil rfl ?_
    show some (BlockRequest.read r.offset r.size) = _
    rw [hr.args.1,hr.args.2]
    rfl
  | await r clba acc hp => exact .goesOn [] hnil rfl (by rw [hp]; rfl)
  | take r clba acc chunk piece _ ht _ _ =>
    refine .goesOn [] hnil rfl ?_
    cases ht with
    | hit hp _ | fetched hp _ =>
      rw [hp]
      rfl
  | readDone r clba last acc hp _ _ =>
    exact .replies [] (.readReply r.offset r.size _) _ _ (by rw [← hnil]; rfl) rfl rfl
      (by rw [hp]; rfl) rfl
  | readFailed r clba acc e _ hp =>
    have hn : l.request = none := by
      by_contra hne
      rcases hp with hp | hp <;> rw [hl hne] at hp <;> cases hp
    refine .replies [] (.readReply r.offset r.size (.err e)) _ _ (by rw [← hnil]; rfl) rfl rfl ?_ rfl
    rcases hp with hp | hp <;> rw [hn,hp] <;> rfl
  | emptyWrite offset data rmwOk hp _ =>
    exact .replies [.received offset data] (.writeReply offset data (.ok 0)) _ _ rfl rfl rfl rfl rfl
  | failedWrite offset data rmwOk e hp =>
    exact .replies [.received offset data] (.writeReply offset data (.err e)) _ _ rfl rfl rfl rfl rfl
  | insert offset data rmwOk w buf clba hp hw _ =>
    refine .goesOn [.received offset data] rfl rfl ?_
    show some (BlockRequest.write w.offset w.data) = _
    rw [hw.args.1,hw.args.2]
    rfl
  | invalidate w clba next hp => exact .goesOn [] hnil rfl (by rw [hp]; rfl)
  | writeDone w clba hp =>
    exact .replies [] (.writeReply w.offset w.data _) _ _ (by rw [← hnil]; rfl) rfl rfl
      (by rw [hp]; rfl) rfl
  | flushNothing _ k hk _ =>
    rw [triggers_request hk]
    have hs := served_flush (c := s.core) (.ok ()) k (m := []) rfl s.stray
    rwa [← hnil] at hs
  | flushStart _ k cmds hk _ _ => exact .goesOn [] hnil rfl (triggers_request hk).symm
  | good i k dr cmds y hp _ _ => exact .goesOn [_] rfl rfl (by rw [hp]; rfl)
  | fail i applied panicked k dr cmds y hp _ _ => exact .goesOn [] hnil rfl (by rw [hp]; rfl)
  | sync k dr cmds hp _ => exact .goesOn [.syncIssued] rfl rfl (by rw [hp]; rfl)
  | flushFailed k dr cmds y panicked left e hp _ _ =>
    have hs := served_flush (c := s.core) (.err e) k (m := []) rfl left
    rw [← hnil] at hs
    rw [hp]
    exact hs
  | syncGood k dr hp =>
    rw [hp]
    exact served_flush (c := s.core) (.ok ()) k (m := [.syncGood]) rfl s.stray
  | syncFail k dr hp =>
    have hs := served_flush (c := s.core) (.err .syncFailed) k (m := []) rfl s.stray
    rw [← hnil] at hs
    rw [hp]
    exact hs
  | stray i good y _ =>
    refine .goesOn _ rfl ?_ rfl
    cases good <;> rfl

end IscsiFuse.Block
