import IscsiFuse.Iscsi.Sequence
set_option autoImplicit false

namespace IscsiFuse.Iscsi
open Session

/-- The largest MaxCmdSN received, in serial order. -/
def largestMax (m : BitVec 32) : List SessionEvent → BitVec 32
  | [] => m
  | .received _ p :: log => largestMax (if serialLe m p.bhs.maxCmdSn then p.bhs.maxCmdSn else m) log
  | _ :: log => largestMax m log

/-- Every SCSI Command is sent with a CmdSN in the window. -/
def WindowRespected (init : BitVec 32) (log : List SessionEvent) : Prop :=
  ∀ pre k c itt p post, log = pre ++ .sent k (.command c itt) p :: post →
    serialLe p.wireCmdSn (largestMax init pre) = true

theorem largestMax_append (m : BitVec 32) (l l' : List SessionEvent) :
    largestMax m (l ++ l') = largestMax (largestMax m l) l' := by
  induction l generalizing m with
  | nil => rfl
  | cons e l ih => cases e <;> simp [largestMax,ih]

theorem WindowRespected.snoc {init : BitVec 32} {log : List SessionEvent} {e : SessionEvent}
    (h : WindowRespected init log)
    (he : ∀ k c itt p, e = .sent k (.command c itt) p →
      serialLe p.wireCmdSn (largestMax init log) = true) : WindowRespected init (log ++ [e]) := by
  intro pre k c itt p post hl
  rcases Log.split_snoc hl with ⟨_,hx,rfl⟩ | ⟨post',_,hl'⟩
  · exact he k c itt p hx
  · exact h pre k c itt p post' hl'

def Numbering.taken : Numbering → Option (BitVec 32)
  | .number => none
  | .stat cmdSn _ => some cmdSn
  | .send p _ => some p.wireCmdSn

def Call.held : Call → Option (BitVec 32)
  | .numbering (.command _ _) n => n.taken
  | _ => none

def Session.taking (s : Session) : Label → Option (BitVec 32)
  | .advance k => match s.calls k with
    | .numbering (.command _ _) .number => some s.state.cmdSn
    | _ => none
  | _ => none

def Label.maxCmdSn : Label → Option (BitVec 32)
  | .receive p => some p.bhs.maxCmdSn
  | _ => none

/-- A command takes a CmdSN that is in the window, as it was at the check. MaxCmdSN
never decreases, and it does not lap a CmdSN that is held. -/
def InWindow (s : Session) (l : Label) : Prop :=
  (s.taking l).all (fun n => serialLe n s.state.maxCmdSn) = true ∧
    l.maxCmdSn.all (fun m => serialLe s.state.maxCmdSn m &&
      (takers s.log).all (fun k => (s.calls k).held.all (fun n => serialLe n m))) = true

instance (s : Session) (l : Label) : Decidable (InWindow s l) :=
  inferInstanceAs (Decidable (_ ∧ _))

structure Windowed (init : BitVec 32) (s : Session) : Prop where
  largest : largestMax init s.log = s.state.maxCmdSn
  held : ∀ k n, (s.calls k).held = some n →
    k ∈ takers s.log ∧ serialLe n s.state.maxCmdSn = true
  respected : WindowRespected init s.log

theorem mem_takers_append {log m : List SessionEvent} {k : Nat} (h : k ∈ takers log) :
    k ∈ takers (log ++ m) := by
  rw [takers_append]
  exact List.mem_append_left _ h

theorem held_of_early {c : Call} (h : c.early = true) : c.held = none := by
  cases c with
  | numbering w n =>
    cases w with
    | command c itt => cases n <;> cases h
    | _ => rfl
  | _ => rfl

theorem held_setCall {s t : Session} {k : Nat} {c : Call}
    (ht : t.calls = Function.update s.calls k c)
    (h : ∀ n, c.held = some n → (s.calls k).held = some n) (j : Nat) (n : BitVec 32)
    (hn : (t.calls j).held = some n) : (s.calls j).held = some n := by
  rw [ht] at hn
  by_cases hj : j = k
  · subst hj
    rw [Function.update_self] at hn
    exact h n hn
  · rwa [Function.update_of_ne hj] at hn

theorem held_none {x : Option (BitVec 32)} {c : Call} (h : c.held = none) (n : BitVec 32)
    (hn : c.held = some n) : x = some n := by
  rw [h] at hn
  cases hn

def SessionEvent.windowless : SessionEvent → Bool
  | .received _ _ | .sent _ (.command _ _) _ => false
  | _ => true

def Windowless (log log' : List SessionEvent) : Prop :=
  log' = log ∨ ∃ e : SessionEvent, log' = log ++ [e] ∧ e.windowless = true

namespace Windowed

variable {init : BitVec 32} {s t : Session}

theorem extend (h : Windowed init s) (hs : t.state.maxCmdSn = s.state.maxCmdSn)
    (hl : Windowless s.log t.log)
    (hc : ∀ k n, (t.calls k).held = some n → (s.calls k).held = some n ∨
      k ∈ takers t.log ∧ serialLe n s.state.maxCmdSn = true) : Windowed init t := by
  have hmem : ∀ k, k ∈ takers s.log → k ∈ takers t.log := by
    intro k hk
    rcases hl with hl | ⟨e,hl,_⟩ <;> rw [hl]
    · exact hk
    · exact mem_takers_append hk
  refine ⟨?_,?_,?_⟩
  · rw [hs,← h.largest]
    rcases hl with hl | ⟨e,hl,he⟩ <;> rw [hl]
    rw [largestMax_append]
    cases e <;> first | rfl | cases he
  · intro k n hn
    rw [hs]
    rcases hc k n hn with hn | hn
    · exact ⟨hmem k (h.held k n hn).1,(h.held k n hn).2⟩
    · exact hn
  · rcases hl with hl | ⟨e,hl,he⟩ <;> rw [hl]
    · exact h.respected
    · refine h.respected.snoc (fun k c itt p hp => ?_)
      rw [hp] at he
      cases he

theorem keep (h : Windowed init s) (hs : t.state.maxCmdSn = s.state.maxCmdSn)
    (hl : Windowless s.log t.log)
    (hc : ∀ k n, (t.calls k).held = some n → (s.calls k).held = some n) : Windowed init t :=
  h.extend hs hl (fun k n hn => Or.inl (hc k n hn))

theorem send (h : Windowed init s) {k : Nat} {c : Command} {itt turn : Nat} {p : Pdu} {x : Call}
    (hk : s.calls k = .numbering (.command c itt) (.send p turn)) (hx : x.held = none)
    (hs : t.state = s.state) (hl : t.log = s.log ++ [.sent (some k) (.command c itt) p])
    (hc : t.calls = Function.update s.calls k x) : Windowed init t := by
  have hp := h.held k p.wireCmdSn (by rw [hk]; rfl)
  refine ⟨?_,?_,?_⟩
  · rw [hl,hs,largestMax_append]
    exact h.largest
  · intro j n hn
    rw [hl,hs]
    have hj := h.held j n (held_setCall hc (held_none hx) j n hn)
    exact ⟨mem_takers_append hj.1,hj.2⟩
  · rw [hl]
    refine h.respected.snoc (fun k' c' itt' p' he => ?_)
    cases he
    rw [h.largest]
    exact hp.2

theorem receive (h : Windowed init s) {p : Pdu}
    (hmax : serialLe s.state.maxCmdSn p.bhs.maxCmdSn = true)
    (hheld : ∀ k ∈ takers s.log, ∀ n ∈ (s.calls k).held, serialLe n p.bhs.maxCmdSn = true) :
    Windowed init (s.receive p) := by
  refine ⟨?_,?_,?_⟩
  · show largestMax init (s.log ++ [SessionEvent.received _ p]) = p.bhs.maxCmdSn
    rw [largestMax_append,h.largest]
    exact if_pos hmax
  · intro k n hn
    have hk := h.held k n hn
    exact ⟨mem_takers_append hk.1,hheld k hk.1 n hn⟩
  · exact h.respected.snoc (fun k c itt p' he => by cases he)

end Windowed

theorem windowed_step {init : BitVec 32} {s t : Session} {l : Label} (h : Windowed init s)
    (hok : InWindow s l) (hstep : SessionStep s l t) : Windowed init t := by
  cases hstep with
  | wander l k c he he' =>
    exact h.keep rfl (Or.inl rfl)
      (held_setCall rfl (held_none (held_of_early he')))
  | claim k c half hk hb =>
    exact h.keep rfl (Or.inl rfl)
      (held_setCall rfl (held_none rfl))
  | store k c itt hk =>
    exact h.keep rfl (Or.inl rfl)
      (held_setCall rfl (held_none rfl))
  | number k w hk =>
    cases w with
    | command c itt =>
      have hin : serialLe s.state.cmdSn s.state.maxCmdSn = true := by
        have hin := hok.1
        rwa [taking,hk] at hin
      refine h.extend rfl (Or.inr ⟨_,rfl,rfl⟩) ?_
      intro j n hn
      by_cases hj : j = k
      · subst hj
        rw [setCall_self] at hn
        cases hn
        exact Or.inr ⟨by simp [takeNumber,Sender.takes,setCall,takers],hin⟩
      · rw [setCall_other hj] at hn
        exact Or.inl hn
    | nop ttt =>
      exact h.keep rfl (Or.inl rfl)
        (held_setCall rfl (held_none rfl))
    | logout =>
      exact h.keep rfl (Or.inr ⟨_,rfl,rfl⟩)
        (held_setCall rfl (held_none rfl))
  | stat k w cmdSn turn hk =>
    refine h.keep rfl (Or.inl rfl)
      (held_setCall rfl (fun n hn => ?_))
    cases w with
    | command c itt =>
      rw [hk,← hn]
      exact congrArg some (Sender.pdu_cmdSn _ _ _).symm
    | _ => cases hn
  | sentCommand k c itt p turn hk =>
    refine h.send hk ?_ rfl rfl rfl
    cases c.writeData <;> rfl
  | sentOther k w p turn hw hk =>
    refine h.keep rfl (Or.inr ⟨_,rfl,?_⟩) (held_setCall rfl (held_none rfl))
    cases w with
    | command c itt => cases hw
    | _ => rfl
  | register k itt data hk =>
    exact h.keep rfl (Or.inl rfl)
      (held_setCall rfl (held_none rfl))
  | leave l k hk =>
    exact h.keep rfl (Or.inl rfl)
      (held_setCall rfl (held_none rfl))
  | receive p hp => 
    obtain ⟨hmax,hheld⟩ := (Bool.and_eq_true _ _).mp hok.2
    refine h.receive hmax (fun k hk n hn => ?_)
    have hall := List.all_eq_true.mp hheld k hk
    rwa [Option.mem_def.mp hn] at hall
  | deliver p r k hp hk =>
    exact h.keep rfl (Or.inr ⟨_,rfl,rfl⟩) (fun k n hn => hn)
  | dataOut p x hp hx =>
    exact h.keep rfl (Or.inr ⟨_,rfl,rfl⟩) (fun k n hn => hn)
  | pongSent ttt p turn hp =>
    exact h.keep rfl (Or.inr ⟨_,rfl,rfl⟩) (fun k n hn => hn)
  | _ =>
    exact h.keep rfl (Or.inl rfl) (fun k n hn => hn)

theorem windowed_start (init stat : BitVec 32) (n : NegotiatedParams) :
    Windowed init (Session.start init stat n) where
  largest := rfl
  held := fun k n h => by cases h
  respected := fun pre k c itt p post h => by simp [Session.start] at h

theorem window_respected {init stat : BitVec 32} {n : NegotiatedParams} {ls : List Label}
    {t : Session} (hm : Machine.Meets sessionStep InWindow (Session.start init stat n) ls)
    (hr : Machine.run sessionStep (Session.start init stat n) ls = some t) :
    WindowRespected init t.log :=
  (Machine.invariant (I := Windowed init)
    (fun _ _ _ h hok hs => windowed_step h hok (session_step hs)) (windowed_start init stat n) hm
    hr).respected

def openWindow (maxCmdSn : BitVec 32) : Pdu where
  bhs := { Bhs.newZeroed.setRawU32 32 maxCmdSn Bhs.maxCmdSn_fits with opcode := .nopIn }
  ahs := none
  data := none

/-- The second command waits for the window. -/
theorem window_respected_waiting :
    ∃ t, Machine.run sessionStep (Session.start 5 0 .defaults10g)
        (Label.prepare 0 (readBlock 9) ++ Label.transmit 0 ++ .receive (openWindow 6) ::
          Label.prepare 1 (readBlock 10) ++ Label.transmit 1) = some t ∧
      (nonImmediate t.log).map Pdu.wireCmdSn = [5,6] ∧ WindowRespected 5 t.log := by
  have hm : Machine.Meets sessionStep InWindow (Session.start 5 0 .defaults10g)
      (Label.prepare 0 (readBlock 9) ++ Label.transmit 0 ++ .receive (openWindow 6) ::
        Label.prepare 1 (readBlock 10) ++ Label.transmit 1) := Machine.meets_of_check (by decide)
  exact ⟨_,rfl,by decide,window_respected hm rfl⟩

/-- Two commands pass the check for a window of one. -/
theorem window_overrun :
    ∃ t, Machine.run sessionStep (Session.start 5 0 .defaults10g)
        (Label.prepare 0 (readBlock 9) ++ Label.prepare 1 (readBlock 10) ++ Label.transmit 0 ++
          Label.transmit 1) = some t ∧
      (nonImmediate t.log).map Pdu.wireCmdSn = [5,6] ∧ largestMax 5 t.log = 5 ∧
      ¬ WindowRespected 5 t.log := by
  refine ⟨_,rfl,by decide,by decide,fun h => ?_⟩
  have h6 := h [.took 0,.sent _ _ _,.took 1] _ _ _ _ _ rfl
  revert h6
  decide

end IscsiFuse.Iscsi
