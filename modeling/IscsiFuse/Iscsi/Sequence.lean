import IscsiFuse.Library.Log
import IscsiFuse.Iscsi.SessionSteps
set_option autoImplicit false

namespace IscsiFuse.Iscsi
open Session

def Pdu.wireImmediate (p : Pdu) : Bool := p.bhs.serialize.getD 0 0 &&& 0x40 ≠ 0

/-- Bytes 24-27 on the wire. -/
def Pdu.wireCmdSn (p : Pdu) : BitVec 32 := Bhs.u32At p.bhs.serialize 24

/-- The non-immediate PDUs of `submit_command`, `send_nop_out`, `send_logout` and
`handle_nop_in` on the wire. -/
def nonImmediate (log : List SessionEvent) : List Pdu :=
  log.filterMap (fun e => match e with
    | .sent _ _ p => if p.wireImmediate then none else some p
    | _ => none)

/-- Every PDU carries the initial CmdSN plus the number of non-immediate PDUs before
it. So these count up by one, and an immediate PDU has the number of the next. -/
def CmdSnInOrder (init : BitVec 32) (log : List SessionEvent) : Prop :=
  ∀ pre k w p post, log = pre ++ .sent k w p :: post →
    p.wireCmdSn = init+BitVec.ofNat 32 (nonImmediate pre).length

@[simp] theorem takers_append (l m : List SessionEvent) : takers (l ++ m) = takers l ++ takers m :=
  List.filterMap_append

@[simp] theorem nonImmediate_append (l m : List SessionEvent) :
    nonImmediate (l ++ m) = nonImmediate l ++ nonImmediate m := List.filterMap_append

theorem Pdu.wireImmediate_eq (p : Pdu) : p.wireImmediate = p.bhs.immediate := by
  have h : p.bhs.serialize.getD 0 0 =
      (if p.bhs.immediate then 0x40 else 0x00) ||| p.bhs.opcode.code := rfl
  rw [wireImmediate,h]
  cases p.bhs.immediate <;> cases p.bhs.opcode <;> rfl

theorem Pdu.wireCmdSn_eq (p : Pdu) : p.wireCmdSn = p.bhs.cmdSn :=
  Bhs.serialize_u32At p.bhs (by decide)

theorem Sender.pdu_cmdSn (w : Sender) (cmdSn expStatSn : BitVec 32) :
    (w.pdu cmdSn expStatSn).wireCmdSn = cmdSn := by
  rw [Pdu.wireCmdSn_eq]
  cases w with
  | command c itt =>
    simp only [pdu]
    cases c.immediateData <;> simp only [Bhs.cmdSn_setDataSegmentLength,Bhs.cmdSn_buildScsiCommand]
  | nop ttt => exact Bhs.cmdSn_buildNopOut _ _ _ _
  | logout => exact Bhs.cmdSn_buildLogoutRequest _ _ _ _

theorem Sender.pdu_immediate (w : Sender) (cmdSn expStatSn : BitVec 32) :
    (w.pdu cmdSn expStatSn).wireImmediate = !w.isCommand := by
  rw [Pdu.wireImmediate_eq]
  cases w with
  | command c itt =>
    simp only [pdu]
    cases c.immediateData <;> rfl
  | _ => rfl

def Turn (log : List SessionEvent) (turn : Nat) : Prop :=
  (∀ j ∈ (takers log).take turn, j ∈ commandsSent log) ∧
    ∀ j ∈ (takers log).drop turn, j ∉ commandsSent log

instance (log : List SessionEvent) (turn : Nat) : Decidable (Turn log turn) :=
  inferInstanceAs (Decidable (_ ∧ _))

def Numbering.sendTurn : Numbering → Option Nat
  | .send _ turn => some turn
  | _ => none

def Session.sendTurn (s : Session) : Label → Option Nat
  | .sent k => match s.calls k with
    | .numbering _ n => n.sendTurn
    | _ => none
  | .handleSent => match s.receiver with
    | .pong _ n => n.sendTurn
    | _ => none
  | _ => none

/-- Every send comes in its turn. -/
def InTurn (s : Session) (l : Label) : Prop := ∀ turn ∈ s.sendTurn l, Turn s.log turn

instance (s : Session) (l : Label) : Decidable (InTurn s l) :=
  inferInstanceAs (Decidable (∀ turn ∈ s.sendTurn l, Turn s.log turn))

def Taken (log : List SessionEvent) (k : Nat) (w : Sender) (turn : Nat) : Prop :=
  turn ≤ (takers log).length ∧ (w.isCommand = true → (takers log)[turn]? = some k)

def Holds (init : BitVec 32) (log : List SessionEvent) (k : Nat) (w : Sender) : Numbering → Prop
  | .number => True
  | .stat cmdSn turn => cmdSn = init+BitVec.ofNat 32 turn ∧ Taken log k w turn
  | .send p turn => p.wireCmdSn = init+BitVec.ofNat 32 turn ∧ p.wireImmediate = !w.isCommand ∧
      Taken log k w turn

def Call.unnumbered : Call → Bool
  | .store _ _ | .numbering _ .number => true
  | c => c.early

def Call.Quiet (c c' : Call) : Prop :=
  c' = c ∨ (c.unnumbered = true ∧ c'.unnumbered = true) ∨
    (c'.unnumbered = false ∧ ∀ w n, c' ≠ .numbering w n)

structure Numbered (init : BitVec 32) (s : Session) : Prop where
  counter : s.state.cmdSn = init+BitVec.ofNat 32 (takers s.log).length
  nodup : (takers s.log).Nodup
  fresh : ∀ k, (s.calls k).unnumbered = true → k ∉ takers s.log
  calls : ∀ k w n, s.calls k = .numbering w n → Holds init s.log k w n
  pong : ∀ ttt n, s.receiver = .pong ttt n → Holds init s.log 0 (.nop ttt) n
  sent : commandsSent s.log <+: takers s.log
  count : (nonImmediate s.log).length = (commandsSent s.log).length
  order : CmdSnInOrder init s.log

theorem Taken.append {log : List SessionEvent} {k : Nat} {w : Sender} {turn : Nat}
    (h : Taken log k w turn) (m : List SessionEvent) : Taken (log ++ m) k w turn := by
  obtain ⟨hle,hk⟩ := h
  refine ⟨by rw [takers_append,List.length_append]; omega,fun hw => ?_⟩
  have hlt := (List.getElem?_eq_some_iff.mp (hk hw)).1
  rw [takers_append,List.getElem?_append_left hlt]
  exact hk hw

theorem Holds.append {init : BitVec 32} {log : List SessionEvent} {k : Nat} {w : Sender}
    {n : Numbering} (h : Holds init log k w n) (m : List SessionEvent) :
    Holds init (log ++ m) k w n := by
  cases n with
  | number => trivial
  | stat cmdSn turn => exact ⟨h.1,h.2.append m⟩
  | send p turn => exact ⟨h.1,h.2.1,h.2.2.append m⟩

theorem unnumbered_numbering {w : Sender} {n : Numbering}
    (h : (Call.numbering w n).unnumbered = true) : n = .number := by
  cases n with
  | number => rfl
  | _ => cases w <;> cases h

theorem CmdSnInOrder.snoc {init : BitVec 32} {log : List SessionEvent} {e : SessionEvent}
    (h : CmdSnInOrder init log)
    (he : ∀ k w p, e = .sent k w p → p.wireCmdSn = init+BitVec.ofNat 32 (nonImmediate log).length) :
    CmdSnInOrder init (log ++ [e]) := by
  intro pre k w p post hl
  rcases Log.split_snoc hl with ⟨_,hx,rfl⟩ | ⟨post',_,hl'⟩
  · exact he k w p hx
  · exact h pre k w p post' hl'

def SessionEvent.quiet : SessionEvent → Bool
  | .took _ | .sent _ _ _ => false
  | _ => true

theorem CmdSnInOrder.append {init : BitVec 32} {log m : List SessionEvent}
    (h : CmdSnInOrder init log) (hm : ∀ e ∈ m, e.quiet = true) : CmdSnInOrder init (log ++ m) := by
  induction m using List.reverseRecOn with
  | nil => simpa using h
  | append_singleton m e ih =>
    rw [← List.append_assoc]
    refine (ih (fun x hx => hm x (by simp [hx]))).snoc (fun k w p he => ?_)
    have hq := hm e (by simp)
    rw [he] at hq
    cases hq

def Moves (init : BitVec 32) (log : List SessionEvent) (k : Nat) (c c' : Call) : Prop :=
  c.Quiet c' ∨ ∃ w n, c' = .numbering w n ∧ n ≠ .number ∧ Holds init log k w n

theorem moves_setCall {init : BitVec 32} {s t : Session} {k : Nat} {c : Call}
    (ht : t.calls = Function.update s.calls k c) (h : Moves init s.log k (s.calls k) c) (j : Nat) :
    Moves init s.log j (s.calls j) (t.calls j) := by
  rw [ht]
  by_cases hj : j = k
  · subst hj
    rw [Function.update_self]
    exact h
  · rw [Function.update_of_ne hj]
    exact Or.inl (Or.inl rfl)

theorem moves_same {init : BitVec 32} {s t : Session} (ht : t.calls = s.calls) (j : Nat) :
    Moves init s.log j (s.calls j) (t.calls j) := by
  rw [ht]
  exact Or.inl (Or.inl rfl)

def Pongs (init : BitVec 32) (log : List SessionEvent) (x x' : Receiver) : Prop :=
  ∀ ttt n, x' = .pong ttt n → x = .pong ttt n ∨ Holds init log 0 (.nop ttt) n

theorem pongs_none {init : BitVec 32} {log : List SessionEvent} {x x' : Receiver}
    (h : ∀ ttt n, x' ≠ .pong ttt n) : Pongs init log x x' := fun ttt n hx => absurd hx (h ttt n)

namespace Numbered

variable {init : BitVec 32} {s t : Session}

theorem extend (h : Numbered init s) (hs : t.state.cmdSn = s.state.cmdSn) {m : List SessionEvent}
    (hl : t.log = s.log ++ m) (ht : takers m = [])
    (hc : ∀ k, Moves init s.log k (s.calls k) (t.calls k))
    (hr : Pongs init s.log s.receiver t.receiver)
    (hsent : commandsSent t.log <+: takers t.log)
    (hcount : (nonImmediate t.log).length = (commandsSent t.log).length)
    (horder : CmdSnInOrder init t.log) : Numbered init t := by
  have htk : takers t.log = takers s.log := by rw [hl,takers_append,ht,List.append_nil]
  refine ⟨?_,?_,?_,?_,?_,hsent,hcount,horder⟩
  · rw [hs,htk]
    exact h.counter
  · rw [htk]
    exact h.nodup
  · intro k hk
    rw [htk]
    rcases hc k with (he | ⟨hu,_⟩ | ⟨hu,_⟩) | ⟨w,n,he,hn,_⟩
    · exact h.fresh k (he ▸ hk)
    · exact h.fresh k hu
    · rw [hu] at hk
      cases hk
    · rw [he] at hk
      exact absurd (unnumbered_numbering hk) hn
  · intro k w n hk
    rw [hl]
    rcases hc k with (he | ⟨_,hu⟩ | ⟨_,hne⟩) | ⟨w',n',he,_,hh⟩
    · exact (h.calls k w n (he ▸ hk)).append m
    · rw [hk] at hu
      rw [unnumbered_numbering hu]
      trivial
    · exact absurd hk (hne w n)
    · cases he.symm.trans hk
      exact hh.append m
  · intro ttt n hp
    rw [hl]
    rcases hr ttt n hp with hp | hh
    · exact (h.pong ttt n hp).append m
    · exact hh.append m

theorem keep (h : Numbered init s) (hs : t.state.cmdSn = s.state.cmdSn) {m : List SessionEvent}
    (hl : t.log = s.log ++ m) (hm : ∀ e ∈ m, e.quiet = true)
    (hc : ∀ k, Moves init s.log k (s.calls k) (t.calls k))
    (hr : Pongs init s.log s.receiver t.receiver) : Numbered init t := by
  have hq : takers m = [] ∧ nonImmediate m = [] ∧ commandsSent m = [] := by
    refine ⟨?_,?_,?_⟩ <;> refine List.filterMap_eq_nil_iff.mpr (fun e he => ?_) <;>
      have hx := hm e he <;> cases e <;> simp [SessionEvent.quiet] at hx ⊢
  obtain ⟨ht,hn,hcs⟩ := hq
  refine h.extend hs hl ht hc hr ?_ ?_ ?_
  · rw [hl,takers_append,commandsSent_append,ht,hcs,List.append_nil,List.append_nil]
    exact h.sent
  · rw [hl,nonImmediate_append,commandsSent_append,hn,hcs,List.append_nil,List.append_nil]
    exact h.count
  · rw [hl]
    exact h.order.append hm

theorem take (h : Numbered init s) {k : Nat} {w : Sender} (hk : s.calls k = .numbering w .number)
    (hw : w.takes = true) : Numbered init ((s.takeNumber k w).setCall k
      (.numbering w (.stat s.state.cmdSn (takers s.log).length))) := by
  have hkn : k ∉ takers s.log := h.fresh k (by rw [hk]; rfl)
  rw [takeNumber,if_pos hw]
  have ht : takers (s.log ++ [SessionEvent.took k]) = takers s.log ++ [k] := by
    rw [takers_append]
    rfl
  refine ⟨?_,?_,?_,?_,?_,?_,?_,?_⟩
  · show s.state.cmdSn+1 = init+BitVec.ofNat 32 (takers (s.log ++ [SessionEvent.took k])).length
    rw [ht,List.length_append,List.length_singleton,h.counter,BitVec.ofNat_add,BitVec.add_assoc]
    rfl
  · show (takers (s.log ++ [SessionEvent.took k])).Nodup
    rw [ht]
    exact List.nodup_append.mpr ⟨h.nodup,by simp,fun x hx y hy => by
      rw [List.mem_singleton.mp hy]
      exact fun he => hkn (he ▸ hx)⟩
  · intro j hj
    show j ∉ takers (s.log ++ [SessionEvent.took k])
    rw [ht]
    by_cases hjk : j = k
    · subst hjk
      rw [setCall_self] at hj
      cases w <;> cases hj
    · have hj' : (s.calls j).unnumbered = true := by
        rwa [setCall_other hjk] at hj
      simp [h.fresh j hj',hjk]
  · intro j w' n hj
    show Holds init (s.log ++ [SessionEvent.took k]) j w' n
    by_cases hjk : j = k
    · subst hjk
      rw [setCall_self] at hj
      cases hj
      refine ⟨h.counter,?_,fun _ => ?_⟩
      · rw [ht,List.length_append]
        exact Nat.le_add_right _ _
      · rw [ht,List.getElem?_append_right (Nat.le_refl _),Nat.sub_self]
        rfl
    · have hj' : s.calls j = .numbering w' n := by
        rwa [setCall_other hjk] at hj
      exact (h.calls j w' n hj').append _
  · intro ttt n hp
    exact (h.pong ttt n hp).append _
  · show commandsSent (s.log ++ [SessionEvent.took k]) <+: takers (s.log ++ [SessionEvent.took k])
    rw [ht,commandsSent_append]
    exact (List.append_nil _).symm ▸ h.sent.trans (List.prefix_append _ _)
  · show (nonImmediate (s.log ++ [SessionEvent.took k])).length =
      (commandsSent (s.log ++ [SessionEvent.took k])).length
    rw [nonImmediate_append,commandsSent_append]
    simpa [nonImmediate,commandsSent] using h.count
  · exact h.order.snoc (fun j w' p he => by cases he)

theorem send (h : Numbered init s) {k : Nat} {kk : Option Nat} {w : Sender} {p : Pdu} {turn : Nat}
    (hh : Holds init s.log k w (.send p turn)) (hturn : Turn s.log turn)
    (hkk : w.isCommand = true → kk = some k) (hs : t.state.cmdSn = s.state.cmdSn)
    (hl : t.log = s.log ++ [.sent kk w p]) (hc : ∀ k, Moves init s.log k (s.calls k) (t.calls k))
    (hr : Pongs init s.log s.receiver t.receiver) : Numbered init t := by
  obtain ⟨hsn,himm,hle,hk⟩ := hh
  have hlen : (commandsSent s.log).length = turn :=
    Log.prefix_length_eq h.nodup h.sent hle hturn.1 hturn.2
  have hcs : commandsSent [SessionEvent.sent kk w p] = if w.isCommand then [k] else [] := by
    cases w with
    | command c itt =>
      rw [hkk rfl]
      rfl
    | _ => cases kk <;> rfl
  refine h.extend hs hl rfl hc hr ?_ ?_ ?_
  · rw [hl,takers_append,commandsSent_append,hcs]
    show commandsSent s.log ++ _ <+: takers s.log ++ []
    rw [List.append_nil]
    cases hw : w.isCommand with
    | false => simpa using h.sent
    | true =>
      obtain ⟨q,hq⟩ := h.sent
      have hkq := hk hw
      rw [← hq,← hlen,List.getElem?_append_right (Nat.le_refl _),Nat.sub_self] at hkq
      cases q with
      | nil => cases hkq
      | cons x q =>
        cases hkq
        exact ⟨q,by rw [← hq]; simp⟩
  · rw [hl,nonImmediate_append,commandsSent_append,List.length_append,List.length_append,hcs,h.count]
    simp only [nonImmediate,List.filterMap_cons,List.filterMap_nil,himm]
    cases w.isCommand <;> rfl
  · rw [hl]
    refine h.order.snoc (fun j w' p' he => ?_)
    cases he
    rw [hsn,h.count,hlen]

end Numbered

theorem holds_stat {init : BitVec 32} {log : List SessionEvent} {k : Nat} {w : Sender}
    {cmdSn stat : BitVec 32} {turn : Nat} (h : Holds init log k w (.stat cmdSn turn)) :
    Holds init log k w (.send (w.pdu cmdSn stat) turn) :=
  ⟨by rw [Sender.pdu_cmdSn,h.1],Sender.pdu_immediate _ _ _,h.2⟩

theorem dispatch_pong {p : Pdu} {ttt : BitVec 32} {n : Numbering}
    (h : Receiver.dispatch p = .pong ttt n) : n = .number := by
  unfold Receiver.dispatch at h
  repeat' split at h
  all_goals cases h
  rfl

theorem moves_quiet {init : BitVec 32} {log : List SessionEvent} {k : Nat} {c c' : Call}
    (h : c.unnumbered = true) (h' : c'.unnumbered = true) : Moves init log k c c' :=
  Or.inl (Or.inr (Or.inl ⟨h,h'⟩))

theorem moves_past {init : BitVec 32} {log : List SessionEvent} {k : Nat} {c c' : Call}
    (h : c'.unnumbered = false) (h' : ∀ w n, c' ≠ .numbering w n) : Moves init log k c c' :=
  Or.inl (Or.inr (Or.inr ⟨h,h'⟩))

theorem unnumbered_of_early {c : Call} (h : c.early = true) : c.unnumbered = true := by
  unfold Call.unnumbered
  split
  · rfl
  · rfl
  · exact h

theorem numbered_step {init : BitVec 32} {s t : Session} {l : Label} (h : Numbered init s)
    (ht : InTurn s l) (hstep : SessionStep s l t) : Numbered init t := by
  have hsame : ∀ {x : Receiver}, (∀ ttt n, x ≠ .pong ttt n) → Pongs init s.log s.receiver x :=
    fun hx => pongs_none hx
  cases hstep with
  | wander l k c he he' =>
    exact h.keep (m := []) rfl (List.append_nil _).symm (by simp)
      (moves_setCall rfl (moves_quiet (unnumbered_of_early he) (unnumbered_of_early he')))
      (fun ttt n hp => Or.inl hp)
  | claim k c half hk hb =>
    exact h.keep (m := []) rfl (List.append_nil _).symm (by simp)
      (moves_setCall rfl (moves_quiet (by rw [hk]; rfl) rfl)) (fun ttt n hp => Or.inl hp)
  | store k c itt hk =>
    exact h.keep (m := []) rfl (List.append_nil _).symm (by simp)
      (moves_setCall rfl (moves_quiet (by rw [hk]; rfl) rfl)) (fun ttt n hp => Or.inl hp)
  | number k w hk =>
    cases hw : w.takes with
    | true => exact h.take hk hw
    | false =>
      rw [takeNumber,if_neg (by simp [hw])]
      refine h.keep (m := []) rfl (List.append_nil _).symm (by simp) (moves_setCall rfl
        (Or.inr ⟨w,_,rfl,by simp,h.counter,Nat.le_refl _,fun hc => ?_⟩)) (fun ttt n hp => Or.inl hp)
      cases w <;> simp [Sender.takes,Sender.isCommand] at hw hc
  | stat k w cmdSn turn hk =>
    exact h.keep (m := []) rfl (List.append_nil _).symm (by simp) (moves_setCall rfl
      (Or.inr ⟨w,_,rfl,by simp,holds_stat (h.calls k w _ hk)⟩)) (fun ttt n hp => Or.inl hp)
  | sentCommand k c itt p turn hk =>
    have htn : Turn s.log turn := ht turn (by simp [sendTurn,hk,Numbering.sendTurn])
    refine h.send (h.calls k _ _ hk) htn (fun _ => rfl) rfl rfl
      (moves_setCall rfl (moves_past ?_ (fun w n => ?_))) (fun ttt n hp => Or.inl hp)
    · cases c.writeData <;> rfl
    · cases c.writeData <;> simp
  | sentOther k w p turn hw hk =>
    have htn : Turn s.log turn := ht turn (by simp [sendTurn,hk,Numbering.sendTurn])
    exact h.send (h.calls k _ _ hk) htn (fun _ => rfl) rfl rfl
      (moves_setCall rfl (moves_past rfl (by simp))) (fun ttt n hp => Or.inl hp)
  | register k itt data hk =>
    exact h.keep (m := []) rfl (List.append_nil _).symm (by simp)
      (moves_setCall rfl (moves_past rfl (by simp))) (fun ttt n hp => Or.inl hp)
  | leave l k hk =>
    exact h.keep (m := []) rfl (List.append_nil _).symm (by simp)
      (moves_setCall rfl (moves_past rfl (by simp))) (fun ttt n hp => Or.inl hp)
  | receive p hp =>
    refine h.keep (m := [_]) rfl rfl (by simp [SessionEvent.quiet]) (moves_same rfl) ?_
    intro ttt n hx
    rw [dispatch_pong hx]
    exact Or.inr trivial
  | accumulate p data hp =>
    exact h.keep (m := []) rfl (List.append_nil _).symm (by simp) (moves_same rfl)
      (hsame (by intro ttt n; split <;> simp))
  | takeData p hp =>
    exact h.keep (m := []) rfl (List.append_nil _).symm (by simp) (moves_same rfl) (hsame (by simp))
  | takeSender p r hp hi =>
    exact h.keep (m := []) rfl (List.append_nil _).symm (by simp) (moves_same rfl) (hsame (by simp))
  | deliver p r k hp hk =>
    exact h.keep (m := [_]) rfl rfl (by simp [SessionEvent.quiet]) (moves_same rfl) (hsame (by simp))
  | undelivered p r tx hp =>
    exact h.keep (m := []) rfl (List.append_nil _).symm (by simp) (moves_same rfl) (hsame (by simp))
  | free p hp =>
    exact h.keep (m := []) rfl (List.append_nil _).symm (by simp) (moves_same rfl)
      (hsame (by intro ttt n; split <;> simp))
  | removeWriteData itt hp =>
    exact h.keep (m := []) rfl (List.append_nil _).symm (by simp) (moves_same rfl) (hsame (by simp))
  | found r tries d hp hd =>
    exact h.keep (m := []) rfl (List.append_nil _).symm (by simp) (moves_same rfl) (hsame (by simp))
  | answer l x y hy hx =>
    refine h.keep (m := []) rfl (List.append_nil _).symm (by simp) (moves_same rfl)
      (hsame (fun ttt n he => ?_))
    have he : x = .pong ttt n := he
    subst he
    simp [Receiver.r2t] at hx
  | dataOut p x hp hx =>
    refine h.keep (m := [_]) rfl rfl (by simp [SessionEvent.quiet]) (moves_same rfl)
      (hsame (fun ttt n he => ?_))
    have he : x = .pong ttt n := he
    subst he
    obtain ⟨y,hy⟩ := nextDataOut_r2t hp
    rw [hy] at hx
    cases hx
  | pongNumber ttt hp =>
    refine h.keep (m := []) rfl (List.append_nil _).symm (by simp) (moves_same rfl) ?_
    intro ttt' n he
    cases he
    exact Or.inr ⟨h.counter,Nat.le_refl _,fun hc => by cases hc⟩
  | pongStat ttt cmdSn turn hp =>
    refine h.keep (m := []) rfl (List.append_nil _).symm (by simp) (moves_same rfl) ?_
    intro ttt' n he
    cases he
    exact Or.inr (holds_stat (h.pong ttt _ hp))
  | pongSent ttt p turn hp =>
    have htn : Turn s.log turn := ht turn (by simp [sendTurn,hp,Numbering.sendTurn])
    exact h.send (h.pong ttt _ hp) htn (fun hc => by cases hc) rfl rfl (moves_same rfl)
      (hsame (by simp))
  | stop l hp =>
    exact h.keep (m := []) rfl (List.append_nil _).symm (by simp) (moves_same rfl) (hsame (by simp))

theorem numbered_start (init stat : BitVec 32) (n : NegotiatedParams) :
    Numbered init (Session.start init stat n) where
  counter := by simp [Session.start,SessionState.new,takers]
  nodup := List.nodup_nil
  fresh := fun k _ => by simp [Session.start,takers]
  calls := fun k w n h => by cases h
  pong := fun ttt n h => by cases h
  sent := List.prefix_refl _
  count := rfl
  order := fun pre k w p post h => by simp [Session.start] at h

/-- CmdSNs are in order on the wire in every run whose sends come in turn. -/
theorem cmdSn_in_order {init stat : BitVec 32} {n : NegotiatedParams} {ls : List Label} {t : Session}
    (hm : Machine.Meets sessionStep InTurn (Session.start init stat n) ls)
    (hr : Machine.run sessionStep (Session.start init stat n) ls = some t) :
    CmdSnInOrder init t.log :=
  (Machine.invariant (I := Numbered init) (fun _ _ _ h hok hs => numbered_step h hok (session_step hs))
    (numbered_start init stat n) hm hr).order

/-- A command and then a ping, which carries the number of the next command. -/
theorem cmdSn_in_order_ping :
    ∃ t, Machine.run sessionStep (Session.start 5 0 .defaults10g)
        (Label.prepare 0 (readBlock 9) ++ Label.transmit 0 ++ .nopOut 1 :: Label.transmit 1) = some t ∧
      t.state.cmdSn = 6 ∧ CmdSnInOrder 5 t.log := by
  have hm : Machine.Meets sessionStep InTurn (Session.start 5 0 .defaults10g)
      (Label.prepare 0 (readBlock 9) ++ Label.transmit 0 ++ .nopOut 1 :: Label.transmit 1) :=
    Machine.meets_of_check (by decide)
  exact ⟨_,rfl,rfl,cmdSn_in_order hm rfl⟩

/-- Two commands take 5 and 6; the second is first at the writer. -/
theorem cmdSn_overtaken :
    ∃ t, Machine.run sessionStep (Session.start 5 0 .defaults10g)
        (Label.prepare 0 (readBlock 9) ++ Label.prepare 1 (readBlock 10) ++
          [.advance 0,.advance 1,.advance 0,.advance 1,.sent 1,.sent 0]) = some t ∧
      (nonImmediate t.log).map Pdu.wireCmdSn = [6,5] ∧ ¬ CmdSnInOrder 5 t.log := by
  refine ⟨_,rfl,by decide,fun h => ?_⟩
  have h1 := h [.took 0,.took 1] _ _ _ _ rfl
  revert h1
  decide

end IscsiFuse.Iscsi
