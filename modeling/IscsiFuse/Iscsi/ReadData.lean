import IscsiFuse.Iscsi.CdbLayout
import IscsiFuse.Iscsi.Completion
import IscsiFuse.Iscsi.Read
import IscsiFuse.Iscsi.Wire
import IscsiFuse.Iscsi.WriteData
set_option autoImplicit false

namespace IscsiFuse.Iscsi
open Session Tiling

def readRange (cdb : Bytes) : Option (Nat × Nat) := blockRange 0x28 0x88 cdb

/-- A command at the target: the PDU it came in, and the pieces sent for it. -/
structure Exchange where
  command : Pdu
  pieces : List Patch
  deriving DecidableEq

/-- The command that is open under a tag, read off the wire. -/
def exchange (i : Nat) (log : List SessionEvent) : Option Exchange :=
  log.foldl (fun x e => match e with
    | .sent (some _) (.command _ _) q => if q.itt = i then some ⟨q,[]⟩ else x
    | .received _ q =>
      if q.itt = i then
        if q.isFinal then none else x.map (fun y => ⟨y.command,y.pieces ++ q.payload⟩)
      else x
    | _ => x) none

/-- A piece of the range, with the bytes of the medium. -/
structure PieceOf (bs : Nat) (d : Image) (range : Nat × Nat) (w : Patch) : Prop where
  inside : w.off+w.data.length ≤ range.2*bs
  bytes : w.data = d.read (range.1*bs+w.off) w.data.length

instance (bs : Nat) (d : Image) (range : Nat × Nat) (w : Patch) : Decidable (PieceOf bs d range w) :=
  decidable_of_iff (w.off+w.data.length ≤ range.2*bs ∧
    w.data = d.read (range.1*bs+w.off) w.data.length) ⟨fun h => ⟨h.1,h.2⟩,fun h => ⟨h.1,h.2⟩⟩

def CoversRange (bs : Nat) (range : Nat × Nat) (ws : List Patch) : Prop :=
  ∀ q < range.2*bs, ∃ w ∈ ws, w.Covers q

instance (bs : Nat) (range : Nat × Nat) (ws : List Patch) : Decidable (CoversRange bs range ws) :=
  inferInstanceAs (Decidable (∀ q < range.2*bs, ∃ w ∈ ws, w.Covers q))

/-- The target answers a READ with pieces of its range, and ends it with Good when all are
sent. -/
def Serving (bs : Nat) (d : Image) (s : Session) : Label → Prop
  | .receive p => ∀ x ∈ exchange p.itt s.log,
      ∀ range ∈ readRange (x.command.bhs.serialize.window 32 16),
        (∀ w ∈ p.payload, PieceOf bs d range w) ∧
          (p.isFinal = true → p.bhs.scsiStatus = 0 → CoversRange bs range (x.pieces ++ p.payload))
  | _ => True

instance (bs : Nat) (d : Image) (s : Session) (l : Label) : Decidable (Serving bs d s l) := by
  cases l <;> unfold Serving <;> infer_instance

theorem readRange_buildRead {lba blocks : Nat} (hl : lba < 2^64) (hb : blocks < 2^32) :
    readRange (buildRead lba blocks).bytes = some (lba,blocks) :=
  blockRange_select (by decide) hl hb

theorem PieceOf.at? {bs : Nat} {d : Image} {range : Nat × Nat} {w : Patch} (h : PieceOf bs d range w)
    (q : Nat) (y : UInt8) (hy : w.at? q = some y) : d (range.1*bs+q) = y := by
  simp only [Patch.at?] at hy
  split at hy
  · rename_i hq
    rw [h.bytes,Image.getElem?_read] at hy
    split at hy
    · rw [← Option.some.inj hy]
      congr 1
      omega
    · cases hy
  · cases hy

theorem assembled_range {bs : Nat} {d : Image} {range : Nat × Nat} {ws : List Patch}
    (hr : ∀ w ∈ ws, PieceOf bs d range w) (hc : CoversRange bs range ws) :
    (assembled ws).getD [] = d.read (range.1*bs) (range.2*bs) := by
  have hall := Patch.assemble_eq (fun w hw => (hr w hw).inside) (fun w hw => (hr w hw).at?) hc
  rw [assembled]
  split
  · rename_i hn
    rw [← hall,hn]
    rfl
  · exact hall

theorem exchange_snoc (i : Nat) (log : List SessionEvent) (e : SessionEvent) :
    exchange i (log ++ [e]) = match e with
      | .sent (some _) (.command _ _) q => if q.itt = i then some ⟨q,[]⟩ else exchange i log
      | .received _ q =>
        if q.itt = i then
          if q.isFinal then none
          else (exchange i log).map (fun y => ⟨y.command,y.pieces ++ q.payload⟩)
        else exchange i log
      | _ => exchange i log := by
  rw [exchange,List.foldl_append]
  rfl

theorem exchange_tagless {e : SessionEvent} (h : e.tagless = true) (i : Nat)
    (log : List SessionEvent) : exchange i (log ++ [e]) = exchange i log := by
  rw [exchange_snoc]
  cases e with
  | sent k w p => cases k <;> cases w <;> first | rfl | cases h
  | received => cases h
  | _ => rfl

theorem wire_cdb (c : Command) (itt : Nat) (cmdSn expStatSn : BitVec 32) :
    ((Sender.command c itt).pdu cmdSn expStatSn).bhs.serialize.window 32 16 = c.cdb.bytes := by
  rw [Bhs.serialize_window _ (by omega),command_raw,Bhs.buildScsiCommand_cdb]

/-- What the target has open under a tag is the command of the call that holds it, with what the
call was sent for it; what calls were sent are pieces of their ranges. -/
structure ReadsServed (bs : Nat) (d : Image) (n : NegotiatedParams) (s : Session) : Prop where
  routes : Routes s
  carries : Carries (fun _ _ => True) n s
  unsent : ∀ k, (s.calls k).unsent k = true → commandOf s.log k = none
  opened : ∀ i k, s.slots i = .opened k → ∃ x c, exchange i s.log = some x ∧
    x.pieces = payloads k s.log ∧ commandOf s.log k = some c ∧
    x.command.bhs.serialize.window 32 16 = c.cdb.bytes
  pieces : ∀ k c range, commandOf s.log k = some c → readRange c.cdb.bytes = some range →
    ∀ w ∈ payloads k s.log, PieceOf bs d range w
  whole : ∀ k c range, commandOf s.log k = some c → readRange c.cdb.bytes = some range →
    ∀ fin ∈ finals k s.log, fin.bhs.scsiStatus = 0 → CoversRange bs range (payloads k s.log)
  answered : ∀ k r, .delivered k r ∈ s.log → ∃ fin, finals k s.log = [fin] ∧
    r.status = .ofByte fin.bhs.scsiStatus ∧ r.data = assembled (payloads k s.log)

namespace ReadsServed

variable {bs : Nat} {d : Image} {n : NegotiatedParams} {s t : Session}

theorem aside (h : ReadsServed bs d n s) (hr : Routes t) (hc : Carries (fun _ _ => True) n t)
    (hu : ∀ k, (t.calls k).unsent k = true → (s.calls k).unsent k = true)
    (hl : Aside s.log t.log) (hs : ∀ i k, t.slots i = .opened k → s.slots i = .opened k) :
    ReadsServed bs d n t := by
  have hpay : ∀ k, payloads k t.log = payloads k s.log := by
    intro k
    rcases hl with hl | ⟨e,hl,he⟩ <;> rw [hl]
    exact (received_tagless he s.log k).1
  have hex : ∀ i, exchange i t.log = exchange i s.log := by
    intro i
    rcases hl with hl | ⟨e,hl,he⟩ <;> rw [hl]
    exact exchange_tagless he i s.log
  refine ⟨hr,hc,fun k hk => (hl.commandOf k).trans (h.unsent k (hu k hk)),fun i k hk => ?_,
    fun k c range hcmd => ?_,fun k c range hcmd => ?_,fun k r hm => ?_⟩
  · rw [hex,hpay,hl.commandOf]
    exact h.opened i k (hs i k hk)
  · rw [hl.commandOf] at hcmd
    rw [hpay]
    exact h.pieces k c range hcmd
  · rw [hl.commandOf] at hcmd
    rw [hpay,hl.finals]
    exact h.whole k c range hcmd
  · rcases hl with hl | ⟨e,hl,he⟩
    · rw [hl] at hm ⊢
      exact h.answered k r hm
    · rw [hl] at hm
      rcases List.mem_append.mp hm with hm | hm
      · rw [hl,(received_tagless he _ k).1,(received_tagless he _ k).2]
        exact h.answered k r hm
      · rw [hl,(received_tagless he _ k).1,(received_tagless he _ k).2]
        exact hr.routed.own s.log k r [] (by rw [hl,List.mem_singleton.mp hm])

theorem send (h : ReadsServed bs d n s) {k itt turn : Nat} {c : Command} {p : Pdu}
    (hk : s.calls k = .numbering (.command c itt) (.send p turn)) (hr : Routes t)
    (hc : Carries (fun _ _ => True) n t)
    (hu : ∀ j, (t.calls j).unsent j = true → (s.calls j).unsent j = true)
    (hcall : (t.calls k).unsent k = false)
    (hl : t.log = s.log ++ [.sent (some k) (.command c itt) p])
    (hs : t.slots = Function.update s.slots itt (.opened k)) : ReadsServed bs d n t := by
  have hun : (s.calls k).unsent k = true := by rw [hk]; rfl
  obtain ⟨hpay,hfin,_⟩ := h.routes.fresh k hun
  have hnone := h.unsent k hun
  have hitt := h.routes.tagged.header k c itt p turn hk
  obtain ⟨cmdSn,expStatSn,rfl⟩ := h.carries.built k _ p turn hk
  have hpays : ∀ j, payloads j t.log = payloads j s.log := by
    intro j
    rw [hl,payloads_append]
    exact List.append_nil _
  have hfins : ∀ j, finals j t.log = finals j s.log := by
    intro j
    rw [hl,finals_append]
    exact List.append_nil _
  have hself : commandOf t.log k = some c := by
    rw [hl,commandOf_append,hnone]
    simp [commandOf]
  have hother : ∀ j, j ≠ k → commandOf t.log j = commandOf s.log j := by
    intro j hj
    rw [hl,commandOf_append]
    simp [commandOf,Ne.symm hj]
  refine ⟨hr,hc,fun j hj => ?_,fun i j hij => ?_,fun j c' range hcmd => ?_,
    fun j c' range hcmd => ?_,fun j r hm => ?_⟩
  · have hjk : j ≠ k := by
      intro hx
      rw [hx,hcall] at hj
      cases hj
    rw [hother j hjk]
    exact h.unsent j (hu j hj)
  · rw [hs] at hij
    by_cases hi : i = itt
    · subst hi
      rw [Function.update_self] at hij
      cases hij
      refine ⟨⟨_,[]⟩,c,?_,(hpays k).trans hpay |>.symm,hself,wire_cdb c i cmdSn expStatSn⟩
      rw [hl,exchange_snoc]
      exact if_pos hitt
    · rw [Function.update_of_ne hi] at hij
      obtain ⟨x,c',hx,hp,hcmd,hb⟩ := h.opened i j hij
      have hjk : j ≠ k := by
        intro hx
        rw [hx,hnone] at hcmd
        cases hcmd
      refine ⟨x,c',?_,hp.trans (hpays j).symm,(hother j hjk).trans hcmd,hb⟩
      rw [hl,exchange_snoc]
      exact (if_neg (fun hx => hi (hx.symm.trans hitt))).trans hx
  · rw [hpays]
    by_cases hj : j = k
    · subst hj
      rw [hpay]
      simp
    · rw [hother j hj] at hcmd
      exact h.pieces j c' range hcmd
  · rw [hpays,hfins]
    by_cases hj : j = k
    · subst hj
      rw [hfin]
      simp
    · rw [hother j hj] at hcmd
      exact h.whole j c' range hcmd
  · rw [hl] at hm
    rw [hpays,hfins]
    exact h.answered j r (by simpa using hm)

theorem commandOf_received (log : List SessionEvent) (o : Option Nat) (p : Pdu) (k : Nat) :
    commandOf (log ++ [.received o p]) k = commandOf log k := by
  rw [commandOf_append]
  exact Option.or_none

theorem opened_closeSlot {p : Pdu} {i k : Nat} (h : s.closeSlot p i = .opened k) :
    s.slots i = .opened k ∧ (i = p.itt → p.isFinal = false) := by
  rcases closeSlot_cases s p i with ⟨_,_,_,_,hx⟩ | ⟨hx,hfin⟩
  · rw [hx] at h
    cases h
  · rw [hx] at h
    refine ⟨h,fun hi => ?_⟩
    cases hf : p.isFinal with
    | false => rfl
    | true =>
      have hn := hfin hi hf
      rw [h] at hn
      cases hn

theorem receive_stray (h : ReadsServed bs d n s) {p : Pdu} (hr : Routes (s.receive p))
    (hc : Carries (fun _ _ => True) n (s.receive p)) (ho : (s.slots p.itt).opener = none)
    (ha : p.answers = false) : ReadsServed bs d n (s.receive p) := by
  have hlog : (s.receive p).log = s.log ++ [.received none p] := by
    rw [← ho]
    rfl
  have hnf : p.isFinal = false := by
    cases hf : p.isFinal with
    | false => rfl
    | true => exact absurd (answers_of_isFinal hf) (by simp [ha])
  have hpay : ∀ k, payloads k (s.receive p).log = payloads k s.log := by
    intro k
    rw [hlog,payloads_append]
    exact List.append_nil _
  have hfin : ∀ k, finals k (s.receive p).log = finals k s.log := by
    intro k
    rw [hlog,finals_append]
    exact List.append_nil _
  have hcmd : ∀ k, commandOf (s.receive p).log k = commandOf s.log k := by
    intro k
    rw [hlog,commandOf_received]
  have hex : ∀ i, exchange i (s.receive p).log = exchange i s.log := by
    intro i
    rw [hlog,exchange_snoc]
    simp only [hnf,payload_of_not_answers ha,List.append_nil]
    split
    · simp
    · rfl
  refine ⟨hr,hc,fun k hk => (hcmd k).trans (h.unsent k hk),fun i k hk => ?_,
    fun k c range hk => ?_,fun k c range hk => ?_,fun k r hm => ?_⟩
  · rw [hex,hpay,hcmd]
    exact h.opened i k (opened_closeSlot hk).1
  · rw [hcmd] at hk
    rw [hpay]
    exact h.pieces k c range hk
  · rw [hcmd] at hk
    rw [hpay,hfin]
    exact h.whole k c range hk
  · rw [hlog] at hm
    rw [hpay,hfin]
    exact h.answered k r (by simpa using hm)

theorem receive_open (h : ReadsServed bs d n s) {p : Pdu} {k : Nat} (hr : Routes (s.receive p))
    (hc : Carries (fun _ _ => True) n (s.receive p)) (hk : s.slots p.itt = .opened k)
    (hserve : Serving bs d s (.receive p)) : ReadsServed bs d n (s.receive p) := by
  have hlog : (s.receive p).log = s.log ++ [.received (some k) p] := by
    show s.log ++ [.received (s.slots p.itt).opener p] = _
    rw [hk]
    rfl
  obtain ⟨x,c,hx,hpieces,hcmd,hcdb⟩ := h.opened p.itt k hk
  have hfk : finals k s.log = [] := by
    have hcont := h.routes.content p.itt
    rw [hk] at hcont
    exact hcont.1
  have hpay : payloads k (s.receive p).log = payloads k s.log ++ p.payload := by
    rw [hlog,payloads_append,payloads_received]
  have hcmds : ∀ j, commandOf (s.receive p).log j = commandOf s.log j := by
    intro j
    rw [hlog,commandOf_received]
  have hsame : ∀ j, j ≠ k → Same j s.log (s.receive p).log := by
    intro j hj
    rw [hlog]
    exact same_snoc (e := .received (some k) p) (fun hx => hj (Option.some.inj hx).symm) s.log
  have hserved : ∀ range, readRange c.cdb.bytes = some range →
      (∀ w ∈ p.payload, PieceOf bs d range w) ∧ (p.isFinal = true → p.bhs.scsiStatus = 0 →
        CoversRange bs range (payloads k s.log ++ p.payload)) := by
    intro range hrange
    rw [← hpieces]
    exact hserve x hx range (hcdb ▸ hrange)
  refine ⟨hr,hc,fun j hj => (hcmds j).trans (h.unsent j hj),fun i j hij => ?_,
    fun j c' range hj hrange => ?_,fun j c' range hj hrange => ?_,fun j r hm => ?_⟩
  · obtain ⟨hij,hnf⟩ := opened_closeSlot hij
    rw [hcmds]
    by_cases hi : i = p.itt
    · rw [hi,hk] at hij
      cases hij
      refine ⟨⟨x.command,x.pieces ++ p.payload⟩,c,?_,?_,hcmd,hcdb⟩
      · rw [hlog,exchange_snoc,hi,hx]
        simp [hnf hi]
      · rw [hpay,hpieces]
    · have hjk : j ≠ k := by
        intro hjk
        subst hjk
        exact hi (h.routes.tagged.unique i p.itt j (by rw [hij]; rfl) (by rw [hk]; rfl))
      obtain ⟨y,c',hy,hyp,hyc⟩ := h.opened i j hij
      refine ⟨y,c',?_,hyp.trans (hsame j hjk).1.symm,hyc⟩
      rw [hlog,exchange_snoc]
      exact (if_neg (fun hx => hi hx.symm)).trans hy
  · rw [hcmds] at hj
    by_cases hjk : j = k
    · subst hjk
      obtain rfl := Option.some.inj (hcmd.symm.trans hj)
      rw [hpay]
      intro w hw
      rcases List.mem_append.mp hw with hw | hw
      · exact h.pieces j c range hj hrange w hw
      · exact (hserved range hrange).1 w hw
    · rw [(hsame j hjk).1]
      exact h.pieces j c' range hj hrange
  · rw [hcmds] at hj
    by_cases hjk : j = k
    · subst hjk
      obtain rfl := Option.some.inj (hcmd.symm.trans hj)
      intro fin hfin hgood
      have hf : p.isFinal = true ∧ fin = p := by
        rw [hlog,finals_append,hfk] at hfin
        have hfin : p.isFinal = true ∧ p = fin := by simpa [finals] using hfin
        exact ⟨hfin.1,hfin.2.symm⟩
      rw [hpay]
      exact (hserved range hrange).2 hf.1 (hf.2 ▸ hgood)
    · rw [(hsame j hjk).1,(hsame j hjk).2.1]
      exact h.whole j c' range hj hrange
  · have hm : SessionEvent.delivered j r ∈ s.log := by
      rw [hlog] at hm
      simpa using hm
    have hjk : j ≠ k := by
      intro hjk
      subst hjk
      obtain ⟨fin,hfin,_⟩ := h.answered j r hm
      rw [hfk] at hfin
      cases hfin
    rw [(hsame j hjk).1,(hsame j hjk).2.1]
    exact h.answered j r hm

theorem step (h : ReadsServed bs d n s) {l : Label} (hok : Compliant s l ∧ Serving bs d s l)
    (hs : sessionStep s l = some t) : ReadsServed bs d n t := by
  have hstep := session_step hs
  have hr := routes_step h.routes hok.1 hstep
  have hc : Carries (fun _ _ => True) n t :=
    carries_step h.carries (by cases l <;> exact trivial) hs
  have hu := unsent_step hstep
  -- A tag that is filled or freed is not open.
  have hset : ∀ (i : Nat) (x : Slot), (∀ k, x ≠ .opened k) → ∀ j k,
      Function.update s.slots i x j = .opened k → s.slots j = .opened k := by
    intro i x hx j k hj
    by_cases hi : j = i
    · rw [hi,Function.update_self] at hj
      exact absurd hj (hx k)
    · rwa [Function.update_of_ne hi] at hj
  cases hstep with
  | claim k c half hk hb => exact h.aside hr hc hu (Or.inl rfl) (hset _ _ (by simp))
  | store k c itt hk => exact h.aside hr hc hu (Or.inl rfl) (hset _ _ (by simp))
  | free p hp => exact h.aside hr hc hu (Or.inl rfl) (hset _ _ (by simp))
  | number k w hk =>
    have hl : Aside s.log (s.takeNumber k w).log := by
      unfold takeNumber
      split
      · exact Or.inr ⟨_,rfl,rfl⟩
      · exact Or.inl rfl
    refine h.aside hr hc hu hl (fun i j hij => ?_)
    rw [← (takeNumber_tables s k w).2.1]
    exact hij
  | sentCommand k c itt p turn hk =>
    refine h.send hk hr hc hu ?_ rfl rfl
    rw [setCall_self]
    split <;> rfl
  | sentOther k w p turn hw hk =>
    exact h.aside hr hc hu (Or.inr ⟨_,rfl,by simp [SessionEvent.tagless,hw]⟩) (fun _ _ hx => hx)
  | receive p hp =>
    cases ho : (s.slots p.itt).opener with
    | none =>
      refine h.receive_stray hr hc ho ?_
      cases ha : p.answers with
      | false => rfl
      | true =>
        obtain ⟨k,hk⟩ := compliant_receive h.routes.tagged hok.1 ha
        rw [hk] at ho
        cases ho
    | some k => exact h.receive_open hr hc (opener_holder ho) hok.2
  | deliver p r k hp hk => exact h.aside hr hc hu (Or.inr ⟨_,rfl,rfl⟩) (fun _ _ hx => hx)
  | dataOut p x hp hx => exact h.aside hr hc hu (Or.inr ⟨_,rfl,rfl⟩) (fun _ _ hx => hx)
  | pongSent ttt p turn hp => exact h.aside hr hc hu (Or.inr ⟨_,rfl,rfl⟩) (fun _ _ hx => hx)
  | _ => exact h.aside hr hc hu (Or.inl rfl) (fun _ _ hx => hx)

theorem start (bs : Nat) (d : Image) (n : NegotiatedParams) (init stat : BitVec 32) :
    ReadsServed bs d n (Session.start init stat n) where
  routes := routes_start init stat n
  carries := carries_start _ n init stat
  unsent := fun _ _ => rfl
  opened := fun _ _ h => by cases h
  pieces := fun _ _ _ h => by cases h
  whole := fun _ _ _ h => by cases h
  answered := fun _ _ h => by cases h

theorem response (h : ReadsServed bs d n s) {k lba blocks : Nat} {c : Command} {r : PduResponse}
    (hc : commandOf s.log k = some c) (hcdb : c.cdb = buildRead lba blocks) (hl : lba < 2^64)
    (hb : blocks < 2^32) (hd : .delivered k r ∈ s.log) (hg : r.status = .good) :
    r.data.getD [] = d.read (lba*bs) (blocks*bs) := by
  obtain ⟨fin,hfin,hst,hdata⟩ := h.answered k r hd
  have hrange : readRange c.cdb.bytes = some (lba,blocks) := by
    rw [hcdb]
    exact readRange_buildRead hl hb
  have hzero : fin.bhs.scsiStatus = 0 := ofByte_eq_good.mp (hst.symm.trans hg)
  rw [hdata]
  exact assembled_range (h.pieces k c _ hc hrange)
    (h.whole k c _ hc hrange fin (by rw [hfin]; exact List.mem_singleton_self _) hzero)

end ReadsServed

def Session.Responded (s : Session) (c : Command) (r : PduResponse) : Prop :=
  ∃ k, commandOf s.log k = some c ∧ .delivered k r ∈ s.log

/-- The outcomes of the commands that `scsi_read` sends for a chunk are those of calls. -/
def Pipeline.Served (p : Pipeline) (target : Nat × Nat → ChunkTarget) (s : Session) : Prop :=
  ∀ c r, (target c).first (p.readCommand c.1 c.2 (c.2*p.blockSize)) = .response r ∨
    (target c).retry (p.readCommand c.1 c.2 (c.2*p.blockSize)) = .response r →
    s.Responded (p.readCommand c.1 c.2 (c.2*p.blockSize)) r

section

variable {bs : Nat} {d : Image} {n : NegotiatedParams} {s : Session} {p : Pipeline}
  {target : Nat × Nat → ChunkTarget}

end

end IscsiFuse.Iscsi
