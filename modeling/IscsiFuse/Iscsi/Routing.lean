import IscsiFuse.Library.Log
import IscsiFuse.Iscsi.Tags
set_option autoImplicit false

namespace IscsiFuse.Iscsi
open Session

def Pdu.payload (p : Pdu) : List Patch :=
  match p.bhs.opcode, p.data with
  | .scsiDataIn, some data => [⟨p.bhs.bufferOffset.toNat,data⟩]
  | _, _ => []

def payloads (k : Nat) (log : List SessionEvent) : List Patch :=
  log.flatMap (fun e => match e with
    | .received (some j) p => if j = k then p.payload else []
    | _ => [])

/-- The final PDUs received for a call. -/
def finals (k : Nat) (log : List SessionEvent) : List Pdu :=
  log.filterMap (fun e => match e with
    | .received (some j) p => if j = k ∧ p.isFinal then some p else none
    | _ => none)

def deliveries (log : List SessionEvent) : List Nat :=
  log.filterMap (fun e => match e with
    | .delivered k _ => some k
    | _ => none)

def assembled (ps : List Patch) : Option Bytes := if ps = [] then none else some (Patch.assemble ps)

/-- A PDU is received for the call whose command is outstanding under its tag. A call
is answered at most once, after one final PDU, with the status of that PDU and with
its own payloads. -/
structure Routed (log : List SessionEvent) : Prop where
  received : ∀ pre k p post, log = pre ++ .received k p :: post → k = outstanding pre p.itt
  once : (deliveries log).Nodup
  own : ∀ pre k r post, log = pre ++ .delivered k r :: post → ∃ fin, finals k pre = [fin] ∧
    r.status = .ofByte fin.bhs.scsiStatus ∧ r.data = assembled (payloads k pre)

def Label.answer : Label → Option Pdu
  | .receive p => if p.answers then some p else none
  | _ => none

/-- The target answers outstanding commands only. -/
def Compliant (s : Session) (l : Label) : Prop :=
  l.answer.all (fun p => (outstanding s.log p.itt).isSome) = true

instance (s : Session) (l : Label) : Decidable (Compliant s l) :=
  inferInstanceAs (Decidable (_ = true))

@[simp] theorem payloads_append (k : Nat) (l m : List SessionEvent) :
    payloads k (l ++ m) = payloads k l ++ payloads k m := List.flatMap_append

@[simp] theorem finals_append (k : Nat) (l m : List SessionEvent) :
    finals k (l ++ m) = finals k l ++ finals k m := List.filterMap_append

@[simp] theorem deliveries_append (l m : List SessionEvent) :
    deliveries (l ++ m) = deliveries l ++ deliveries m := List.filterMap_append

theorem assembled_snoc (ps : List Patch) (off : Nat) (data : Bytes) :
    some (accumulate ((assembled ps).getD []) off data) = assembled (ps ++ [⟨off,data⟩]) := by
  have h : (assembled ps).getD [] = Patch.assemble ps := by
    unfold assembled
    split
    · rename_i hp
      subst hp
      rfl
    · rfl
  rw [h]
  unfold assembled
  rw [if_neg (by simp),Patch.assemble_snoc]
  rfl

def Receiver.pending (i : Nat) : Receiver → List Patch
  | .accumulate p data => if p.itt = i then [⟨p.bhs.bufferOffset.toNat,data⟩] else []
  | _ => []

/-- A call whose answer is not taken up yet: its sender is stored, and the accumulator
has its payloads but the pending one. -/
def Unanswered (s : Session) (i k : Nat) : Prop :=
  s.pool.completions i = some k ∧ k ∉ deliveries s.log ∧
    ∃ ps, payloads k s.log = ps ++ s.receiver.pending i ∧ s.dataAccumulator i = assembled ps

def Stage (s : Session) (i k : Nat) (fin : Pdu) : Receiver → Prop
  | .accumulate p _ | .takeData p => p = fin ∧ Unanswered s i k
  | .takeSender p r => p = fin ∧ s.pool.completions i = some k ∧ k ∉ deliveries s.log ∧
      s.dataAccumulator i = none ∧ r = p.response (assembled (payloads k s.log))
  | .deliver p r tx => p = fin ∧ tx = some k ∧ k ∉ deliveries s.log ∧
      s.dataAccumulator i = none ∧ r = p.response (assembled (payloads k s.log))
  | .free _ => s.dataAccumulator i = none
  | _ => False

def Content (s : Session) (i : Nat) : Slot → Prop
  | .free | .claimed _ => s.dataAccumulator i = none
  | .ready k => s.dataAccumulator i = none ∧ s.pool.completions i = some k
  | .opened k => finals k s.log = [] ∧ Unanswered s i k
  | .closing k => ∃ fin, finals k s.log = [fin] ∧ Stage s i k fin s.receiver

def Unseen (log : List SessionEvent) (k : Nat) : Prop :=
  payloads k log = [] ∧ finals k log = [] ∧ k ∉ deliveries log

def Call.unsent (k : Nat) (c : Call) : Bool := c.early || (c.place k).isSome

structure Routes (s : Session) : Prop where
  tagged : Tagged s
  fresh : ∀ k, (s.calls k).unsent k = true → Unseen s.log k
  content : ∀ i, Content s i (s.slots i)
  accumulating : ∀ p data, s.receiver = .accumulate p data → p.bhs.statusFlag = false →
    ∃ k, s.slots p.itt = .opened k
  routed : Routed s.log

theorem unsent_setCall {s t : Session} {k : Nat} {c : Call}
    (ht : t.calls = Function.update s.calls k c)
    (h : c.unsent k = true → (s.calls k).unsent k = true) (j : Nat)
    (hj : (t.calls j).unsent j = true) : (s.calls j).unsent j = true := by
  rw [ht] at hj
  by_cases hjk : j = k
  · subst hjk
    rw [Function.update_self] at hj
    exact h hj
  · rwa [Function.update_of_ne hjk] at hj

theorem unsent_step {s t : Session} {l : Label} (hstep : SessionStep s l t) (j : Nat)
    (hj : (t.calls j).unsent j = true) : (s.calls j).unsent j = true := by
  cases hstep with
  | wander l k c he he' => exact unsent_setCall rfl (fun _ => by rw [Call.unsent,he]; rfl) j hj
  | claim k c half hk hb => exact unsent_setCall rfl (fun _ => by rw [hk]; rfl) j hj
  | store k c itt hk => exact unsent_setCall rfl (fun _ => by rw [hk]; rfl) j hj
  | number k w hk =>
    refine unsent_setCall (congrArg (Function.update · k _) (takeNumber_calls s k w)) (fun _ => ?_) j hj
    rw [hk]
    cases w <;> rfl
  | stat k w cmdSn turn hk =>
    refine unsent_setCall rfl (fun hc => ?_) j hj
    rw [hk]
    cases w <;> first | rfl | cases hc
  | sentCommand k c itt p turn hk => exact unsent_setCall rfl (fun _ => by rw [hk]; rfl) j hj
  | sentOther k w p turn hw hk => exact unsent_setCall rfl (fun hc => by cases hc) j hj
  | register k itt data hk => exact unsent_setCall rfl (fun hc => by cases hc) j hj
  | leave l k hk => exact unsent_setCall rfl (fun hc => by cases hc) j hj
  | _ => exact hj

/-- Two logs say the same of a call. -/
def Same (k : Nat) (l l' : List SessionEvent) : Prop :=
  payloads k l' = payloads k l ∧ finals k l' = finals k l ∧
    (k ∈ deliveries l' ↔ k ∈ deliveries l)

def SessionEvent.about : SessionEvent → Option Nat
  | .received k _ => k
  | .delivered k _ => some k
  | _ => none

def SessionEvent.silent : SessionEvent → Bool
  | .received _ _ | .delivered _ _ => false
  | _ => true

theorem same_snoc {e : SessionEvent} {k : Nat} (h : e.about ≠ some k) (log : List SessionEvent) :
    Same k log (log ++ [e]) := by
  rw [Same,payloads_append,finals_append,deliveries_append]
  cases e with
  | received j p =>
    cases j with
    | none => simp [payloads,finals,deliveries]
    | some j =>
      have hj : j ≠ k := fun hj => h (by rw [hj]; rfl)
      simp [payloads,finals,deliveries,hj]
  | delivered j r =>
    have hj : k ≠ j := fun hj => h (by rw [hj]; rfl)
    simp [payloads,finals,deliveries,hj]
  | _ => simp [payloads,finals,deliveries]

theorem Same.unseen {k : Nat} {l l' : List SessionEvent} (h : Same k l l') (hu : Unseen l k) :
    Unseen l' k := by
  obtain ⟨hp,hf,hd⟩ := h
  rw [Unseen,hp,hf,hd]
  exact hu

theorem Routed.snoc {log : List SessionEvent} {e : SessionEvent} (h : Routed log)
    (hr : ∀ k p, e = .received k p → k = outstanding log p.itt)
    (hd : ∀ k r, e = .delivered k r → k ∉ deliveries log ∧ ∃ fin, finals k log = [fin] ∧
      r.status = .ofByte fin.bhs.scsiStatus ∧ r.data = assembled (payloads k log)) :
    Routed (log ++ [e]) := by
  refine ⟨?_,?_,?_⟩
  · intro pre k p post hl
    rcases Log.split_snoc hl with ⟨_,hx,rfl⟩ | ⟨post',_,hl'⟩
    · exact hr k p hx
    · exact h.received pre k p post' hl'
  · rw [deliveries_append]
    cases e with
    | delivered k r =>
      refine List.nodup_append.mpr ⟨h.once,by simp [deliveries],fun x hx y hy => ?_⟩
      have hyk : y = k := by simpa [deliveries] using hy
      rw [hyk]
      exact fun hxk => (hd k r rfl).1 (hxk ▸ hx)
    | _ => simpa [deliveries] using h.once
  · intro pre k r post hl
    rcases Log.split_snoc hl with ⟨_,hx,rfl⟩ | ⟨post',_,hl'⟩
    · exact (hd k r hx).2
    · exact h.own pre k r post' hl'

def Quiet (l l' : List SessionEvent) : Prop :=
  l' = l ∨ ∃ e : SessionEvent, l' = l ++ [e] ∧ e.silent = true

theorem Quiet.same {l l' : List SessionEvent} (h : Quiet l l') (k : Nat) : Same k l l' := by
  rcases h with rfl | ⟨e,rfl,he⟩
  · exact ⟨rfl,rfl,Iff.rfl⟩
  · refine same_snoc ?_ l
    cases e with
    | received j p => cases he
    | delivered j r => cases he
    | _ => simp [SessionEvent.about]

theorem Quiet.routed {l l' : List SessionEvent} (h : Quiet l l') (hr : Routed l) : Routed l' := by
  rcases h with rfl | ⟨e,rfl,he⟩
  · exact hr
  · refine hr.snoc (fun k p hx => ?_) (fun k r hx => ?_) <;> rw [hx] at he <;> cases he

section content

variable {s t : Session} {i : Nat} {x : Slot}

theorem Unanswered.congr {k : Nat} (h : Unanswered s i k)
    (hacc : t.dataAccumulator i = s.dataAccumulator i)
    (hcomp : t.pool.completions i = s.pool.completions i)
    (hp : t.receiver.pending i = s.receiver.pending i) (hl : Same k s.log t.log) :
    Unanswered t i k := by
  obtain ⟨hpay,_,hdel⟩ := hl
  rw [Unanswered,hcomp,hdel,hpay,hp,hacc]
  exact h

theorem Content.other (h : Content s i x) (hx : ∀ k, x ≠ .closing k)
    (hacc : t.dataAccumulator i = s.dataAccumulator i)
    (hcomp : t.pool.completions i = s.pool.completions i)
    (hp : t.receiver.pending i = s.receiver.pending i)
    (hl : ∀ k, x.holder = some k → Same k s.log t.log) : Content t i x := by
  cases x with
  | free | claimed k => exact hacc.trans h
  | ready k => exact ⟨hacc.trans h.1,hcomp.trans h.2⟩
  | opened k => exact ⟨(hl k rfl).2.1.trans h.1,h.2.congr hacc hcomp hp (hl k rfl)⟩
  | closing k => exact absurd rfl (hx k)

theorem Content.calm (h : Content s i x) (hr : t.receiver = s.receiver)
    (hacc : t.dataAccumulator i = s.dataAccumulator i)
    (hcomp : t.pool.completions i = s.pool.completions i)
    (hl : ∀ k, x.holder = some k → Same k s.log t.log) : Content t i x := by
  cases x with
  | closing k =>
    obtain ⟨fin,hf,hs⟩ := h
    obtain ⟨hpay,hfin,hdel⟩ := hl k rfl
    refine ⟨fin,hfin.trans hf,?_⟩
    rw [hr]
    cases hrec : s.receiver with
    | accumulate p data | takeData p =>
      rw [hrec] at hs
      exact ⟨hs.1,hs.2.congr hacc hcomp (by rw [hr]) ⟨hpay,hfin,hdel⟩⟩
    | takeSender p r =>
      rw [hrec] at hs
      simp only [Stage,hcomp,hdel,hacc,hpay]
      exact hs
    | deliver p r tx =>
      rw [hrec] at hs
      simp only [Stage,hdel,hacc,hpay]
      exact hs
    | free p =>
      rw [hrec] at hs
      exact hacc.trans hs
    | _ => rw [hrec] at hs; exact hs.elim
  | _ => exact h.other (by simp) hacc hcomp (by rw [hr]) hl

end content

namespace Routes

variable {s t : Session}

theorem call (h : Routes s) (ht : Tagged t)
    (hu : ∀ k, (t.calls k).unsent k = true → (s.calls k).unsent k = true)
    (hl : Quiet s.log t.log) (hr : t.receiver = s.receiver)
    (hacc : t.dataAccumulator = s.dataAccumulator)
    (hcont : ∀ i, t.slots i = s.slots i ∧ t.pool.completions i = s.pool.completions i ∨
      (∀ k, s.slots i ≠ .opened k) ∧ Content t i (t.slots i)) : Routes t where
  tagged := ht
  fresh := fun k hk => (hl.same k).unseen (h.fresh k (hu k hk))
  content := fun i => by
    rcases hcont i with ⟨hs,hcomp⟩ | ⟨_,hi⟩
    · rw [hs]
      exact (h.content i).calm hr (by rw [hacc]) hcomp (fun k _ => hl.same k)
    · exact hi
  accumulating := fun p data hp hf => by
    obtain ⟨k,hk⟩ := h.accumulating p data (hr ▸ hp) hf
    rcases hcont p.itt with ⟨hs,_⟩ | ⟨hn,_⟩
    · exact ⟨k,hs.trans hk⟩
    · exact absurd hk (hn k)
  routed := hl.routed h.routed

theorem fill (h : Routes s) (ht : Tagged t)
    (hu : ∀ k, (t.calls k).unsent k = true → (s.calls k).unsent k = true)
    (hl : Quiet s.log t.log) (hr : t.receiver = s.receiver)
    (hacc : t.dataAccumulator = s.dataAccumulator) {itt : Nat} {x : Slot}
    (hs : t.slots = Function.update s.slots itt x)
    (hcomp : ∀ i, i ≠ itt → t.pool.completions i = s.pool.completions i)
    (hopen : ∀ k, s.slots itt ≠ .opened k) (hcont : Content t itt x) : Routes t := by
  refine h.call ht hu hl hr hacc (fun i => ?_)
  by_cases hi : i = itt
  · rw [hi]
    exact Or.inr ⟨hopen,by rw [hs,Function.update_self]; exact hcont⟩
  · exact Or.inl ⟨by rw [hs,Function.update_of_ne hi],hcomp i hi⟩

theorem tag (h : Routes s) (ht : Tagged t) (i : Nat) (hc : t.calls = s.calls)
    (hclose : ∀ j k, j ≠ i → s.slots j ≠ .closing k)
    (hs : ∀ j, j ≠ i → t.slots j = s.slots j)
    (hacc : ∀ j, j ≠ i → t.dataAccumulator j = s.dataAccumulator j)
    (hcomp : ∀ j, j ≠ i → t.pool.completions j = s.pool.completions j)
    (hp : ∀ j, j ≠ i → t.receiver.pending j = s.receiver.pending j)
    (hl : ∀ k, (s.slots i).holder ≠ some k → Same k s.log t.log)
    (hi : Content t i (t.slots i))
    (ha : ∀ p data, t.receiver = .accumulate p data → p.bhs.statusFlag = false →
      ∃ k, t.slots p.itt = .opened k)
    (hfresh : ∀ k, (s.slots i).holder = some k → (s.calls k).unsent k = true → Same k s.log t.log)
    (hrouted : Routed t.log) : Routes t where
  tagged := ht
  fresh := fun k hk => by
    rw [hc] at hk
    by_cases hik : (s.slots i).holder = some k
    · exact (hfresh k hik hk).unseen (h.fresh k hk)
    · exact (hl k hik).unseen (h.fresh k hk)
  content := fun j => by
    by_cases hj : j = i
    · rw [hj]
      exact hi
    · rw [hs j hj]
      refine (h.content j).other (fun k => hclose j k hj) (hacc j hj) (hcomp j hj) (hp j hj) ?_
      intro k hk
      exact hl k (fun hik => hj (h.tagged.unique j i k hk hik))
  accumulating := ha
  routed := hrouted

theorem aside (h : Routes s) (ht : Tagged t) (hc : t.calls = s.calls) (hs : t.slots = s.slots)
    (hacc : t.dataAccumulator = s.dataAccumulator)
    (hcomp : t.pool.completions = s.pool.completions) (hl : Quiet s.log t.log)
    (hx : s.receiver.completing = none) (hp : ∀ i, s.receiver.pending i = [])
    (hp' : ∀ i, t.receiver.pending i = [])
    (ha : ∀ p data, t.receiver ≠ .accumulate p data) : Routes t where
  tagged := ht
  fresh := fun k hk => (hl.same k).unseen (h.fresh k (hc ▸ hk))
  content := fun i => by
    rw [hs]
    refine (h.content i).other (fun k hk => ?_) (by rw [hacc]) (by rw [hcomp]) (by rw [hp,hp'])
      (fun k _ => hl.same k)
    obtain ⟨p,hpc,_⟩ := h.tagged.closing i k hk
    rw [hx] at hpc
    cases hpc
  accumulating := fun p data hp _ => absurd hp (ha p data)
  routed := hl.routed h.routed

theorem closing_at (h : Routes s) {p : Pdu} (hp : s.receiver.completing = some p) :
    ∃ k fin, s.slots p.itt = .closing k ∧ finals k s.log = [fin] ∧
      Stage s p.itt k fin s.receiver ∧ ∀ j k', j ≠ p.itt → s.slots j ≠ .closing k' := by
  obtain ⟨k,hk⟩ := h.tagged.completing p hp
  have hcont := h.content p.itt
  rw [hk] at hcont
  obtain ⟨fin,hf,hs⟩ := hcont
  refine ⟨k,fin,hk,hf,hs,fun j k' hj hk' => ?_⟩
  obtain ⟨q,hq,hqj⟩ := h.tagged.closing j k' hk'
  rw [hp] at hq
  cases hq
  exact hj hqj.symm

end Routes

theorem Tagged.not_unsent {s : Session} (h : Tagged s) {i k : Nat}
    (hi : s.slots i = .opened k ∨ s.slots i = .closing k) : (s.calls k).unsent k = false := by
  have hk : (s.slots i).holder = some k := by rcases hi with hi | hi <;> rw [hi] <;> rfl
  rw [Call.unsent,h.early i k hk,h.place_of_sent hi]
  rfl

theorem dispatch_pending (p : Pdu) (i : Nat) :
    (Receiver.dispatch p).pending i = if p.itt = i then p.payload else [] := by
  unfold Receiver.dispatch Pdu.payload
  cases p.bhs.opcode with
  | scsiDataIn =>
    cases p.data with
    | some data => rfl
    | none => cases p.bhs.statusFlag <;> simp [Receiver.pending]
  | nopIn =>
    show (if p.bhs.ttt ≠ 0xFFFFFFFF then Receiver.pong p.bhs.ttt .number else .idle).pending i = _
    split <;> simp [Receiver.pending]
  | _ => simp [Receiver.pending]

theorem dispatch_final {p : Pdu} (h : p.isFinal = true) :
    Receiver.dispatch p = .takeData p ∨ ∃ data, Receiver.dispatch p = .accumulate p data := by
  unfold Pdu.isFinal at h
  unfold Receiver.dispatch
  cases ho : p.bhs.opcode with
  | scsiResponse => exact Or.inl rfl
  | scsiDataIn =>
    cases p.data with
    | some data => exact Or.inr ⟨data,rfl⟩
    | none =>
      have hf : p.bhs.statusFlag = true := by simpa [ho] using h
      exact Or.inl (by simp [hf])
  | _ => rw [ho] at h; cases h

theorem dispatch_accumulate {p q : Pdu} {data : Bytes}
    (h : Receiver.dispatch p = .accumulate q data) : q = p ∧ p.bhs.opcode = .scsiDataIn := by
  unfold Receiver.dispatch at h
  repeat' split at h
  all_goals cases h
  exact ⟨rfl,by assumption⟩

theorem payload_of_not_answers {p : Pdu} (h : p.answers = false) : p.payload = [] := by
  unfold Pdu.answers at h
  unfold Pdu.payload
  cases ho : p.bhs.opcode with
  | scsiDataIn => rw [ho] at h; cases h
  | _ => rfl

theorem payloads_received (k : Nat) (p : Pdu) : payloads k [.received (some k) p] = p.payload := by
  simp [payloads]

namespace Routes

variable {s : Session}

theorem pending_none (h : Routes s) {i : Nat} (ho : ∀ k, s.slots i ≠ .opened k)
    (hc : ∀ k, s.slots i ≠ .closing k) : s.receiver.pending i = [] := by
  cases hr : s.receiver with
  | accumulate p data =>
    refine if_neg (fun hp => ?_)
    subst hp
    cases hf : p.bhs.statusFlag with
    | true =>
      obtain ⟨k,hk⟩ := h.tagged.completing p (by rw [hr]; exact if_pos hf)
      exact hc k hk
    | false =>
      obtain ⟨k,hk⟩ := h.accumulating p data hr hf
      exact ho k hk
  | _ => rfl

theorem receive (h : Routes s) {p : Pdu} (hr : s.receiver = .idle) (ht : Tagged (s.receive p))
    (hok : p.answers = true → ∃ k, s.slots p.itt = .opened k) : Routes (s.receive p) := by
  have hidle : ∀ j k, s.slots j ≠ .closing k := by
    intro j k hj
    obtain ⟨q,hq,_⟩ := h.tagged.closing j k hj
    rw [hr] at hq
    cases hq
  have hpend : ∀ j, s.receiver.pending j = [] := fun j => by rw [hr]; rfl
  have hslot : ∀ j, j ≠ p.itt → s.closeSlot p j = s.slots j := by
    intro j hj
    rcases closeSlot_cases s p j with ⟨_,hx,_⟩ | ⟨hc,_⟩
    · exact absurd hx hj
    · exact hc
  have hheard : ∀ k, (s.slots p.itt).opener ≠ some k →
      Same k s.log (s.log ++ [.received (s.slots p.itt).opener p]) := fun k hk =>
    same_snoc (e := .received (s.slots p.itt).opener p) hk s.log
  refine h.tag ht p.itt rfl (fun j k _ => hidle j k) hslot (fun _ _ => rfl) (fun _ _ => rfl) ?_ ?_ ?_
    ?_ ?_ ?_
  · intro j hj
    show (Receiver.dispatch p).pending j = _
    rw [dispatch_pending,if_neg (fun hx => hj hx.symm),hpend]
  · intro k hk
    refine hheard k (fun ho => hk ?_)
    rw [opener_holder ho]
    rfl
  · cases ho : (s.slots p.itt).opener with
    | none =>
      have hna : p.payload = [] := by
        cases ha : p.answers with
        | true =>
          obtain ⟨k,hk⟩ := hok ha
          rw [hk] at ho
          cases ho
        | false => exact payload_of_not_answers ha
      show Content (s.receive p) p.itt (s.closeSlot p p.itt)
      rw [closeSlot,ho]
      refine (h.content p.itt).other (hidle p.itt) rfl rfl ?_ (fun k hk => ?_)
      · show (Receiver.dispatch p).pending p.itt = _
        rw [dispatch_pending,if_pos rfl,hna,hpend]
      · exact hheard k (by rw [ho]; simp)
    | some k =>
      have hk := opener_holder ho
      have hcont := h.content p.itt
      rw [hk] at hcont
      obtain ⟨hfin,hsend,hdel,ps,hps,hacc⟩ := hcont
      have hlog : (s.receive p).log = s.log ++ [.received (some k) p] := by
        show s.log ++ [SessionEvent.received (s.slots p.itt).opener p] = _
        rw [ho]
      have hun : Unanswered (s.receive p) p.itt k := by
        refine ⟨hsend,?_,ps,?_,hacc⟩
        · rw [hlog,deliveries_append]
          simpa [deliveries] using hdel
        · show payloads k (s.receive p).log = ps ++ (Receiver.dispatch p).pending p.itt
          rw [hlog,payloads_append,payloads_received,hps,hpend,List.append_nil,dispatch_pending,
            if_pos rfl]
      have hfins : finals k (s.receive p).log = if p.isFinal then [p] else [] := by
        rw [hlog,finals_append,hfin]
        cases hf : p.isFinal <;> simp [finals,hf]
      show Content (s.receive p) p.itt (s.closeSlot p p.itt)
      rw [closeSlot,ho]
      cases hf : p.isFinal with
      | true =>
        rw [hf] at hfins
        simp only [if_true,Function.update_self]
        refine ⟨p,hfins,?_⟩
        show Stage (s.receive p) p.itt k p (Receiver.dispatch p)
        rcases dispatch_final hf with hd | ⟨data,hd⟩ <;> rw [hd] <;> exact ⟨rfl,hun⟩
      | false =>
        rw [hf] at hfins
        show Content (s.receive p) p.itt (s.slots p.itt)
        rw [hk]
        exact ⟨hfins,hun⟩
  · intro q data hq hf
    obtain ⟨rfl,hop⟩ := dispatch_accumulate hq
    obtain ⟨k,hk⟩ := hok (by simp [Pdu.answers,hop])
    refine ⟨k,?_⟩
    rcases closeSlot_cases s q q.itt with ⟨_,_,hx,_⟩ | ⟨hc,_⟩
    · simp [Pdu.isFinal,hop,hf] at hx
    · exact hc.trans hk
  · intro k hk hu
    refine hheard k (fun ho => ?_)
    rw [h.tagged.not_unsent (Or.inl (opener_holder ho))] at hu
    cases hu
  · refine h.routed.snoc (fun k q hx => ?_) (fun k r hx => by cases hx)
    cases hx
    exact (h.tagged.outstanding p.itt).symm

theorem complete {t : Session} (h : Routes s) {p : Pdu} (ht : Tagged t)
    (hp : s.receiver.completing = some p) (hc : t.calls = s.calls) (hs : t.slots = s.slots)
    (hacc : ∀ j, j ≠ p.itt → t.dataAccumulator j = s.dataAccumulator j)
    (hcomp : ∀ j, j ≠ p.itt → t.pool.completions j = s.pool.completions j)
    (hr : ∀ j, j ≠ p.itt → t.receiver.pending j = s.receiver.pending j)
    (hl : t.log = s.log)
    (ha : ∀ q data, t.receiver ≠ .accumulate q data)
    (hi : ∀ k fin, s.slots p.itt = .closing k → finals k s.log = [fin] →
      Stage s p.itt k fin s.receiver → Stage t p.itt k fin t.receiver) : Routes t := by
  obtain ⟨k,fin,hk,hfin,hst,hclose⟩ := h.closing_at hp
  have hsame : ∀ j, Same j s.log t.log := fun j => by
    rw [hl]
    exact ⟨rfl,rfl,Iff.rfl⟩
  refine h.tag ht p.itt hc hclose (fun j _ => by rw [hs]) hacc hcomp hr (fun j _ => hsame j) ?_
    (fun q data hq => absurd hq (ha q data)) (fun j _ _ => hsame j) (hl ▸ h.routed)
  rw [hs,hk]
  exact ⟨fin,(hsame k).2.1.trans hfin,hi k fin hk hfin hst⟩

theorem place_payload {t : Session} {i k : Nat} {off : Nat} {data : Bytes}
    (h : Unanswered s i k) (hp : s.receiver.pending i = [⟨off,data⟩])
    (hl : t.log = s.log) (hcomp : t.pool.completions i = s.pool.completions i)
    (hacc : t.dataAccumulator i = some (accumulate ((s.dataAccumulator i).getD []) off data))
    (hr : t.receiver.pending i = []) : Unanswered t i k := by
  obtain ⟨hsend,hdel,ps,hps,ha⟩ := h
  refine ⟨hcomp.trans hsend,hl ▸ hdel,ps ++ [⟨off,data⟩],?_,?_⟩
  · rw [hl,hps,hp,hr,List.append_nil]
  · rw [hacc,ha,assembled_snoc]

theorem accumulate_step {t : Session} (h : Routes s) {p : Pdu} {data : Bytes}
    (hp : s.receiver = .accumulate p data) (ht : Tagged t) (hc : t.calls = s.calls)
    (hs : t.slots = s.slots) (hl : t.log = s.log) (hcomp : t.pool = s.pool)
    (hacc : t.dataAccumulator = Function.update s.dataAccumulator p.itt
      (some (accumulate ((s.dataAccumulator p.itt).getD []) p.bhs.bufferOffset.toNat data)))
    (hr : t.receiver = if p.bhs.statusFlag then .takeData p else .idle) : Routes t := by
  have hpi : s.receiver.pending p.itt = [⟨p.bhs.bufferOffset.toNat,data⟩] := by
    rw [hp]
    exact if_pos rfl
  have hpj : ∀ j, j ≠ p.itt → s.receiver.pending j = [] := fun j hj => by
    rw [hp]
    exact if_neg (fun hx => hj hx.symm)
  have hpt : ∀ j, t.receiver.pending j = [] := fun j => by
    rw [hr]
    split <;> rfl
  have hother : ∀ j, j ≠ p.itt → t.dataAccumulator j = s.dataAccumulator j := fun j hj => by
    rw [hacc,Function.update_of_ne hj]
  have hplaced : ∀ k, Unanswered s p.itt k → Unanswered t p.itt k := fun k hk =>
    place_payload hk hpi hl (by rw [hcomp]) (by rw [hacc,Function.update_self]) (hpt _)
  cases hf : p.bhs.statusFlag with
  | true =>
    have hcl : s.receiver.completing = some p := by
      rw [hp]
      exact if_pos hf
    rw [hf] at hr
    refine h.complete ht hcl hc hs hother (fun _ _ => by rw [hcomp])
      (fun j hj => by rw [hpt,hpj j hj]) hl (fun q d hq => by rw [hr] at hq; cases hq) ?_
    intro k fin hk hfin hst
    rw [hp] at hst
    rw [hr]
    exact ⟨hst.1,hplaced k hst.2⟩
  | false =>
    obtain ⟨k,hk⟩ := h.accumulating p data hp hf
    have hcont := h.content p.itt
    rw [hk] at hcont
    have hnone : s.receiver.completing = none := by
      rw [hp]
      exact if_neg (by simp [hf])
    have hsame : ∀ j, Same j s.log t.log := fun j => by
      rw [hl]
      exact ⟨rfl,rfl,Iff.rfl⟩
    refine h.tag ht p.itt hc ?_ (fun j _ => by rw [hs]) hother (fun _ _ => by rw [hcomp])
      (fun j hj => by rw [hpt,hpj j hj]) (fun j _ => hsame j) ?_ ?_ (fun j _ _ => hsame j)
      (hl ▸ h.routed)
    · intro j k' hj hk'
      obtain ⟨q,hq,_⟩ := h.tagged.closing j k' hk'
      rw [hnone] at hq
      cases hq
    · rw [hs,hk]
      exact ⟨(hsame k).2.1.trans hcont.1,hplaced k hcont.2⟩
    · intro q d hq _
      rw [hr,hf] at hq
      cases hq

theorem deliver {t : Session} (h : Routes s) {p : Pdu} {r : PduResponse} {k : Nat}
    (hp : s.receiver = .deliver p r (some k)) (ht : Tagged t) (hc : t.calls = s.calls)
    (hs : t.slots = s.slots) (hl : t.log = s.log ++ [.delivered k r]) (hpool : t.pool = s.pool)
    (hacc : t.dataAccumulator = s.dataAccumulator) (hr : t.receiver = .free p) : Routes t := by
  obtain ⟨k',fin,hk,hfin,hst,hclose⟩ := h.closing_at (p := p) (by rw [hp]; rfl)
  rw [hp] at hst
  obtain ⟨rfl,hkk,hdel,hnone,rfl⟩ := hst
  cases hkk
  have hsame : ∀ j, j ≠ k → Same j s.log t.log := fun j hj => by
    rw [hl]
    exact same_snoc (e := .delivered k _) (fun hx => hj (Option.some.inj hx).symm) s.log
  have hkey : (s.slots p.itt).holder = some k := by
    rw [hk]
    rfl
  refine h.tag ht p.itt hc hclose (fun j _ => by rw [hs]) (fun _ _ => by rw [hacc])
    (fun _ _ => by rw [hpool]) (fun j _ => by rw [hr,hp]; rfl) (fun j hj => hsame j ?_) ?_
    (fun q d hq => by rw [hr] at hq; cases hq) (fun j hj hu => ?_) ?_
  · exact fun hx => hj (hx ▸ hkey)
  · rw [hs,hk,Content,hl,finals_append,hr,hfin]
    exact ⟨p,rfl,(congrFun hacc p.itt).trans hnone⟩
  · rw [hkey] at hj
    cases hj
    rw [h.tagged.not_unsent (Or.inr hk)] at hu
    cases hu
  · rw [hl]
    refine h.routed.snoc (fun j q hx => by cases hx) (fun j r hx => ?_)
    cases hx
    exact ⟨hdel,p,hfin,rfl,rfl⟩

theorem free {t : Session} (h : Routes s) {p : Pdu} (hp : s.receiver = .free p) (ht : Tagged t)
    (hc : t.calls = s.calls) (hs : t.slots = Function.update s.slots p.itt .free)
    (hl : t.log = s.log) (hpool : t.pool.completions = s.pool.completions)
    (hacc : t.dataAccumulator = s.dataAccumulator) (hr : ∀ j, t.receiver.pending j = [])
    (ha : ∀ q data, t.receiver ≠ .accumulate q data) : Routes t := by
  obtain ⟨k,fin,hk,hfin,hst,hclose⟩ := h.closing_at (p := p) (by rw [hp]; rfl)
  have hsame : ∀ j, Same j s.log t.log := fun j => by
    rw [hl]
    exact ⟨rfl,rfl,Iff.rfl⟩
  refine h.tag ht p.itt hc hclose (fun j hj => by rw [hs,Function.update_of_ne hj])
    (fun _ _ => by rw [hacc]) (fun _ _ => by rw [hpool]) (fun j _ => by rw [hr,hp]; rfl)
    (fun j _ => hsame j) ?_ (fun q d hq => absurd hq (ha q d)) (fun j _ _ => hsame j) (hl ▸ h.routed)
  rw [hs,Function.update_self]
  rw [hp] at hst
  exact (congrFun hacc p.itt).trans hst

end Routes

theorem compliant_receive {s : Session} (h : Tagged s) {p : Pdu} (hok : Compliant s (.receive p))
    (ha : p.answers = true) : ∃ k, s.slots p.itt = .opened k := by
  rw [Compliant,Label.answer,if_pos ha,Option.all_some,h.outstanding] at hok
  obtain ⟨k,hk⟩ := Option.isSome_iff_exists.mp hok
  exact ⟨k,opener_holder hk⟩

theorem r2t_pending {x : Receiver} {y : R2t × Option Bytes} (h : x.r2t = some y) :
    (∀ i, x.pending i = []) ∧ ∀ p data, x ≠ .accumulate p data := by
  cases x with
  | lookup r n => exact ⟨fun _ => rfl,fun _ _ hx => by cases hx⟩
  | loadStat r data => exact ⟨fun _ => rfl,fun _ _ hx => by cases hx⟩
  | dataOut r data stat sent dataSn => exact ⟨fun _ => rfl,fun _ _ hx => by cases hx⟩
  | _ => cases h

theorem mayStop_pending {x : Receiver} (h : x.mayStop = true) (i : Nat) : x.pending i = [] := by
  cases x <;> first | rfl | cases h

theorem routes_step {s t : Session} {l : Label} (h : Routes s) (hok : Compliant s l)
    (hstep : SessionStep s l t) : Routes t := by
  have ht : Tagged t := tagged_step h.tagged
    (fun p hp ha => compliant_receive h.tagged (hp ▸ hok) ha) hstep
  have hu := unsent_step hstep
  cases hstep with
  | wander l k c he he' => exact h.call ht hu (Or.inl rfl) rfl rfl (fun _ => Or.inl ⟨rfl,rfl⟩)
  | claim k c half hk hb =>
    have hfree := h.tagged.claim_free hb
    have hcont := h.content (half.base+IttPool.freeBit (s.pool.slots half))
    rw [hfree] at hcont
    exact h.fill ht hu (Or.inl rfl) rfl rfl rfl (fun _ _ => rfl) (by simp [hfree]) hcont
  | store k c itt hk =>
    have hs : s.slots itt = .claimed k := h.tagged.place k itt _ (by rw [hk]; rfl)
    have hcont := h.content itt
    rw [hs] at hcont
    exact h.fill ht hu (Or.inl rfl) rfl rfl rfl (fun _ hi => Function.update_of_ne hi _ _)
      (by simp [hs]) ⟨hcont,Function.update_self _ _ _⟩
  | number k w hk =>
    obtain ⟨hpool,hslots,hrec,hacc⟩ := takeNumber_tables s k w
    refine h.call ht hu ?_ hrec hacc (fun i => Or.inl ⟨congrFun hslots i,
      congrArg (fun p : IttPool => p.completions i) hpool⟩)
    show Quiet s.log (s.takeNumber k w).log
    unfold takeNumber
    split
    · exact Or.inr ⟨_,rfl,rfl⟩
    · exact Or.inl rfl
  | stat k w cmdSn turn hk =>
    exact h.call ht hu (Or.inl rfl) rfl rfl (fun _ => Or.inl ⟨rfl,rfl⟩)
  | sentCommand k c itt p turn hk =>
    have hs : s.slots itt = .ready k := h.tagged.place k itt _ (by rw [hk]; rfl)
    obtain ⟨hpay,hfin,hdel⟩ := h.fresh k (by rw [hk]; rfl)
    have hq : Quiet s.log (s.log ++ [.sent (some k) (.command c itt) p]) := Or.inr ⟨_,rfl,rfl⟩
    have hcont := h.content itt
    rw [hs] at hcont
    obtain ⟨hpay',hfin',hdel'⟩ := hq.same k
    refine h.fill ht hu hq rfl rfl rfl (fun _ _ => rfl) (by simp [hs])
      ⟨hfin'.trans hfin,hcont.2,fun hx => hdel (hdel'.mp hx),[],?_,hcont.1⟩
    exact (hpay'.trans hpay).trans (h.pending_none (by rw [hs]; simp) (by rw [hs]; simp)).symm
  | sentOther k w p turn hw hk =>
    exact h.call ht hu (Or.inr ⟨_,rfl,rfl⟩) rfl rfl (fun _ => Or.inl ⟨rfl,rfl⟩)
  | register k itt data hk =>
    exact h.call ht hu (Or.inl rfl) rfl rfl (fun _ => Or.inl ⟨rfl,rfl⟩)
  | leave l k hk => exact h.call ht hu (Or.inl rfl) rfl rfl (fun _ => Or.inl ⟨rfl,rfl⟩)
  | receive p hp => exact h.receive hp ht (compliant_receive h.tagged hok)
  | accumulate p data hp => exact h.accumulate_step hp ht rfl rfl rfl rfl rfl rfl
  | takeData p hp =>
    refine h.complete ht (p := p) (by rw [hp]; rfl) rfl rfl (fun j hj => Function.update_of_ne hj _ _)
      (fun _ _ => rfl) (fun _ _ => by rw [hp]; rfl) rfl (fun _ _ hx => by cases hx) ?_
    intro k fin hk hfin hst
    rw [hp] at hst
    obtain ⟨hpf,hsend,hdel,ps,hps,hacc⟩ := hst
    rw [hp] at hps
    have hps : payloads k s.log = ps := hps.trans (List.append_nil _)
    refine ⟨hpf,hsend,hdel,Function.update_self _ _ _,?_⟩
    rw [hacc,← hps]
  | takeSender p r hp hi =>
    refine h.complete ht (p := p) (by rw [hp]; rfl) rfl rfl (fun _ _ => rfl)
      (fun j hj => Function.update_of_ne hj _ _) (fun _ _ => by rw [hp]; rfl) rfl
      (fun _ _ hx => by cases hx) ?_
    intro k fin hk hfin hst
    rw [hp] at hst
    exact ⟨hst.1,hst.2.1,hst.2.2⟩
  | deliver p r k hp hk => exact h.deliver hp ht rfl rfl rfl rfl rfl rfl
  | undelivered p r tx hp =>
    refine h.complete ht (p := p) (by rw [hp]; rfl) rfl rfl (fun _ _ => rfl) (fun _ _ => rfl)
      (fun _ _ => by rw [hp]; rfl) rfl (fun _ _ hx => by cases hx) ?_
    intro k fin hk hfin hst
    rw [hp] at hst
    exact hst.2.2.2.1
  | free p hp =>
    refine h.free hp ht rfl rfl rfl rfl rfl (fun j => ?_) (fun q d => ?_)
    · dsimp only
      split <;> rfl
    · dsimp only
      split <;> simp
  | removeWriteData itt hp =>
    exact h.aside ht rfl rfl rfl rfl (Or.inl rfl) (by rw [hp]; rfl) (fun _ => by rw [hp]; rfl)
      (fun _ => rfl) (fun _ _ hx => by cases hx)
  | found r tries d hp hd =>
    exact h.aside ht rfl rfl rfl rfl (Or.inl rfl) (by rw [hp]; rfl) (fun _ => by rw [hp]; rfl)
      (fun _ => rfl) (fun _ _ hx => by cases hx)
  | answer l x y hy hx =>
    have hxp : (∀ i, x.pending i = []) ∧ ∀ p data, x ≠ .accumulate p data := by
      rcases hx with hx | hx | hx
      · exact r2t_pending hx
      · exact hx ▸ ⟨fun _ => rfl,fun _ _ hx => by cases hx⟩
      · exact hx ▸ ⟨fun _ => rfl,fun _ _ hx => by cases hx⟩
    exact h.aside ht rfl rfl rfl rfl (Or.inl rfl) (r2t_completing hy) (r2t_pending hy).1 hxp.1 hxp.2
  | dataOut p x hp hx =>
    obtain ⟨y,hy⟩ := nextDataOut_r2t hp
    have hxp := r2t_pending (hx.trans hy)
    exact h.aside ht rfl rfl rfl rfl (Or.inr ⟨_,rfl,rfl⟩) (r2t_completing hy) (r2t_pending hy).1
      hxp.1 hxp.2
  | pongNumber ttt hp =>
    exact h.aside ht rfl rfl rfl rfl (Or.inl rfl) (by rw [hp]; rfl) (fun _ => by rw [hp]; rfl)
      (fun _ => rfl) (fun _ _ hx => by cases hx)
  | pongStat ttt cmdSn turn hp =>
    exact h.aside ht rfl rfl rfl rfl (Or.inl rfl) (by rw [hp]; rfl) (fun _ => by rw [hp]; rfl)
      (fun _ => rfl) (fun _ _ hx => by cases hx)
  | pongSent ttt p turn hp =>
    exact h.aside ht rfl rfl rfl rfl (Or.inr ⟨_,rfl,rfl⟩) (by rw [hp]; rfl)
      (fun _ => by rw [hp]; rfl) (fun _ => rfl) (fun _ _ hx => by cases hx)
  | stop l hp =>
    exact h.aside ht rfl rfl rfl rfl (Or.inl rfl) (h.tagged.mayStop_completing hp)
      (mayStop_pending hp) (fun _ => rfl) (fun _ _ hx => by cases hx)

theorem routes_start (init stat : BitVec 32) (n : NegotiatedParams) :
    Routes (Session.start init stat n) where
  tagged := tagged_start init stat n
  fresh := fun _ _ => ⟨rfl,rfl,by simp [Session.start,deliveries]⟩
  content := fun _ => rfl
  accumulating := fun _ _ h _ => by cases h
  routed := ⟨fun pre k p post h => by simp [Session.start] at h,List.nodup_nil,
    fun pre k r post h => by simp [Session.start] at h⟩

theorem Routes.accumulated {s : Session} (h : Routes s) {i : Nat} (hi : s.dataAccumulator i ≠ none) :
    (∃ k, outstanding s.log i = some k) ∨ ∃ p, p.itt = i ∧
      (s.receiver = .takeData p ∨ ∃ data, s.receiver = .accumulate p data) := by
  have hcont := h.content i
  cases hs : s.slots i with
  | free | claimed k =>
    rw [hs] at hcont
    exact absurd hcont hi
  | ready k =>
    rw [hs] at hcont
    exact absurd hcont.1 hi
  | opened k => exact Or.inl ⟨k,by rw [h.tagged.outstanding,hs]; rfl⟩
  | closing k =>
    obtain ⟨p,hp,rfl⟩ := h.tagged.closing i k hs
    obtain ⟨k',fin,_,_,hst,_⟩ := h.closing_at hp
    refine Or.inr ⟨p,rfl,?_⟩
    cases hr : s.receiver with
    | accumulate q data =>
      rw [hr,Receiver.completing] at hp
      split at hp
      · cases hp
        exact Or.inr ⟨data,rfl⟩
      · cases hp
    | takeData q =>
      rw [hr] at hp
      cases hp
      exact Or.inl rfl
    | takeSender q r =>
      rw [hr] at hst
      exact absurd hst.2.2.2.1 hi
    | deliver q r tx =>
      rw [hr] at hst
      exact absurd hst.2.2.2.1 hi
    | free q =>
      rw [hr] at hst
      exact absurd hst hi
    | _ =>
      rw [hr] at hst
      exact hst.elim

/-- In every run against a target that answers outstanding commands only, responses
are routed, and nothing is left in the accumulator of a completed command. -/
theorem responses_routed {init stat : BitVec 32} {n : NegotiatedParams} {ls : List Label} {t : Session}
    (hm : Machine.Meets sessionStep Compliant (Session.start init stat n) ls)
    (hr : Machine.run sessionStep (Session.start init stat n) ls = some t) :
    Routed t.log ∧ ∀ i, t.dataAccumulator i ≠ none → (∃ k, outstanding t.log i = some k) ∨
      ∃ p, p.itt = i ∧ (t.receiver = .takeData p ∨ ∃ data, t.receiver = .accumulate p data) := by
  have h : Routes t := Machine.invariant (I := Routes)
    (fun _ _ _ h hok hs => routes_step h hok (session_step hs)) (routes_start init stat n) hm hr
  exact ⟨h.routed,fun i hi => h.accumulated hi⟩

def dataIn (itt : BitVec 32) (flags : UInt8) (bufferOffset : BitVec 32) (data : Bytes) : Pdu where
  bhs := ((Bhs.syncRawFromFields { Bhs.newZeroed with
    opcode := .scsiDataIn
    flags := flags
    dataSegmentLength := BitVec.ofNat 32 data.length
    itt := itt }).setRawU32 32 64 Bhs.maxCmdSn_fits).setRawU32 40 bufferOffset
      Bhs.bufferOffset_fits
  ahs := none
  data := some data

/-- Call 0 gives up and is answered late; call 1 has the same tag and gets its own byte. -/
theorem responses_routed_after_timeout :
    ∃ t, Machine.run sessionStep (Session.start 5 0 .defaults10g)
        (Label.prepare 0 (readBlock 9) ++ Label.transmit 0 ++
          [.finish 0,.receive (dataIn 0 0x81 0 [1,2,3,4])] ++ List.replicate 5 .handle ++
          Label.prepare 1 (readBlock 10) ++ Label.transmit 1 ++
          [.receive (dataIn 0 0x81 2 [9])] ++ List.replicate 5 .handle) = some t ∧
      t.log.getLast? = some (.delivered 1 ⟨.good,some [0,0,9],none⟩) ∧ deliveries t.log = [1] ∧
      Routed t.log := by
  have hm : Machine.Meets sessionStep Compliant (Session.start 5 0 .defaults10g)
      (Label.prepare 0 (readBlock 9) ++ Label.transmit 0 ++
        [.finish 0,.receive (dataIn 0 0x81 0 [1,2,3,4])] ++ List.replicate 5 .handle ++
        Label.prepare 1 (readBlock 10) ++ Label.transmit 1 ++
        [.receive (dataIn 0 0x81 2 [9])] ++ List.replicate 5 .handle) :=
    Machine.meets_of_check (by decide)
  exact ⟨_,rfl,by decide,by decide,(responses_routed hm rfl).1⟩

end IscsiFuse.Iscsi
