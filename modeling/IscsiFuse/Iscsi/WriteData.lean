import IscsiFuse.Iscsi.Routing
set_option autoImplicit false

namespace IscsiFuse.Iscsi
open Session

def commandOf (log : List SessionEvent) (k : Nat) : Option Command :=
  log.findSome? (fun e => match e with
    | .sent (some j) (.command c _) _ => if j = k then some c else none
    | _ => none)

def Wrote (log : List SessionEvent) (k : Nat) (data : Bytes) : Prop :=
  ∃ c, commandOf log k = some c ∧ c.writeData = some data

/-- Every Data-Out carries a piece of the data of the write whose command is outstanding
under its tag. -/
def RightData (log : List SessionEvent) : Prop :=
  ∀ pre p post, log = pre ++ .dataOut p :: post → ∃ k data off n,
    outstanding pre p.itt = some k ∧ Wrote pre k data ∧ p.data = some (data.window off n)

def Pdu.concerns (p : Pdu) : Bool := p.answers || p.bhs.opcode = .r2t

/-- The target speaks of outstanding commands only, and sends no data in for a write. -/
def WriteCompliant (s : Session) (l : Label) : Prop :=
  l.pdu.all (fun p => !p.concerns || (outstanding s.log p.itt).any (fun k =>
    p.bhs.opcode ≠ .scsiDataIn || (commandOf s.log k).all (fun c => !c.write))) = true

def Session.claims (s : Session) : Label → Option Nat
  | .advance k => match s.calls k with
    | .cas _ h current =>
      if IttPool.freeBit current < 64 ∧ s.pool.slots h = current then
        some (h.base+IttPool.freeBit current) else none
    | _ => none
  | _ => none

def Call.registering : Call → Option Nat
  | .register itt _ => some itt
  | _ => none

def Session.removes (s : Session) : Label → Option Nat
  | .handle => match s.receiver with
    | .removeWriteData itt => some itt
    | _ => none
  | _ => none

/-- When write data are removed, the answered call has registered, and the tag has not
been given out again. -/
def Undisturbed (s : Session) (l : Label) : Prop :=
  (s.claims l).all (fun i => s.receiver ≠ .removeWriteData i) = true ∧
    (s.removes l).all (fun i => (commandsSent s.log).all (fun k =>
      (s.calls k).registering ≠ some i)) = true

instance (s : Session) (l : Label) : Decidable (WriteCompliant s l) :=
  inferInstanceAs (Decidable (_ = true))

instance (s : Session) (l : Label) : Decidable (Undisturbed s l) :=
  inferInstanceAs (Decidable (_ = true ∧ _ = true))

def Held (s : Session) (k i : Nat) : Prop :=
  s.slots i = .opened k ∨ s.slots i = .closing k ∨
    s.receiver = .removeWriteData i ∧ finals k s.log ≠ []

structure Registered (s : Session) : Prop where
  tagged : Tagged s
  unsent : ∀ k, (s.calls k).unsent k = true → commandOf s.log k = none
  entry : ∀ i e, s.pool.writeData i = some e → Held s e.owner i ∧ Wrote s.log e.owner e.data
  registering : ∀ k i data, s.calls k = .register i data → Held s k i ∧ Wrote s.log k data ∧
    ∀ j e, s.pool.writeData j = some e → e.owner ≠ k
  answering : ∀ r o, s.receiver.r2t = some (r,o) →
    ∃ k, s.slots r.itt = .opened k ∧ ∀ data, o = some data → Wrote s.log k data
  reading : ∀ p k, s.receiver.completing = some p → s.slots p.itt = .closing k →
    finals k s.log ≠ [] ∧ (p.bhs.opcode ≠ .scsiResponse → ∀ data, ¬ Wrote s.log k data)
  removing : ∀ i, s.receiver = .removeWriteData i → s.slots i = .free
  right : RightData s.log

theorem commandOf_append (log m : List SessionEvent) (k : Nat) :
    commandOf (log ++ m) k = (commandOf log k).or (commandOf m k) := List.findSome?_append

theorem Wrote.append {log : List SessionEvent} {k : Nat} {data : Bytes} (h : Wrote log k data)
    (m : List SessionEvent) : Wrote (log ++ m) k data := by
  obtain ⟨c,hc,hd⟩ := h
  exact ⟨c,by rw [commandOf_append,hc]; rfl,hd⟩

theorem mem_commandsSent {log : List SessionEvent} {k : Nat} {c : Command}
    (h : commandOf log k = some c) : k ∈ commandsSent log := by
  obtain ⟨e,he,hc⟩ := List.exists_of_findSome?_eq_some h
  refine List.mem_filterMap.mpr ⟨e,he,?_⟩
  split at hc
  · split at hc
    · rename_i hj
      rw [hj]
    · cases hc
  · cases hc

theorem commandOf_tagless {e : SessionEvent} (h : e.tagless = true) (log : List SessionEvent)
    (k : Nat) : commandOf (log ++ [e]) k = commandOf log k := by
  have he : commandOf [e] k = none := by
    cases e with
    | sent j w p => cases w <;> cases j <;> first | rfl | cases h
    | _ => rfl
  rw [commandOf_append,he,Option.or_none]

theorem received_tagless {e : SessionEvent} (h : e.tagless = true) (log : List SessionEvent)
    (k : Nat) : payloads k (log ++ [e]) = payloads k log ∧ finals k (log ++ [e]) = finals k log := by
  have he : payloads k [e] = [] ∧ finals k [e] = [] := by
    cases e with
    | received j p => cases h
    | _ => exact ⟨rfl,rfl⟩
  rw [payloads_append,finals_append,he.1,he.2,List.append_nil,List.append_nil]
  exact ⟨rfl,rfl⟩

theorem RightData.snoc {log : List SessionEvent} {e : SessionEvent} (h : RightData log)
    (he : ∀ p, e = .dataOut p → ∃ k data off n, outstanding log p.itt = some k ∧
      Wrote log k data ∧ p.data = some (data.window off n)) : RightData (log ++ [e]) := by
  intro pre p post hl
  rcases Log.split_snoc hl with ⟨_,hx,rfl⟩ | ⟨post',_,hl'⟩
  · exact he p hx
  · exact h pre p post' hl'

def Aside (l l' : List SessionEvent) : Prop :=
  l' = l ∨ ∃ e : SessionEvent, l' = l ++ [e] ∧ e.tagless = true

theorem Aside.commandOf {l l' : List SessionEvent} (h : Aside l l') (k : Nat) :
    IscsiFuse.Iscsi.commandOf l' k = IscsiFuse.Iscsi.commandOf l k := by
  rcases h with rfl | ⟨e,rfl,he⟩
  · rfl
  · exact commandOf_tagless he l k

theorem Aside.finals {l l' : List SessionEvent} (h : Aside l l') (k : Nat) :
    IscsiFuse.Iscsi.finals k l' = IscsiFuse.Iscsi.finals k l := by
  rcases h with rfl | ⟨e,rfl,he⟩
  · rfl
  · exact (received_tagless he l k).2

theorem Aside.wrote {l l' : List SessionEvent} (h : Aside l l') {k : Nat} {data : Bytes} :
    Wrote l' k data ↔ Wrote l k data := by
  unfold Wrote
  rw [h.commandOf]

namespace Registered

variable {s t : Session}

theorem call (h : Registered s) (ht : Tagged t)
    (hu : ∀ k, (t.calls k).unsent k = true → (s.calls k).unsent k = true)
    (hl : Aside s.log t.log) (hright : RightData t.log) (hr : t.receiver = s.receiver)
    (hw : t.pool.writeData = s.pool.writeData)
    (hreg : ∀ k i data, t.calls k = .register i data → s.calls k = .register i data)
    (hs : ∀ i, t.slots i = s.slots i ∨ (s.slots i).opener = none ∧
      (∀ k, s.slots i ≠ .closing k) ∧ (∀ k, t.slots i ≠ .closing k) ∧
      s.receiver ≠ .removeWriteData i) : Registered t := by
  have hheld : ∀ k i, Held s k i → Held t k i := by
    intro k i hk
    rcases hs i with hi | ⟨ho,hc,_⟩
    · rw [Held,hi,hr,hl.finals]
      exact hk
    · rcases hk with hk | hk | hk
      · rw [hk] at ho
        cases ho
      · exact absurd hk (hc k)
      · exact Or.inr (Or.inr ⟨hr.trans hk.1,hl.finals k ▸ hk.2⟩)
  refine ⟨ht,?_,?_,?_,?_,?_,?_,hright⟩
  · intro k hk
    rw [hl.commandOf]
    exact h.unsent k (hu k hk)
  · intro i e he
    rw [hw] at he
    obtain ⟨hh,hwr⟩ := h.entry i e he
    exact ⟨hheld _ _ hh,hl.wrote.mpr hwr⟩
  · intro k i data hk
    obtain ⟨hh,hwr,hne⟩ := h.registering k i data (hreg k i data hk)
    exact ⟨hheld _ _ hh,hl.wrote.mpr hwr,fun j e he => hne j e (hw ▸ he)⟩
  · intro r o hro
    obtain ⟨k,hk,hd⟩ := h.answering r o (hr ▸ hro)
    refine ⟨k,?_,fun data ho => hl.wrote.mpr (hd data ho)⟩
    rcases hs r.itt with hi | ⟨ho,_⟩
    · exact hi.trans hk
    · rw [hk] at ho
      cases ho
  · intro p k hp hk
    rcases hs p.itt with hi | ⟨_,_,hc,_⟩
    · obtain ⟨hf,hn⟩ := h.reading p k (hr ▸ hp) (hi.symm.trans hk)
      exact ⟨hl.finals k ▸ hf,fun hop data hx => hn hop data (hl.wrote.mp hx)⟩
    · exact absurd hk (hc k)
  · intro i hi
    rcases hs i with hx | ⟨_,_,_,hx⟩
    · exact hx.trans (h.removing i (hr ▸ hi))
    · exact absurd (hr ▸ hi) hx

theorem receiver (h : Registered s) (ht : Tagged t) (hc : t.calls = s.calls)
    (hs : t.slots = s.slots) (hl : Aside s.log t.log) (hright : RightData t.log)
    (hw : t.pool.writeData = s.pool.writeData)
    (hx : ∀ i, s.receiver ≠ .removeWriteData i) (hx' : ∀ i, t.receiver ≠ .removeWriteData i)
    (hans : ∀ r o, t.receiver.r2t = some (r,o) →
      ∃ k, s.slots r.itt = .opened k ∧ ∀ data, o = some data → Wrote s.log k data)
    (hcmp : ∀ p, t.receiver.completing = some p → s.receiver.completing = some p) :
    Registered t := by
  have hheld : ∀ k i, Held s k i → Held t k i := by
    intro k i hk
    rw [Held,hs]
    rcases hk with hk | hk | hk
    · exact Or.inl hk
    · exact Or.inr (Or.inl hk)
    · exact absurd hk.1 (hx i)
  refine ⟨ht,?_,?_,?_,?_,?_,?_,hright⟩
  · intro k hk
    rw [hl.commandOf]
    exact h.unsent k (hc ▸ hk)
  · intro i e he
    rw [hw] at he
    obtain ⟨hh,hwr⟩ := h.entry i e he
    exact ⟨hheld _ _ hh,hl.wrote.mpr hwr⟩
  · intro k i data hk
    obtain ⟨hh,hwr,hne⟩ := h.registering k i data (hc ▸ hk)
    exact ⟨hheld _ _ hh,hl.wrote.mpr hwr,fun j e he => hne j e (hw ▸ he)⟩
  · intro r o hro
    obtain ⟨k,hk,hd⟩ := hans r o hro
    exact ⟨k,hs ▸ hk,fun data ho => hl.wrote.mpr (hd data ho)⟩
  · intro p k hp hk
    obtain ⟨hf,hn⟩ := h.reading p k (hcmp p hp) (hs ▸ hk)
    exact ⟨hl.finals k ▸ hf,fun hop data hx => hn hop data (hl.wrote.mp hx)⟩
  · intro i hi
    exact absurd hi (hx' i)

theorem quiet (h : Registered s) (ht : Tagged t) (hc : t.calls = s.calls) (hs : t.slots = s.slots)
    (hl : Aside s.log t.log) (hright : RightData t.log) (hw : t.pool.writeData = s.pool.writeData)
    (hx : ∀ i, s.receiver ≠ .removeWriteData i) (hx' : ∀ i, t.receiver ≠ .removeWriteData i)
    (hr : t.receiver.r2t = none)
    (hcmp : ∀ p, t.receiver.completing = some p → s.receiver.completing = some p) : Registered t :=
  h.receiver ht hc hs hl hright hw hx hx' (fun r o hro => by rw [hr] at hro; cases hro) hcmp

theorem send (h : Registered s) {k itt turn : Nat} {c : Command} {p : Pdu} {x : Call}
    (hk : s.calls k = .numbering (.command c itt) (.send p turn)) (ht : Tagged t)
    (hu : ∀ k, (t.calls k).unsent k = true → (s.calls k).unsent k = true)
    (hl : t.log = s.log ++ [.sent (some k) (.command c itt) p]) (hr : t.receiver = s.receiver)
    (hw : t.pool.writeData = s.pool.writeData) (hc : t.calls = Function.update s.calls k x)
    (hx : ∀ i data, x = .register i data → i = itt ∧ c.writeData = some data)
    (hx' : x.unsent k = false) (hs : t.slots = Function.update s.slots itt (.opened k)) :
    Registered t := by
  have hready : s.slots itt = .ready k := h.tagged.place k itt _ (by rw [hk]; rfl)
  have hnone : commandOf s.log k = none := h.unsent k (by rw [hk]; rfl)
  have hcmd : ∀ j, j ≠ k → commandOf t.log j = commandOf s.log j := by
    intro j hj
    have hkj : k ≠ j := fun hx => hj hx.symm
    have hone : commandOf [SessionEvent.sent (some k) (.command c itt) p] j = none := by
      simp [commandOf,hkj]
    rw [hl,commandOf_append,hone,Option.or_none]
  have hmine : commandOf t.log k = some c := by
    rw [hl,commandOf_append,hnone]
    simp [commandOf]
  have hwrote : ∀ j data, Wrote s.log j data → Wrote t.log j data := by
    intro j data hj
    rw [hl]
    exact hj.append _
  have hfin : ∀ j, finals j t.log = finals j s.log := by
    intro j
    rw [hl,finals_append]
    exact List.append_nil _
  have hslot : ∀ i, i ≠ itt → t.slots i = s.slots i := fun i hi => by
    rw [hs,Function.update_of_ne hi]
  have hheld : ∀ j i, Held s j i → Held t j i := by
    intro j i hj
    rcases hj with hj | hj | hj
    · have hi : i ≠ itt := by
        intro hi
        rw [hi,hready] at hj
        cases hj
      exact Or.inl ((hslot i hi).trans hj)
    · have hi : i ≠ itt := by
        intro hi
        rw [hi,hready] at hj
        cases hj
      exact Or.inr (Or.inl ((hslot i hi).trans hj))
    · exact Or.inr (Or.inr ⟨hr.trans hj.1,hfin j ▸ hj.2⟩)
  have howner : ∀ i e, s.pool.writeData i = some e → e.owner ≠ k := by
    intro i e he ho
    obtain ⟨d,hd,_⟩ := (h.entry i e he).2
    rw [ho,hnone] at hd
    cases hd
  refine ⟨ht,?_,?_,?_,?_,?_,?_,?_⟩
  · intro j hj
    have hjk : j ≠ k := by
      intro hjk
      rw [hjk,hc,Function.update_self,hx'] at hj
      cases hj
    rw [hcmd j hjk]
    exact h.unsent j (hu j hj)
  · intro i e he
    rw [hw] at he
    obtain ⟨hh,hwr⟩ := h.entry i e he
    exact ⟨hheld _ _ hh,hwrote _ _ hwr⟩
  · intro j i data hj
    by_cases hjk : j = k
    · subst hjk
      rw [hc,Function.update_self] at hj
      obtain ⟨rfl,hd⟩ := hx i data hj
      refine ⟨Or.inl (by rw [hs,Function.update_self]),⟨c,hmine,hd⟩,fun i' e he => ?_⟩
      exact howner i' e (hw ▸ he)
    · rw [hc,Function.update_of_ne hjk] at hj
      obtain ⟨hh,hwr,hne⟩ := h.registering j i data hj
      exact ⟨hheld _ _ hh,hwrote _ _ hwr,fun i' e he => hne i' e (hw ▸ he)⟩
  · intro r o hro
    obtain ⟨j,hj,hd⟩ := h.answering r o (hr ▸ hro)
    have hi : r.itt ≠ itt := by
      intro hi
      rw [hi,hready] at hj
      cases hj
    exact ⟨j,(hslot _ hi).trans hj,fun data ho => hwrote _ _ (hd data ho)⟩
  · intro q j hq hj
    have hi : q.itt ≠ itt := by
      intro hi
      rw [hi,hs,Function.update_self] at hj
      cases hj
    rw [hslot _ hi] at hj
    obtain ⟨hf,hn⟩ := h.reading q j (hr ▸ hq) hj
    have hjk : j ≠ k := by
      intro hjk
      subst hjk
      exact hi (h.tagged.unique q.itt itt j (by rw [hj]; rfl) (by rw [hready]; rfl))
    refine ⟨hfin j ▸ hf,fun hop data hx => hn hop data ?_⟩
    unfold Wrote at hx ⊢
    rwa [hcmd j hjk] at hx
  · intro i hi
    have hfree := h.removing i (hr ▸ hi)
    have hne : i ≠ itt := by
      intro hne
      rw [hne,hready] at hfree
      cases hfree
    exact (hslot i hne).trans hfree
  · rw [hl]
    exact h.right.snoc (fun q hx => by cases hx)

theorem register (h : Registered s) {k itt : Nat} {data : Bytes}
    (hk : s.calls k = .register itt data) (ht : Tagged t)
    (hu : ∀ k, (t.calls k).unsent k = true → (s.calls k).unsent k = true)
    (hl : t.log = s.log) (hr : t.receiver = s.receiver)
    (hw : t.pool.writeData = Function.update s.pool.writeData itt (some ⟨k,data⟩))
    (hc : t.calls = Function.update s.calls k (.waiting itt)) (hs : t.slots = s.slots) :
    Registered t := by
  have hheld : ∀ j i, Held s j i → Held t j i := by
    intro j i hj
    rw [Held,hs,hr,hl]
    exact hj
  obtain ⟨hmine,hwr,_⟩ := h.registering k itt data hk
  refine ⟨ht,?_,?_,?_,?_,?_,?_,hl ▸ h.right⟩
  · intro j hj
    rw [hl]
    exact h.unsent j (hu j hj)
  · intro i e he
    rw [hw] at he
    by_cases hi : i = itt
    · subst hi
      rw [Function.update_self] at he
      cases he
      exact ⟨hheld _ _ hmine,hl ▸ hwr⟩
    · rw [Function.update_of_ne hi] at he
      obtain ⟨hh,hwr⟩ := h.entry i e he
      exact ⟨hheld _ _ hh,hl ▸ hwr⟩
  · intro j i d hj
    have hjk : j ≠ k := by
      intro hjk
      rw [hjk,hc,Function.update_self] at hj
      cases hj
    rw [hc,Function.update_of_ne hjk] at hj
    obtain ⟨hh,hwr,hne⟩ := h.registering j i d hj
    refine ⟨hheld _ _ hh,hl ▸ hwr,fun i' e he => ?_⟩
    rw [hw] at he
    by_cases hi : i' = itt
    · rw [hi,Function.update_self] at he
      cases he
      exact fun hx => hjk hx.symm
    · rw [Function.update_of_ne hi] at he
      exact hne i' e he
  · intro r o hro
    obtain ⟨j,hj,hd⟩ := h.answering r o (hr ▸ hro)
    exact ⟨j,hs ▸ hj,fun d ho => hl ▸ hd d ho⟩
  · intro q j hq hj
    rw [hl]
    exact h.reading q j (hr ▸ hq) (hs ▸ hj)
  · intro i hi
    exact hs ▸ h.removing i (hr ▸ hi)

end Registered

theorem writeCompliant_receive {s : Session} (h : Tagged s) {p : Pdu}
    (hok : WriteCompliant s (.receive p)) (hc : p.concerns = true) :
    ∃ k, s.slots p.itt = .opened k ∧
      (p.bhs.opcode = .scsiDataIn → ∀ data, ¬ Wrote s.log k data) := by
  simp only [WriteCompliant,Label.pdu,Option.all_some,hc,Bool.not_true,Bool.false_or,
    h.outstanding] at hok
  cases ho : (s.slots p.itt).opener with
  | none =>
    rw [ho] at hok
    cases hok
  | some k =>
    refine ⟨k,opener_holder ho,fun hd data hw => ?_⟩
    obtain ⟨c,hcmd,hdata⟩ := hw
    rw [ho] at hok
    simp [hd,hcmd,Command.write,hdata] at hok

theorem dispatch_r2t {p : Pdu} {r : R2t} {o : Option Bytes}
    (h : (Receiver.dispatch p).r2t = some (r,o)) : p.bhs.opcode = .r2t ∧ r.itt = p.itt ∧ o = none := by
  unfold Receiver.dispatch at h
  repeat' split at h
  all_goals cases h
  exact ⟨by assumption,rfl,rfl⟩

theorem dispatch_remove (p : Pdu) (i : Nat) : Receiver.dispatch p ≠ .removeWriteData i := by
  unfold Receiver.dispatch
  repeat' split
  all_goals simp

namespace Registered

variable {s t : Session}

theorem receive (h : Registered s) {p : Pdu} (hr : s.receiver = .idle) (ht : Tagged (s.receive p))
    (hok : WriteCompliant s (.receive p)) : Registered (s.receive p) := by
  have hlog : (s.receive p).log = s.log ++ [.received (s.slots p.itt).opener p] := rfl
  have hcmd : ∀ k, commandOf (s.receive p).log k = commandOf s.log k := by
    intro k
    rw [hlog,commandOf_append]
    exact Option.or_none
  have hwrote : ∀ {k data}, Wrote (s.receive p).log k data ↔ Wrote s.log k data := by
    intro k data
    unfold Wrote
    rw [hcmd]
  have hheld : ∀ k i, Held s k i → Held (s.receive p) k i := by
    intro k i hk
    rcases hk with hk | hk | hk
    · rcases closeSlot_cases s p i with ⟨k',_,_,hx,hc⟩ | ⟨hc,_⟩
      · rw [hk] at hx
        cases hx
        exact Or.inr (Or.inl hc)
      · exact Or.inl (hc.trans hk)
    · obtain ⟨q,hq,_⟩ := h.tagged.closing i k hk
      rw [hr] at hq
      cases hq
    · rw [hr] at hk
      cases hk.1
  refine ⟨ht,?_,?_,?_,?_,?_,?_,?_⟩
  · intro k hk
    rw [hcmd]
    exact h.unsent k hk
  · intro i e he
    obtain ⟨hh,hwr⟩ := h.entry i e he
    exact ⟨hheld _ _ hh,hwrote.mpr hwr⟩
  · intro k i data hk
    obtain ⟨hh,hwr,hne⟩ := h.registering k i data hk
    exact ⟨hheld _ _ hh,hwrote.mpr hwr,hne⟩
  · intro r o hro
    obtain ⟨hop,hitt,rfl⟩ := dispatch_r2t hro
    obtain ⟨k,hk,_⟩ := writeCompliant_receive h.tagged hok (by simp [Pdu.concerns,hop])
    refine ⟨k,?_,fun data ho => by cases ho⟩
    rw [hitt]
    rcases closeSlot_cases s p p.itt with ⟨_,_,hf,_⟩ | ⟨hc,_⟩
    · simp [Pdu.isFinal,hop] at hf
    · exact hc.trans hk
  · intro q k hq hk
    have hd : (Receiver.dispatch p).completing = some q := hq
    rw [dispatch_completing] at hd
    split at hd
    · rename_i hf
      cases hd
      have ha := answers_of_isFinal hf
      obtain ⟨k',hk',hn⟩ := writeCompliant_receive h.tagged hok (by simp [Pdu.concerns,ha])
      have hkk : k' = k := by
        have hk : s.closeSlot p p.itt = .closing k := hk
        rw [closeSlot,hk',Slot.opener] at hk
        simpa [hf] using hk
      subst hkk
      refine ⟨?_,fun hop data hx => hn ?_ data (hwrote.mp hx)⟩
      · rw [hlog,hk',finals_append]
        simp [finals,Slot.opener,hf]
      · unfold Pdu.answers at ha
        simpa [hop] using ha
    · cases hd
  · intro i hi
    exact absurd hi (dispatch_remove p i)
  · exact h.right.snoc (fun q hx => by cases hx)

theorem free (h : Registered s) {p : Pdu} (hp : s.receiver = .free p) (ht : Tagged t)
    (hc : t.calls = s.calls) (hs : t.slots = Function.update s.slots p.itt .free)
    (hl : t.log = s.log) (hw : t.pool.writeData = s.pool.writeData)
    (hr : t.receiver =
      if p.bhs.opcode = .scsiResponse then .removeWriteData p.itt else .idle) : Registered t := by
  have hcp : s.receiver.completing = some p := by
    rw [hp]
    rfl
  have hheld : ∀ k i data, Wrote s.log k data → Held s k i → Held t k i := by
    intro k i data hwr hk
    rcases hk with hk | hk | hk
    · have hi : i ≠ p.itt := by
        obtain ⟨k',hk'⟩ := h.tagged.completing p hcp
        intro hi
        rw [hi,hk'] at hk
        cases hk
      exact Or.inl (by rw [hs,Function.update_of_ne hi,hk])
    · obtain ⟨q,hq,rfl⟩ := h.tagged.closing i k hk
      rw [hcp] at hq
      cases hq
      obtain ⟨hf,hn⟩ := h.reading p k hcp hk
      by_cases hop : p.bhs.opcode = .scsiResponse
      · rw [if_pos hop] at hr
        exact Or.inr (Or.inr ⟨hr,hl ▸ hf⟩)
      · exact absurd hwr (hn hop data)
    · rw [hp] at hk
      cases hk.1
  refine ⟨ht,?_,?_,?_,?_,?_,?_,hl ▸ h.right⟩
  · intro k hk
    rw [hl]
    exact h.unsent k (hc ▸ hk)
  · intro i e he
    obtain ⟨hh,hwr⟩ := h.entry i e (hw ▸ he)
    exact ⟨hheld _ _ _ hwr hh,hl ▸ hwr⟩
  · intro k i data hk
    obtain ⟨hh,hwr,hne⟩ := h.registering k i data (hc ▸ hk)
    exact ⟨hheld _ _ _ hwr hh,hl ▸ hwr,fun j e he => hne j e (hw ▸ he)⟩
  · intro r o hro
    rw [hr] at hro
    split at hro <;> cases hro
  · intro q k hq _
    rw [hr] at hq
    split at hq <;> cases hq
  · intro i hi
    rw [hr] at hi
    split at hi
    · cases hi
      rw [hs,Function.update_self]
    · cases hi

theorem remove (h : Registered s) {itt : Nat} (hp : s.receiver = .removeWriteData itt)
    (hok : ∀ k ∈ commandsSent s.log, (s.calls k).registering ≠ some itt) (ht : Tagged t)
    (hc : t.calls = s.calls) (hs : t.slots = s.slots) (hl : t.log = s.log)
    (hw : t.pool.writeData = Function.update s.pool.writeData itt none) (hr : t.receiver = .idle) :
    Registered t := by
  have hheld : ∀ k i, i ≠ itt → Held s k i → Held t k i := by
    intro k i hi hk
    rcases hk with hk | hk | hk
    · exact Or.inl (hs ▸ hk)
    · exact Or.inr (Or.inl (hs ▸ hk))
    · rw [hp] at hk
      cases hk.1
      exact absurd rfl hi
  have hentry : ∀ i e, t.pool.writeData i = some e → i ≠ itt ∧ s.pool.writeData i = some e := by
    intro i e he
    rw [hw] at he
    by_cases hi : i = itt
    · rw [hi,Function.update_self] at he
      cases he
    · rw [Function.update_of_ne hi] at he
      exact ⟨hi,he⟩
  refine ⟨ht,?_,?_,?_,?_,?_,?_,hl ▸ h.right⟩
  · intro k hk
    rw [hl]
    exact h.unsent k (hc ▸ hk)
  · intro i e he
    obtain ⟨hi,he⟩ := hentry i e he
    obtain ⟨hh,hwr⟩ := h.entry i e he
    exact ⟨hheld _ _ hi hh,hl ▸ hwr⟩
  · intro k i data hk
    rw [hc] at hk
    obtain ⟨hh,hwr,hne⟩ := h.registering k i data hk
    have hi : i ≠ itt := by
      intro hi
      obtain ⟨c,hcmd,_⟩ := hwr
      refine hok k (mem_commandsSent hcmd) ?_
      rw [hk,hi]
      rfl
    exact ⟨hheld _ _ hi hh,hl ▸ hwr,fun j e he => hne j e (hentry j e he).2⟩
  · intro r o hro
    rw [hr] at hro
    cases hro
  · intro q k hq _
    rw [hr] at hq
    cases hq
  · intro i hi
    rw [hr] at hi
    cases hi

end Registered

theorem r2t_remove {x : Receiver} {y : R2t × Option Bytes} (h : x.r2t = some y) (i : Nat) :
    x ≠ .removeWriteData i := by
  intro hx
  rw [hx] at h
  cases h

theorem nextDataOut_data {s : Session} {p : Pdu} (h : s.nextDataOut = some p) :
    ∃ r data off n, s.receiver.r2t = some (r,some data) ∧ p.bhs.itt = BitVec.ofNat 32 r.itt ∧
      p.data = some (data.window off n) := by
  unfold nextDataOut at h
  split at h
  · rename_i r data stat sent dataSn hr
    split at h
    · simp only [R2t.dataOutPdu,Option.bind_eq_bind,Option.bind_eq_some_iff] at h
      obtain ⟨chunk,hc,hp⟩ := h
      obtain ⟨_,hslice⟩ := slice_eq_some.mp hc
      obtain rfl := Option.some.inj hp
      exact ⟨r,data,_,_,by rw [hr]; rfl,rfl,congrArg some hslice.symm⟩
    · cases h
  · cases h

theorem update_not_closing {f : Nat → Slot} {i j : Nat} {x : Slot} (h : x ≠ .closing j) :
    Function.update f i x i ≠ .closing j := by
  rwa [Function.update_self]

theorem registering_setCall {s t : Session} {k : Nat} {c : Call}
    (ht : t.calls = Function.update s.calls k c) (hc : c.registering = none) (j i : Nat)
    (data : Bytes) (hj : t.calls j = .register i data) : s.calls j = .register i data := by
  rw [ht] at hj
  by_cases hjk : j = k
  · rw [hjk,Function.update_self] at hj
    rw [hj] at hc
    cases hc
  · rwa [Function.update_of_ne hjk] at hj

namespace Registered

variable {s : Session}

theorem found (h : Registered s) {r : R2t} {tries : Nat} {d : WriteData}
    (hp : s.receiver = .lookup r tries) (hd : s.pool.writeData r.itt = some d)
    (ht : Tagged { s with receiver := .loadStat r d.data }) :
    Registered { s with receiver := .loadStat r d.data } := by
  obtain ⟨k,hk,_⟩ := h.answering r none (by rw [hp]; rfl)
  obtain ⟨hh,hwr⟩ := h.entry r.itt d hd
  have howner : d.owner = k := by
    rcases hh with hh | hh | hh
    · rw [hk] at hh
      cases hh
      rfl
    · rw [hk] at hh
      cases hh
    · rw [hp] at hh
      cases hh.1
  refine h.receiver ht rfl rfl (Or.inl rfl) h.right rfl (by simp [hp]) (by simp) ?_
    (fun _ hx => by cases hx)
  intro r' o hx
  cases hx
  refine ⟨k,hk,fun data ho => ?_⟩
  cases ho
  exact howner ▸ hwr

theorem answer (h : Registered s) {x : Receiver} {y : R2t × Option Bytes}
    (hy : s.receiver.r2t = some y) (hx : x.r2t = some y ∨ x = .idle ∨ x = .stopped)
    (ht : Tagged { s with receiver := x }) : Registered { s with receiver := x } := by
  have hxr : x.r2t = some y ∨ x.r2t = none := by
    rcases hx with hx | hx | hx
    · exact Or.inl hx
    · exact Or.inr (by rw [hx]; rfl)
    · exact Or.inr (by rw [hx]; rfl)
  have hxc : x.completing = none ∧ ∀ i, x ≠ .removeWriteData i := by
    rcases hx with hx | hx | hx
    · exact ⟨r2t_completing hx,r2t_remove hx⟩
    · exact hx ▸ ⟨rfl,by simp⟩
    · exact hx ▸ ⟨rfl,by simp⟩
  refine h.receiver ht rfl rfl (Or.inl rfl) h.right rfl (r2t_remove hy) hxc.2 ?_ ?_
  · intro r o hro
    have hro : x.r2t = some (r,o) := hro
    rcases hxr with hxr | hxr
    · exact h.answering r o (hy.trans (hxr.symm.trans hro))
    · rw [hxr] at hro
      cases hro
  · intro q hq
    have hq : x.completing = some q := hq
    rw [hxc.1] at hq
    cases hq

theorem dataOut (h : Registered s) {p : Pdu} {x : Receiver} (hp : s.nextDataOut = some p)
    (hx : x.r2t = s.receiver.r2t) (ht : Tagged { s.observe (.dataOut p) with receiver := x }) :
    Registered { s.observe (.dataOut p) with receiver := x } := by
  obtain ⟨r,data,off,n,hr,hitt,hdata⟩ := nextDataOut_data hp
  obtain ⟨k,hk,hwr⟩ := h.answering r _ hr
  have hpi : p.itt = r.itt := by
    have hlt := (h.tagged.taken r.itt (by rw [hk]; simp)).1
    rw [Pdu.itt,hitt]
    exact Nat.mod_eq_of_lt (by omega)
  refine h.receiver ht rfl rfl (Or.inr ⟨_,rfl,rfl⟩) (h.right.snoc (fun q he => ?_)) rfl
    (r2t_remove hr) (r2t_remove (hx.trans hr)) ?_ ?_
  · cases he
    exact ⟨k,data,off,n,by rw [hpi,h.tagged.outstanding,hk]; rfl,hwr data rfl,hdata⟩
  · intro r' o hro
    exact h.answering r' o (hx.symm.trans hro)
  · intro q hq
    have hq : x.completing = some q := hq
    rw [r2t_completing (hx.trans hr)] at hq
    cases hq

end Registered

theorem registered_step {s t : Session} {l : Label} (h : Registered s)
    (hok : WriteCompliant s l ∧ Undisturbed s l) (hstep : SessionStep s l t) : Registered t := by
  have ht : Tagged t := by
    refine tagged_step h.tagged (fun p hp ha => ?_) hstep
    obtain ⟨k,hk,_⟩ := writeCompliant_receive h.tagged (hp ▸ hok.1) (by simp [Pdu.concerns,ha])
    exact ⟨k,hk⟩
  have hu := unsent_step hstep
  cases hstep with
  | wander l k c he he' =>
    refine h.call ht hu (Or.inl rfl) h.right rfl rfl (registering_setCall rfl ?_)
      (fun _ => Or.inl rfl)
    cases c <;> first | rfl | cases he'
  | claim k c half hk hb =>
    refine h.call ht hu (Or.inl rfl) h.right rfl rfl (registering_setCall rfl rfl) (fun i => ?_)
    by_cases hi : i = half.base+IttPool.freeBit (s.pool.slots half)
    · have hfree := h.tagged.claim_free hb
      have hclaim : s.claims (.advance k) = some (half.base+IttPool.freeBit (s.pool.slots half)) := by
        simp [claims,hk,hb]
      have hrec := hok.2.1
      rw [hclaim] at hrec
      rw [hi]
      exact Or.inr ⟨by rw [hfree]; rfl,by simp [hfree],fun j =>
        update_not_closing (f := s.slots) (x := .claimed k) (by simp),by simpa using hrec⟩
    · exact Or.inl (Function.update_of_ne hi _ _)
  | store k c itt hk =>
    have hs : s.slots itt = .claimed k := h.tagged.place k itt _ (by rw [hk]; rfl)
    refine h.call ht hu (Or.inl rfl) h.right rfl rfl (registering_setCall rfl rfl) (fun i => ?_)
    by_cases hi : i = itt
    · rw [hi]
      refine Or.inr ⟨by rw [hs]; rfl,by simp [hs],fun j =>
        update_not_closing (f := s.slots) (x := .ready k) (by simp),fun hx => ?_⟩
      rw [h.removing itt hx] at hs
      cases hs
    · exact Or.inl (Function.update_of_ne hi _ _)
  | number k w hk =>
    obtain ⟨hpool,hslots,hrec,_⟩ := takeNumber_tables s k w
    have hl : Aside s.log (s.takeNumber k w).log := by
      unfold takeNumber
      split
      · exact Or.inr ⟨_,rfl,rfl⟩
      · exact Or.inl rfl
    have hright : RightData (s.takeNumber k w).log := by
      unfold takeNumber
      split
      · exact h.right.snoc (fun _ hx => by cases hx)
      · exact h.right
    exact h.call ht hu hl hright hrec (congrArg IttPool.writeData hpool)
      (registering_setCall (congrArg (Function.update · k _) (takeNumber_calls s k w)) rfl)
      (fun i => Or.inl (congrFun hslots i))
  | stat k w cmdSn turn hk =>
    exact h.call ht hu (Or.inl rfl) h.right rfl rfl (registering_setCall rfl rfl)
      (fun _ => Or.inl rfl)
  | sentCommand k c itt p turn hk =>
    refine h.send hk ht hu rfl rfl rfl rfl ?_ ?_ rfl
    · intro i data hx
      cases hd : c.writeData with
      | some d =>
        rw [hd] at hx
        cases hx
        exact ⟨rfl,rfl⟩
      | none =>
        rw [hd] at hx
        cases hx
    · cases c.writeData <;> rfl
  | sentOther k w p turn hw hk =>
    exact h.call ht hu (Or.inr ⟨_,rfl,by simp [SessionEvent.tagless,hw]⟩)
      (h.right.snoc (fun _ hx => by cases hx)) rfl rfl (registering_setCall rfl rfl)
      (fun _ => Or.inl rfl)
  | register k itt data hk => exact h.register hk ht hu rfl rfl rfl rfl rfl
  | leave l k hk =>
    exact h.call ht hu (Or.inl rfl) h.right rfl rfl (registering_setCall rfl rfl)
      (fun _ => Or.inl rfl)
  | receive p hp => exact h.receive hp ht hok.1
  | accumulate p data hp =>
    refine h.quiet ht rfl rfl (Or.inl rfl) h.right rfl (by simp [hp]) ?_ ?_ ?_
    · intro i
      dsimp only
      split <;> simp
    · dsimp only
      split <;> rfl
    · intro q hx
      rw [hp]
      dsimp only at hx
      split at hx
      · rename_i hf
        cases hx
        exact if_pos hf
      · cases hx
  | takeData p hp =>
    exact h.quiet ht rfl rfl (Or.inl rfl) h.right rfl (by simp [hp]) (by simp) rfl
      (fun _ hx => by rw [hp]; exact hx)
  | takeSender p r hp hi =>
    exact h.quiet ht rfl rfl (Or.inl rfl) h.right rfl (by simp [hp]) (by simp) rfl
      (fun _ hx => by rw [hp]; exact hx)
  | deliver p r k hp hk =>
    exact h.quiet ht rfl rfl (Or.inr ⟨_,rfl,rfl⟩) (h.right.snoc (fun _ hx => by cases hx)) rfl
      (by simp [hp]) (by simp) rfl (fun _ hx => by rw [hp]; exact hx)
  | undelivered p r tx hp =>
    exact h.quiet ht rfl rfl (Or.inl rfl) h.right rfl (by simp [hp]) (by simp) rfl
      (fun _ hx => by rw [hp]; exact hx)
  | free p hp => exact h.free hp ht rfl rfl rfl rfl rfl
  | removeWriteData itt hp =>
    have hrem : s.removes .handle = some itt := by simp [removes,hp]
    have hall := hok.2.2
    rw [hrem] at hall
    refine h.remove hp (fun k hk => ?_) ht rfl rfl rfl rfl rfl
    simpa using List.all_eq_true.mp hall k hk
  | found r tries d hp hd => exact h.found hp hd ht
  | answer l x y hy hx => exact h.answer hy hx ht
  | dataOut p x hp hx => exact h.dataOut hp hx ht
  | pongNumber ttt hp =>
    exact h.quiet ht rfl rfl (Or.inl rfl) h.right rfl (by simp [hp]) (by simp) rfl
      (fun _ hx => by cases hx)
  | pongStat ttt cmdSn turn hp =>
    exact h.quiet ht rfl rfl (Or.inl rfl) h.right rfl (by simp [hp]) (by simp) rfl
      (fun _ hx => by cases hx)
  | pongSent ttt p turn hp =>
    exact h.quiet ht rfl rfl (Or.inr ⟨_,rfl,rfl⟩) (h.right.snoc (fun _ hx => by cases hx)) rfl
      (by simp [hp]) (by simp) rfl (fun _ hx => by cases hx)
  | stop l hp =>
    refine h.quiet ht rfl rfl (Or.inl rfl) h.right rfl (fun i hi => ?_) (by simp) rfl
      (fun _ hx => by cases hx)
    rw [hi] at hp
    cases hp

theorem registered_start (init stat : BitVec 32) (n : NegotiatedParams) :
    Registered (Session.start init stat n) where
  tagged := tagged_start init stat n
  unsent := fun _ _ => rfl
  entry := fun _ _ h => by cases h
  registering := fun _ _ _ h => by cases h
  answering := fun _ _ h => by cases h
  reading := fun _ _ h => by cases h
  removing := fun _ h => by cases h
  right := fun pre p post h => by simp [Session.start] at h

theorem Registered.removed {s t : Session} {l : Label} (h : Registered s) (hstep : SessionStep s l t)
    {i : Nat} {e : WriteData} (he : s.pool.writeData i = some e)
    (hne : t.pool.writeData i ≠ some e) : finals e.owner s.log ≠ [] := by
  obtain ⟨hh,_⟩ := h.entry i e he
  cases hstep with
  | register k itt data hk =>
    have hi : i = itt := by
      by_contra hi
      exact hne ((Function.update_of_ne hi _ _).trans he)
    subst hi
    obtain ⟨hheld,_,howner⟩ := h.registering k i data hk
    have hown := howner i e he
    rcases hh with hh | hh | hh
    · rcases hheld with hx | hx | hx
      · rw [hh] at hx
        cases hx
        exact absurd rfl hown
      · rw [hh] at hx
        cases hx
      · rw [h.removing i hx.1] at hh
        cases hh
    · rcases hheld with hx | hx | hx
      · rw [hh] at hx
        cases hx
      · rw [hh] at hx
        cases hx
        exact absurd rfl hown
      · rw [h.removing i hx.1] at hh
        cases hh
    · exact hh.2
  | removeWriteData itt hp =>
    have hi : i = itt := by
      by_contra hi
      exact hne ((Function.update_of_ne hi _ _).trans he)
    subst hi
    have hfree := h.removing i hp
    rcases hh with hh | hh | hh
    · rw [hfree] at hh
      cases hh
    · rw [hfree] at hh
      cases hh
    · exact hh.2
  | number k w hk =>
    obtain ⟨hpool,_⟩ := takeNumber_tables s k w
    exact absurd ((congrArg (fun p : IttPool => p.writeData i) hpool).trans he) hne
  | _ => exact absurd he hne

/-- In every undisturbed run R2Ts are answered with the right data, and write data stay
until the final answer to their owner. -/
theorem write_data_right {init stat : BitVec 32} {n : NegotiatedParams} {ls : List Label} {t : Session}
    (hm : Machine.Meets sessionStep (fun s l => WriteCompliant s l ∧ Undisturbed s l)
      (Session.start init stat n) ls)
    (hr : Machine.run sessionStep (Session.start init stat n) ls = some t) :
    RightData t.log ∧ ∀ l u i e, sessionStep t l = some u → t.pool.writeData i = some e →
      u.pool.writeData i ≠ some e → finals e.owner t.log ≠ [] := by
  have h : Registered t := Machine.invariant (I := Registered)
    (fun _ _ _ h hok hs => registered_step h hok (session_step hs)) (registered_start init stat n)
    hm hr
  exact ⟨h.right,fun l u i e hs he hne => h.removed (session_step hs) he hne⟩

def writeBlock (data : Bytes) : Command :=
  ⟨buildWrite 9 1,0,BitVec.ofNat 32 data.length,false,some data,none⟩

def scsiResponse (itt : BitVec 32) (status : UInt8) : Pdu where
  bhs := ((Bhs.syncRawFromFields { Bhs.newZeroed with
    opcode := .scsiResponse
    flags := 0x80
    itt := itt }).setRaw 3 [status] (Bhs.statusByte_fits status)).setRawU32 32 64 Bhs.maxCmdSn_fits
  ahs := none
  data := none

def readyToTransfer (itt ttt bufferOffset desiredLength : BitVec 32) : Pdu where
  bhs := ((((Bhs.syncRawFromFields { Bhs.newZeroed with
    opcode := .r2t
    flags := 0x80
    itt := itt }).setRawU32 20 ttt Bhs.ttt_fits).setRawU32 32 64 Bhs.maxCmdSn_fits).setRawU32 40
      bufferOffset Bhs.bufferOffset_fits).setRawU32 44 desiredLength Bhs.desiredLength_fits
  ahs := none
  data := none

def properWrite : List Label :=
  Label.prepare 0 (writeBlock [1,2]) ++ Label.transmit 0 ++
    [.advance 0,.receive (readyToTransfer 0 7 0 2),.handle,.handle,.handleSent,.handle,
      .receive (scsiResponse 0 0)] ++ List.replicate 5 .handle

theorem write_data_right_one_write :
    ∃ t, Machine.run sessionStep (Session.start 5 0 .defaults10g) properWrite = some t ∧
      t.log.length = 6 ∧ RightData t.log := by
  have hm : Machine.Meets sessionStep (fun s l => WriteCompliant s l ∧ Undisturbed s l)
      (Session.start 5 0 .defaults10g) properWrite := Machine.meets_of_check (by decide)
  exact ⟨_,rfl,rfl,(write_data_right hm rfl).1⟩

/-- Call 0 is answered before it registers; then call 1 has the tag. -/
def lateRegistration : List Label :=
  Label.prepare 0 (writeBlock [1,2]) ++ Label.transmit 0 ++ .receive (scsiResponse 0 2) ::
    List.replicate 5 .handle ++ .advance 0 :: Label.prepare 1 (writeBlock [3,4]) ++
    Label.transmit 1 ++ [.receive (readyToTransfer 0 7 0 2),.handle,.handle,.handleSent]

/-- Call 1 has the tag and registers before the receiver removes the data of call 0. -/
def lateRemoval : List Label :=
  Label.prepare 0 (writeBlock [1,2]) ++ Label.transmit 0 ++
    [.advance 0,.receive (scsiResponse 0 0),.handle,.handle,.handle,.handle] ++
    Label.prepare 1 (writeBlock [3,4]) ++ Label.transmit 1 ++ [.advance 1]

/-- Call 1 is answered with the data of call 0; the data of call 1 are gone before it is
answered. -/
theorem write_data_mixed_up :
    (∃ t, Machine.Meets sessionStep WriteCompliant (Session.start 5 0 .defaults10g) lateRegistration ∧
      Machine.run sessionStep (Session.start 5 0 .defaults10g) lateRegistration = some t ∧
      ¬ RightData t.log) ∧
    ∃ t u, Machine.Meets sessionStep WriteCompliant (Session.start 5 0 .defaults10g) lateRemoval ∧
      Machine.run sessionStep (Session.start 5 0 .defaults10g) lateRemoval = some t ∧
      sessionStep t .handle = some u ∧ t.pool.writeData 0 = some ⟨1,[3,4]⟩ ∧
      u.pool.writeData 0 = none ∧ finals 1 t.log = [] := by
  refine ⟨⟨_,Machine.meets_of_check (by decide),rfl,fun h => ?_⟩,
    ⟨_,_,Machine.meets_of_check (by decide),rfl,rfl,rfl,rfl,rfl⟩⟩
  obtain ⟨k,data,off,n,hk,⟨c,hc,hd⟩,hp⟩ := h [.took 0,.sent _ _ _,.received _ _,.delivered _ _,.took 1,
    .sent _ _ _,.received _ _] _ _ rfl
  have hk : 1 = k := Option.some.inj hk
  subst hk
  have hc : writeBlock [3,4] = c := Option.some.inj hc
  subst hc
  have hd : [3,4] = data := Option.some.inj hd
  have hp : [1,2] = data.window off n := Option.some.inj hp
  have hmem : (1 : UInt8) ∈ Bytes.window [3,4] off n := by
    rw [hd,← hp]
    simp
  exact absurd (List.mem_of_mem_drop (List.mem_of_mem_take hmem)) (by decide)

end IscsiFuse.Iscsi
