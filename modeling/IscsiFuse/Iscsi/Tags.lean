import IscsiFuse.Iscsi.SessionSteps
set_option autoImplicit false

namespace IscsiFuse.Iscsi
open Session

/-- The call whose SCSI Command with this tag is on the wire and has no final
answer yet. -/
def outstanding (log : List SessionEvent) (itt : Nat) : Option Nat :=
  log.foldl (fun x e => match e with
    | .sent (some k) (.command _ _) p => if p.itt = itt then some k else x
    | .received _ p => if p.itt = itt ∧ p.isFinal then none else x
    | _ => x) none

def Pdu.answers (p : Pdu) : Bool := p.bhs.opcode = .scsiResponse || p.bhs.opcode = .scsiDataIn

def Slot.holder : Slot → Option Nat
  | .free => none
  | .claimed k | .ready k | .opened k | .closing k => some k

def Call.place (k : Nat) : Call → Option (Nat × Slot)
  | .store _ itt => some (itt,.claimed k)
  | .numbering (.command _ itt) _ => some (itt,.ready k)
  | _ => none

def Receiver.completing : Receiver → Option Pdu
  | .accumulate p _ => if p.bhs.statusFlag then some p else none
  | .takeData p | .takeSender p _ | .deliver p _ _ | .free p => some p
  | _ => none

structure Tagged (s : Session) : Prop where
  outstanding : ∀ i, outstanding s.log i = (s.slots i).opener
  taken : ∀ i, s.slots i ≠ .free → i < 128 ∧ s.pool.inUse i = true
  unique : ∀ i j k, (s.slots i).holder = some k → (s.slots j).holder = some k → i = j
  early : ∀ i k, (s.slots i).holder = some k → (s.calls k).early = false
  place : ∀ k i x, (s.calls k).place k = some (i,x) → s.slots i = x
  header : ∀ k c i p turn, s.calls k = .numbering (.command c i) (.send p turn) → p.itt = i
  completing : ∀ p, s.receiver.completing = some p → ∃ k, s.slots p.itt = .closing k
  closing : ∀ i k, s.slots i = .closing k → ∃ p, s.receiver.completing = some p ∧ p.itt = i

theorem outstanding_snoc (log : List SessionEvent) (e : SessionEvent) (i : Nat) :
    outstanding (log ++ [e]) i = match e with
      | .sent (some k) (.command _ _) p => if p.itt = i then some k else outstanding log i
      | .received _ p => if p.itt = i ∧ p.isFinal then none else outstanding log i
      | _ => outstanding log i := by
  rw [outstanding,List.foldl_append]
  rfl

theorem place_holder {k i : Nat} {c : Call} {x : Slot} (h : c.place k = some (i,x)) :
    x.holder = some k := by
  unfold Call.place at h
  split at h <;> cases h <;> rfl

theorem place_not_closing {k i j : Nat} {c : Call} : c.place k ≠ some (i,.closing j) := by
  unfold Call.place
  split <;> simp

theorem early_place {k : Nat} {c : Call} (h : c.early = true) : c.place k = none := by
  cases c with
  | numbering w n =>
    cases w with
    | command c itt => cases n <;> cases h
    | _ => rfl
  | store c itt => cases h
  | _ => rfl

theorem opener_holder {x : Slot} {k : Nat} (h : x.opener = some k) : x = .opened k := by
  cases x <;> cases h
  rfl

theorem r2t_completing {x : Receiver} {y : R2t × Option Bytes} (h : x.r2t = some y) :
    x.completing = none := by
  cases x <;> first | rfl | cases h

theorem dispatch_completing (p : Pdu) :
    (Receiver.dispatch p).completing = if p.isFinal then some p else none := by
  unfold Receiver.dispatch Pdu.isFinal
  cases p.bhs.opcode with
  | scsiDataIn =>
    cases p.data with
    | some data => cases hf : p.bhs.statusFlag <;> simp [Receiver.completing,hf]
    | none => cases p.bhs.statusFlag <;> rfl
  | nopIn =>
    show (if p.bhs.ttt ≠ 0xFFFFFFFF then Receiver.pong p.bhs.ttt .number else .idle).completing = none
    split <;> rfl
  | _ => rfl

theorem answers_of_isFinal {p : Pdu} (h : p.isFinal = true) : p.answers = true := by
  unfold Pdu.isFinal at h
  rw [Bool.or_eq_true,Bool.and_eq_true] at h
  exact (Bool.or_eq_true _ _).mpr (h.imp id And.left)

theorem place_not_opened {k i j : Nat} {c : Call} : c.place k ≠ some (i,.opened j) := by
  unfold Call.place
  split <;> simp

theorem closeSlot_cases (s : Session) (p : Pdu) (j : Nat) :
    (∃ k, j = p.itt ∧ p.isFinal = true ∧ s.slots j = .opened k ∧ s.closeSlot p j = .closing k) ∨
      (s.closeSlot p j = s.slots j ∧ (j = p.itt → p.isFinal = true → (s.slots j).opener = none)) := by
  unfold closeSlot
  cases hk : (s.slots p.itt).opener with
  | none => exact Or.inr ⟨rfl,fun hx _ => hx ▸ hk⟩
  | some k =>
    simp only
    split
    · rename_i hf
      by_cases hj : j = p.itt
      · subst hj
        exact Or.inl ⟨k,rfl,hf,opener_holder hk,Function.update_self _ _ _⟩
      · exact Or.inr ⟨Function.update_of_ne hj _ _,fun hx => absurd hx hj⟩
    · rename_i hf
      exact Or.inr ⟨rfl,fun _ hx => absurd hx hf⟩

theorem Sender.pdu_itt {c : Command} {itt : Nat} (h : itt < 128) (cmdSn expStatSn : BitVec 32) :
    ((Sender.command c itt).pdu cmdSn expStatSn).itt = itt := by
  have hb : (BitVec.ofNat 32 itt).toNat = itt := Nat.mod_eq_of_lt (by omega)
  simp only [pdu,Pdu.itt]
  cases c.immediateData <;> exact hb

namespace Tagged

variable {s t : Session}

theorem place_of_sent (h : Tagged s) {i k : Nat}
    (hi : s.slots i = .opened k ∨ s.slots i = .closing k) : (s.calls k).place k = none := by
  cases hp : (s.calls k).place k with
  | none => rfl
  | some y =>
    obtain ⟨j,x⟩ := y
    have hx := h.place k j x hp
    have hj : (s.slots j).holder = some k := by
      rw [hx]
      exact place_holder hp
    have hk : (s.slots i).holder = some k := by rcases hi with hi | hi <;> rw [hi] <;> rfl
    rw [h.unique j i k hj hk] at hx
    rw [← hx] at hp
    rcases hi with hi | hi <;> rw [hi] at hp
    · exact absurd hp place_not_opened
    · exact absurd hp place_not_closing

theorem claim_free (h : Tagged s) {half : Half} (hb : IttPool.freeBit (s.pool.slots half) < 64) :
    s.slots (half.base+IttPool.freeBit (s.pool.slots half)) = .free := by
  have hbit : s.pool.inUse (half.base+IttPool.freeBit (s.pool.slots half)) = false := by
    rw [IttPool.inUse_half _ hb]
    exact IttPool.freeBit_clear hb
  by_contra hne
  rw [(h.taken _ hne).2] at hbit
  cases hbit

theorem mayStop_completing (h : Tagged s) (hp : s.receiver.mayStop = true) :
    s.receiver.completing = none := by
  cases hr : s.receiver with
  | takeSender p r =>
    obtain ⟨k,hk⟩ := h.completing p (by rw [hr]; rfl)
    have hi := (h.taken p.itt (by rw [hk]; simp)).1
    rw [hr] at hp
    exact absurd hi (by simpa [Receiver.mayStop] using hp)
  | accumulate p data | takeData p | deliver p r tx | free p =>
    rw [hr] at hp
    cases hp
  | _ => rfl

def Follows (k : Nat) (c c' : Call) : Prop :=
  c' = c ∨ ((c'.early = true → c.early = true) ∧ (c'.place k = none ∨ c'.place k = c.place k) ∧
    ∀ c i p turn, c' = .numbering (.command c i) (.send p turn) → p.itt = i)

theorem follows_setCall {k : Nat} {c : Call} (ht : t.calls = Function.update s.calls k c)
    (h : Follows k (s.calls k) c) (j : Nat) : Follows j (s.calls j) (t.calls j) := by
  rw [ht]
  by_cases hj : j = k
  · subst hj
    rw [Function.update_self]
    exact h
  · rw [Function.update_of_ne hj]
    exact Or.inl rfl

theorem follows_same (ht : t.calls = s.calls) (j : Nat) : Follows j (s.calls j) (t.calls j) := by
  rw [ht]
  exact Or.inl rfl

theorem follows_numbering {k : Nat} {w : Sender} {n n' : Numbering} (hn : n' ≠ .number)
    (hh : ∀ c i p turn, w = .command c i → n' = .send p turn → p.itt = i) :
    Follows k (.numbering w n) (.numbering w n') := by
  refine Or.inr ⟨fun he => ?_,Or.inr ?_,fun c i p turn hx => ?_⟩
  · cases n' with
    | number => exact absurd rfl hn
    | _ => cases w <;> cases he
  · cases w <;> rfl
  · cases hx
    exact hh c i p turn rfl rfl

theorem follows_past {k : Nat} {c c' : Call} (he : c'.early = false) (hp : c'.place k = none)
    (hn : ∀ w n, c' ≠ .numbering w n) : Follows k c c' := by
  refine Or.inr ⟨fun hx => ?_,Or.inl hp,fun c i p turn hx => absurd hx (hn _ _)⟩
  rw [he] at hx
  cases hx

theorem keep (h : Tagged s) (hl : ∀ i, IscsiFuse.Iscsi.outstanding t.log i =
      IscsiFuse.Iscsi.outstanding s.log i)
    (hs : t.slots = s.slots) (hp : t.pool.slots = s.pool.slots)
    (hc : ∀ k, Follows k (s.calls k) (t.calls k))
    (hr : t.receiver.completing = s.receiver.completing) : Tagged t where
  outstanding := fun i => by rw [hl,hs,h.outstanding]
  taken := fun i hi => by
    rw [hs] at hi
    rw [IttPool.inUse,hp]
    exact h.taken i hi
  unique := fun i j k hi hj => by
    rw [hs] at hi hj
    exact h.unique i j k hi hj
  early := fun i k hi => by
    rw [hs] at hi
    have he := h.early i k hi
    rcases hc k with hk | ⟨hk,_⟩
    · rw [hk,he]
    · cases hx : (t.calls k).early with
      | false => rfl
      | true => rw [hk hx] at he; cases he
  place := fun k i x hx => by
    rw [hs]
    rcases hc k with hk | ⟨_,hk | hk,_⟩
    · exact h.place k i x (hk ▸ hx)
    · rw [hk] at hx
      cases hx
    · exact h.place k i x (hk ▸ hx)
  header := fun k c i p turn hx => by
    rcases hc k with hk | ⟨_,_,hk⟩
    · exact h.header k c i p turn (hk ▸ hx)
    · exact hk c i p turn hx
  completing := fun p hx => by
    rw [hs]
    exact h.completing p (hr ▸ hx)
  closing := fun i k hx => by
    rw [hr]
    exact h.closing i k (hs ▸ hx)

theorem advance (h : Tagged s) {i k : Nat} {x : Slot} {c : Call}
    (hold : s.slots i = .free ∧ (s.calls k).early = true ∨
      (s.calls k).place k = some (i,s.slots i))
    (hx : x.holder = some k) (hxc : x ≠ .closing k) (hi : i < 128)
    (hs : t.slots = Function.update s.slots i x) (hc : t.calls = Function.update s.calls k c)
    (hr : t.receiver = s.receiver)
    (hb : ∀ j, j = i ∨ s.pool.inUse j = true → t.pool.inUse j = true)
    (he : c.early = false) (hp : c.place k = none ∨ c.place k = some (i,x))
    (hh : ∀ c' j p turn, c = .numbering (.command c' j) (.send p turn) → p.itt = j)
    (hl : ∀ j, IscsiFuse.Iscsi.outstanding t.log j =
      if j = i then x.opener else IscsiFuse.Iscsi.outstanding s.log j) : Tagged t := by
  have hsi : t.slots i = x := by rw [hs,Function.update_self]
  have hsj : ∀ j, j ≠ i → t.slots j = s.slots j := fun j hj => by rw [hs,Function.update_of_ne hj]
  have hck : t.calls k = c := by rw [hc,Function.update_self]
  have hcj : ∀ j, j ≠ k → t.calls j = s.calls j := fun j hj => by rw [hc,Function.update_of_ne hj]
  -- no other tag is held by the call, and the tag is held by no other call
  have hother : ∀ j, j ≠ i → (s.slots j).holder ≠ some k := by
    intro j hj hk
    rcases hold with ⟨_,hold⟩ | hold
    · rw [h.early j k hk] at hold
      cases hold
    · exact hj (h.unique j i k hk (place_holder hold))
  have hmine : ∀ k', (s.slots i).holder = some k' → k' = k := by
    intro k' hk'
    rcases hold with ⟨hold,_⟩ | hold
    · rw [hold] at hk'
      cases hk'
    · rw [place_holder hold] at hk'
      exact (Option.some.inj hk').symm
  have hopen : ∀ k', s.slots i ≠ .closing k' := by
    intro k' hk'
    rcases hold with ⟨hold,_⟩ | hold
    · rw [hold] at hk'
      cases hk'
    · rw [hk'] at hold
      exact place_not_closing hold
  refine ⟨?_,?_,?_,?_,?_,?_,?_,?_⟩
  · intro j
    rw [hl]
    by_cases hj : j = i
    · rw [if_pos hj,hj,hsi]
    · rw [if_neg hj,hsj j hj,h.outstanding]
  · intro j hj
    by_cases hji : j = i
    · exact ⟨hji ▸ hi,hb j (Or.inl hji)⟩
    · rw [hsj j hji] at hj
      exact ⟨(h.taken j hj).1,hb j (Or.inr (h.taken j hj).2)⟩
  · intro a b k' ha hb'
    by_cases hai : a = i
    · by_cases hbi : b = i
      · rw [hai,hbi]
      · rw [hai,hsi,hx] at ha
        rw [hsj b hbi,← ha] at hb'
        exact absurd hb' (hother b hbi)
    · rw [hsj a hai] at ha
      by_cases hbi : b = i
      · rw [hbi,hsi,hx] at hb'
        rw [← hb'] at ha
        exact absurd ha (hother a hai)
      · rw [hsj b hbi] at hb'
        exact h.unique a b k' ha hb'
  · intro j k' hj
    by_cases hji : j = i
    · rw [hji,hsi,hx] at hj
      cases hj
      rw [hck,he]
    · rw [hsj j hji] at hj
      have hk' : k' ≠ k := fun hk => hother j hji (hk ▸ hj)
      rw [hcj k' hk']
      exact h.early j k' hj
  · intro k' j y hy
    by_cases hk' : k' = k
    · subst hk'
      rw [hck] at hy
      rcases hp with hp | hp
      · rw [hp] at hy
        cases hy
      · rw [hp] at hy
        cases hy
        exact hsi
    · rw [hcj k' hk'] at hy
      have hyj := h.place k' j y hy
      have hji : j ≠ i := by
        intro hji
        subst hji
        exact hk' (hmine k' (by rw [hyj]; exact place_holder hy))
      rw [hsj j hji,hyj]
  · intro k' c' j p turn hk
    by_cases hk' : k' = k
    · rw [hk',hck] at hk
      exact hh c' j p turn hk
    · rw [hcj k' hk'] at hk
      exact h.header k' c' j p turn hk
  · intro p hpc
    obtain ⟨k',hk'⟩ := h.completing p (hr ▸ hpc)
    have hpi : p.itt ≠ i := fun hpi => hopen k' (hpi ▸ hk')
    exact ⟨k',by rw [hsj _ hpi,hk']⟩
  · intro j k' hj
    by_cases hji : j = i
    · rw [hji,hsi] at hj
      rw [hj] at hx
      cases hx
      exact absurd hj hxc
    · rw [hsj j hji] at hj
      rw [hr]
      exact h.closing j k' hj

theorem receive (h : Tagged s) (hr : s.receiver = .idle) {p : Pdu}
    (hp : p.answers = true → ∃ k, s.slots p.itt = .opened k) : Tagged (s.receive p) := by
  have hholder : ∀ j, (s.closeSlot p j).holder = (s.slots j).holder := by
    intro j
    rcases closeSlot_cases s p j with ⟨k,_,_,hj,hc⟩ | ⟨hc,_⟩
    · rw [hc,hj]
      rfl
    · rw [hc]
  refine ⟨?_,?_,?_,?_,?_,?_,?_,?_⟩
  · intro j
    show IscsiFuse.Iscsi.outstanding (s.log ++ [SessionEvent.received _ p]) j =
      (s.closeSlot p j).opener
    rw [outstanding_snoc]
    simp only
    rw [h.outstanding]
    rcases closeSlot_cases s p j with ⟨k,hj,hf,_,hc⟩ | ⟨hc,hn⟩
    · rw [if_pos ⟨hj.symm,hf⟩,hc]
      rfl
    · rw [hc]
      split
      · rename_i hx
        exact (hn hx.1.symm hx.2).symm
      · rfl
  · intro j hj
    refine h.taken j (fun hf => hj ?_)
    rcases closeSlot_cases s p j with ⟨k,_,_,hx,_⟩ | ⟨hc,_⟩
    · rw [hf] at hx
      cases hx
    · exact hc.trans hf
  · intro a b k ha hb
    exact h.unique a b k ((hholder a).symm.trans ha) ((hholder b).symm.trans hb)
  · intro j k hj
    exact h.early j k ((hholder j).symm.trans hj)
  · intro k j x hx
    have hj := h.place k j x hx
    rcases closeSlot_cases s p j with ⟨k',_,_,ho,_⟩ | ⟨hc,_⟩
    · rw [← hj,ho] at hx
      exact absurd hx place_not_opened
    · exact hc.trans hj
  · exact h.header
  · intro q hq
    have hd : (Receiver.dispatch p).completing = some q := hq
    rw [dispatch_completing] at hd
    split at hd
    · rename_i hf
      cases hd
      obtain ⟨k,hk⟩ := hp (answers_of_isFinal hf)
      rcases closeSlot_cases s p p.itt with ⟨k',_,_,_,hc⟩ | ⟨_,hn⟩
      · exact ⟨k',hc⟩
      · rw [hk] at hn
        cases hn rfl hf
    · cases hd
  · intro j k hj
    rcases closeSlot_cases s p j with ⟨k',hjp,hf,_,_⟩ | ⟨hc,_⟩
    · refine ⟨p,?_,hjp.symm⟩
      show (Receiver.dispatch p).completing = some p
      rw [dispatch_completing,if_pos hf]
    · obtain ⟨q,hq,_⟩ := h.closing j k (hc.symm.trans hj)
      rw [hr] at hq
      cases hq

theorem free (h : Tagged s) {p : Pdu} (hr : s.receiver = .free p)
    (hs : t.slots = Function.update s.slots p.itt .free) (hl : t.log = s.log)
    (hc : t.calls = s.calls) (hp : t.pool.slots = (s.pool.free p.itt).slots)
    (hx : t.receiver.completing = none) : Tagged t := by
  obtain ⟨k,hk⟩ := h.completing p (by rw [hr]; rfl)
  have hi : p.itt < 128 := (h.taken p.itt (by rw [hk]; simp)).1
  have hsj : ∀ j, j ≠ p.itt → t.slots j = s.slots j := fun j hj => by
    rw [hs,Function.update_of_ne hj]
  have hold : ∀ j k, (t.slots j).holder = some k → j ≠ p.itt ∧ (s.slots j).holder = some k := by
    intro j k' hj
    have hji : j ≠ p.itt := by
      intro hji
      rw [hji,hs,Function.update_self] at hj
      cases hj
    exact ⟨hji,hsj j hji ▸ hj⟩
  refine ⟨?_,?_,?_,?_,?_,?_,?_,?_⟩
  · intro j
    rw [hl,h.outstanding]
    by_cases hj : j = p.itt
    · rw [hj,hk,hs,Function.update_self]
      rfl
    · rw [hsj j hj]
  · intro j hj
    have hji : j ≠ p.itt := by
      intro hji
      rw [hji,hs,Function.update_self] at hj
      exact hj rfl
    rw [hsj j hji] at hj
    obtain ⟨hj128,hju⟩ := h.taken j hj
    refine ⟨hj128,?_⟩
    have hu := IttPool.free_inUse s.pool hi hj128
    rw [hju] at hu
    rw [IttPool.inUse,hp]
    simpa [IttPool.inUse,hji] using hu
  · intro a b k' ha hb
    exact h.unique a b k' (hold a k' ha).2 (hold b k' hb).2
  · intro j k' hj
    rw [hc]
    exact h.early j k' (hold j k' hj).2
  · intro k' j x hx
    have hj := h.place k' j x (hc ▸ hx)
    have hji : j ≠ p.itt := by
      intro hji
      rw [hji,hk] at hj
      exact place_not_closing (hj ▸ hc ▸ hx)
    rw [hsj j hji,hj]
  · intro k' c j q turn hq
    exact h.header k' c j q turn (hc ▸ hq)
  · intro q hq
    rw [hx] at hq
    cases hq
  · intro j k' hj
    obtain ⟨hji,_⟩ := hold j k' (by rw [hj]; rfl)
    obtain ⟨q,hq,hqj⟩ := h.closing j k' (hsj j hji ▸ hj)
    rw [hr] at hq
    cases hq
    exact absurd hqj.symm hji

end Tagged

theorem tagged_start (init stat : BitVec 32) (n : NegotiatedParams) :
    Tagged (Session.start init stat n) where
  outstanding := fun _ => rfl
  taken := fun _ h => absurd rfl h
  unique := fun _ _ _ h => by cases h
  early := fun _ _ h => by cases h
  place := fun _ _ _ h => by cases h
  header := fun _ _ _ _ _ h => by cases h
  completing := fun _ h => by cases h
  closing := fun _ _ h => by cases h

def SessionEvent.tagless : SessionEvent → Bool
  | .sent _ w _ => !w.isCommand
  | .received _ _ => false
  | _ => true

theorem outstanding_tagless {log : List SessionEvent} {e : SessionEvent} (h : e.tagless = true)
    (i : Nat) : outstanding (log ++ [e]) i = outstanding log i := by
  rw [outstanding_snoc]
  cases e with
  | sent k w p => cases w <;> cases k <;> first | rfl | cases h
  | received k p => cases h
  | _ => rfl

theorem tagged_step {s t : Session} {l : Label} (h : Tagged s)
    (hok : ∀ p, l = .receive p → p.answers = true → ∃ k, s.slots p.itt = .opened k)
    (hstep : SessionStep s l t) : Tagged t := by
  cases hstep with
  | wander l k c he he' =>
    refine h.keep (fun _ => rfl) rfl rfl (Tagged.follows_setCall rfl (Or.inr ⟨fun _ => he,
      Or.inl (early_place he'),?_⟩)) rfl
    intro c' i p turn hc
    rw [hc] at he'
    cases he'
  | claim k c half hk hb =>
    have hfree := h.claim_free hb
    refine h.advance (Or.inl ⟨hfree,by rw [hk]; rfl⟩) rfl (by simp) ?_ rfl rfl rfl ?_ rfl (Or.inr rfl)
      (by simp) ?_
    · cases half <;> simp only [Half.base] <;> omega
    · intro j hj
      have hu := IttPool.claim_inUse s.pool (h := half) hb j
      rcases hj with hj | hj <;> exact hu.trans (by simp [hj])
    · intro j
      split
      · rename_i hj
        exact (h.outstanding j).trans (by rw [hj,hfree]; rfl)
      · rfl
  | store k c itt hk =>
    have hs : s.slots itt = .claimed k := h.place k itt _ (by rw [hk]; rfl)
    have ht := h.taken itt (by rw [hs]; simp)
    refine h.advance (Or.inr (by rw [hk,hs]; rfl)) rfl (by simp) ht.1 rfl rfl rfl ?_ rfl
      (Or.inr rfl) (by simp) ?_
    · intro j hj
      rcases hj with hj | hj
      · exact hj ▸ ht.2
      · exact hj
    · intro j
      split
      · rename_i hj
        exact (h.outstanding j).trans (by rw [hj,hs]; rfl)
      · rfl
  | number k w hk =>
    have hf : Tagged.Follows k (s.calls k)
        (.numbering w (.stat s.state.cmdSn (takers s.log).length)) := by
      rw [hk]
      exact Tagged.follows_numbering (by simp) (by simp)
    unfold takeNumber
    split
    · exact h.keep (outstanding_tagless rfl) rfl rfl (Tagged.follows_setCall rfl hf) rfl
    · exact h.keep (fun _ => rfl) rfl rfl (Tagged.follows_setCall rfl hf) rfl
  | stat k w cmdSn turn hk =>
    refine h.keep (fun _ => rfl) rfl rfl (Tagged.follows_setCall rfl ?_) rfl
    rw [hk]
    refine Tagged.follows_numbering (by simp) (fun c i p turn' hw hx => ?_)
    subst hw
    cases hx
    have hs := h.place k i (.ready k) (by rw [hk]; rfl)
    exact Sender.pdu_itt (h.taken i (by rw [hs]; simp)).1 _ _
  | sentCommand k c itt p turn hk =>
    have hs : s.slots itt = .ready k := h.place k itt _ (by rw [hk]; rfl)
    have ht := h.taken itt (by rw [hs]; simp)
    have hp := h.header k c itt p turn hk
    refine h.advance (i := itt) (x := .opened k) (Or.inr (by rw [hk,hs]; rfl)) rfl (by simp) ht.1 rfl
      rfl rfl ?_ (by cases c.writeData <;> rfl) (by cases c.writeData <;> exact Or.inl rfl)
      (by cases c.writeData <;> simp) ?_
    · intro j hj
      rcases hj with hj | hj
      · exact hj ▸ ht.2
      · exact hj
    · intro j
      refine (outstanding_snoc _ _ j).trans ?_
      simp only [hp,Slot.opener]
      by_cases hj : j = itt
      · rw [if_pos hj.symm,if_pos hj]
      · rw [if_neg (fun hx => hj hx.symm),if_neg hj]
  | sentOther k w p turn hw hk =>
    refine h.keep (outstanding_tagless (by simp [SessionEvent.tagless,hw])) rfl rfl
      (Tagged.follows_setCall rfl (Tagged.follows_past rfl rfl (by simp))) rfl
  | register k itt data hk =>
    exact h.keep (fun _ => rfl) rfl rfl
      (Tagged.follows_setCall rfl (Tagged.follows_past rfl rfl (by simp))) rfl
  | leave l k hk =>
    exact h.keep (fun _ => rfl) rfl rfl
      (Tagged.follows_setCall rfl (Tagged.follows_past rfl rfl (by simp))) rfl
  | receive p hp => exact h.receive hp (hok p rfl)
  | accumulate p data hp =>
    refine h.keep (fun _ => rfl) rfl rfl (Tagged.follows_same rfl) ?_
    show (if p.bhs.statusFlag then Receiver.takeData p else .idle).completing = _
    rw [hp]
    cases hf : p.bhs.statusFlag <;> simp [Receiver.completing,hf]
  | takeData p hp => exact h.keep (fun _ => rfl) rfl rfl (Tagged.follows_same rfl) (by rw [hp]; rfl)
  | takeSender p r hp hi =>
    exact h.keep (fun _ => rfl) rfl rfl (Tagged.follows_same rfl) (by rw [hp]; rfl)
  | deliver p r k hp hk =>
    exact h.keep (outstanding_tagless rfl) rfl rfl (Tagged.follows_same rfl) (by rw [hp]; rfl)
  | undelivered p r tx hp =>
    exact h.keep (fun _ => rfl) rfl rfl (Tagged.follows_same rfl) (by rw [hp]; rfl)
  | free p hp => exact h.free hp rfl rfl rfl rfl (by dsimp only; split <;> rfl)
  | removeWriteData itt hp =>
    exact h.keep (fun _ => rfl) rfl rfl (Tagged.follows_same rfl) (by rw [hp]; rfl)
  | found r tries d hp hd =>
    exact h.keep (fun _ => rfl) rfl rfl (Tagged.follows_same rfl) (by rw [hp]; rfl)
  | answer l x y hy hx =>
    refine h.keep (fun _ => rfl) rfl rfl (Tagged.follows_same rfl) ?_
    rw [r2t_completing hy]
    rcases hx with hx | hx | hx
    · exact r2t_completing hx
    · exact hx ▸ rfl
    · exact hx ▸ rfl
  | dataOut p x hp hx =>
    obtain ⟨y,hy⟩ := nextDataOut_r2t hp
    refine h.keep (outstanding_tagless rfl) rfl rfl (Tagged.follows_same rfl) ?_
    rw [r2t_completing hy]
    exact r2t_completing (hx.trans hy)
  | pongNumber ttt hp =>
    exact h.keep (fun _ => rfl) rfl rfl (Tagged.follows_same rfl) (by rw [hp]; rfl)
  | pongStat ttt cmdSn turn hp =>
    exact h.keep (fun _ => rfl) rfl rfl (Tagged.follows_same rfl) (by rw [hp]; rfl)
  | pongSent ttt p turn hp =>
    exact h.keep (outstanding_tagless rfl) rfl rfl (Tagged.follows_same rfl) (by rw [hp]; rfl)
  | stop l hp =>
    exact h.keep (fun _ => rfl) rfl rfl (Tagged.follows_same rfl) (h.mayStop_completing hp).symm

end IscsiFuse.Iscsi
