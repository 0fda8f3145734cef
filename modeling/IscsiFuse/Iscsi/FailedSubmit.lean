import IscsiFuse.Iscsi.SessionSteps
import Mathlib.Data.Finset.Card
set_option autoImplicit false

namespace IscsiFuse.Iscsi
open Machine Session

structure IttPool.Claimed (itt : Nat) (p q : IttPool) : Prop where
  tag : itt < 128
  free : p.inUse itt = false
  inUse : ∀ i < 128, q.inUse i = (p.inUse i || decide (i = itt))

theorem IttPool.claimed_claim {p : IttPool} {h : Half} (hb : freeBit (p.slots h) < 64) :
    Claimed (h.base+freeBit (p.slots h)) p (p.claim h (freeBit (p.slots h))) where
  tag := tag_lt hb
  free := by rw [inUse_half p hb,freeBit_clear hb]
  inUse := fun i _ => claim_inUse p hb i

def IttPool.Full (p : IttPool) : Prop := ∀ i < 128, p.inUse i = true

/-- How many tags are free. -/
def IttPool.freeCount (p : IttPool) : Nat :=
  ((Finset.range 128).filter (fun i => p.inUse i = false)).card

theorem IttPool.freeCount_eq_zero {p : IttPool} : p.freeCount = 0 ↔ p.Full := by
  rw [freeCount,Finset.card_eq_zero,Finset.filter_eq_empty_iff]
  simp only [Finset.mem_range,Full,Bool.not_eq_false]

theorem IttPool.Claimed.freeCount {itt : Nat} {p q : IttPool} (h : Claimed itt p q) :
    q.freeCount+1 = p.freeCount := by
  have he : (Finset.range 128).filter (fun i => q.inUse i = false) =
      ((Finset.range 128).filter (fun i => p.inUse i = false)).erase itt := by
    ext i
    simp only [Finset.mem_filter,Finset.mem_erase,Finset.mem_range]
    constructor
    · intro ⟨hi,hq⟩
      rw [h.inUse i hi,Bool.or_eq_false_iff,decide_eq_false_iff_not] at hq
      exact ⟨hq.2,hi,hq.1⟩
    · intro ⟨hne,hi,hp⟩
      exact ⟨hi,by rw [h.inUse i hi,hp,decide_eq_false hne]; rfl⟩
  rw [IttPool.freeCount,he]
  exact Finset.card_erase_add_one (Finset.mem_filter.mpr ⟨Finset.mem_range.mpr h.tag,h.free⟩)

def Label.Own (k : Nat) (l : Label) : Prop := l = .advance k ∨ l = .casFailed k

theorem Label.Own.call {k : Nat} {l : Label} (h : l.Own k) : l.call = some k := by
  rcases h with rfl | rfl <;> rfl

def Works (k : Nat) (s t : Session) : Prop := Reaches sessionStep (Label.Own k) s t

/-- Call `k` submits a command, and its send fails. Nothing else happens. -/
def FailedSubmission (k : Nat) (c : Command) (s t : Session) : Prop :=
  ∃ u v, sessionStep s (.submit k c) = some u ∧ Works k u v ∧ sessionStep v (.sendFailed k) = some t

/-- Allocated tags, senders and CmdSN are as before. -/
structure LeaksNothing (s t : Session) : Prop where
  inUse : ∀ i < 128, t.pool.inUse i = s.pool.inUse i
  completions : t.pool.completions = s.pool.completions
  cmdSn : t.state.cmdSn = s.state.cmdSn

/-- A tag stays allocated, with the sender of the call, and a CmdSN is gone. -/
structure Leaks (k itt : Nat) (s t : Session) : Prop where
  claimed : IttPool.Claimed itt s.pool t.pool
  completions : t.pool.completions = Function.update s.pool.completions itt (some k)
  state : t.state = { s.state with cmdSn := s.state.cmdSn+1 }
  calls : ∀ j, j ≠ k → t.calls j = s.calls j

theorem Leaks.something {k itt : Nat} {s t : Session} (h : Leaks k itt s t) :
    ¬ LeaksNothing s t := by
  intro hn
  have hi := h.claimed.inUse itt h.claimed.tag
  rw [hn.inUse itt h.claimed.tag,h.claimed.free] at hi
  simp at hi

section Attempt

variable {s u v : Session} {k : Nat}

def Attempt (s u : Session) (k : Nat) : Call → Prop
  | .window _ | .inWindow _ _ | .load _ _ | .cas _ _ _ => u.pool = s.pool ∧ u.state = s.state
  | .store _ itt => IttPool.Claimed itt s.pool u.pool ∧
      u.pool.completions = s.pool.completions ∧ u.state = s.state
  | .numbering (.command _ itt) .number => IttPool.Claimed itt s.pool u.pool ∧
      u.pool.completions = Function.update s.pool.completions itt (some k) ∧ u.state = s.state
  | .numbering (.command _ itt) _ => IttPool.Claimed itt s.pool u.pool ∧
      u.pool.completions = Function.update s.pool.completions itt (some k) ∧
      u.state = { s.state with cmdSn := s.state.cmdSn+1 }
  | _ => False

theorem attempt_advance (ha : Attempt s u k (u.calls k)) (h : u.advance k = some v) :
    Attempt s v k (v.calls k) := by
  unfold Session.advance at h
  split at h
  · rename_i c hc
    rw [hc] at ha
    cases h
    rw [setCall_self]
    exact ha
  · rename_i c cmdSn hc
    rw [hc] at ha
    cases h
    rw [setCall_self]
    split <;> exact ha
  · rename_i c half hc
    rw [hc] at ha
    cases h
    rw [setCall_self]
    exact ha
  · rename_i c half current hc
    rw [hc] at ha
    simp only at h
    split at h
    · rename_i hb
      split at h
      · rename_i hcur
        cases h
        subst hcur
        rw [setCall_self]
        refine ⟨?_,?_,ha.2⟩
        · show IttPool.Claimed _ s.pool (u.pool.claim half _)
          rw [ha.1] at hb ⊢
          exact IttPool.claimed_claim hb
        · show u.pool.completions = _
          rw [ha.1]
      · cases h
        rw [setCall_self]
        exact ha
    · cases h
      rw [setCall_self]
      exact ha
  · rename_i c itt hc
    rw [hc] at ha
    obtain ⟨hp,hs,hst⟩ := ha
    cases h
    rw [setCall_self]
    refine ⟨⟨hp.tag,hp.free,hp.inUse⟩,?_,hst⟩
    show Function.update u.pool.completions itt (some k) = _
    rw [hs]
  · rename_i w hc
    rw [hc] at ha
    cases w with
    | command c itt =>
      obtain ⟨hp,hs,hst⟩ := ha
      cases h
      rw [setCall_self]
      refine ⟨hp,hs,?_⟩
      show { u.state with cmdSn := u.state.cmdSn+1 } = _
      rw [hst]
    | _ => exact ha.elim
  · rename_i w cmdSn turn hc
    rw [hc] at ha
    cases h
    rw [setCall_self]
    cases w with
    | command c itt => exact ha
    | _ => exact ha.elim
  · rename_i itt data hc
    rw [hc] at ha
    exact ha.elim
  · cases h

theorem attempt_casFailed (ha : Attempt s u k (u.calls k))
    (h : sessionStep u (.casFailed k) = some v) : Attempt s v k (v.calls k) := by
  simp only [sessionStep] at h
  split at h
  · rename_i c half current hc
    rw [hc] at ha
    split at h <;> cases h
    rw [setCall_self]
    exact ha
  · cases h

theorem works_calls {j : Nat} (hw : Works k u v) (hj : j ≠ k) : v.calls j = u.calls j :=
  hw.keeps (I := fun v : Session => v.calls j = u.calls j)
    (fun s l t hs ho h => (step_calls h (by rw [ho.call]; simpa using hj.symm)).trans hs) rfl

theorem works_attempt (ha : Attempt s u k (u.calls k)) (hw : Works k u v) :
    Attempt s v k (v.calls k) := by
  refine hw.keeps (I := fun v : Session => Attempt s v k (v.calls k)) (fun u l v ha ho h => ?_) ha
  rcases ho with rfl | rfl
  · exact attempt_advance ha h
  · exact attempt_casFailed ha h

theorem submit_eq_some {c : Command} (h : sessionStep s (.submit k c) = some u) :
    s.calls k = .idle ∧ u = s.setCall k (.window c) := by
  simp only [sessionStep] at h
  split at h
  · rename_i hi
    exact ⟨hi,(Option.some.inj h).symm⟩
  · cases h

theorem FailedSubmission.leaks {c : Command} {t : Session} (h : FailedSubmission k c s t) :
    ∃ itt, Leaks k itt s t := by
  obtain ⟨u,v,hs,hw,hf⟩ := h
  obtain ⟨hi,rfl⟩ := submit_eq_some hs
  have ha := works_attempt (s := s) (by rw [setCall_self]; exact ⟨rfl,rfl⟩) hw
  simp only [sessionStep] at hf
  split at hf
  · rename_i w p turn hc
    rw [hc] at ha
    cases hf
    cases w with
    | command c' itt =>
      obtain ⟨hp,hcs,hst⟩ := ha
      refine ⟨itt,hp,hcs,hst,fun j hj => ?_⟩
      rw [setCall_other hj,works_calls hw hj,setCall_other hj]
    | _ => exact ha.elim
  · cases hf

theorem works_advance (h : u.advance k = some v) (hw : Works k s u) : Works k s v :=
  hw.snoc (Or.inl rfl) h

theorem works_load {c : Command} (hk : s.calls k = .window c)
    (hw : serialLe s.state.cmdSn s.state.maxCmdSn = true) :
    ∃ u, Works k s u ∧ u.calls k = .load c .lo ∧ u.pool = s.pool := by
  have h₁ : s.advance k = some (s.setCall k (.inWindow c s.state.cmdSn)) := by
    rw [Session.advance,hk]
  refine ⟨_,works_advance (v := (s.setCall k (.inWindow c s.state.cmdSn)).setCall k (.load c .lo))
    ?_ (works_advance h₁ .refl),setCall_self _ _ _,rfl⟩
  rw [Session.advance,setCall_self]
  exact congrArg (fun x => some (setCall _ k x)) (if_pos hw)

theorem works_claim {c : Command} {half : Half} (hs : Works k s u) (hk : u.calls k = .load c half)
    (hb : IttPool.freeBit (u.pool.slots half) < 64) :
    ∃ v itt, Works k s v ∧ v.calls k = .store c itt := by
  have h₁ : u.advance k = some (u.setCall k (.cas c half (u.pool.slots half))) := by
    rw [Session.advance,hk]
  have h₂ : ∃ v itt, (u.setCall k (.cas c half (u.pool.slots half))).advance k = some v ∧
      v.calls k = .store c itt := by
    rw [Session.advance,setCall_self]
    exact ⟨_,_,(if_pos hb).trans (if_pos rfl),setCall_self _ _ _⟩
  obtain ⟨v,itt,h₂,hv⟩ := h₂
  exact ⟨v,itt,works_advance h₂ (works_advance h₁ hs),hv⟩

theorem works_other {c : Command} (hs : Works k s u) (hk : u.calls k = .load c .lo)
    (hb : ¬ IttPool.freeBit (u.pool.slots .lo) < 64) :
    ∃ v, Works k s v ∧ v.calls k = .load c .hi ∧ v.pool = u.pool := by
  have h₁ : u.advance k = some (u.setCall k (.cas c .lo (u.pool.slots .lo))) := by
    rw [Session.advance,hk]
  have h₂ : (u.setCall k (.cas c .lo (u.pool.slots .lo))).advance k =
      some ((u.setCall k (.cas c .lo (u.pool.slots .lo))).setCall k (.load c .hi)) := by
    rw [Session.advance,setCall_self]
    exact if_neg hb
  exact ⟨_,works_advance h₂ (works_advance h₁ hs),setCall_self _ _ _,rfl⟩

theorem advance_store {c : Command} {itt : Nat} (hk : u.calls k = .store c itt) :
    ∃ v, u.advance k = some v ∧ v.calls k = .numbering (.command c itt) .number := by
  rw [Session.advance,hk]
  exact ⟨_,rfl,setCall_self _ _ _⟩

theorem advance_number {w : Sender} (hk : u.calls k = .numbering w .number) :
    ∃ v cmdSn turn, u.advance k = some v ∧ v.calls k = .numbering w (.stat cmdSn turn) := by
  rw [Session.advance,hk]
  exact ⟨_,_,_,rfl,setCall_self _ _ _⟩

theorem advance_stat {w : Sender} {cmdSn : BitVec 32} {turn : Nat}
    (hk : u.calls k = .numbering w (.stat cmdSn turn)) :
    ∃ v p, u.advance k = some v ∧ v.calls k = .numbering w (.send p turn) := by
  rw [Session.advance,hk]
  exact ⟨_,_,rfl,setCall_self _ _ _⟩

theorem works_send {c : Command} {itt : Nat} (hs : Works k s u) (hk : u.calls k = .store c itt) :
    ∃ v w p turn, Works k s v ∧ v.calls k = .numbering w (.send p turn) := by
  obtain ⟨v,hv,hkv⟩ := advance_store hk
  obtain ⟨x,cmdSn,turn,hx,hkx⟩ := advance_number hkv
  obtain ⟨y,p,hy,hky⟩ := advance_stat hkx
  exact ⟨y,_,p,turn,works_advance hy (works_advance hx (works_advance hv hs)),hky⟩

theorem failedSubmission_exists {c : Command} (hk : s.calls k = .idle)
    (hw : serialLe s.state.cmdSn s.state.maxCmdSn = true)
    (hf : ∃ i < 128, s.pool.inUse i = false) : ∃ t, FailedSubmission k c s t := by
  have hs : sessionStep s (.submit k c) = some (s.setCall k (.window c)) := if_pos hk
  obtain ⟨u,hwu,hu,hp⟩ := works_load (setCall_self s k (.window c)) hw
  have hstore : ∃ v itt, Works k (s.setCall k (.window c)) v ∧ v.calls k = .store c itt := by
    by_cases hlo : IttPool.freeBit (u.pool.slots .lo) < 64
    · exact works_claim hwu hu hlo
    · obtain ⟨v,hwv,hv,hpv⟩ := works_other hwu hu hlo
      refine works_claim hwv hv ?_
      obtain ⟨i,hi,hfi⟩ := hf
      rw [hp] at hlo
      rw [hpv,hp]
      refine IttPool.freeBit_slots.mpr ⟨i,hi,?_,hfi⟩
      cases hh : halfOf i with
      | lo => exact absurd (IttPool.freeBit_slots.mpr ⟨i,hi,hh,hfi⟩) hlo
      | hi => rfl
  obtain ⟨v,itt,hwv,hv⟩ := hstore
  obtain ⟨x,w,p,turn,hwx,hx⟩ := works_send hwv hv
  refine ⟨x.setCall k .finished,_,x,hs,hwx,?_⟩
  simp only [sessionStep,hx]

end Attempt

/-- `n` submissions fail one after the other. -/
inductive Failures (s : Session) : Nat → Session → Prop
  | start : Failures s 0 s
  | more {n k : Nat} {c : Command} {t u : Session} : Failures s n t → FailedSubmission k c t u →
      Failures s (n+1) u

namespace Failures

variable {s t : Session} {n : Nat}

theorem freeCount (h : Failures s n t) : t.pool.freeCount+n = s.pool.freeCount := by
  induction h with
  | start => rfl
  | more _ hf ih =>
    obtain ⟨itt,hl⟩ := hf.leaks
    have hc := hl.claimed.freeCount
    omega

theorem state (h : Failures s n t) :
    t.state = { s.state with cmdSn := s.state.cmdSn+.ofNat 32 n } := by
  induction h with
  | start => simp
  | more _ hf ih =>
    obtain ⟨itt,hl⟩ := hf.leaks
    rw [hl.state,ih,BitVec.ofNat_add,← BitVec.add_assoc]
    rfl

theorem exists_of_open {k : Nat} (hn : n ≤ s.pool.freeCount)
    (hk : ∀ i < n, s.calls (k+i) = .idle)
    (hw : ∀ i < n, serialLe (s.state.cmdSn+.ofNat 32 i) s.state.maxCmdSn = true) :
    ∃ t, Failures s n t ∧ ∀ j, k+n ≤ j → t.calls j = s.calls j := by
  induction n with
  | zero => exact ⟨s,.start,fun _ _ => rfl⟩
  | succ n ih =>
    obtain ⟨t,ht,hc⟩ := ih (by omega) (fun i hi => hk i (by omega)) (fun i hi => hw i (by omega))
    have hcount := ht.freeCount
    have hfree : ∃ i < 128, t.pool.inUse i = false := by
      by_contra hno
      have hfull : t.pool.Full := by
        intro i hi
        by_contra hu
        exact hno ⟨i,hi,by simpa using hu⟩
      rw [IttPool.freeCount_eq_zero.mpr hfull] at hcount
      omega
    obtain ⟨u,hu⟩ := failedSubmission_exists (c := readBlock 0) (k := k+n)
      ((hc _ (Nat.le_refl _)).trans (hk n (by omega))) (by rw [ht.state]; exact hw n (by omega)) hfree
    obtain ⟨itt,hl⟩ := hu.leaks
    refine ⟨u,ht.more hu,fun j hj => ?_⟩
    rw [hl.calls j (by omega),hc j (by omega)]

end Failures

section Stuck

variable {s t : Session} {l : Label} {j : Nat}

/-- The call is in one of the two loops that come before a tag is taken. -/
def Call.seeking : Call → Bool
  | .window _ | .inWindow _ _ | .load _ _ | .cas _ _ _ => true
  | _ => false

/-- The receiver does not free a tag. -/
def KeepsTags (s : Session) (l : Label) : Prop := l = .handle → ∀ p, s.receiver ≠ .free p

theorem full_step (hf : s.pool.Full) (hl : KeepsTags s l) (h : sessionStep s l = some t) :
    t.pool.Full := by
  intro i hi
  have hs := hf i hi
  cases session_step h with
  | free p hp => exact absurd hp (hl rfl p)
  | claim k c half hk hb =>
    show (s.pool.claim half _).inUse i = true
    rw [IttPool.claim_inUse _ hb,hs,Bool.true_or]
  | number k w hk =>
    show (s.takeNumber k w).pool.inUse i = true
    rw [(takeNumber_tables s k w).1]
    exact hs
  | _ => exact hs

theorem seeking_step (hf : s.pool.Full) (hs : (s.calls j).seeking = true)
    (h : sessionStep s l = some t) : (t.calls j).seeking = true := by
  rcases own_step h j with hj | ⟨_,hj⟩
  · rw [hj]
    exact hs
  · generalize s.calls j = x at hj hs
    generalize t.calls j = y at hj
    cases hj with
    | claim k c half hb =>
      obtain ⟨i,hi,_,hfree⟩ := IttPool.freeBit_slots.mp hb
      rw [hf i hi] at hfree
      cases hfree
    | loadCmdSn | admitted | shut | load | reload => rfl
    | _ => cases hs

theorem seeking_run {ls : List Label} (hf : s.pool.Full) (hs : (s.calls j).seeking = true)
    (hm : Meets sessionStep KeepsTags s ls) (hr : run sessionStep s ls = some t) :
    (t.calls j).seeking = true :=
  (invariant (I := fun s => s.pool.Full ∧ (s.calls j).seeking = true)
    (fun _ _ _ hi hl h => ⟨full_step hi.1 hl h,seeking_step hi.1 hi.2 h⟩) ⟨hf,hs⟩ hm hr).2

end Stuck

/-- In every state with a free tag and an open window a submission can fail, and every one that
does leaks a tag with its sender and a CmdSN. After as many failures as there were free tags, a
later call waits until a response frees one. -/
theorem failed_submit_leaks {s : Session} (hf : ∃ i < 128, s.pool.inUse i = false)
    (hw : serialLe s.state.cmdSn s.state.maxCmdSn = true) :
    (∀ k c, s.calls k = .idle → ∃ t, FailedSubmission k c s t) ∧
    (∀ k c t, FailedSubmission k c s t → ¬ LeaksNothing s t ∧ ∃ itt, Leaks k itt s t) ∧
    (∀ k, (∀ i < s.pool.freeCount, s.calls (k+i) = .idle ∧
        serialLe (s.state.cmdSn+.ofNat 32 i) s.state.maxCmdSn = true) →
      ∃ t, Failures s s.pool.freeCount t) ∧
    ∀ n t, Failures s n t → n ≤ s.pool.freeCount ∧ (n = s.pool.freeCount →
      ∀ k c u, sessionStep t (.submit k c) = some u → ∀ ls v, Meets sessionStep KeepsTags u ls →
        run sessionStep u ls = some v → (v.calls k).seeking = true) := by
  refine ⟨fun k c hk => failedSubmission_exists hk hw hf,fun k c t h => ?_,fun k hopen => ?_,
    fun n t h => ?_⟩
  · obtain ⟨itt,hl⟩ := h.leaks
    exact ⟨hl.something,itt,hl⟩
  · obtain ⟨t,ht,_⟩ := Failures.exists_of_open (Nat.le_refl _) (fun i hi => (hopen i hi).1)
      (fun i hi => (hopen i hi).2)
    exact ⟨t,ht⟩
  · have hcount := h.freeCount
    refine ⟨by omega,fun hn k c u hu ls v hm hr => ?_⟩
    obtain ⟨_,rfl⟩ := submit_eq_some hu
    have hfull : t.pool.Full := IttPool.freeCount_eq_zero.mp (by omega)
    exact seeking_run (s := t.setCall k (.window c)) hfull (by rw [setCall_self]; rfl) hm hr

theorem failed_submit_leaks_first : ∃ t,
    FailedSubmission 0 (readBlock 0) (.start 1 1 .defaults10g) t ∧
      ∃ itt, Leaks 0 itt (.start 1 1 .defaults10g) t := by
  have h := failed_submit_leaks (s := .start 1 1 .defaults10g) ⟨0,by decide,rfl⟩ (by decide)
  obtain ⟨t,ht⟩ := h.1 0 (readBlock 0) rfl
  exact ⟨t,ht,(h.2.1 0 (readBlock 0) t ht).2⟩

/-- The first command of a session is not sent. -/
theorem first_submit_leaks : ∃ t, FailedSubmission 0 (readBlock 0) (.start 1 1 .defaults10g) t ∧
    t.pool.inUse 0 = true ∧ t.pool.completions 0 = some 0 ∧ t.state.cmdSn = 2 ∧
      ¬ LeaksNothing (.start 1 1 .defaults10g) t := by
  refine ⟨_,⟨_,_,rfl,⟨List.replicate 7 (.advance 0),?_,rfl⟩,rfl⟩,by decide +kernel,by decide +kernel,
    by decide +kernel,fun h => ?_⟩
  · intro l hl
    exact Or.inl (List.eq_of_mem_replicate hl)
  · have hi := h.cmdSn
    revert hi
    decide +kernel

end IscsiFuse.Iscsi
