import IscsiFuse.Block.ConcurrentCalls
set_option autoImplicit false

namespace IscsiFuse.Block
open IscsiFuse.Iscsi Log

structure Heard (c : Core) : Prop where
  call : ∀ w, c.phase.call = some w → ∃ r, Open c.log w.offset w.data r
  replied : ∀ pre offset data n post, c.log = pre ++ .writeReply offset data (.ok n) :: post →
    ∃ r, Open pre offset data r

theorem open_quiet {l m : List Event} {offset : Nat} {data : Bytes} {r : List Event}
    (h : Open l offset data r) (hm : ∀ e ∈ m, e.isReceived = false) :
    Open (l ++ m) offset data (r ++ m) := by
  obtain ⟨pre,rfl,hr⟩ := h
  refine ⟨pre,by simp,fun e he => ?_⟩
  rcases List.mem_append.mp he with he | he
  · exact hr e he
  · exact hm e he

namespace Heard

variable {c c' : Core} {l m : List Event}

theorem snoc {e : Event} (h : ∀ pre offset data n post,
      l = pre ++ .writeReply offset data (.ok n) :: post → ∃ r, Open pre offset data r)
    (he : ∀ offset data n, e = .writeReply offset data (.ok n) → ∃ r, Open l offset data r) :
    ∀ pre offset data n post, l ++ [e] = pre ++ .writeReply offset data (.ok n) :: post →
      ∃ r, Open pre offset data r := by
  intro pre offset data n post hl
  rcases split_snoc hl with ⟨_,hx,rfl⟩ | ⟨post',_,hl'⟩
  · exact he offset data n hx
  · exact h pre offset data n post' hl'

theorem append (h : Heard c) (hm : ∀ e ∈ m, ∀ o d n, e ≠ .writeReply o d (.ok n)) :
    ∀ pre offset data n post, c.log ++ m = pre ++ .writeReply offset data (.ok n) :: post →
      ∃ r, Open pre offset data r := by
  induction m using List.reverseRecOn with
  | nil => simpa using h.replied
  | append_singleton m e ih =>
    rw [← List.append_assoc]
    exact snoc (ih (fun e' he => hm e' (by simp [he])))
      (fun o d n he => absurd he (hm e (by simp) o d n))

theorem of_none (hc : c'.phase.call = none) (hl : c'.log = l) (h : ∀ pre offset data n post,
    l = pre ++ .writeReply offset data (.ok n) :: post → ∃ r, Open pre offset data r) : Heard c' where
  call := fun w hw => by rw [hc] at hw; cases hw
  replied := hl ▸ h

theorem keep (h : Heard c) (hc : c'.phase.call = c.phase.call) (hl : c'.log = c.log ++ m)
    (hm : ∀ e ∈ m, e.isReceived = false ∧ ∀ o d n, e ≠ .writeReply o d (.ok n)) : Heard c' where
  call := fun w hw => by
    rw [hc] at hw
    obtain ⟨r,hr⟩ := h.call w hw
    exact ⟨r ++ m,hl ▸ open_quiet hr (fun e he => (hm e he).1)⟩
  replied := hl ▸ h.append (fun e he => (hm e he).2)

theorem ack {w : WriteCall} (h : Heard c) (hw : c.phase.call = some w) (n : Nat) :
    Heard (c.writeDone w (.ok n)) := by
  refine of_none rfl rfl (snoc h.replied (fun o d k he => ?_))
  cases he
  exact h.call w hw

theorem flushDone {k : Caller} {r : Reply Unit} (h : Heard c)
    (hk : ∀ w, k = .write w → c.phase.call = some w) (left : List WriteCommand) :
    Heard ({ c with stray := left }.flushDone r k) := by
  cases k with
  | request => exact of_none rfl rfl (snoc h.replied (fun o d n he => by cases he))
  | write w =>
    cases r with
    | ok _ =>
      refine of_none rfl rfl (snoc h.replied (fun o d n he => ?_))
      cases he
      exact h.call w (hk w rfl)
    | err e => exact of_none rfl rfl (snoc h.replied (fun o d n he => by cases he))
  | timer | closing => exact of_none rfl rfl h.replied

end Heard

/-- A call has returned. -/
def Returned (h : CallHistory) (k : Nat) (q : BlockRequest) (x : Except CallError Answer) : Prop :=
  .invoke k q ∈ h ∧ .respond k x ∈ h

def Phase.closing : Phase → Bool
  | .flushing .closing _ _ | .syncing .closing _ | .stopped => true
  | _ => false

theorem flushDone_closing {c : Core} {r : Reply Unit} {k : Caller}
    (h : (c.flushDone r k).phase.closing = true) : k = .closing := by
  cases k with
  | closing => rfl
  | request | write | timer => cases h

theorem closing_step {v : Device} {s : Worker} {l : Label} {c : Core} (hstep : CoreStep v s l c)
    (h : c.phase.closing = true) : s.phase.closing = true ∨ l = .close := by
  have htrig : ∀ {k : Caller}, Triggers s.phase l k → k = .closing → l = .close := by
    intro k hk he
    subst he
    generalize s.phase = p at hk
    cases hk
    rfl
  cases hstep with
  | background | stray => exact Or.inl h
  | flushNothing _ k hk _ => exact Or.inr (htrig hk (flushDone_closing h))
  | flushStart _ k cmds hk _ _ =>
    refine Or.inr (htrig hk ?_)
    cases k with
    | closing => rfl
    | request | write | timer => cases h
  | good i k dr cmds y hp _ _ | fail i applied panicked k dr cmds y hp _ _ | sync k dr cmds hp _ =>
    left
    rw [hp]
    cases k with
    | closing => rfl
    | request | write | timer => cases h
  | flushFailed k dr cmds y panicked left e hp _ _ | syncGood k dr hp | syncFail k dr hp =>
    left
    rw [hp,flushDone_closing h]
    rfl
  | emptyRead | dirtyRead | startRead | await | take | readDone | readFailed | emptyWrite
  | failedWrite | insert | invalidate | writeDone => cases h

def CallState.inProgress : CallState → Bool
  | .idle | .returned => false
  | _ => true

structure Attended (s : BlockDevice) : Prop where
  active : ∀ k, k ∈ s.active ↔ (s.calls k).inProgress = true
  closing : s.worker.phase.closing = true → s.handles = 0 ∧ s.active = ∅

namespace Attended

variable {v : Device} {s t : BlockDevice}

theorem spawn (v : Device) (syncWrites : Bool) (d : Image) : Attended (.spawn v syncWrites d) where
  active := fun k => ⟨fun h => by simp [BlockDevice.spawn] at h,fun h => by cases h⟩
  closing := fun h => by cases h

theorem moved {f : Nat → CallState} {a : Finset Nat} (h : ∀ k, k ∈ a ↔ (f k).inProgress = true)
    {j : Nat} {x : CallState} (hj : (f j).inProgress = true) (hx : x.inProgress = true) (k : Nat) :
    k ∈ a ↔ (Function.update f j x k).inProgress = true := by
  by_cases hk : k = j
  · subst hk
    rw [Function.update_self,h k,hj,hx]
  · rw [Function.update_of_ne hk,h k]

theorem step {l : DeviceLabel} (hw : Wired s) (h : Attended s) (hs : deviceStep v s l = some t) :
    Attended t := by
  have hopen : 0 < s.handles ∨ s.active ≠ ∅ → s.worker.phase.closing = true →
      t.handles = 0 ∧ t.active = ∅ := by
    intro ho hc
    obtain ⟨hz,he⟩ := h.closing hc
    rcases ho with ho | ho
    · omega
    · exact absurd he ho
  cases deviceStep_cases hs with
  | call k q hk hh =>
    refine ⟨fun j => ?_,hopen (Or.inl hh)⟩
    show j ∈ insert k s.active ↔ (Function.update s.calls k _ j).inProgress = true
    by_cases hj : j = k
    · subst hj
      simp [CallState.inProgress]
    · rw [Function.update_of_ne hj,Finset.mem_insert,← h.active j]
      simp [hj]
  | send k q hk _ _ => exact ⟨moved h.active (by rw [hk]; rfl) rfl,h.closing⟩
  | panic => exact ⟨h.active,h.closing⟩
  | lose k q e hk _ =>
    exact ⟨moved h.active (by rcases hk with hk | hk <;> rw [hk] <;> rfl) rfl,h.closing⟩
  | ret k x hk =>
    have hmem : k ∈ s.active := (h.active k).mpr (by rw [hk]; rfl)
    refine ⟨fun j => ?_,hopen (Or.inr (Finset.ne_empty_of_mem hmem))⟩
    show j ∈ s.active.erase k ↔ (Function.update s.calls k _ j).inProgress = true
    by_cases hj : j = k
    · subst hj
      simp [CallState.inProgress]
    · rw [Function.update_of_ne hj,Finset.mem_erase,← h.active j]
      simp [hj]
  | handles _ n _ hh => exact ⟨h.active,hopen (Or.inl hh)⟩
  | advance _ m channel serving w _ hr hstep hm =>
    have hclose : w.phase.closing = true → s.handles = 0 ∧ s.active = ∅ := by
      intro hc
      rcases closing_step (step_core hstep) hc with hc | rfl
      · exact h.closing hc
      · rcases hm with ⟨_,_,hm | hm | ⟨_,_,hm⟩⟩ | ⟨k,q,rmwOk,_,_,hm⟩
        · cases hm
        · cases hm
        · exact hm
        · cases q <;> cases hm
    obtain ⟨ht,hq⟩ := turn_of_step hw hr hstep hm
    cases ht with
    | goesOn m _ _ hp =>
      rw [BlockDevice.reply_goesOn hp]
      exact ⟨h.active,hclose⟩
    | replies m k q a _ _ hserve hp ha =>
      rw [BlockDevice.reply_replies hserve hp ha]
      have hserve : serving = some (k,q) := hserve
      have hk := hw.queued (k,q) (by rw [← hq,hserve]; simp)
      exact ⟨moved h.active (by rw [hk]; rfl) rfl,hclose⟩

end Attended

end IscsiFuse.Block
