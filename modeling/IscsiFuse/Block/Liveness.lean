import IscsiFuse.Library.Fairness
import IscsiFuse.Block.ServiceTime
import IscsiFuse.Block.SharedDurability
import Mathlib.Data.Prod.Lex
set_option autoImplicit false

namespace IscsiFuse.Block
open IscsiFuse.Iscsi

def DeviceLabel.serves (s : BlockDevice) : DeviceLabel → Bool
  | .recv _ => true
  | .work l => l.drives s.worker.phase
  | _ => false

def BlockDevice.line (s : BlockDevice) : List Call := s.serving.toList ++ s.channel

def BlockDevice.place (s : BlockDevice) (k : Nat) : Nat :=
  2*(s.line.map Prod.fst).idxOf k+(if s.serving = none then 1 else 0)

/-- A call whose message was sent is in the line, and the channel is bounded. -/
structure Lined (s : BlockDevice) : Prop where
  waiting : s.running = true → ∀ k q, s.calls k = .waiting q → (k,q) ∈ s.line
  room : s.channel.length ≤ 256

theorem drives_work {l : Label} {p : Phase} (h : l.drives p = true) : l.work = true := by
  cases l <;> first | rfl | cases h

namespace Lined

variable {v : Device} {s t : BlockDevice}

theorem spawn (v : Device) (syncWrites : Bool) (d : Image) : Lined (.spawn v syncWrites d) :=
  ⟨fun _ _ _ h => by (cases h),Nat.zero_le _⟩

theorem waiting_update {f : Nat → CallState} {j k : Nat} {q : BlockRequest} {x : CallState}
    (h : Function.update f j x k = .waiting q) (hx : x ≠ .waiting q) : f k = .waiting q ∧ k ≠ j := by
  by_cases hk : k = j
  · subst hk
    rw [Function.update_self] at h
    exact absurd h hx
  · rw [Function.update_of_ne hk] at h
    exact ⟨h,hk⟩

theorem step {l : DeviceLabel} (hw : Wired s) (h : Lined s) (hs : deviceStep v s l = some t) :
    Lined t := by
  cases deviceStep_cases hs with
  | call k q =>
    exact ⟨fun hr j q' hj => h.waiting hr j q' (waiting_update hj (by simp)).1,h.room⟩
  | send k q hk hr hroom =>
    refine ⟨fun _ j q' hj => ?_,?_⟩
    · show (j,q') ∈ s.serving.toList ++ (s.channel ++ [(k,q)])
      rw [← List.append_assoc]
      have hj : Function.update s.calls k (.waiting q) j = .waiting q' := hj
      by_cases hjk : j = k
      · subst hjk
        rw [Function.update_self] at hj
        cases hj
        exact List.mem_append_right _ (List.mem_singleton_self _)
      · rw [Function.update_of_ne hjk] at hj
        exact List.mem_append_left _ (h.waiting hr j q' hj)
    · show (s.channel ++ [(k,q)]).length ≤ 256
      rw [List.length_append,List.length_singleton]
      omega
  | panic => exact ⟨fun hr => (by cases hr),Nat.zero_le _⟩
  | lose k q e hk hr => exact ⟨fun hrun => (by cases hr.symm.trans hrun),h.room⟩
  | ret k x hk => exact ⟨fun hr j q hj => h.waiting hr j q (waiting_update hj (by simp)).1,h.room⟩
  | handles => exact ⟨h.waiting,h.room⟩
  | advance _ m channel serving w _ hr hstep hm =>
    obtain ⟨ht,hq⟩ := turn_of_step hw hr hstep hm
    have hroom : channel.length ≤ 256 := by
      have hroom := h.room
      rcases hm with ⟨rfl,_⟩ | ⟨k,q,_,hc,_⟩
      · exact hroom
      · rw [hc,List.length_cons] at hroom
        omega
    cases ht with
    | goesOn m _ _ hp =>
      rw [BlockDevice.reply_goesOn hp]
      exact ⟨fun _ j q hj => (hq ▸ h.waiting hr j q hj : (j,q) ∈ serving.toList ++ channel),hroom⟩
    | replies m k q a _ _ hserve hp ha =>
      rw [BlockDevice.reply_replies hserve hp ha]
      have hserve : serving = some (k,q) := hserve
      refine ⟨fun _ j q' hj => ?_,hroom⟩
      obtain ⟨hj,hne⟩ := waiting_update hj (by simp)
      have hmem : (j,q') ∈ serving.toList ++ channel := hq ▸ h.waiting hr j q' hj
      rw [hserve] at hmem
      exact (List.mem_cons.mp hmem).resolve_left (fun he => hne (congrArg Prod.fst he))

end Lined

def BlockDevice.rank (v : Device) (s : BlockDevice) (k : Nat) : Nat ×ₗ Nat :=
  toLex (s.place k,s.worker.stepsLeft v)

section Line

variable {v : Device} {s t : BlockDevice} {k : Nat} {q : BlockRequest} {l : DeviceLabel}

theorem rank_lt {a b : BlockDevice} (h : a.place k < b.place k) : a.rank v k < b.rank v k :=
  Prod.Lex.toLex_lt_toLex.mpr (Or.inl h)

theorem rank_eq {a b : BlockDevice} (hp : a.place k = b.place k) (hw : a.worker = b.worker) :
    a.rank v k = b.rank v k := by rw [BlockDevice.rank,BlockDevice.rank,hp,hw]

theorem channel_empty {m : Label} (hs : deviceStep v s l = some t) (hl : l.worker s = some m)
    (hm : m = .tick ∨ m = .close) : s.channel = [] := by
  cases l with
  | tick | close =>
    simp only [deviceStep] at hs
    split at hs
    · rename_i hc
      exact hc.1
    · cases hs
  | recv rmwOk =>
    obtain ⟨⟨j,q⟩,_,rfl⟩ := Option.map_eq_some_iff.mp hl
    cases q <;> rcases hm with hm | hm <;> cases hm
  | work m' =>
    cases hl
    rcases hm with rfl | rfl <;> cases hs
  | _ => cases hl

theorem idle_of_tick {w w' : Worker} {m : Label} (hs : step v w m = some w')
    (hm : m = .tick ∨ m = .close) : w.phase = .idle := by
  cases hp : w.phase with
  | idle => rfl
  | _ => rcases hm with rfl | rfl <;> simp [step,hp] at hs

theorem serving_idle (hw : Wired s) (hr : s.running = true) (hp : s.worker.phase = .idle) :
    s.serving = none := by
  have h := hw.serving hr
  rw [hp] at h
  exact Option.map_eq_none_iff.mp h

theorem worker_of_serves {m : Label} (hl : l.worker s = some m) (hm : m.work = true)
    (hserve : l.serves s = true) : m.drives s.worker.phase = true := by
  cases l with
  | work m' =>
    cases hl
    exact hserve
  | recv rmwOk =>
    obtain ⟨⟨j,q⟩,_,rfl⟩ := Option.map_eq_some_iff.mp hl
    cases q <;> cases hm
  | _ => cases hserve

theorem serves_worker (hs : deviceStep v s l = some t) (h : l.serves s = true) :
    l.worker s ≠ none := by
  cases l with
  | recv rmwOk =>
    intro hn
    have hc : s.channel = [] := List.head?_eq_none_iff.mp (Option.map_eq_none_iff.mp hn)
    simp [deviceStep,hc] at hs
  | work m =>
    intro hn
    cases hn
  | _ => cases h

/-- A call in the line is answered, or the worker panics, or the call does not move back; and it
moves on when the worker does. -/
theorem line_step (hv : v.Roomy) (hw : Wired s) (ha : s.worker.Addressed v)
    (hr : s.running = true) (hk : (k,q) ∈ s.line) (hs : deviceStep v s l = some t) :
    (t.running = false ∧ t.calls k = .waiting q ∨ ∃ x, t.calls k = .answered x) ∨
    ((t.running = true ∧ (k,q) ∈ t.line) ∧ t.rank v k ≤ s.rank v k ∧
      (l.serves s = true → t.rank v k < s.rank v k)) := by
  have hmem : k ∈ s.line.map Prod.fst := List.mem_map.mpr ⟨_,hk,rfl⟩
  cases deviceStep_cases hs with
  | call j q' => exact Or.inr ⟨⟨hr,hk⟩,le_refl _,fun h => by cases h⟩
  | send j q' =>
    have hp : (s.line ++ [(j,q')]).map Prod.fst = s.line.map Prod.fst ++ [j] := List.map_append
    have hline : s.serving.toList ++ (s.channel ++ [(j,q')]) = s.line ++ [(j,q')] :=
      (List.append_assoc ..).symm
    refine Or.inr ⟨⟨hr,?_⟩,le_of_eq (rank_eq ?_ rfl),fun h => by cases h⟩
    · rw [BlockDevice.line,hline]
      exact List.mem_append_left _ hk
    · simp only [BlockDevice.place]
      rw [BlockDevice.line,hline,hp,List.idxOf_append_of_mem hmem]
  | panic => exact Or.inl (Or.inl ⟨rfl,hw.queued _ hk⟩)
  | lose j q' e _ hn => cases hr.symm.trans hn
  | ret j x => exact Or.inr ⟨⟨hr,hk⟩,le_refl _,fun h => by cases h⟩
  | handles _ n hl =>
    exact Or.inr ⟨⟨hr,hk⟩,le_refl _,fun h => absurd hl (serves_worker hs h)⟩
  | advance _ m channel serving w hl _ hstep hm =>
    obtain ⟨ht,hq⟩ := turn_of_step hw hr hstep hm
    have hline : s.line = serving.toList ++ channel := hq.symm
    cases ht with
    | goesOn _ _ _ hp =>
      rw [BlockDevice.reply_goesOn hp]
      have hk' : (k,q) ∈ serving.toList ++ channel := hline ▸ hk
      rcases hm with ⟨rfl,rfl,hm⟩ | ⟨j,q',rmwOk,hc,rfl,rfl⟩
      · have hwork : m.work = true := by
          rcases hm with hm | hm | hm
          · exact hm
          all_goals
            have hm : m = .tick ∨ m = .close := by tauto
            have hnone := serving_idle hw hr (idle_of_tick hstep hm)
            rw [BlockDevice.line,hnone,channel_empty hs hl hm] at hk
            cases hk
        have hsteps := stepsLeft_step hv ha hwork hstep
        refine Or.inr ⟨⟨hr,hk'⟩,?_,fun hserve => ?_⟩
        · exact Prod.Lex.toLex_le_toLex.mpr (Or.inr ⟨rfl,(Nat.le_add_right _ _).trans hsteps⟩)
        · rw [worker_of_serves hl hwork hserve,if_pos rfl] at hsteps
          exact Prod.Lex.toLex_lt_toLex.mpr (Or.inr ⟨rfl,hsteps⟩)
      · have hnone := serving_idle hw hr (label_idle hstep)
        have hlt : BlockDevice.rank v
            { s with channel := channel, serving := some (j,q'), worker := w } k < s.rank v k := by
          refine rank_lt ?_
          simp only [BlockDevice.place,hnone,if_true]
          rw [hline]
          exact Nat.lt_succ_self _
        exact Or.inr ⟨⟨hr,hk'⟩,hlt.le,fun _ => hlt⟩
    | replies _ j q' a _ _ hserve hp hans =>
      rw [BlockDevice.reply_replies hserve hp hans]
      have hserve : serving = some (j,q') := hserve
      by_cases hj : k = j
      · subst hj
        exact Or.inl (Or.inr ⟨_,Function.update_self ..⟩)
      · rw [hserve] at hline
        have hk' : (k,q) ∈ channel := by
          rw [hline] at hk
          exact (List.mem_cons.mp hk).resolve_left (fun he => hj (congrArg Prod.fst he))
        have hlt : BlockDevice.rank v
            ({ s with channel := channel, serving := none, worker := w }.answer j q' (.ok a)) k <
              s.rank v k := by
          refine rank_lt ?_
          have hidx : (s.line.map Prod.fst).idxOf k = (channel.map Prod.fst).idxOf k+1 := by
            rw [hline]
            exact List.idxOf_cons_ne _ (fun he => hj he.symm)
          simp only [BlockDevice.place,hidx]
          show 2*(channel.map Prod.fst).idxOf k+1 < _
          omega
        exact Or.inr ⟨⟨hr,hk'⟩,hlt.le,fun _ => hlt⟩

theorem room_step (hv : v.Roomy) (hl : Lined s) (ha : s.worker.Addressed v)
    (hr : s.running = true) (hc : 256 ≤ s.channel.length) (hs : deviceStep v s l = some t) :
    (t.running = false ∨ t.channel.length < 256) ∨ ((t.running = true ∧ 256 ≤ t.channel.length) ∧
      t.worker.stepsLeft v ≤ s.worker.stepsLeft v ∧
      (l.serves s = true → t.worker.stepsLeft v < s.worker.stepsLeft v)) := by
  cases deviceStep_cases hs with
  | call | ret => exact Or.inr ⟨⟨hr,hc⟩,le_refl _,fun h => by cases h⟩
  | send k q _ _ hroom => omega
  | panic => exact Or.inl (Or.inl rfl)
  | lose j q' e _ hn => cases hr.symm.trans hn
  | handles _ n hn =>
    refine Or.inr ⟨⟨hr,hc⟩,le_refl _,fun h => ?_⟩
    exact absurd hn (serves_worker hs h)
  | advance _ m channel serving w hlm _ hstep hm =>
    rw [BlockDevice.reply_channel,BlockDevice.reply_running,BlockDevice.reply_worker]
    rcases hm with ⟨rfl,rfl,hm⟩ | ⟨j,q',rmwOk,hcs,rfl,rfl⟩
    · have hwork : m.work = true := by
        rcases hm with hm | hm | hm
        · exact hm
        all_goals
          have hm : m = .tick ∨ m = .close := by tauto
          rw [channel_empty hs hlm hm] at hc
          cases hc
      have hsteps := stepsLeft_step hv ha hwork hstep
      refine Or.inr ⟨⟨hr,hc⟩,(Nat.le_add_right _ _).trans hsteps,fun hserve => ?_⟩
      rwa [worker_of_serves hlm hwork hserve,if_pos rfl] at hsteps
    · have hroom := hl.room
      rw [hcs,List.length_cons] at hroom
      exact Or.inl (Or.inr hroom)

end Line

inductive CallState.Next : CallState → CallState → Prop
  | stays (c : CallState) : Next c c
  | called (q : BlockRequest) : Next .idle (.sending q)
  | sent (q : BlockRequest) : Next (.sending q) (.waiting q)
  | lost (q : BlockRequest) (x : Except CallError Answer) : Next (.sending q) (.answered x)
  | replied (q : BlockRequest) (x : Except CallError Answer) : Next (.waiting q) (.answered x)
  | returned (x : Except CallError Answer) : Next (.answered x) .returned

structure Going (v : Device) (s : BlockDevice) : Prop where
  wired : Wired s
  attended : Attended s
  lined : Lined s
  worker : s.worker.Addressed v

section Calls

variable {v : Device} {s t : BlockDevice} {k : Nat} {q : BlockRequest} {l : DeviceLabel}

theorem Going.spawn (v : Device) (syncWrites : Bool) (d : Image) : Going v (.spawn v syncWrites d) where
  wired := .spawn v syncWrites d
  attended := .spawn v syncWrites d
  lined := .spawn v syncWrites d
  worker := .start v syncWrites d

theorem Going.step (hv : v.Roomy) (h : Going v s) (hs : deviceStep v s l = some t) : Going v t where
  wired := h.wired.step hs
  attended := h.attended.step h.wired hs
  lined := h.lined.step h.wired hs
  worker := by
    cases deviceStep_cases hs with
    | advance _ m channel serving w _ _ hstep _ =>
      rw [BlockDevice.reply_worker]
      exact h.worker.step hv hstep
    | call | send | panic | lose | ret | handles => exact h.worker

theorem next_update {f : Nat → CallState} {j k : Nat} {x : CallState} (h : (f j).Next x) :
    (f k).Next (Function.update f j x k) := by
  by_cases hk : k = j
  · subst hk
    rwa [Function.update_self]
  · rw [Function.update_of_ne hk]
    exact .stays _

theorem next_step (h : Wired s) (hs : deviceStep v s l = some t) (k : Nat) :
    (s.calls k).Next (t.calls k) := by
  cases deviceStep_cases hs with
  | call j q hj _ => exact next_update (hj ▸ .called q)
  | send j q hj _ _ => exact next_update (hj ▸ .sent q)
  | lose j q e hj _ =>
    refine next_update ?_
    rcases hj with hj | hj <;> rw [hj]
    · exact .lost q _
    · exact .replied q _
  | ret j x hj => exact next_update (hj ▸ .returned x)
  | panic | handles => exact .stays _
  | advance _ m channel serving w _ hr hstep hm =>
    obtain ⟨ht,hq⟩ := turn_of_step h hr hstep hm
    cases ht with
    | goesOn m _ _ hp =>
      rw [BlockDevice.reply_goesOn hp]
      exact .stays _
    | replies m j q a _ _ hserve hp ha =>
      rw [BlockDevice.reply_replies hserve hp ha]
      have hserve : serving = some (j,q) := hserve
      have hj := h.queued (j,q) (by rw [← hq,hserve]; simp)
      exact next_update (hj ▸ .replied q _)

theorem crashed_step (hr : s.running = false) (hs : deviceStep v s l = some t) :
    t.running = false := by
  cases deviceStep_cases hs with
  | panic => rfl
  | send _ _ _ hn _ | advance _ _ _ _ _ _ hn _ _ => cases hr.symm.trans hn
  | call | lose | ret | handles => exact hr

theorem send_waits (hk : s.calls k = .sending q) (hs : deviceStep v s (.send k) = some t) :
    t.calls k = .waiting q := by
  simp only [deviceStep,hk] at hs
  split at hs
  · cases hs
    exact Function.update_self ..
  · cases hs

theorem lose_answers (hk : s.calls k = .sending q ∨ s.calls k = .waiting q)
    (hs : deviceStep v s (.lose k) = some t) : ∃ x, t.calls k = .answered x := by
  rcases hk with hk | hk <;>
  · simp only [deviceStep,hk] at hs
    split at hs
    · cases hs
    · cases hs
      exact ⟨_,Function.update_self ..⟩

theorem ret_returns {x : Except CallError Answer} (hk : s.calls k = .answered x)
    (hs : deviceStep v s (.ret k) = some t) : t.calls k = .returned := by
  simp only [deviceStep,hk] at hs
  cases hs
  exact Function.update_self ..

theorem ready_label {w : Worker} (h : w.phase = .idle) (q : BlockRequest) :
    w.Ready (q.label true) := by cases q <;> exact h

theorem serves_enabled (hv : v.Roomy) (h : Going v s) (hr : s.running = true)
    (hk : (k,q) ∈ s.line) : Machine.Enabled (deviceStep v) (fun s l => l.serves s = true) s := by
  by_cases hi : s.worker.phase = .idle
  · have hc : s.channel ≠ [] := by
      intro hc
      rw [BlockDevice.line,serving_idle h.wired hr hi,hc] at hk
      cases hk
    obtain ⟨⟨j,q'⟩,rest,hc⟩ := List.exists_cons_of_ne_nil hc
    obtain ⟨w,hw⟩ := h.worker.step_isSome hv (ready_label hi q')
    exact ⟨.recv true,rfl,_,by simp only [deviceStep,hc,BlockDevice.advance,hr,hw,if_true]; rfl⟩
  · have hst : s.worker.phase ≠ .stopped := by
      intro hst
      have hactive := (h.attended.active k).mpr (by rw [h.wired.queued _ hk]; rfl)
      rw [(h.attended.closing (by rw [hst]; rfl)).2] at hactive
      cases hactive
    obtain ⟨m,hd,hready⟩ := h.worker.busy_ready hi hst
    obtain ⟨w,hw⟩ := h.worker.step_isSome hv hready
    exact ⟨.work m,hd,_,by
      simp only [deviceStep,drives_work hd,BlockDevice.advance,hr,hw,if_true]
      rfl⟩

theorem empty_serves_nothing (hv : v.Roomy) (h : Going v s) (hi : s.worker.phase = .idle)
    (hc : s.channel = []) : ¬ Machine.Enabled (deviceStep v) (fun s l => l.serves s = true) s := by
  intro ⟨l,hl,t,hs⟩
  cases l with
  | recv rmwOk => simp [deviceStep,hc] at hs
  | work m =>
    have hl : m.drives s.worker.phase = true := hl
    simp only [deviceStep,drives_work hl,if_true] at hs
    obtain ⟨_,w,hw,_⟩ := BlockDevice.advance_cases hs
    have hsteps := stepsLeft_step hv h.worker (drives_work hl) hw
    rw [if_pos hl,Worker.stepsLeft,Worker.stepsLeft,hi] at hsteps
    exact absurd hsteps (Nat.not_succ_le_zero _)
  | _ => cases hl

/-- The worker goes on, the commands that it waits for come to an end, a thread that waits for room
in the channel gets it at some time, and a thread that can go on does. -/
structure FairlyScheduled (e : Machine.Execution (deviceStep v)) : Prop where
  serves : e.WeaklyFair (fun s l => l.serves s = true)
  send : ∀ k, e.StronglyFair (fun _ l => l = .send k)
  lose : ∀ k, e.WeaklyFair (fun _ l => l = .lose k)
  ret : ∀ k, e.WeaklyFair (fun _ l => l = .ret k)

section Stages

variable {e : Machine.Execution (deviceStep v)} (hv : v.Roomy) (hi : ∀ n, Going v (e.state n))
  (hf : FairlyScheduled e)

include hv hi hf

theorem room_comes : e.LeadsTo (fun s => s.running = true)
    (fun s => s.running = false ∨ s.channel.length < 256) := by
  have hfull : e.LeadsTo (fun s => s.running = true ∧ 256 ≤ s.channel.length)
      (fun s => s.running = false ∨ s.channel.length < 256) := by
    refine Machine.Execution.leadsTo_of_rank (μ := fun s => s.worker.stepsLeft v) hi
      (fun _ _ _ h hp hs => room_step hv h.lined h.worker hp.1 hp.2 hs) (fun s h hp => ?_) hf.serves
    obtain ⟨c,hmem⟩ := List.exists_mem_of_length_pos (show 0 < s.channel.length by omega)
    exact serves_enabled hv h hp.1 (List.mem_append_right _ hmem)
  intro n hr
  by_cases hc : 256 ≤ (e.state n).channel.length
  · exact hfull n ⟨hr,hc⟩
  · exact ⟨n,le_refl n,Or.inr (not_le.mp hc)⟩

theorem sending_ends : e.LeadsTo (fun s => s.running = true ∧ s.calls k = .sending q)
    (fun s => (s.running = false ∧ s.calls k = .sending q) ∨ s.calls k = .waiting q ∨
      ∃ x, s.calls k = .answered x) := by
  refine Machine.Execution.ensures_strongly hi (fun s l t h hp hs => ?_) (fun n hkeep => ?_)
    (hf.send k)
  · by_cases hl : l = .send k
    · subst hl
      exact Or.inl (Or.inr (Or.inl (send_waits hp.2 hs)))
    · have hnext := next_step h.wired hs k
      rw [hp.2] at hnext
      generalize t.calls k = c at hnext ⊢
      cases hnext with
      | stays =>
        cases t.running with
        | true => exact Or.inr ⟨⟨rfl,rfl⟩,hl⟩
        | false => exact Or.inl (Or.inl ⟨rfl,rfl⟩)
      | sent => exact Or.inl (Or.inr (Or.inl rfl))
      | lost _ x => exact Or.inl (Or.inr (Or.inr ⟨x,rfl⟩))
  · obtain ⟨j,hj,hroom⟩ := room_comes hv hi hf n (hkeep n (le_refl n)).1
    obtain ⟨hrun,hkj⟩ := hkeep j hj
    have hroom := hroom.resolve_left (by simp [hrun])
    exact ⟨j,hj,_,rfl,_,by simp only [deviceStep,hkj,hrun,hroom,and_self,if_true]; rfl⟩

theorem waiting_ends : e.LeadsTo (fun s => s.running = true ∧ s.calls k = .waiting q)
    (fun s => (s.running = false ∧ s.calls k = .waiting q) ∨ ∃ x, s.calls k = .answered x) := by
  have hline : e.LeadsTo (fun s => s.running = true ∧ (k,q) ∈ s.line)
      (fun s => (s.running = false ∧ s.calls k = .waiting q) ∨ ∃ x, s.calls k = .answered x) :=
    Machine.Execution.leadsTo_of_rank (μ := fun s => s.rank v k) hi
      (fun _ _ _ h hp hs => line_step hv h.wired h.worker hp.1 hp.2 hs)
      (fun _ h hp => serves_enabled hv h hp.1 hp.2) hf.serves
  exact fun n hp => hline n ⟨hp.1,(hi n).lined.waiting hp.1 k q hp.2⟩

omit hv

theorem lost_ends : e.LeadsTo
    (fun s => s.running = false ∧ (s.calls k = .sending q ∨ s.calls k = .waiting q))
    (fun s => ∃ x, s.calls k = .answered x) := by
  refine Machine.Execution.ensures hi (fun s l t h hp hs => ?_) (fun s h hp => ?_) (hf.lose k)
  · by_cases hl : l = .lose k
    · subst hl
      exact Or.inl (lose_answers hp.2 hs)
    · have hnext := next_step h.wired hs k
      have hrt := crashed_step hp.1 hs
      generalize t.calls k = c at hnext ⊢
      rcases hp.2 with hk | hk
      · rw [hk] at hnext
        cases hnext with
        | stays => exact Or.inr ⟨⟨hrt,Or.inl rfl⟩,hl⟩
        | sent => exact Or.inr ⟨⟨hrt,Or.inr rfl⟩,hl⟩
        | lost _ x => exact Or.inl ⟨x,rfl⟩
      · rw [hk] at hnext
        cases hnext with
        | stays => exact Or.inr ⟨⟨hrt,Or.inr rfl⟩,hl⟩
        | replied _ x => exact Or.inl ⟨x,rfl⟩
  · rcases hp.2 with hk | hk
    · exact ⟨_,rfl,_,by simp only [deviceStep,hk,hp.1]; rfl⟩
    · exact ⟨_,rfl,_,by simp only [deviceStep,hk,hp.1]; rfl⟩

theorem answered_ends {x : Except CallError Answer} :
    e.LeadsTo (fun s => s.calls k = .answered x) (fun s => s.calls k = .returned) := by
  refine Machine.Execution.ensures hi (fun s l t h hp hs => ?_) (fun s h hp => ?_) (hf.ret k)
  · by_cases hl : l = .ret k
    · subst hl
      exact Or.inl (ret_returns hp hs)
    · have hnext := next_step h.wired hs k
      rw [hp] at hnext
      generalize t.calls k = c at hnext ⊢
      cases hnext with
      | stays => exact Or.inr ⟨rfl,hl⟩
      | returned => exact Or.inl rfl
  · exact ⟨_,rfl,_,by simp only [deviceStep,hp]; rfl⟩

end Stages

/-- Every call that is in progress returns, whether the worker serves it or panics. -/
theorem calls_return {syncWrites : Bool} {d : Image} {e : Machine.Execution (deviceStep v)}
    (hv : v.Roomy) (h0 : e.state 0 = .spawn v syncWrites d) (hf : FairlyScheduled e) (k : Nat) :
    e.LeadsTo (fun s => (s.calls k).inProgress = true) (fun s => s.calls k = .returned) := by
  have hi : ∀ n, Going v (e.state n) :=
    Machine.Execution.invariant (h0 ▸ .spawn v syncWrites d) (fun _ _ _ h hs => h.step hv hs)
  have hanswered : e.LeadsTo (fun s => ∃ x, s.calls k = .answered x)
      (fun s => s.calls k = .returned) := .of_exists (fun x => answered_ends hi hf)
  have hlost : ∀ q, e.LeadsTo
      (fun s => s.running = false ∧ (s.calls k = .sending q ∨ s.calls k = .waiting q))
      (fun s => s.calls k = .returned) := fun q => (lost_ends hi hf).trans hanswered
  have hwaiting : ∀ q, e.LeadsTo (fun s => s.calls k = .waiting q)
      (fun s => s.calls k = .returned) := by
    intro q n hq
    cases hr : (e.state n).running with
    | true => exact ((waiting_ends hv hi hf).trans
        (.or (.trans (.of_imp (fun _ h => ⟨h.1,Or.inr h.2⟩)) (hlost q)) hanswered)) n ⟨hr,hq⟩
    | false => exact hlost q n ⟨hr,Or.inr hq⟩
  have hsending : ∀ q, e.LeadsTo (fun s => s.calls k = .sending q)
      (fun s => s.calls k = .returned) := by
    intro q n hq
    cases hr : (e.state n).running with
    | true => exact ((sending_ends hv hi hf).trans
        (.or (.trans (.of_imp (fun _ h => ⟨h.1,Or.inl h.2⟩)) (hlost q))
          (.or (hwaiting q) hanswered))) n ⟨hr,hq⟩
    | false => exact hlost q n ⟨hr,Or.inl hq⟩
  intro n hk
  cases hc : (e.state n).calls k with
  | sending q => exact hsending q n hc
  | waiting q => exact hwaiting q n hc
  | answered x => exact hanswered n ⟨x,hc⟩
  | idle | returned => simp [hc,CallState.inProgress] at hk

theorem thread_waits (h : (s.calls k).inProgress = false) :
    deviceStep v s (.send k) = none ∧ deviceStep v s (.lose k) = none ∧
      deviceStep v s (.ret k) = none := by
  cases hc : s.calls k with
  | idle | returned => simp [deviceStep,hc]
  | sending | waiting | answered =>
    rw [hc] at h
    cases h

theorem fairlyScheduled_ofRun (hv : v.Roomy) {syncWrites : Bool} {d : Image}
    {ls : List DeviceLabel} (hr : Machine.run (deviceStep v) (.spawn v syncWrites d) ls = some t)
    (hp : t.worker.phase = .idle) (hc : t.channel = []) (ha : t.active = ∅) :
    FairlyScheduled (.ofRun hr) := by
  have h : Going v t := Machine.run_invariant (I := Going v) (fun _ _ _ h hs => h.step hv hs)
    (.spawn v syncWrites d) hr
  have hdone : ∀ k, (t.calls k).inProgress = false := by
    intro k
    have hk := h.attended.active k
    rw [ha] at hk
    simpa using hk
  have hown : ∀ l, deviceStep v t l = none →
      ¬ Machine.Enabled (deviceStep v) (fun _ m => m = l) t := by
    intro l hn ⟨m,hm,u,hs⟩
    rw [hm,hn] at hs
    cases hs
  exact ⟨Machine.Execution.ofRun_weaklyFair hr (empty_serves_nothing hv h hp hc),
    fun k => Machine.Execution.ofRun_stronglyFair hr (hown _ (thread_waits (hdone k)).1),
    fun k => Machine.Execution.ofRun_weaklyFair hr (hown _ (thread_waits (hdone k)).2.1),
    fun k => Machine.Execution.ofRun_weaklyFair hr (hown _ (thread_waits (hdone k)).2.2)⟩

/-- A Write that waits for the worker. -/
theorem calls_return_write : ∃ e : Machine.Execution (deviceStep smallDevice),
    ((e.state 2).calls 0).inProgress = true ∧ ∃ m, 2 ≤ m ∧ (e.state m).calls 0 = .returned := by
  have hrun : ∃ t, Machine.run (deviceStep smallDevice) (.spawn smallDevice false zeros)
      [.call 0 (.write 5 [1,2]),.send 0,.recv true,.work .cont,.work .cont,.ret 0] = some t ∧
      t.worker.phase = .idle ∧ t.channel = [] ∧ t.active = ∅ := ⟨_,rfl,rfl,rfl,rfl⟩
  obtain ⟨t,hr,hp,hc,ha⟩ := hrun
  have hk : (((Machine.Execution.ofRun hr).state 2).calls 0).inProgress = true := rfl
  exact ⟨.ofRun hr,hk,calls_return smallDevice_roomy (Machine.Execution.ofRun_zero hr)
    (fairlyScheduled_ofRun smallDevice_roomy hr hp hc ha) 0 2 hk⟩

end Calls

end IscsiFuse.Block
