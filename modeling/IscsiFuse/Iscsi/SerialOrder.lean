import IscsiFuse.Library.Serial
import IscsiFuse.Iscsi.Window
import IscsiFuse.Iscsi.Wire
set_option autoImplicit false

/-!
The window check in terms of counters without bound. `Counted` is a session next to the true
counters of which it keeps the low 32 bits.
-/

namespace IscsiFuse.Iscsi
open Session Serial

/-- The two loads are one step here; `Counts.check` is about the two of them. -/
def SessionState.cmdSnInWindow (s : SessionState) : Bool := serialLe s.cmdSn s.maxCmdSn

structure Counted where
  session : Session
  first : Nat
  maxCmdSn : Nat
  loaded : Nat → Nat

namespace Counted

def start (first : Nat) (stat : BitVec 32) (n : NegotiatedParams) : Counted :=
  ⟨.start (.ofNat 32 first) stat n,first,first,fun _ => 0⟩

/-- Every number taken counts. -/
def cmdSn (c : Counted) : Nat := c.first+(takers c.session.log).length

def loads (c : Counted) : Label → Nat → Nat
  | .advance k => match c.session.calls k with
    | .window _ => Function.update c.loaded k c.cmdSn
    | _ => c.loaded
  | _ => c.loaded

end Counted

/-- The target names the true MaxCmdSN of the PDU that is received. -/
def countedStep (c : Counted) (e : Label × Nat) : Option Counted := do
  let t ← sessionStep c.session e.1
  if e.1.maxCmdSn.all (fun m => m = .ofNat 32 e.2) then
    pure { c with session := t
                  maxCmdSn := if e.1.maxCmdSn.isSome then e.2 else c.maxCmdSn
                  loaded := c.loads e.1 }
  else none

theorem serialLe_iff (a b : BitVec 32) : serialLe a b = true ↔ Serial.Le a b := by
  have hab : a = b ↔ (b-a).toNat = 0 := by
    rw [eq_comm,← sub_eq_zero (a := b),← BitVec.toNat_inj]
    rfl
  simp only [serialLe,Bool.or_eq_true,Bool.and_eq_true,decide_eq_true_eq,BitVec.lt_def,Serial.Le,hab]
  show _ ∨ 0 < (b-a).toNat ∧ (b-a).toNat < 2147483648 ↔ (b-a).toNat < 2147483648
  omega

section Steps

variable {s t : Session} {l : Label} {j k : Nat} {x : Command} {n : BitVec 32}

theorem takers_quiet {log : List SessionEvent} {e : SessionEvent} (h : ∀ k, e ≠ .took k) :
    takers (log ++ [e]) = takers log := by
  rw [takers_append]
  cases e with
  | took k => exact absurd rfl (h k)
  | _ => exact List.append_nil _

theorem SessionStep.counter (h : SessionStep s l t) (init : BitVec 32)
    (hs : s.state.cmdSn = init+.ofNat 32 (takers s.log).length) :
    t.state.cmdSn = init+.ofNat 32 (takers t.log).length := by
  cases h with
  | number k w hk =>
    simp only [setCall,takeNumber]
    split
    · simp only [observe_log,takers_append,List.length_append,hs]
      rw [show (takers [SessionEvent.took k]).length = 1 from rfl,BitVec.ofNat_add,← BitVec.add_assoc]
      rfl
    · exact hs
  | sentCommand | sentOther | deliver | dataOut | pongSent | receive =>
    show s.state.cmdSn = _
    refine hs.trans (congrArg (fun m => init+.ofNat 32 (List.length m)) (takers_quiet ?_).symm)
    intro k h
    cases h
  | _ => exact hs

theorem step_maxCmdSn (h : sessionStep s l = some t) :
    t.state.maxCmdSn = l.maxCmdSn.getD s.state.maxCmdSn := by
  by_cases hl : ∃ p, l = .receive p
  · obtain ⟨p,rfl⟩ := hl
    simp only [sessionStep] at h
    split at h <;> cases h
    rfl
  · have hn : l.maxCmdSn = none := by
      cases l with
      | receive p => exact absurd ⟨p,rfl⟩ hl
      | _ => rfl
    rw [hn]
    cases session_step h with
    | receive p => exact absurd ⟨p,rfl⟩ hl
    | number k w hk =>
      simp only [setCall,takeNumber]
      split <;> rfl
    | _ => rfl

def Checks (s t : Session) (l : Label) (j : Nat) : Prop :=
  ∀ x n, t.calls j = .inWindow x n →
    s.calls j = .inWindow x n ∨ l = .advance j ∧ s.calls j = .window x ∧ n = s.state.cmdSn

theorem step_checks (h : sessionStep s l = some t) (j : Nat) : Checks s t l j := by
  intro x n hx
  rcases own_step h j with hj | ⟨hl,hj⟩
  · exact Or.inl (hj ▸ hx)
  · rw [hx] at hj
    generalize s.calls j = y at hj ⊢
    cases hj
    cases hl
    exact Or.inr ⟨rfl,rfl,rfl⟩

end Steps

/-- What the session knows of its counters. -/
structure Counts (c : Counted) : Prop where
  cmdSn : c.session.state.cmdSn = .ofNat 32 c.cmdSn
  maxCmdSn : c.session.state.maxCmdSn = .ofNat 32 c.maxCmdSn
  loaded : ∀ k x n, c.session.calls k = .inWindow x n → n = .ofNat 32 (c.loaded k)

theorem counts_start (first : Nat) (stat : BitVec 32) (n : NegotiatedParams) :
    Counts (.start first stat n) where
  cmdSn := rfl
  maxCmdSn := rfl
  loaded := fun k x n h => by cases h

theorem Counted.loads_inWindow {c : Counted} {k : Nat} {x : Command} {n : BitVec 32} {l : Label}
    (h : c.session.calls k = .inWindow x n) : c.loads l k = c.loaded k := by
  cases l with
  | advance j =>
    cases hj : c.session.calls j with
    | window y =>
      simp only [loads,hj]
      refine Function.update_of_ne (fun hkj => ?_) ..
      rw [hkj,hj] at h
      cases h
    | _ => simp only [loads,hj]
  | _ => rfl

theorem counts_step {c d : Counted} {e : Label × Nat} (h : Counts c) (hs : countedStep c e = some d) :
    Counts d := by
  obtain ⟨l,m⟩ := e
  simp only [countedStep,Option.bind_eq_bind,Option.bind_eq_some_iff] at hs
  obtain ⟨t,ht,hs⟩ := hs
  split at hs
  · rename_i hm
    cases hs
    have hnum := (session_step ht).counter (.ofNat 32 c.first)
      (h.cmdSn.trans (BitVec.ofNat_add ..))
    refine ⟨hnum.trans (BitVec.ofNat_add ..).symm,?_,?_⟩
    · show t.state.maxCmdSn = _
      rw [step_maxCmdSn ht]
      cases hl : l.maxCmdSn with
      | none => exact h.maxCmdSn
      | some x =>
        rw [hl] at hm
        exact of_decide_eq_true hm
    · intro k x n hx
      show n = .ofNat 32 (c.loads l k)
      rcases step_checks ht k x n hx with hk | ⟨rfl,hk,rfl⟩
      · rw [h.loaded k x n hk]
        rw [Counted.loads_inWindow hk]
      · simp only [Counted.loads,hk,Function.update_self]
        exact h.cmdSn
  · cases hs

theorem Counts.check {c : Counted} (h : Counts c) {k : Nat} {x : Command} {n : BitVec 32}
    (hk : c.session.calls k = .inWindow x n) (hn : Near 32 (c.loaded k) c.maxCmdSn) :
    c.session.advance k = some (c.session.setCall k
      (if c.loaded k ≤ c.maxCmdSn then .load x .lo else .window x)) := by
  have hle := (serialLe_iff _ _).trans (le_ofNat_iff (by decide) hn)
  rw [← h.loaded k x n hk,← h.maxCmdSn] at hle
  simp only [Session.advance,hk,hle]

theorem Counts.inWindow {c : Counted} (h : Counts c) (hn : Near 32 c.cmdSn c.maxCmdSn) :
    c.session.state.cmdSnInWindow = true ↔ c.cmdSn ≤ c.maxCmdSn := by
  rw [SessionState.cmdSnInWindow,h.cmdSn,h.maxCmdSn,serialLe_iff]
  exact le_ofNat_iff (by decide) hn

/-- The comparison of serial numbers is the order of the counters. -/
theorem serialLe_unbounded :
    (∀ x y, Near 32 x y → (serialLe (.ofNat 32 x) (.ofNat 32 y) = true ↔ x ≤ y)) ∧
    (∀ first stat n ls c, Machine.run countedStep (.start first stat n) ls = some c →
      (Near 32 c.cmdSn c.maxCmdSn → (c.session.state.cmdSnInWindow = true ↔ c.cmdSn ≤ c.maxCmdSn)) ∧
      ∀ k x m, c.session.calls k = .inWindow x m → Near 32 (c.loaded k) c.maxCmdSn →
        c.session.advance k = some (c.session.setCall k
          (if c.loaded k ≤ c.maxCmdSn then .load x .lo else .window x))) ∧
    ∀ s, Window 32 s →
      (∀ x ∈ s, serialLe (.ofNat 32 x) (.ofNat 32 x) = true) ∧
      (∀ x ∈ s, ∀ y ∈ s, serialLe (.ofNat 32 x) (.ofNat 32 y) = true →
        serialLe (.ofNat 32 y) (.ofNat 32 x) = true → x = y) ∧
      (∀ x ∈ s, ∀ y ∈ s, ∀ z ∈ s, serialLe (.ofNat 32 x) (.ofNat 32 y) = true →
        serialLe (.ofNat 32 y) (.ofNat 32 z) = true → serialLe (.ofNat 32 x) (.ofNat 32 z) = true) ∧
      ∀ x ∈ s, ∀ y ∈ s, ∀ d : BitVec 32, serialLe (.ofNat 32 x+d) (.ofNat 32 y+d) =
        serialLe (.ofNat 32 x) (.ofNat 32 y) := by
  refine ⟨fun x y h => (serialLe_iff _ _).trans (le_ofNat_iff (by decide) h),?_,?_⟩
  · intro first stat n ls c hr
    have hc := Machine.run_invariant (I := Counts) (fun _ _ _ h hs => counts_step h hs)
      (counts_start first stat n) hr
    exact ⟨hc.inWindow,fun k x m hk hn => hc.check hk hn⟩
  · intro s hs
    refine ⟨fun x _ => (serialLe_iff _ _).mpr (Le.refl _),fun x hx y hy hxy hyx => ?_,
      fun x hx y hy z hz hxy hyz => ?_,fun x _ y _ d => ?_⟩
    · rw [serialLe_iff] at hxy hyx
      exact hs.antisymm (by decide) hx hy hxy hyx
    · rw [serialLe_iff] at hxy hyz ⊢
      exact hs.trans (by decide) hx hy hz hxy hyz
    · rw [Bool.eq_iff_iff,serialLe_iff,serialLe_iff,le_add_iff]

/-- The numbers go over the top: the true CmdSN and MaxCmdSN are both `2^32`. -/
theorem serialLe_unbounded_wrapped :
    ∃ c, Machine.run countedStep (.start (2^32-1) 0 .defaults10g)
        ((Label.prepare 0 (readBlock 9) ++ Label.transmit 0).map (fun l => (l,0)) ++
          [(.receive (openWindow 0),2^32)]) = some c ∧
      c.session.state.cmdSn = 0 ∧ c.cmdSn = 2^32 ∧ c.maxCmdSn = 2^32 ∧
      c.session.state.cmdSnInWindow = true := by
  have hr : Machine.run countedStep (.start (2^32-1) 0 .defaults10g)
      ((Label.prepare 0 (readBlock 9) ++ Label.transmit 0).map (fun l => (l,0)) ++
        [(.receive (openWindow 0),2^32)]) = some _ := rfl
  refine ⟨_,hr,by decide,by decide,by decide,?_⟩
  exact ((serialLe_unbounded.2.1 _ _ _ _ _ hr).1 (by decide)).mpr (by decide)

end IscsiFuse.Iscsi
