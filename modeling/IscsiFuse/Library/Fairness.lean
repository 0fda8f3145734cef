import IscsiFuse.Library.Machine
import Mathlib.Order.WellFounded
set_option autoImplicit false

/-!
Runs without end and fairness. A rank that no step raises and a fair step lowers leads to what
ends the descent.
-/

namespace Machine

variable {σ ℓ : Type*} {step : σ → ℓ → Option σ}

/-- A run without end. It may stand still, so that it can also be a run that has come to its end. -/
structure Execution (step : σ → ℓ → Option σ) where
  state : Nat → σ
  label : Nat → Option ℓ
  next : ∀ n, (label n = none ∧ state (n+1) = state n) ∨
    ∃ l, label n = some l ∧ step (state n) l = some (state (n+1))

def Enabled (step : σ → ℓ → Option σ) (p : σ → ℓ → Prop) (s : σ) : Prop :=
  ∃ l, p s l ∧ ∃ t, step s l = some t

namespace Execution

variable {e : Execution step} {p : σ → ℓ → Prop}

def Takes (e : Execution step) (p : σ → ℓ → Prop) (n : Nat) : Prop :=
  ∃ l, e.label n = some l ∧ p (e.state n) l

def WeaklyFair (e : Execution step) (p : σ → ℓ → Prop) : Prop :=
  ∀ n, (∀ m, n ≤ m → Enabled step p (e.state m)) → ∃ m, n ≤ m ∧ e.Takes p m

def StronglyFair (e : Execution step) (p : σ → ℓ → Prop) : Prop :=
  ∀ n, (∀ m, n ≤ m → ∃ k, m ≤ k ∧ Enabled step p (e.state k)) → ∃ m, n ≤ m ∧ e.Takes p m

theorem step_of_takes {n : Nat} (h : e.Takes p n) :
    ∃ l, p (e.state n) l ∧ step (e.state n) l = some (e.state (n+1)) := by
  obtain ⟨l,hl,hp⟩ := h
  rcases e.next n with ⟨hn,_⟩ | ⟨l',hl',hs⟩
  · rw [hl] at hn
    cases hn
  · rw [hl] at hl'
    cases hl'
    exact ⟨l,hp,hs⟩

theorem invariant {I : σ → Prop} (h0 : I (e.state 0))
    (hstep : ∀ s l t, I s → step s l = some t → I t) (n : Nat) : I (e.state n) := by
  induction n with
  | zero => exact h0
  | succ n ih =>
    rcases e.next n with ⟨_,hs⟩ | ⟨l,_,hs⟩
    · exact hs ▸ ih
    · exact hstep _ l _ ih hs

theorem keeps {I P Q : σ → Prop} (hi : ∀ n, I (e.state n))
    (hstep : ∀ s l t, I s → P s → step s l = some t → Q t ∨ P t) {n : Nat} (hp : P (e.state n))
    (hq : ∀ m, n ≤ m → ¬ Q (e.state m)) {m : Nat} (hm : n ≤ m) : P (e.state m) := by
  induction m, hm using Nat.le_induction with
  | base => exact hp
  | succ m hm ih =>
    rcases e.next m with ⟨_,hs⟩ | ⟨l,_,hs⟩
    · exact hs ▸ ih
    · exact (hstep _ l _ (hi m) ih hs).resolve_left (hq (m+1) (by omega))

/-- Whenever `P` holds, `Q` holds then or later. -/
def LeadsTo (e : Execution step) (P Q : σ → Prop) : Prop :=
  ∀ n, P (e.state n) → ∃ m, n ≤ m ∧ Q (e.state m)

namespace LeadsTo

variable {P Q R : σ → Prop}

theorem of_imp (h : ∀ s, P s → Q s) : e.LeadsTo P Q := fun n hp => ⟨n,le_refl n,h _ hp⟩

theorem trans (h₁ : e.LeadsTo P Q) (h₂ : e.LeadsTo Q R) : e.LeadsTo P R := by
  intro n hp
  obtain ⟨m,hm,hq⟩ := h₁ n hp
  obtain ⟨k,hk,hr⟩ := h₂ m hq
  exact ⟨k,hm.trans hk,hr⟩

theorem or (h₁ : e.LeadsTo P R) (h₂ : e.LeadsTo Q R) : e.LeadsTo (fun s => P s ∨ Q s) R :=
  fun n h => h.elim (h₁ n) (h₂ n)

theorem of_exists {α : Type*} {P : α → σ → Prop} (h : ∀ a, e.LeadsTo (P a) R) :
    e.LeadsTo (fun s => ∃ a, P a s) R := fun n hp => hp.elim (fun a ha => h a n ha)

end LeadsTo

/-- Response rule: while `P` holds a fair step can be taken; no step raises the rank and a fair one
lowers it, unless `Q` comes. -/
theorem leadsTo_of_rank {α : Type*} [Preorder α] [WellFoundedLT α] {I P Q : σ → Prop} {μ : σ → α}
    (hi : ∀ n, I (e.state n))
    (hstep : ∀ s l t, I s → P s → step s l = some t → Q t ∨ (P t ∧ μ t ≤ μ s ∧ (p s l → μ t < μ s)))
    (hen : ∀ s, I s → P s → Enabled step p s) (hfair : e.WeaklyFair p) : e.LeadsTo P Q := by
  intro n hp
  induction hr : μ (e.state n) using WellFoundedLT.induction generalizing n with
  | ind r ih =>
    by_contra hq
    have hq : ∀ m, n ≤ m → ¬ Q (e.state m) := fun m hm hqm => hq ⟨m,hm,hqm⟩
    have hkeep : ∀ m, n ≤ m → P (e.state m) ∧ μ (e.state m) ≤ r := by
      intro m hm
      refine keeps (P := fun s => P s ∧ μ s ≤ r) hi (fun s l t his hps hs => ?_) ⟨hp,hr.le⟩ hq hm
      exact (hstep s l t his hps.1 hs).imp_right (fun h => ⟨h.1,h.2.1.trans hps.2⟩)
    obtain ⟨m,hm,ht⟩ := hfair n (fun m hm => hen _ (hi m) (hkeep m hm).1)
    obtain ⟨l,hpl,hs⟩ := step_of_takes ht
    rcases hstep _ l _ (hi m) (hkeep m hm).1 hs with hqt | ⟨hpt,_,hlt⟩
    · exact hq (m+1) (by omega) hqt
    · obtain ⟨k,hk,hqk⟩ := ih (μ (e.state (m+1))) ((hlt hpl).trans_le (hkeep m hm).2) (m+1) hpt rfl
      exact hq k (by omega) hqk

theorem ensures {I P Q : σ → Prop} (hi : ∀ n, I (e.state n))
    (hstep : ∀ s l t, I s → P s → step s l = some t → Q t ∨ (P t ∧ ¬ p s l))
    (hen : ∀ s, I s → P s → Enabled step p s) (hfair : e.WeaklyFair p) : e.LeadsTo P Q :=
  leadsTo_of_rank (μ := fun _ => 0) hi (fun s l t his hps hs => (hstep s l t his hps hs).imp_right
    (fun h => ⟨h.1,le_refl 0,fun hpl => absurd hpl h.2⟩)) hen hfair

theorem ensures_strongly {I P Q : σ → Prop} (hi : ∀ n, I (e.state n))
    (hstep : ∀ s l t, I s → P s → step s l = some t → Q t ∨ (P t ∧ ¬ p s l))
    (hen : ∀ n, (∀ m, n ≤ m → P (e.state m)) → ∃ k, n ≤ k ∧ Enabled step p (e.state k))
    (hfair : e.StronglyFair p) : e.LeadsTo P Q := by
  intro n hp
  by_contra hq
  have hq : ∀ m, n ≤ m → ¬ Q (e.state m) := fun m hm hqm => hq ⟨m,hm,hqm⟩
  have hkeep : ∀ m, n ≤ m → P (e.state m) := fun m hm =>
    keeps hi (fun s l t his hps hs => (hstep s l t his hps hs).imp_right And.left) hp hq hm
  obtain ⟨m,hm,ht⟩ := hfair n (fun m hm => hen m (fun j hj => hkeep j (hm.trans hj)))
  obtain ⟨l,hpl,hs⟩ := step_of_takes ht
  rcases hstep _ l _ (hi m) (hkeep m hm) hs with hqt | ⟨_,hnp⟩
  · exact hq (m+1) (by omega) hqt
  · exact hnp hpl

def ofRun {s t : σ} {ls : List ℓ} (h : run step s ls = some t) : Execution step where
  state n := (run step s (ls.take n)).getD s
  label n := ls[n]?
  next n := by
    by_cases hn : n < ls.length
    · right
      refine ⟨ls[n],List.getElem?_eq_getElem hn,?_⟩
      have hsplit := h
      rw [← List.take_append_drop (n+1) ls,run_append] at hsplit
      obtain ⟨v,hv,_⟩ := Option.bind_eq_some_iff.mp hsplit
      rw [hv]
      rw [List.take_succ_eq_append_getElem hn] at hv
      obtain ⟨u,hu,hs⟩ := run_snoc hv
      rw [hu]
      exact hs
    · left
      refine ⟨List.getElem?_eq_none (by omega),?_⟩
      rw [List.take_of_length_le (by omega),List.take_of_length_le (by omega)]

section OfRun

variable {s t : σ} {ls : List ℓ} (h : run step s ls = some t)

theorem ofRun_zero : (ofRun h).state 0 = s := rfl

theorem ofRun_end {n : Nat} (hn : ls.length ≤ n) : (ofRun h).state n = t := by
  show (run step s (ls.take n)).getD s = t
  rw [List.take_of_length_le hn,h,Option.getD_some]

theorem ofRun_weaklyFair (hp : ¬ Enabled step p t) : (ofRun h).WeaklyFair p := by
  intro n hn
  refine absurd (hn (n+ls.length) (by omega)) ?_
  rwa [ofRun_end h (by omega)]

theorem ofRun_stronglyFair (hp : ¬ Enabled step p t) : (ofRun h).StronglyFair p := by
  intro n hn
  obtain ⟨k,hk,hen⟩ := hn (n+ls.length) (by omega)
  rw [ofRun_end h (by omega)] at hen
  exact absurd hen hp

end OfRun

end Execution

end Machine
