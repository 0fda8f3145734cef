import Mathlib.Algebra.BigOperators.Group.Finset.Basic
import Mathlib.Data.List.Basic
import Mathlib.Tactic.TypeStar
set_option autoImplicit false

/-!
Executable labelled machines: a partial step function whose labels carry every
choice the environment makes. The run and induction rules below are used for
each component of the development; nothing here names one of them.
-/

namespace Machine

variable {σ ℓ : Type*}

/-- Execute the labels in order; a label that is not enabled has no result. -/
def run (step : σ → ℓ → Option σ) : σ → List ℓ → Option σ
  | s, [] => some s
  | s, l :: ls => (step s l).bind fun t => run step t ls

/-- Every step of the run meets `ok`, a condition on the state before the step
and on its label. -/
def Meets (step : σ → ℓ → Option σ) (ok : σ → ℓ → Prop) : σ → List ℓ → Prop
  | _, [] => True
  | s, l :: ls => ok s l ∧ ∀ t, step s l = some t → Meets step ok t ls

variable {step : σ → ℓ → Option σ} {ok : σ → ℓ → Prop}

@[simp] theorem run_nil (s : σ) : run step s [] = some s := rfl

@[simp] theorem run_cons (s : σ) (l : ℓ) (ls : List ℓ) :
    run step s (l :: ls) = (step s l).bind fun t => run step t ls := rfl

theorem run_append (s : σ) (ls ms : List ℓ) :
    run step s (ls ++ ms) = (run step s ls).bind fun t => run step t ms := by
  induction ls generalizing s with
  | nil => rfl
  | cons l ls ih => cases h : step s l <;> simp [h,ih]

theorem run_trans {s t u : σ} {ls ms : List ℓ} (h₁ : run step s ls = some t)
    (h₂ : run step t ms = some u) : run step s (ls ++ ms) = some u := by
  rw [run_append,h₁]
  exact h₂

theorem run_one {s t : σ} {l : ℓ} (h : step s l = some t) : run step s [l] = some t := by
  simp [h]

theorem run_snoc {s t : σ} {ls : List ℓ} {l : ℓ} (h : run step s (ls ++ [l]) = some t) :
    ∃ u, run step s ls = some u ∧ step u l = some t := by
  rw [run_append] at h
  obtain ⟨u,hu,hl⟩ := Option.bind_eq_some_iff.mp h
  exact ⟨u,hu,by simpa using hl⟩

theorem meets_cons {s t : σ} {l : ℓ} {ls : List ℓ} (hs : step s l = some t) :
    Meets step ok s (l :: ls) ↔ ok s l ∧ Meets step ok t ls := by
  constructor
  · intro h
    exact ⟨h.1,h.2 t hs⟩
  · intro ⟨h,hr⟩
    refine ⟨h,fun u hu => ?_⟩
    rw [hs] at hu
    cases hu
    exact hr

theorem meets_append {s t : σ} {ls ms : List ℓ} (hr : run step s ls = some t) :
    Meets step ok s (ls ++ ms) ↔ Meets step ok s ls ∧ Meets step ok t ms := by
  induction ls generalizing s with
  | nil =>
    cases hr
    simp [Meets]
  | cons l ls ih =>
    rw [run_cons] at hr
    obtain ⟨u,hu,hr⟩ := Option.bind_eq_some_iff.mp hr
    rw [List.cons_append,meets_cons hu,meets_cons hu,ih hr,and_assoc]

theorem meets_snoc {s t : σ} {ls : List ℓ} {l : ℓ} (hr : run step s ls = some t) :
    Meets step ok s (ls ++ [l]) ↔ Meets step ok s ls ∧ ok t l := by
  rw [meets_append hr]
  simp only [Meets,and_congr_right_iff,and_iff_left_iff_imp]
  intro _ _ _ _
  trivial

theorem meets_of_forall {s : σ} {ls : List ℓ} (h : ∀ l ∈ ls, ∀ s, ok s l) :
    Meets step ok s ls := by
  induction ls generalizing s with
  | nil => trivial
  | cons l ls ih => exact ⟨h l (by simp) s,fun t _ => ih (fun m hm => h m (by simp [hm]))⟩

theorem meets_labels {p : ℓ → Prop} {s t : σ} {ls : List ℓ} (hr : run step s ls = some t) :
    Meets step (fun _ l => p l) s ls ↔ ∀ l ∈ ls, p l := by
  induction ls generalizing s with
  | nil => simp [Meets]
  | cons l ls ih =>
    rw [run_cons] at hr
    obtain ⟨u,hu,hr⟩ := Option.bind_eq_some_iff.mp hr
    rw [meets_cons hu,ih hr,List.forall_mem_cons]

/-- Invariant rule for guarded runs: what every step that meets `ok` preserves
holds at the end of every run whose steps all meet `ok`. -/
theorem invariant {I : σ → Prop} {s t : σ} {ls : List ℓ}
    (hstep : ∀ s l t, I s → ok s l → step s l = some t → I t)
    (h0 : I s) (hm : Meets step ok s ls) (hr : run step s ls = some t) : I t := by
  induction ls generalizing s with
  | nil =>
    cases hr
    exact h0
  | cons l ls ih =>
    rw [run_cons] at hr
    obtain ⟨u,hu,hr⟩ := Option.bind_eq_some_iff.mp hr
    exact ih (hstep s l u h0 hm.1 hu) (hm.2 u hu) hr

theorem run_invariant_of {I : σ → Prop} {p : ℓ → Prop} {s t : σ} {ls : List ℓ}
    (hstep : ∀ s l t, I s → p l → step s l = some t → I t)
    (h0 : I s) (hl : ∀ l ∈ ls, p l) (hr : run step s ls = some t) : I t :=
  invariant hstep h0 (meets_of_forall (fun l h _ => hl l h)) hr

theorem run_invariant {I : σ → Prop} {s t : σ} {ls : List ℓ}
    (hstep : ∀ s l t, I s → step s l = some t → I t)
    (h0 : I s) (hr : run step s ls = some t) : I t := by
  have hm : Meets step (fun _ _ => True) s ls := meets_of_forall (fun _ _ _ => trivial)
  exact invariant (fun s l t hi _ hs => hstep s l t hi hs) h0 hm hr

/-- History rule: what holds of the empty run and is kept when a step is added to a run holds of
every run. -/
theorem run_history {P : List ℓ → σ → Prop} {s t : σ} {ls : List ℓ}
    (hstep : ∀ ls l t u, run step s ls = some t → P ls t → step t l = some u → P (ls ++ [l]) u)
    (h0 : P [] s) (hr : run step s ls = some t) : P ls t := by
  induction ls using List.reverseRecOn generalizing t with
  | nil =>
    cases hr
    exact h0
  | append_singleton ls l ih =>
    obtain ⟨u,hu,hl⟩ := run_snoc hr
    exact hstep ls l u t hu (ih hu) hl

def Reaches (step : σ → ℓ → Option σ) (p : ℓ → Prop) (s t : σ) : Prop :=
  ∃ ls, (∀ l ∈ ls, p l) ∧ run step s ls = some t

namespace Reaches

variable {p : ℓ → Prop} {s t u : σ}

theorem refl : Reaches step p s s := ⟨[],by simp,rfl⟩

theorem snoc {l : ℓ} (h : Reaches step p s u) (hp : p l) (hs : step u l = some t) :
    Reaches step p s t := by
  obtain ⟨ls,hl,hr⟩ := h
  refine ⟨ls ++ [l],fun m hm => ?_,run_trans hr (run_one hs)⟩
  rcases List.mem_append.mp hm with hm | hm
  · exact hl m hm
  · exact List.mem_singleton.mp hm ▸ hp

theorem keeps {I : σ → Prop} (h : Reaches step p s t)
    (hstep : ∀ s l t, I s → p l → step s l = some t → I t) (h0 : I s) : I t := by
  obtain ⟨ls,hl,hr⟩ := h
  exact run_invariant_of hstep h0 hl hr

end Reaches

theorem meets_congr {ok' : σ → ℓ → Prop} {s t : σ} {ls : List ℓ}
    (h : ∀ s l t, step s l = some t → (ok s l ↔ ok' s l)) (hr : run step s ls = some t) :
    Meets step ok s ls ↔ Meets step ok' s ls := by
  induction ls generalizing s with
  | nil => exact Iff.rfl
  | cons l ls ih =>
    rw [run_cons] at hr
    obtain ⟨u,hu,hr⟩ := Option.bind_eq_some_iff.mp hr
    rw [meets_cons hu,meets_cons hu,h s l u hu,ih hr]

theorem meets_of_invariant {I : σ → Prop} {s : σ} {ls : List ℓ}
    (hstep : ∀ s l t, I s → step s l = some t → I t) (hok : ∀ s l, I s → ok s l) (h0 : I s) :
    Meets step ok s ls := by
  induction ls generalizing s with
  | nil => trivial
  | cons l ls ih => exact ⟨hok s l h0,fun t ht => ih (hstep s l t h0 ht)⟩

theorem meets_and {ok' : σ → ℓ → Prop} {s : σ} {ls : List ℓ} (h : Meets step ok s ls)
    (h' : Meets step ok' s ls) : Meets step (fun s l => ok s l ∧ ok' s l) s ls := by
  induction ls generalizing s with
  | nil => trivial
  | cons l ls ih => exact ⟨⟨h.1,h'.1⟩,fun t ht => ih (h.2 t ht) (h'.2 t ht)⟩

def check (step : σ → ℓ → Option σ) (ok : σ → ℓ → Prop) [∀ s l, Decidable (ok s l)] :
    σ → List ℓ → Bool
  | _, [] => true
  | s, l :: ls => decide (ok s l) && match step s l with
      | some t => check step ok t ls
      | none => true

theorem meets_of_check [∀ s l, Decidable (ok s l)] {s : σ} {ls : List ℓ}
    (h : check step ok s ls = true) : Meets step ok s ls := by
  induction ls generalizing s with
  | nil => trivial
  | cons l ls ih =>
    rw [check,Bool.and_eq_true,decide_eq_true_iff] at h
    refine ⟨h.1,fun t ht => ih ?_⟩
    have ht' := h.2
    rwa [ht] at ht'

/-- `P` holds in every state that the run goes through. -/
def Always (step : σ → ℓ → Option σ) (P : σ → Prop) : σ → List ℓ → Prop
  | s, [] => P s
  | s, l :: ls => P s ∧ ∀ t, step s l = some t → Always step P t ls

theorem always_cons {P : σ → Prop} {s t : σ} {l : ℓ} {ls : List ℓ} (hs : step s l = some t) :
    Always step P s (l :: ls) ↔ P s ∧ Always step P t ls := by
  constructor
  · intro h
    exact ⟨h.1,h.2 t hs⟩
  · intro ⟨h,hr⟩
    refine ⟨h,fun u hu => ?_⟩
    rw [hs] at hu
    cases hu
    exact hr

theorem always_head {P : σ → Prop} {s : σ} {ls : List ℓ} (h : Always step P s ls) : P s := by
  cases ls with
  | nil => exact h
  | cons l ls => exact h.1

/-- Exactness rule for guarded runs. If a step out of a state with `P` reaches one with `P`
exactly when it meets `ok`, then `P` lasts through a run exactly when its steps meet `ok`.
The invariant `J` may be used on the way. -/
theorem always_iff_meets {J P : σ → Prop} {guard : σ → ℓ → Prop} {s t : σ} {ls : List ℓ}
    (hinv : ∀ s l t, J s → guard s l → step s l = some t → J t)
    (hstep : ∀ s l t, J s → P s → guard s l → step s l = some t → (P t ↔ ok s l))
    (hj : J s) (hp : P s) (hg : Meets step guard s ls) (hr : run step s ls = some t) :
    Always step P s ls ↔ Meets step ok s ls := by
  induction ls generalizing s with
  | nil => exact ⟨fun _ => trivial,fun _ => hp⟩
  | cons l ls ih =>
    rw [run_cons] at hr
    obtain ⟨u,hu,hr⟩ := Option.bind_eq_some_iff.mp hr
    obtain ⟨hgl,hg⟩ := (meets_cons hu).mp hg
    have hi := hstep s l u hj hp hgl hu
    have hju := hinv s l u hj hgl hu
    rw [always_cons hu,meets_cons hu]
    constructor
    · intro ⟨_,ha⟩
      have hpu := always_head ha
      exact ⟨hi.mp hpu,(ih hju hpu hg hr).mp ha⟩
    · intro ⟨ho,hm⟩
      have hpu := hi.mpr ho
      exact ⟨hp,(ih hju hpu hg hr).mpr hm⟩

/-- Refinement rule: if every guarded step is a guarded step of the image or leaves it alone,
a run is a run of the image. -/
theorem run_refines {τ κ : Type*} {step' : τ → κ → Option τ} {ok' : τ → κ → Prop} {f : σ → τ}
    {I : σ → Prop} {s t : σ} {ls : List ℓ}
    (hstep : ∀ s l t, I s → ok s l → step s l = some t → I t ∧
      (f t = f s ∨ ∃ k, ok' (f s) k ∧ step' (f s) k = some (f t)))
    (h0 : I s) (hm : Meets step ok s ls) (hr : run step s ls = some t) :
    I t ∧ ∃ ks, run step' (f s) ks = some (f t) ∧ Meets step' ok' (f s) ks := by
  induction ls generalizing s with
  | nil =>
    cases hr
    exact ⟨h0,[],rfl,trivial⟩
  | cons l ls ih =>
    rw [run_cons] at hr
    obtain ⟨u,hu,hr⟩ := Option.bind_eq_some_iff.mp hr
    obtain ⟨hi,hs⟩ := hstep s l u h0 hm.1 hu
    obtain ⟨ht,ks,hks,hok⟩ := ih hi (hm.2 u hu) hr
    rcases hs with hs | ⟨k,hk,hs⟩
    · exact ⟨ht,ks,hs ▸ hks,hs ▸ hok⟩
    · exact ⟨ht,k :: ks,by rw [run_cons,hs]; exact hks,(meets_cons hs).mpr ⟨hk,hok⟩⟩

/-- Simulation rule: if every guarded step keeps a relation to another machine, which takes one
step of its own or none, a run is matched by a run. -/
theorem run_simulates {τ κ : Type*} {f : τ → κ → Option τ} {R : σ → τ → Prop} {q : κ → Prop}
    {s t : σ} {u : τ} {ls : List ℓ}
    (hstep : ∀ s l t u, R s u → ok s l → step s l = some t →
      R t u ∨ ∃ k v, q k ∧ f u k = some v ∧ R t v)
    (h0 : R s u) (hm : Meets step ok s ls) (hr : run step s ls = some t) :
    ∃ ks v, (∀ k ∈ ks, q k) ∧ run f u ks = some v ∧ R t v := by
  induction ls generalizing s u with
  | nil =>
    cases hr
    exact ⟨[],u,by simp,rfl,h0⟩
  | cons l ls ih =>
    rw [run_cons] at hr
    obtain ⟨s',hs,hr⟩ := Option.bind_eq_some_iff.mp hr
    rcases hstep s l s' u h0 hm.1 hs with h | ⟨k,u',hk,hu,h⟩
    · exact ih h (hm.2 s' hs) hr
    · obtain ⟨ks,v,hks,hv,ht⟩ := ih h (hm.2 s' hs) hr
      refine ⟨k :: ks,v,?_,by rw [run_cons,hu]; exact hv,ht⟩
      intro j hj
      rcases List.mem_cons.mp hj with rfl | hj
      · exact hk
      · exact hks j hj

section Potential

/-- Termination rule for guarded runs: a potential that every step lowers bounds the length
of every run. -/
theorem run_length_le {I : σ → Prop} {Φ : σ → Nat} {s t : σ} {ls : List ℓ}
    (hinv : ∀ s l t, I s → ok s l → step s l = some t → I t)
    (hstep : ∀ s l t, I s → step s l = some t → Φ t < Φ s) (h0 : I s)
    (hm : Meets step ok s ls) (hr : run step s ls = some t) : ls.length+Φ t ≤ Φ s := by
  induction ls generalizing s with
  | nil =>
    cases hr
    simp
  | cons l ls ih =>
    rw [run_cons] at hr
    obtain ⟨u,hu,hr⟩ := Option.bind_eq_some_iff.mp hr
    have hlt := hstep s l u h0 hu
    have hle := ih (hinv s l u h0 hm.1 hu) (hm.2 u hu) hr
    rw [List.length_cons]
    omega

/-- The number of steps of a run that meet `p`. -/
def count (step : σ → ℓ → Option σ) (p : σ → ℓ → Bool) : σ → List ℓ → Nat
  | _, [] => 0
  | s, l :: ls => (if p s l then 1 else 0)+(step s l).elim 0 (fun t => count step p t ls)

theorem count_cons {p : σ → ℓ → Bool} {s t : σ} {l : ℓ} {ls : List ℓ} (hs : step s l = some t) :
    count step p s (l :: ls) = (if p s l then 1 else 0)+count step p t ls := by
  rw [count,hs,Option.elim_some]

theorem count_snoc {p : σ → ℓ → Bool} {s t : σ} {ls : List ℓ} (l : ℓ) (hr : run step s ls = some t) :
    count step p s (ls ++ [l]) = count step p s ls+(if p t l then 1 else 0) := by
  induction ls generalizing s with
  | nil =>
    cases hr
    cases h : step t l <;> simp [count,h]
  | cons a ls ih =>
    rw [run_cons] at hr
    obtain ⟨u,hu,hr⟩ := Option.bind_eq_some_iff.mp hr
    rw [List.cons_append,count_cons hu,count_cons hu,ih hr,Nat.add_assoc]

/-- Progress rule for guarded runs: a potential that no step raises and every step in `p` lowers
bounds the number of these. -/
theorem count_le {I : σ → Prop} {Φ : σ → Nat} {p : σ → ℓ → Bool} {s t : σ} {ls : List ℓ}
    (hstep : ∀ s l t, I s → ok s l → step s l = some t →
      I t ∧ Φ t+(if p s l then 1 else 0) ≤ Φ s)
    (h0 : I s) (hm : Meets step ok s ls) (hr : run step s ls = some t) :
    count step p s ls+Φ t ≤ Φ s := by
  induction ls generalizing s with
  | nil =>
    cases hr
    simp [count]
  | cons l ls ih =>
    rw [run_cons] at hr
    obtain ⟨u,hu,hr⟩ := Option.bind_eq_some_iff.mp hr
    obtain ⟨hi,hle⟩ := hstep s l u h0 hm.1 hu
    have hrest := ih hi (hm.2 u hu) hr
    rw [count_cons hu]
    omega

theorem sum_update {α : Type*} {f : Nat → α} (g : Nat → α → Nat) {m i : Nat} (hi : i < m) (v : α) :
    ∑ j ∈ Finset.range m, g j (Function.update f i v j)+g i (f i) =
      ∑ j ∈ Finset.range m, g j (f j)+g i v := by
  have hm := Finset.mem_range.mpr hi
  rw [← Finset.add_sum_erase _ _ hm,← Finset.add_sum_erase _ (fun j => g j (f j)) hm,
    Function.update_self]
  have hsame : ∑ j ∈ (Finset.range m).erase i, g j (Function.update f i v j) =
      ∑ j ∈ (Finset.range m).erase i, g j (f j) :=
    Finset.sum_congr rfl (fun j hj => by rw [Function.update_of_ne (Finset.ne_of_mem_erase hj)])
  rw [hsame]
  omega

end Potential

section Settle

variable {next : σ → Option σ} {done : σ → Bool} {s t u : σ}

def settle (next : σ → Option σ) (done : σ → Bool) : Nat → σ → Option σ
  | 0, _ => none
  | n+1, s => if done s then some s else (next s).bind (settle next done n)

def Settles (next : σ → Option σ) (done : σ → Bool) (s t : σ) : Prop :=
  ∃ n, settle next done n s = some t

theorem settles_done (h : done s = true) : Settles next done s t ↔ t = s := by
  constructor
  · intro ⟨n,hn⟩
    cases n with
    | zero => cases hn
    | succ n =>
      rw [settle,if_pos h] at hn
      exact (Option.some.inj hn).symm
  · intro ht
    exact ⟨1,by rw [settle,if_pos h,ht]⟩

theorem settles_step (h : done s = false) (hs : next s = some u) :
    Settles next done s t ↔ Settles next done u t := by
  have hn : ∀ n, settle next done (n+1) s = settle next done n u := by
    intro n
    rw [settle,h,hs]
    rfl
  constructor
  · intro ⟨n,ht⟩
    cases n with
    | zero => cases ht
    | succ n => exact ⟨n,(hn n).symm.trans ht⟩
  · intro ⟨n,ht⟩
    exact ⟨n+1,(hn n).trans ht⟩

theorem not_settles (h : done s = false) (hs : next s = none) : ¬ Settles next done s t := by
  intro ⟨n,hn⟩
  cases n with
  | zero => cases hn
  | succ n =>
    rw [settle,h,hs] at hn
    cases hn

theorem settles_is_done (h : Settles next done s t) : done t = true := by
  obtain ⟨n,hn⟩ := h
  induction n generalizing s with
  | zero => cases hn
  | succ n ih =>
    cases hd : done s with
    | true =>
      rw [settle,hd] at hn
      exact Option.some.inj hn ▸ hd
    | false =>
      rw [settle,hd] at hn
      obtain ⟨u,_,hn⟩ := Option.bind_eq_some_iff.mp hn
      exact ih hn

theorem settles_invariant {I : σ → Prop}
    (hstep : ∀ s u, I s → done s = false → next s = some u → I u) (h0 : I s)
    (h : Settles next done s t) : I t := by
  obtain ⟨n,hn⟩ := h
  induction n generalizing s with
  | zero => cases hn
  | succ n ih =>
    cases hd : done s with
    | true =>
      rw [settle,hd] at hn
      exact Option.some.inj hn ▸ h0
    | false =>
      rw [settle,hd] at hn
      obtain ⟨u,hu,hn⟩ := Option.bind_eq_some_iff.mp hn
      exact ih (hstep s u h0 hd hu) hn

end Settle

end Machine
