import Mathlib.Data.List.Basic
import Mathlib.Order.Bounds.Basic
set_option autoImplicit false

/-!
Folds over key-value pairs in which every field of a state follows a key of its
own. The result depends on the values of each key alone.
-/

namespace KeyedFold

section Given

variable {κ ν : Type} [DecidableEq κ]

/-- The values given for a key, in order. -/
def given (key : κ) (pairs : List (κ × ν)) : List ν :=
  (pairs.filter (·.1 = key)).map Prod.snd

@[simp] theorem given_nil (key : κ) : given key ([] : List (κ × ν)) = [] := rfl

@[simp] theorem given_cons (key : κ) (kv : κ × ν) (pairs : List (κ × ν)) :
    given key (kv :: pairs) = if kv.1 = key then kv.2 :: given key pairs else given key pairs := by
  unfold given
  by_cases h : kv.1 = key <;> simp [h]

@[simp] theorem given_append (key : κ) (as bs : List (κ × ν)) :
    given key (as ++ bs) = given key as ++ given key bs := by
  simp [given]

theorem given_swap {k₁ k₂ : κ} (h : k₁ ≠ k₂) (v₁ v₂ : ν) (key : κ) (as bs : List (κ × ν)) :
    given key (as ++ (k₁,v₁) :: (k₂,v₂) :: bs) = given key (as ++ (k₂,v₂) :: (k₁,v₁) :: bs) := by
  by_cases h₁ : k₁ = key
  · have h₂ : k₂ ≠ key := fun h₂ => h (h₁.trans h₂.symm)
    simp [h₁,h₂]
  · simp [h₁]

end Given

theorem foldl_twice {β : Type} (f : β → β → β) [ha : Std.Associative f] [hi : Std.IdempotentOp f]
    (vs : List β) (a : β) : vs.foldl f (vs.foldl f a) = vs.foldl f a := by
  cases vs with
  | nil => rfl
  | cons v vs =>
    have hout : ∀ (us : List β) (b c : β), us.foldl f (f b c) = f b (us.foldl f c) := by
      intro us
      induction us with
      | nil => exact fun _ _ => rfl
      | cons u us ih => exact fun b c => by rw [List.foldl_cons,List.foldl_cons,ha.assoc,ih]
    rw [List.foldl_cons,List.foldl_cons,hout,hout,ha.assoc,hi.idempotent]

theorem foldl_same {β : Type} (f : β → β → β) [hi : Std.IdempotentOp f] {vs : List β} {a b : β}
    (hv : ∀ v ∈ vs, v = b) (hb : f a b = b) : vs.foldl f a = if vs = [] then a else b := by
  induction vs generalizing a with
  | nil => rfl
  | cons v vs ih =>
    obtain rfl : v = b := hv v List.mem_cons_self
    rw [List.foldl_cons,hb,ih (fun u hu => hv u (List.mem_cons_of_mem _ hu)) (hi.idempotent v)]
    simp

def last {β : Type} (_ b : β) : β := b

instance {β : Type} : Std.Associative (last (β := β)) := ⟨fun _ _ _ => rfl⟩

instance {β : Type} : Std.IdempotentOp (last (β := β)) := ⟨fun _ => rfl⟩

theorem foldl_last {β : Type} (vs : List β) (a : β) : vs.foldl last a = vs.getLastD a := by
  induction vs generalizing a with
  | nil => rfl
  | cons v vs ih => rw [List.foldl_cons,ih,last,List.getLastD_cons]

theorem foldl_or (vs : List Bool) (a : Bool) : vs.foldl or a = (a || vs.any id) := by
  induction vs generalizing a with
  | nil => simp
  | cons v vs ih => rw [List.foldl_cons,ih,List.any_cons,Bool.or_assoc,id]

theorem foldl_and (vs : List Bool) (a : Bool) : vs.foldl and a = (a && vs.all id) := by
  induction vs generalizing a with
  | nil => simp
  | cons v vs ih => rw [List.foldl_cons,ih,List.all_cons,Bool.and_assoc,id]

theorem isLeast_foldl_min {β : Type} [LinearOrder β] (vs : List β) (a : β) :
    IsLeast {b | b = a ∨ b ∈ vs} (vs.foldl min a) := by
  induction vs generalizing a with
  | nil => simp [IsLeast,lowerBounds]
  | cons v vs ih =>
    obtain ⟨hm,hl⟩ := ih (min a v)
    rw [List.foldl_cons]
    constructor
    · rcases hm with hm | hm
      · rcases le_total a v with hc | hc
        · exact Or.inl (hm.trans (min_eq_left hc))
        · exact Or.inr (by rw [hm,min_eq_right hc]; exact List.mem_cons_self)
      · exact Or.inr (List.mem_cons_of_mem _ hm)
    · have hle := hl (Or.inl rfl)
      intro b hb
      rcases hb with rfl | hb
      · exact hle.trans (min_le_left _ _)
      · rcases List.mem_cons.mp hb with rfl | hb
        · exact hle.trans (min_le_right _ _)
        · exact hl (Or.inr hb)

theorem foldlM_cons_ok {σ α ε : Type} {step : σ → α → Except ε σ} {s t : σ} {a : α} {as : List α}
    (hr : (a :: as).foldlM step s = .ok t) : ∃ u, step s a = .ok u ∧ as.foldlM step u = .ok t := by
  rw [List.foldlM_cons] at hr
  cases hs : step s a with
  | error e => simp [hs,bind,Except.bind] at hr
  | ok u =>
    rw [hs] at hr
    exact ⟨u,rfl,hr⟩

theorem accepted_of_foldlM {σ α ε : Type} {step : σ → α → Except ε σ} {s t : σ} {as : List α}
    (hr : as.foldlM step s = .ok t) : ∀ a ∈ as, ∃ s' t, step s' a = .ok t := by
  induction as generalizing s with
  | nil => intro a hm; cases hm
  | cons a as ih =>
    obtain ⟨u,hs,hr⟩ := foldlM_cons_ok hr
    intro b hm
    rcases List.mem_cons.mp hm with rfl | hm
    · exact ⟨s,u,hs⟩
    · exact ih hr b hm

/-- How a field follows its key: a value is read, and combined with what the field holds. -/
structure Rule (σ κ ν ε : Type) where
  Value : Type
  key : κ
  get : σ → Value
  put : σ → Value → σ
  read : ν → Except ε Value
  combine : Value → Value → Value

namespace Rule

variable {σ κ ν ε : Type} (r : Rule σ κ ν ε)

def answer (s : σ) (v : ν) : Except ε σ := do
  let x ← r.read v
  pure (r.put s (r.combine (r.get s) x))

def values [DecidableEq κ] (pairs : List (κ × ν)) : List r.Value :=
  (given r.key pairs).filterMap (fun v => (r.read v).toOption)

theorem answer_eq_ok {s t : σ} {v : ν} :
    r.answer s v = .ok t ↔ ∃ x, r.read v = .ok x ∧ r.put s (r.combine (r.get s) x) = t := by
  unfold answer
  cases h : r.read v with
  | error e => simp [bind,Except.bind]
  | ok x => simp [bind,Except.bind,pure,Except.pure]

end Rule

variable {σ κ ν ε ρ ι : Type}

/-- Every pair acts on the field of its key, if there is one, and on nothing else. -/
structure Keyed (rule : ι → Rule σ κ ν ε) (rest : σ → ρ) (step : σ → κ × ν → Except ε σ) :
    Prop where
  known : ∀ i s v, step s ((rule i).key,v) = (rule i).answer s v
  unknown : ∀ s k v, (∀ i, k ≠ (rule i).key) → step s (k,v) = .ok s
  injective : ∀ i j, (rule i).key = (rule j).key → i = j
  get_put : ∀ i s x, (rule i).get ((rule i).put s x) = x
  get_put_other : ∀ i j s x, i ≠ j → (rule j).get ((rule i).put s x) = (rule j).get s
  rest_put : ∀ i s x, rest ((rule i).put s x) = rest s
  ext : ∀ s t, rest s = rest t → (∀ i, (rule i).get s = (rule i).get t) → s = t

namespace Keyed

variable {rule : ι → Rule σ κ ν ε} {rest : σ → ρ} {step : σ → κ × ν → Except ε σ}
  (h : Keyed rule rest step)

include h

theorem step_cases {s t : σ} {kv : κ × ν} (hs : step s kv = .ok t) :
    (∃ i x, kv.1 = (rule i).key ∧ (rule i).read kv.2 = .ok x ∧
      t = (rule i).put s ((rule i).combine ((rule i).get s) x)) ∨
    ((∀ i, kv.1 ≠ (rule i).key) ∧ t = s) := by
  obtain ⟨k,v⟩ := kv
  by_cases hk : ∃ i, k = (rule i).key
  · obtain ⟨i,rfl⟩ := hk
    rw [h.known] at hs
    obtain ⟨x,hx,rfl⟩ := (rule i).answer_eq_ok.mp hs
    exact Or.inl ⟨i,x,rfl,hx,rfl⟩
  · have hn : ∀ i, k ≠ (rule i).key := fun i hi => hk ⟨i,hi⟩
    rw [h.unknown s k v hn] at hs
    exact Or.inr ⟨hn,(Except.ok.inj hs).symm⟩

theorem step_accepts {s t : σ} {kv : κ × ν} (hs : step s kv = .ok t) (s' : σ) :
    ∃ t', step s' kv = .ok t' := by
  obtain ⟨k,v⟩ := kv
  rcases h.step_cases hs with ⟨i,x,hk,hx,-⟩ | ⟨hk,-⟩
  · obtain rfl : k = (rule i).key := hk
    exact ⟨_,by rw [h.known]; exact (rule i).answer_eq_ok.mpr ⟨x,hx,rfl⟩⟩
  · exact ⟨s',h.unknown s' k v hk⟩

theorem step_rest {s t : σ} {kv : κ × ν} (hs : step s kv = .ok t) : rest t = rest s := by
  rcases h.step_cases hs with ⟨i,x,_,_,rfl⟩ | ⟨_,rfl⟩
  · exact h.rest_put i s _
  · rfl

theorem run_rest {s t : σ} {pairs : List (κ × ν)} (hr : pairs.foldlM step s = .ok t) :
    rest t = rest s := by
  induction pairs generalizing s with
  | nil => cases hr; rfl
  | cons kv pairs ih =>
    obtain ⟨u,hs,hr⟩ := foldlM_cons_ok hr
    exact (ih hr).trans (h.step_rest hs)

theorem run_accepts {s : σ} {pairs : List (κ × ν)}
    (ha : ∀ kv ∈ pairs, ∃ s' t, step s' kv = .ok t) : ∃ t, pairs.foldlM step s = .ok t := by
  induction pairs generalizing s with
  | nil => exact ⟨s,rfl⟩
  | cons kv pairs ih =>
    obtain ⟨s',u,hu⟩ := ha kv List.mem_cons_self
    obtain ⟨u',hu'⟩ := h.step_accepts hu s
    obtain ⟨t,ht⟩ := ih (s := u') (fun kv hm => ha kv (List.mem_cons_of_mem _ hm))
    exact ⟨t,by rw [List.foldlM_cons,hu']; exact ht⟩

variable [DecidableEq κ]

theorem step_values {s t : σ} {kv : κ × ν} (hs : step s kv = .ok t) (j : ι) :
    (rule j).get t = ((rule j).values [kv]).foldl (rule j).combine ((rule j).get s) ∧
      ∀ v ∈ given (rule j).key [kv], ∃ x, (rule j).read v = .ok x := by
  rcases h.step_cases hs with ⟨i,x,hk,hx,rfl⟩ | ⟨hk,rfl⟩
  · by_cases hj : i = j
    · subst hj
      refine ⟨?_,?_⟩
      · simp [Rule.values,hk,hx,h.get_put,Except.toOption]
      · simp [hk,hx]
    · have hn : kv.1 ≠ (rule j).key := fun he => hj (h.injective i j (hk.symm.trans he))
      simp [Rule.values,hn,h.get_put_other i j _ _ hj]
  · simp [Rule.values,hk j]

/-- Every field ends as the fold of the values of its key, all of which were readable. -/
theorem run_values {s t : σ} {pairs : List (κ × ν)} (hr : pairs.foldlM step s = .ok t) (j : ι) :
    (rule j).get t = ((rule j).values pairs).foldl (rule j).combine ((rule j).get s) ∧
      ∀ v ∈ given (rule j).key pairs, ∃ x, (rule j).read v = .ok x := by
  induction pairs generalizing s with
  | nil => cases hr; simp [Rule.values]
  | cons kv pairs ih =>
    obtain ⟨u,hs,hr⟩ := foldlM_cons_ok hr
    obtain ⟨hg,hv⟩ := ih hr
    obtain ⟨hg',hv'⟩ := h.step_values hs j
    rw [hg,hg']
    rw [show kv :: pairs = [kv] ++ pairs from rfl]
    refine ⟨by simp only [Rule.values,given_append,List.filterMap_append,List.foldl_append],?_⟩
    intro v hm
    rw [given_append] at hm
    exact (List.mem_append.mp hm).elim (hv' v) (hv v)

theorem run_eq {s t : σ} {as bs : List (κ × ν)} (hr : as.foldlM step s = .ok t)
    (hm : ∀ kv ∈ bs, kv ∈ as) (hg : ∀ i, given (rule i).key bs = given (rule i).key as) :
    bs.foldlM step s = .ok t := by
  obtain ⟨u,hu⟩ := h.run_accepts (s := s) (fun kv hb => accepted_of_foldlM hr kv (hm kv hb))
  rw [hu]
  refine congrArg Except.ok (h.ext u t ((h.run_rest hu).trans (h.run_rest hr).symm) (fun i => ?_))
  rw [(h.run_values hu i).1,(h.run_values hr i).1,Rule.values,Rule.values,hg i]

theorem run_swap {s t : σ} {as bs : List (κ × ν)} {k₁ k₂ : κ} {v₁ v₂ : ν} (hk : k₁ ≠ k₂)
    (hr : (as ++ (k₁,v₁) :: (k₂,v₂) :: bs).foldlM step s = .ok t) :
    (as ++ (k₂,v₂) :: (k₁,v₁) :: bs).foldlM step s = .ok t := by
  refine h.run_eq hr (fun kv hm => ?_) (fun i => (given_swap hk v₁ v₂ _ as bs).symm)
  simp only [List.mem_append,List.mem_cons] at hm ⊢
  tauto

theorem run_twice {s t : σ} {pairs : List (κ × ν)} (ha : ∀ i, Std.Associative (rule i).combine)
    (hi : ∀ i, Std.IdempotentOp (rule i).combine) (hr : pairs.foldlM step s = .ok t) :
    pairs.foldlM step t = .ok t := by
  obtain ⟨u,hu⟩ := h.run_accepts (s := t) (accepted_of_foldlM hr)
  rw [hu]
  refine congrArg Except.ok (h.ext u t (h.run_rest hu) (fun i => ?_))
  have := ha i
  have := hi i
  rw [(h.run_values hu i).1,(h.run_values hr i).1,foldl_twice]

end Keyed

end KeyedFold
