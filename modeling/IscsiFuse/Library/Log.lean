import Mathlib.Data.List.Basic
import Mathlib.Data.List.Nodup
set_option autoImplicit false

namespace Log

theorem split_snoc {α : Type*} {l pre post : List α} {e x : α} (h : l ++ [e] = pre ++ x :: post) :
    (post = [] ∧ e = x ∧ l = pre) ∨ ∃ post', post = post' ++ [e] ∧ l = pre ++ x :: post' := by
  rcases List.eq_nil_or_concat post with rfl | ⟨post',y,rfl⟩
  · obtain ⟨hl,he⟩ := List.append_inj' h rfl
    exact Or.inl ⟨rfl,by simpa using he,hl⟩
  · rw [List.concat_eq_append,← List.cons_append,← List.append_assoc] at h
    obtain ⟨hl,he⟩ := List.append_inj' h rfl
    have hey : e = y := by simpa using he
    exact Or.inr ⟨post',by rw [List.concat_eq_append,hey],hl⟩

theorem forall_snoc {α : Type*} {l : List α} {e : α} {P : Nat → α → Prop}
    (h : ∀ i x, l[i]? = some x → P i x) (he : P l.length e) :
    ∀ i x, (l ++ [e])[i]? = some x → P i x := by
  intro i x hx
  by_cases hi : i < l.length
  · exact h i x ((List.getElem?_append_left hi).symm.trans hx)
  · rw [List.getElem?_append_right (Nat.not_lt.mp hi),List.getElem?_singleton] at hx
    split at hx
    · cases hx
      obtain rfl : i = l.length := by omega
      exact he
    · cases hx

theorem mapM_isSome {α β : Type*} {f : α → Option β} {l : List α}
    (h : ∀ a ∈ l, ∃ b, f a = some b) : ∃ bs, l.mapM f = some bs := by
  induction l with
  | nil => exact ⟨[],rfl⟩
  | cons a l ih =>
    obtain ⟨b,hb⟩ := h a (List.mem_cons_self ..)
    obtain ⟨bs,hbs⟩ := ih (fun c hc => h c (List.mem_cons_of_mem _ hc))
    exact ⟨b :: bs,by simp [List.mapM_cons,hb,hbs]⟩

theorem prefix_length_eq {α : Type*} {l p : List α} {n : Nat} (hl : l.Nodup) (hp : p <+: l)
    (hn : n ≤ l.length) (h₁ : ∀ x ∈ l.take n, x ∈ p) (h₂ : ∀ x ∈ l.drop n, x ∉ p) :
    p.length = n := by
  obtain ⟨q,rfl⟩ := hp
  rcases Nat.lt_trichotomy p.length n with hlt | heq | hgt
  · have hq : 0 < q.length := by
      rw [List.length_append] at hn
      omega
    have hm : q[0] ∈ (p ++ q).take n := by
      rw [List.take_append,List.mem_append]
      refine Or.inr (List.mem_take_iff_getElem.mpr ⟨0,by omega,rfl⟩)
    exact absurd (h₁ _ hm) (fun hx => (List.nodup_append.mp hl).2.2 _ hx _ (List.getElem_mem hq) rfl)
  · exact heq
  · have hm : p[n] ∈ (p ++ q).drop n := by
      rw [List.drop_append,List.mem_append]
      exact Or.inl (List.mem_drop_iff_getElem.mpr ⟨0,by omega,by simp⟩)
    exact absurd (List.getElem_mem hgt) (h₂ _ hm)

section Since

variable {ε κ : Type*}

def since (opens : ε → Option κ) (closes : ε → Bool) (log : List ε) : Option κ :=
  log.foldl (fun x e => match opens e with
    | some k => some k
    | none => if closes e then none else x) none

variable {opens : ε → Option κ} {closes : ε → Bool} {log : List ε} {e : ε}

theorem since_opens {k : κ} (h : opens e = some k) : since opens closes (log ++ [e]) = some k := by
  rw [since,List.foldl_append]
  simp [h]

theorem since_closes (ho : opens e = none) (h : closes e = true) :
    since opens closes (log ++ [e]) = none := by
  rw [since,List.foldl_append]
  simp [ho,h]

theorem since_keeps (ho : opens e = none) (h : closes e = false) :
    since opens closes (log ++ [e]) = since opens closes log := by
  rw [since,List.foldl_append]
  simp [ho,h,since]

end Since

end Log
