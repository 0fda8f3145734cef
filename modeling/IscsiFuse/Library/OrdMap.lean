import Mathlib.Algebra.Order.BigOperators.Group.List
import Mathlib.Algebra.Order.Ring.Nat
import Mathlib.Order.Lattice
import Mathlib.Data.List.Basic
import Mathlib.Data.List.Pairwise
set_option autoImplicit false

/-!
Ordered maps as key-sorted association lists: the operations of a B-tree map
that the development uses, over any linearly ordered key.
-/

structure OrdMap (κ α : Type*) [LinearOrder κ] where
  entries : List (κ × α)
  sorted : entries.Pairwise (fun a b => a.1 < b.1)

namespace OrdMap

variable {κ α : Type*} [LinearOrder κ]

def empty : OrdMap κ α := ⟨[],List.Pairwise.nil⟩

def put (k : κ) (v : α) : List (κ × α) → List (κ × α)
  | [] => [(k,v)]
  | e :: r => if k < e.1 then (k,v) :: e :: r
      else if k = e.1 then (k,v) :: r else e :: put k v r

theorem mem_put {k : κ} {v : α} {es : List (κ × α)} (hs : es.Pairwise (fun a b => a.1 < b.1))
    (e : κ × α) : e ∈ put k v es ↔ e = (k,v) ∨ (e ∈ es ∧ e.1 ≠ k) := by
  induction es with
  | nil => simp [put]
  | cons f r ih =>
    obtain ⟨hf,hr⟩ := List.pairwise_cons.mp hs
    unfold put
    split
    · rename_i hk
      have hne : ∀ x ∈ f :: r, x.1 ≠ k := by
        intro x hx
        rcases List.mem_cons.mp hx with rfl | hx
        · exact ne_of_gt hk
        · exact ne_of_gt (lt_trans hk (hf x hx))
      rw [List.mem_cons]
      exact or_congr_right ⟨fun h => ⟨h,hne e h⟩,fun h => h.1⟩
    · split
      · rename_i hk
        subst hk
        have hne : ∀ x ∈ r, x.1 ≠ f.1 := fun x hx => ne_of_gt (hf x hx)
        simp only [List.mem_cons]
        constructor
        · rintro (h | h)
          · exact Or.inl h
          · exact Or.inr ⟨Or.inr h,hne e h⟩
        · rintro (h | ⟨rfl | h,hn⟩)
          · exact Or.inl h
          · exact absurd rfl hn
          · exact Or.inr h
      · rename_i hk
        simp only [List.mem_cons,ih hr]
        constructor
        · rintro (rfl | h | h)
          · exact Or.inr ⟨Or.inl rfl,fun h => hk h.symm⟩
          · exact Or.inl h
          · exact Or.inr ⟨Or.inr h.1,h.2⟩
        · rintro (h | ⟨h | h,hn⟩)
          · exact Or.inr (Or.inl h)
          · exact Or.inl h
          · exact Or.inr (Or.inr ⟨h,hn⟩)

theorem put_sorted {k : κ} {v : α} {es : List (κ × α)}
    (hs : es.Pairwise (fun a b => a.1 < b.1)) :
    (put k v es).Pairwise (fun a b => a.1 < b.1) := by
  induction es with
  | nil => exact List.pairwise_singleton _ _
  | cons f r ih =>
    obtain ⟨hf,hr⟩ := List.pairwise_cons.mp hs
    unfold put
    split
    · rename_i hk
      refine List.pairwise_cons.mpr ⟨fun x hx => ?_,hs⟩
      rcases List.mem_cons.mp hx with rfl | hx
      · exact hk
      · exact lt_trans hk (hf x hx)
    · split
      · rename_i hk
        subst hk
        exact List.pairwise_cons.mpr ⟨hf,hr⟩
      · rename_i hlt hne
        refine List.pairwise_cons.mpr ⟨fun x hx => ?_,ih hr⟩
        rcases (mem_put hr x).mp hx with rfl | ⟨hx,_⟩
        · exact lt_of_le_of_ne (not_lt.mp hlt) (fun h => hne h.symm)
        · exact hf x hx

def insert (m : OrdMap κ α) (k : κ) (v : α) : OrdMap κ α := ⟨put k v m.entries,put_sorted m.sorted⟩

def get? (m : OrdMap κ α) (k : κ) : Option α := (m.entries.find? (fun e => e.1 = k)).map Prod.snd

def lastLe (m : OrdMap κ α) (k : κ) : Option (κ × α) := (m.entries.filter (fun e => e.1 ≤ k)).getLast?

@[simp] theorem mem_insert (m : OrdMap κ α) (k : κ) (v : α) (e : κ × α) :
    e ∈ (m.insert k v).entries ↔ e = (k,v) ∨ (e ∈ m.entries ∧ e.1 ≠ k) := mem_put m.sorted e

@[simp] theorem entries_empty : (empty : OrdMap κ α).entries = [] := rfl

theorem key_unique (m : OrdMap κ α) {a b : κ × α} (ha : a ∈ m.entries) (hb : b ∈ m.entries)
    (h : a.1 = b.1) : a = b := by
  by_contra hne
  have hp : m.entries.Pairwise (fun a b => a.1 ≠ b.1) := m.sorted.imp ne_of_lt
  have : Std.Symm (fun a b : κ × α => a.1 ≠ b.1) := ⟨fun _ _ h => Ne.symm h⟩
  exact hp.forall ha hb hne h

theorem get?_eq_some (m : OrdMap κ α) (k : κ) (v : α) :
    m.get? k = some v ↔ (k,v) ∈ m.entries := by
  unfold get?
  constructor
  · intro h
    obtain ⟨e,he,rfl⟩ := Option.map_eq_some_iff.mp h
    have hk : e.1 = k := by simpa using List.find?_some he
    rw [← hk]
    exact List.mem_of_find?_eq_some he
  · intro h
    cases hf : m.entries.find? (fun e => e.1 = k) with
    | none => simpa using (List.find?_eq_none.mp hf) (k,v) h
    | some e =>
      have hk : e.1 = k := by simpa using List.find?_some hf
      rw [m.key_unique (List.mem_of_find?_eq_some hf) h hk]
      rfl

def sum (m : OrdMap κ α) (f : α → Nat) : Nat := (m.entries.map (fun e => f e.2)).sum

theorem put_sum (f : α → Nat) (k : κ) (v : α) {es : List (κ × α)}
    (hs : es.Pairwise (fun a b => a.1 < b.1)) :
    ((put k v es).map (fun e => f e.2)).sum+
      (((es.find? (fun e => e.1 = k)).map (fun e => f e.2)).getD 0) =
        (es.map (fun e => f e.2)).sum+f v := by
  induction es with
  | nil => simp [put]
  | cons e r ih =>
    obtain ⟨he,hr⟩ := List.pairwise_cons.mp hs
    unfold put
    split
    · rename_i hk
      have hnone : (e :: r).find? (fun x => x.1 = k) = none := by
        rw [List.find?_eq_none]
        intro x hx
        rcases List.mem_cons.mp hx with rfl | hx
        · simpa using ne_of_gt hk
        · simpa using ne_of_gt (lt_trans hk (he x hx))
      rw [hnone,List.map_cons,List.sum_cons]
      simp [Nat.add_comm]
    · split
      · rename_i hk
        rw [List.find?_cons_of_pos (by simpa using hk.symm)]
        simp only [List.map_cons,List.sum_cons,Option.map_some,Option.getD_some]
        omega
      · rename_i hk
        rw [List.find?_cons_of_neg (by simpa using Ne.symm hk)]
        have hi := ih hr
        simp only [List.map_cons,List.sum_cons] at hi ⊢
        omega

theorem sum_insert (m : OrdMap κ α) (f : α → Nat) (k : κ) (v : α) :
    (m.insert k v).sum f+((m.get? k).map f).getD 0 = m.sum f+f v := by
  have h := put_sum f k v m.sorted
  rw [get?,Option.map_map]
  exact h

theorem le_sum {m : OrdMap κ α} (f : α → Nat) {k : κ} {v : α} (h : m.get? k = some v) :
    f v ≤ m.sum f :=
  List.le_sum_of_mem (List.mem_map.mpr ⟨(k,v),(m.get?_eq_some k v).mp h,rfl⟩)

theorem lastLe_mem {m : OrdMap κ α} {k : κ} {e : κ × α} (h : m.lastLe k = some e) :
    e ∈ m.entries ∧ e.1 ≤ k := by
  simpa using List.mem_of_getLast? h

theorem lastLe_max {m : OrdMap κ α} {k : κ} {e f : κ × α} (h : m.lastLe k = some e)
    (hf : f ∈ m.entries) (hk : f.1 ≤ k) : f.1 ≤ e.1 := by
  have hs : (m.entries.filter (fun e => e.1 ≤ k)).Pairwise (fun a b => a.1 < b.1) :=
    m.sorted.filter _
  obtain ⟨l,hl⟩ := List.getLast?_eq_some_iff.mp h
  have hm : f ∈ m.entries.filter (fun e => e.1 ≤ k) := by simp [hf,hk]
  rw [hl] at hs hm
  rcases List.mem_append.mp hm with hm | hm
  · exact le_of_lt ((List.pairwise_append.mp hs).2.2 f hm e (by simp))
  · rw [List.mem_singleton.mp hm]

theorem lastLe_isSome {m : OrdMap κ α} {k : κ} {f : κ × α}
    (hf : f ∈ m.entries) (hk : f.1 ≤ k) : ∃ e, m.lastLe k = some e := by
  cases h : m.lastLe k with
  | some e => exact ⟨e,rfl⟩
  | none =>
    have hn := List.getLast?_eq_none_iff.mp h
    have hm : f ∈ m.entries.filter (fun e => e.1 ≤ k) := by simp [hf,hk]
    rw [hn] at hm
    cases hm

end OrdMap
