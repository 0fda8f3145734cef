import IscsiFuse.Library.Log
import Mathlib.Data.List.Induction
set_option autoImplicit false

/-!
Histories of concurrent calls. A history is linearizable when the calls can be put in one order
that a sequential object allows and that keeps calls apart in time in their order. If each call
takes its effect at one point between its invocation and its response, the order of these
points is such an order.
-/

/-- A call `k` with request `q` starts, takes effect with answer `a`, or returns. -/
inductive CallEvent (κ ρ α : Type*) where
  | invoke (k : κ) (q : ρ)
  | effect (k : κ) (q : ρ) (a : α)
  | respond (k : κ) (a : α)

namespace CallEvent

variable {κ ρ α : Type*}

def key : CallEvent κ ρ α → κ
  | .invoke k _ | .effect k _ _ | .respond k _ => k

def effects (h : List (CallEvent κ ρ α)) : List (κ × ρ × α) :=
  h.filterMap (fun e => match e with
    | .effect k q a => some (k,q,a)
    | _ => none)

/-- Call `j` returns before call `k` starts. -/
def Precedes (h : List (CallEvent κ ρ α)) (j k : κ) : Prop :=
  ∃ pre post a q, h = pre ++ .respond j a :: post ∧ .invoke k q ∈ post

/-- The calls of `seq`, one after the other, explain the responses of `h`. Effects in `h` play no
part. -/
structure Linearizes (legal : List (κ × ρ × α) → Prop) (h : List (CallEvent κ ρ α))
    (seq : List (κ × ρ × α)) : Prop where
  legal : legal seq
  once : (seq.map Prod.fst).Nodup
  invoked : ∀ k q a, (k,q,a) ∈ seq → .invoke k q ∈ h
  responded : ∀ k a, .respond k a ∈ h → ∃ q, (k,q,a) ∈ seq
  realTime : ∀ x ∈ seq, ∀ y ∈ seq, Precedes h x.1 y.1 → [x,y].Sublist seq

/-- A call starts once, takes effect at most once and after its start, and returns what it took
effect with. -/
structure Pointed (h : List (CallEvent κ ρ α)) : Prop where
  invoke : ∀ pre k q post, h = pre ++ .invoke k q :: post → ∀ q', .invoke k q' ∉ pre
  effect : ∀ pre k q a post, h = pre ++ .effect k q a :: post →
    .invoke k q ∈ pre ∧ ∀ q' a', .effect k q' a' ∉ pre
  respond : ∀ pre k a post, h = pre ++ .respond k a :: post → ∃ q, .effect k q a ∈ pre

@[simp] theorem effects_append (h h' : List (CallEvent κ ρ α)) :
    effects (h ++ h') = effects h ++ effects h' := List.filterMap_append

theorem mem_effects {h : List (CallEvent κ ρ α)} {k : κ} {q : ρ} {a : α} :
    (k,q,a) ∈ effects h ↔ .effect k q a ∈ h := by
  simp only [effects,List.mem_filterMap]
  constructor
  · intro ⟨e,he,hx⟩
    cases e with
    | effect k' q' a' =>
      cases hx
      exact he
    | invoke k' q' => cases hx
    | respond k' a' => cases hx
  · intro he
    exact ⟨_,he,rfl⟩

namespace Pointed

variable {h : List (CallEvent κ ρ α)} {k : κ} {q : ρ} {a : α}

theorem nil : Pointed ([] : List (CallEvent κ ρ α)) := by
  constructor <;> (intros; simp_all)

theorem snoc_invoke (hp : Pointed h) (hn : ∀ q', .invoke k q' ∉ h) :
    Pointed (h ++ [.invoke k q]) := by
  refine ⟨fun pre k' q' post hl => ?_,fun pre k' q' a' post hl => ?_,fun pre k' a' post hl => ?_⟩
  · rcases Log.split_snoc hl with ⟨_,he,rfl⟩ | ⟨post',_,hl'⟩
    · cases he
      exact hn
    · exact hp.invoke pre k' q' post' hl'
  · rcases Log.split_snoc hl with ⟨_,he,_⟩ | ⟨post',_,hl'⟩
    · cases he
    · exact hp.effect pre k' q' a' post' hl'
  · rcases Log.split_snoc hl with ⟨_,he,_⟩ | ⟨post',_,hl'⟩
    · cases he
    · exact hp.respond pre k' a' post' hl'

theorem snoc_effect (hp : Pointed h) (hi : .invoke k q ∈ h) (hn : ∀ q' a', .effect k q' a' ∉ h) :
    Pointed (h ++ [.effect k q a]) := by
  refine ⟨fun pre k' q' post hl => ?_,fun pre k' q' a' post hl => ?_,fun pre k' a' post hl => ?_⟩
  · rcases Log.split_snoc hl with ⟨_,he,_⟩ | ⟨post',_,hl'⟩
    · cases he
    · exact hp.invoke pre k' q' post' hl'
  · rcases Log.split_snoc hl with ⟨_,he,rfl⟩ | ⟨post',_,hl'⟩
    · cases he
      exact ⟨hi,hn⟩
    · exact hp.effect pre k' q' a' post' hl'
  · rcases Log.split_snoc hl with ⟨_,he,_⟩ | ⟨post',_,hl'⟩
    · cases he
    · exact hp.respond pre k' a' post' hl'

theorem snoc_respond (hp : Pointed h) (he : .effect k q a ∈ h) : Pointed (h ++ [.respond k a]) := by
  refine ⟨fun pre k' q' post hl => ?_,fun pre k' q' a' post hl => ?_,fun pre k' a' post hl => ?_⟩
  · rcases Log.split_snoc hl with ⟨_,hx,_⟩ | ⟨post',_,hl'⟩
    · cases hx
    · exact hp.invoke pre k' q' post' hl'
  · rcases Log.split_snoc hl with ⟨_,hx,_⟩ | ⟨post',_,hl'⟩
    · cases hx
    · exact hp.effect pre k' q' a' post' hl'
  · rcases Log.split_snoc hl with ⟨_,hx,rfl⟩ | ⟨post',_,hl'⟩
    · cases hx
      exact ⟨q,he⟩
    · exact hp.respond pre k' a' post' hl'

theorem invoked (hp : Pointed h) (he : .effect k q a ∈ h) : .invoke k q ∈ h := by
  obtain ⟨pre,post,rfl⟩ := List.append_of_mem he
  exact List.mem_append_left _ (hp.effect pre k q a post rfl).1

theorem invoke_unique (hp : Pointed h) {q' : ρ} (h₁ : .invoke k q ∈ h) (h₂ : .invoke k q' ∈ h) :
    q = q' := by
  obtain ⟨pre,post,rfl⟩ := List.append_of_mem h₁
  have hn := hp.invoke pre k q post rfl q'
  rcases List.mem_append.mp h₂ with hm | hm
  · exact absurd hm hn
  · rcases List.mem_cons.mp hm with hm | hm
    · cases hm
      rfl
    · obtain ⟨mid,post',rfl⟩ := List.append_of_mem hm
      exact absurd (List.mem_append_right pre (List.mem_cons_self ..))
        (hp.invoke (pre ++ .invoke k q :: mid) k q' post' (by simp) q)

theorem returned (hp : Pointed h) (hi : .invoke k q ∈ h) (hr : .respond k a ∈ h) :
    (k,q,a) ∈ effects h := by
  obtain ⟨pre,post,rfl⟩ := List.append_of_mem hr
  obtain ⟨q',he⟩ := hp.respond pre k a post rfl
  have he : .effect k q' a ∈ pre ++ .respond k a :: post := List.mem_append_left _ he
  rw [hp.invoke_unique hi (hp.invoked he)]
  exact mem_effects.mpr he

theorem effect_after {pre post : List (CallEvent κ ρ α)} (hp : Pointed (pre ++ post)) {q' : ρ}
    (he : .effect k q a ∈ pre ++ post) (hi : .invoke k q' ∈ post) : .effect k q a ∈ post := by
  rcases List.mem_append.mp he with he | he
  · obtain ⟨a₁,b₁,rfl⟩ := List.append_of_mem he
    obtain ⟨hq,_⟩ := hp.effect a₁ k q a (b₁ ++ post) (by simp)
    obtain ⟨a₂,b₂,rfl⟩ := List.append_of_mem hi
    exact absurd (show CallEvent.invoke k q ∈ (a₁ ++ .effect k q a :: b₁) ++ a₂ by simp [hq])
      (hp.invoke _ k q' b₂ (by simp) q)
  · exact he

theorem once (hp : Pointed h) : ((effects h).map Prod.fst).Nodup := by
  induction h using List.reverseRecOn with
  | nil => exact List.nodup_nil
  | append_singleton h e ih =>
    have hih := ih ⟨fun pre k q post hl => hp.invoke pre k q (post ++ [e]) (by simp [hl]),
      fun pre k q a post hl => hp.effect pre k q a (post ++ [e]) (by simp [hl]),
      fun pre k a post hl => hp.respond pre k a (post ++ [e]) (by simp [hl])⟩
    rw [effects_append,List.map_append]
    cases e with
    | effect k q a =>
      obtain ⟨_,hn⟩ := hp.effect h k q a [] rfl
      refine List.nodup_append.mpr ⟨hih,by simp [effects],fun x hx y hy hxy => ?_⟩
      obtain ⟨⟨k',q',a'⟩,hm,rfl⟩ := List.mem_map.mp hx
      have hk : y = k := by simpa [effects] using hy
      exact hn q' a' (hk ▸ hxy ▸ mem_effects.mp hm)
    | invoke k q => simpa [effects] using hih
    | respond k a => simpa [effects] using hih

/-- The order of the effects explains the history. -/
theorem linearizes {legal : List (κ × ρ × α) → Prop} (hp : Pointed h) (hl : legal (effects h)) :
    Linearizes legal h (effects h) where
  legal := hl
  once := hp.once
  invoked := fun k q a hm => hp.invoked (mem_effects.mp hm)
  responded := by
    intro k a hm
    obtain ⟨pre,post,rfl⟩ := List.append_of_mem hm
    obtain ⟨q,hq⟩ := hp.respond pre k a post rfl
    exact ⟨q,mem_effects.mpr (List.mem_append_left _ hq)⟩
  realTime := by
    intro ⟨j,q,a⟩ hx ⟨k,q',a'⟩ hy ⟨pre,post,a₁,q₁,hh,hi⟩
    subst hh
    obtain ⟨q₂,hj⟩ := hp.respond pre j a₁ post rfl
    -- The call that returned took effect before, the one that starts takes effect after.
    have hjx : (j,q₂,a₁) = (j,q,a) := List.inj_on_of_nodup_map hp.once
      (mem_effects.mpr (List.mem_append_left _ hj)) hx rfl
    have hk := hp.effect_after (mem_effects.mp hy) (List.mem_cons_of_mem _ hi)
    rw [effects_append]
    exact (List.singleton_sublist.mpr (hjx ▸ mem_effects.mpr hj)).append
      (List.singleton_sublist.mpr (mem_effects.mpr hk))

end Pointed

end CallEvent
