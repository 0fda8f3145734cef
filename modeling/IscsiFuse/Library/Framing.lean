import Mathlib.Data.List.Forall2
set_option autoImplicit false

/-!
Messages on a stream. A reader that does not look behind its message gets back the messages that
were sent, wherever the stream is cut.
-/

variable {α β : Type*}

/-- The reader takes a message from the front of what has arrived, and it gets what the writer
wrote of a message that is `ok`, up to `same`. -/
structure Framing (send : α → List β) (recv : List β → Option (α × List β)) (ok : α → Prop)
    (same : α → α → Prop) : Prop where
  extend : ∀ s p rest, recv s = some (p,rest) → ∀ t, recv (s ++ t) = some (p,rest ++ t)
  read : ∀ p, ok p → ∀ s, ∃ q, recv (send p ++ s) = some (q,s) ∧ same p q
  empty : recv [] = none

namespace Framing

variable {send : α → List β} {recv : List β → Option (α × List β)} {ok : α → Prop}
  {same : α → α → Prop} {ps got : List α} {buf rest : List β}

/-- The messages `got` have been read, `buf` has arrived and `rest` has not. -/
inductive Reading (send : α → List β) (same : α → α → Prop) (ps got : List α)
    (buf rest : List β) : Prop
  | mk (done todo : List α) : ps = done ++ todo → List.Forall₂ same done got →
      buf ++ rest = todo.flatMap send → Reading send same ps got buf rest

namespace Reading

theorem start (same : α → α → Prop) (ps : List α) : Reading send same ps [] [] (ps.flatMap send) :=
  .mk [] ps rfl .nil rfl

theorem arrive {b : List β} (h : Reading send same ps got buf (b ++ rest)) :
    Reading send same ps got (buf ++ b) rest := by
  obtain ⟨done,todo,hps,hgot,hbuf⟩ := h
  exact .mk done todo hps hgot ((List.append_assoc ..).trans hbuf)

theorem receive (hf : Framing send recv ok same) (hok : ∀ p ∈ ps, ok p)
    (h : Reading send same ps got buf rest) {q : α} {buf' : List β}
    (hr : recv buf = some (q,buf')) : Reading send same ps (got ++ [q]) buf' rest := by
  obtain ⟨done,todo,rfl,hgot,hbuf⟩ := h
  have hext := hf.extend buf q buf' hr rest
  cases todo with
  | nil =>
    rw [hbuf] at hext
    exact absurd (hf.empty.symm.trans hext) (by simp)
  | cons p todo =>
    obtain ⟨q',hq,hsame⟩ := hf.read p (hok p (by simp)) (todo.flatMap send)
    rw [hbuf,List.flatMap_cons,hq] at hext
    obtain ⟨rfl,hrest⟩ := Prod.mk.inj (Option.some.inj hext)
    exact .mk (done ++ [p]) todo (by simp) (List.rel_append hgot (.cons hsame .nil)) hrest.symm

theorem got_prefix (h : Reading send same ps got buf rest) :
    ∃ done, done <+: ps ∧ List.Forall₂ same done got := by
  obtain ⟨done,todo,rfl,hgot,_⟩ := h
  exact ⟨done,List.prefix_append _ _,hgot⟩

theorem complete (hf : Framing send recv ok same) (hok : ∀ p ∈ ps, ok p)
    (h : Reading send same ps got buf []) (hr : recv buf = none) : List.Forall₂ same ps got := by
  obtain ⟨done,todo,rfl,hgot,hbuf⟩ := h
  cases todo with
  | nil => simpa using hgot
  | cons p todo =>
    obtain ⟨q,hq,_⟩ := hf.read p (hok p (by simp)) (todo.flatMap send)
    rw [List.append_nil,List.flatMap_cons] at hbuf
    rw [hbuf,hq] at hr
    cases hr

end Reading

end Framing
