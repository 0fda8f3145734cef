import IscsiFuse.Library.Log
import IscsiFuse.Library.Machine
import IscsiFuse.Iscsi.Command
import IscsiFuse.Iscsi.IttPool
import Mathlib.Order.Bounds.Basic
set_option autoImplicit false

/-!
The tag pool as a machine: any number of calls to `alloc`, `complete` and `free`, whose loads,
compare-exchanges, `fetch_and`s and accesses to the table of senders interleave in any order.
-/

namespace IscsiFuse.Iscsi
open Machine

inductive PoolCall where
  | idle
  | load (h : Half)
  | cas (h : Half) (current : BitVec 64)
  | store (itt : Nat)
  | returned (itt : Option Nat)
  | take (itt : Nat) (r : PduResponse)
  | send (itt : Nat) (r : PduResponse) (tx : Option Nat)
  | free (itt : Nat)
  | finished
  deriving DecidableEq

def PoolCall.afterFull : Half → PoolCall
  | .lo => .load .hi
  | .hi => .returned none

/-- `released` is the call of `complete` or `free`, `freed` the `fetch_and`. -/
inductive PoolEvent where
  | allocated (k itt : Nat)
  | released (itt : Nat)
  | taken (itt : Nat) (tx : Option Nat)
  | delivered (k : Nat) (r : PduResponse)
  | freed (itt : Nat)
  deriving DecidableEq

/-- `log` only observes. -/
structure Pooling where
  pool : IttPool
  calls : Nat → PoolCall
  log : List PoolEvent

def Pooling.start : Pooling := ⟨.new,fun _ => .idle,[]⟩

inductive PoolLabel where
  | alloc (k : Nat)
  | complete (k itt : Nat) (r : PduResponse)
  | free (k itt : Nat)
  | advance (k : Nat)
  | casFailed (k : Nat)
  deriving DecidableEq

namespace Pooling

def setCall (s : Pooling) (k : Nat) (c : PoolCall) : Pooling :=
  { s with calls := Function.update s.calls k c }

def observe (s : Pooling) (e : PoolEvent) : Pooling := { s with log := s.log ++ [e] }

@[simp] theorem setCall_self (s : Pooling) (k : Nat) (c : PoolCall) :
    (s.setCall k c).calls k = c := by simp [setCall]

theorem setCall_other {s : Pooling} {j k : Nat} {c : PoolCall} (h : j ≠ k) :
    (s.setCall k c).calls j = s.calls j := by simp [setCall,h]

def advance (s : Pooling) (k : Nat) : Option Pooling :=
  match s.calls k with
  | .load h => some (s.setCall k (.cas h (s.pool.slots h)))
  | .cas h current =>
    let bit := IttPool.freeBit current
    if bit < 64 then
      if s.pool.slots h = current then
        some ({ s with pool := s.pool.claim h bit }.setCall k (.store (h.base+bit)))
      else some (s.setCall k (.load h))
    else some (s.setCall k (.afterFull h))
  | .store itt =>
    some (({ s with pool := s.pool.putSender itt (some k) }.observe (.allocated k itt)).setCall k
      (.returned (some itt)))
  | .take itt r =>
    some (({ s with pool := s.pool.putSender itt none }.observe
      (.taken itt (s.pool.completions itt))).setCall k (.send itt r (s.pool.completions itt)))
  | .send itt r tx =>
    some ((match tx with
      | some j => s.observe (.delivered j r)
      | none => s).setCall k (.free itt))
  | .free itt =>
    some (({ s with pool := s.pool.free itt }.observe (.freed itt)).setCall k .finished)
  | _ => none

end Pooling

open Pooling

/-- A compare-exchange may fail although the word is as it was loaded. -/
def poolStep (s : Pooling) : PoolLabel → Option Pooling
  | .alloc k => if s.calls k = .idle then some (s.setCall k (.load .lo)) else none
  | .complete k itt r => if s.calls k = .idle ∧ itt < 128 then
      some ((s.observe (.released itt)).setCall k (.take itt r)) else none
  | .free k itt => if s.calls k = .idle ∧ itt < 128 then
      some ((s.observe (.released itt)).setCall k (.free itt)) else none
  | .advance k => s.advance k
  | .casFailed k => match s.calls k with
    | .cas h current =>
      if IttPool.freeBit current < 64 then some (s.setCall k (.load h)) else none
    | _ => none

def PoolEvent.opens (i : Nat) : PoolEvent → Option Nat
  | .allocated k j => if j = i then some k else none
  | _ => none

/-- The call that holds the tag: it was returned to it, and is not freed since. -/
def lease (log : List PoolEvent) (i : Nat) : Option Nat :=
  Log.since (PoolEvent.opens i) (fun e => e = .freed i) log

def unreleased (log : List PoolEvent) (i : Nat) : Option Nat :=
  Log.since (PoolEvent.opens i) (fun e => e = .released i) log

/-- The same, as long as the sender is not taken. -/
def senderOf (log : List PoolEvent) (i : Nat) : Option Nat :=
  Log.since (PoolEvent.opens i) (fun e => match e with
    | .taken j _ | .freed j => j = i
    | _ => false) log

/-- A tag is completed or freed at most once, after `alloc` returned it. -/
def OnceEach (s : Pooling) : PoolLabel → Prop
  | .complete _ itt _ | .free _ itt => (unreleased s.log itt).isSome = true
  | _ => True

instance (s : Pooling) (l : PoolLabel) : Decidable (OnceEach s l) :=
  match l with
  | .complete _ itt _ | .free _ itt => decEq (unreleased s.log itt).isSome true
  | .alloc _ | .advance _ | .casFailed _ => isTrue trivial

/-- The life of a tag: its bit set, returned to `a`, completed or freed by `j`. -/
inductive Tag where
  | free
  | claimed (k : Nat)
  | allocated (a : Nat)
  | completing (a j : Nat)
  | releasing (a j : Nat) (stored : Bool)
  deriving DecidableEq

inductive Work where
  | claim | take | free
  deriving DecidableEq

namespace Tag

def worker : Tag → Option (Nat × Work)
  | .claimed k => some (k,.claim)
  | .completing _ j => some (j,.take)
  | .releasing _ j _ => some (j,.free)
  | _ => none

def lease : Tag → Option Nat
  | .allocated a | .completing a _ | .releasing a _ _ => some a
  | _ => none

def unreleased : Tag → Option Nat
  | .allocated a => some a
  | _ => none

def sender : Tag → Option Nat
  | .allocated a | .completing a _ | .releasing a _ true => some a
  | _ => none

end Tag

def PoolCall.work : PoolCall → Option (Nat × Work)
  | .store i => some (i,.claim)
  | .take i _ => some (i,.take)
  | .send i _ _ | .free i => some (i,.free)
  | _ => none

structure Pooled (tags : Nat → Tag) (s : Pooling) : Prop where
  range : ∀ i, tags i ≠ .free → i < 128
  inUse : ∀ i < 128, s.pool.inUse i = true ↔ tags i ≠ .free
  work : ∀ k i x, (s.calls k).work = some (i,x) ↔ (tags i).worker = some (k,x)
  sender : ∀ i a, (tags i).sender = some a → s.pool.completions i = some a
  lease : ∀ i, Iscsi.lease s.log i = (tags i).lease
  unreleased : ∀ i, Iscsi.unreleased s.log i = (tags i).unreleased
  senderOf : ∀ i, Iscsi.senderOf s.log i = (tags i).sender

/-- The tag an event is about. -/
def PoolEvent.itt : PoolEvent → Option Nat
  | .allocated _ i | .released i | .taken i _ | .freed i => some i
  | .delivered _ _ => none

structure SameTag (log log' : List PoolEvent) (i : Nat) : Prop where
  lease : lease log' i = lease log i
  unreleased : unreleased log' i = unreleased log i
  senderOf : senderOf log' i = senderOf log i

theorem sameTag_snoc {log : List PoolEvent} {e : PoolEvent} {i : Nat} (h : e.itt ≠ some i) :
    SameTag log (log ++ [e]) i := by
  have hne {j : Nat} (hj : some j ≠ some i) : j ≠ i := fun hx => hj (congrArg some hx)
  have ho : e.opens i = none := by
    cases e with
    | allocated k j => exact if_neg (hne h)
    | _ => rfl
  refine ⟨Log.since_keeps ho ?_,Log.since_keeps ho ?_,Log.since_keeps ho ?_⟩ <;>
    cases e <;> first | rfl | simp [hne h]

def QuietLog (log log' : List PoolEvent) : Prop :=
  log' = log ∨ ∃ k r, log' = log ++ [.delivered k r]

theorem QuietLog.sameTag {log log' : List PoolEvent} (h : QuietLog log log') (i : Nat) :
    SameTag log log' i := by
  rcases h with rfl | ⟨k,r,rfl⟩
  · exact ⟨rfl,rfl,rfl⟩
  · exact sameTag_snoc (by simp [PoolEvent.itt])

structure Logged (log log' : List PoolEvent) (i : Nat) (x : Tag) : Prop where
  lease : lease log' i = x.lease
  unreleased : unreleased log' i = x.unreleased
  senderOf : senderOf log' i = x.sender
  other : ∀ j, j ≠ i → SameTag log log' j

namespace Pooled

variable {tags : Nat → Tag} {s t : Pooling} {k i : Nat} {x : Tag} {c : PoolCall}

theorem start : Pooled (fun _ => .free) .start where
  range := fun _ h => absurd rfl h
  inUse := fun i _ => by simp [Pooling.start,IttPool.new,IttPool.inUse]
  work := fun _ _ _ => by simp [Pooling.start,PoolCall.work,Tag.worker]
  sender := fun _ _ h => by cases h
  lease := fun _ => rfl
  unreleased := fun _ => rfl
  senderOf := fun _ => rfl

theorem keep (h : Pooled tags s) (hp : t.pool = s.pool) (hl : QuietLog s.log t.log)
    (hc : t.calls = Function.update s.calls k c) (hw : c.work = (s.calls k).work) :
    Pooled tags t where
  range := h.range
  inUse := by rw [hp]; exact h.inUse
  work := by
    rw [hc]
    refine (Function.forall_update_iff s.calls (fun j d => ∀ i x, d.work = some (i,x) ↔
      (tags i).worker = some (j,x))).mpr ⟨fun i x => ?_,fun j _ => h.work j⟩
    rw [hw]
    exact h.work k i x
  sender := by rw [hp]; exact h.sender
  lease := fun i => (hl.sameTag i).lease.trans (h.lease i)
  unreleased := fun i => (hl.sameTag i).unreleased.trans (h.unreleased i)
  senderOf := fun i => (hl.sameTag i).senderOf.trans (h.senderOf i)

theorem move (h : Pooled tags s) (hi : i < 128)
    (hk : ∀ j y, (s.calls k).work = some (j,y) → j = i)
    (ht : ∀ j y, (tags i).worker = some (j,y) → j = k)
    (hc : t.calls = Function.update s.calls k c) (hx : c.work = x.worker.map (fun y => (i,y.2)))
    (hxk : ∀ j y, x.worker = some (j,y) → j = k)
    (hb : ∀ j < 128, t.pool.inUse j = if j = i then decide (x ≠ .free) else s.pool.inUse j)
    (hs : ∀ j, j ≠ i → t.pool.completions j = s.pool.completions j)
    (hsi : ∀ a, x.sender = some a → t.pool.completions i = some a)
    (hl : Logged s.log t.log i x) : Pooled (Function.update tags i x) t where
  range := (Function.forall_update_iff tags (fun j y => y ≠ .free → j < 128)).mpr
    ⟨fun _ => hi,fun j _ => h.range j⟩
  inUse := (Function.forall_update_iff tags (fun j y => j < 128 →
      (t.pool.inUse j = true ↔ y ≠ .free))).mpr
    ⟨fun hj => by rw [hb i hj,if_pos rfl,decide_eq_true_eq],
      fun j hji hj => by rw [hb j hj,if_neg hji]; exact h.inUse j hj⟩
  work := by
    rw [hc]
    refine (Function.forall_update_iff s.calls (fun j d => ∀ m y, d.work = some (m,y) ↔
      (Function.update tags i x m).worker = some (j,y))).mpr ⟨?_,fun j hj m y => ?_⟩
    · refine (Function.forall_update_iff tags (fun m z => ∀ y, c.work = some (m,y) ↔
        z.worker = some (k,y))).mpr ⟨fun y => ?_,fun m hm y => ?_⟩
      · rw [hx]
        constructor
        · intro hy
          obtain ⟨⟨a,b⟩,hz,hzy⟩ := Option.map_eq_some_iff.mp hy
          obtain rfl := hxk a b hz
          cases hzy
          exact hz
        · intro hy
          rw [hy]
          rfl
      · constructor
        · intro hy
          rw [hx] at hy
          obtain ⟨z,_,hzy⟩ := Option.map_eq_some_iff.mp hy
          cases hzy
          exact absurd rfl hm
        · intro hy
          exact absurd (hk m y ((h.work k m y).mpr hy)) hm
    · rw [h.work]
      by_cases hm : m = i
      · subst hm
        rw [Function.update_self]
        exact ⟨fun hy => absurd (ht j y hy) hj,fun hy => absurd (hxk j y hy) hj⟩
      · rw [Function.update_of_ne hm]
  sender := (Function.forall_update_iff tags (fun j y => ∀ a, y.sender = some a →
      t.pool.completions j = some a)).mpr
    ⟨hsi,fun j hj a ha => (hs j hj).trans (h.sender j a ha)⟩
  lease := (Function.forall_update_iff tags (fun j y => Iscsi.lease t.log j = y.lease)).mpr
    ⟨hl.lease,fun j hj => (hl.other j hj).lease.trans (h.lease j)⟩
  unreleased := (Function.forall_update_iff tags (fun j y =>
      Iscsi.unreleased t.log j = y.unreleased)).mpr
    ⟨hl.unreleased,fun j hj => (hl.other j hj).unreleased.trans (h.unreleased j)⟩
  senderOf := (Function.forall_update_iff tags (fun j y => Iscsi.senderOf t.log j = y.sender)).mpr
    ⟨hl.senderOf,fun j hj => (hl.other j hj).senderOf.trans (h.senderOf j)⟩

theorem logged {e : PoolEvent} (h : Pooled tags s) (he : e.itt = some i)
    (hx : match e with
      | .allocated k _ => x.lease = some k ∧ x.unreleased = some k ∧ x.sender = some k
      | .released _ => x.lease = (tags i).lease ∧ x.unreleased = none ∧ x.sender = (tags i).sender
      | .taken _ _ => x.lease = (tags i).lease ∧ x.unreleased = (tags i).unreleased ∧ x.sender = none
      | .freed _ => x.lease = none ∧ x.unreleased = (tags i).unreleased ∧ x.sender = none
      | .delivered _ _ => False) : Logged s.log (s.log ++ [e]) i x := by
  have hother : ∀ j, j ≠ i → SameTag s.log (s.log ++ [e]) j :=
    fun j hj => sameTag_snoc (by rw [he]; exact fun hx => hj (Option.some.inj hx).symm)
  cases e with
  | allocated k j =>
    cases he
    obtain ⟨h₁,h₂,h₃⟩ := hx
    have ho : (PoolEvent.allocated k i).opens i = some k := if_pos rfl
    exact ⟨h₁ ▸ Log.since_opens ho,h₂ ▸ Log.since_opens ho,h₃ ▸ Log.since_opens ho,hother⟩
  | released j =>
    cases he
    obtain ⟨h₁,h₂,h₃⟩ := hx
    exact ⟨(Log.since_keeps rfl (by simp)).trans (h₁ ▸ h.lease i),
      h₂ ▸ Log.since_closes rfl (by simp),(Log.since_keeps rfl rfl).trans (h₃ ▸ h.senderOf i),hother⟩
  | taken j tx =>
    cases he
    obtain ⟨h₁,h₂,h₃⟩ := hx
    exact ⟨(Log.since_keeps rfl (by simp)).trans (h₁ ▸ h.lease i),
      (Log.since_keeps rfl (by simp)).trans (h₂ ▸ h.unreleased i),
      h₃ ▸ Log.since_closes rfl (by simp),hother⟩
  | freed j =>
    cases he
    obtain ⟨h₁,h₂,h₃⟩ := hx
    exact ⟨h₁ ▸ Log.since_closes rfl (by simp),
      (Log.since_keeps rfl (by simp)).trans (h₂ ▸ h.unreleased i),
      h₃ ▸ Log.since_closes rfl (by simp),hother⟩
  | delivered k r => exact hx.elim

theorem tag_claimed (h : Pooled tags s) (hk : s.calls k = .store i) : tags i = .claimed k := by
  have hw := (h.work k i .claim).mp (by rw [hk]; rfl)
  cases ht : tags i with
  | claimed j =>
    rw [ht] at hw
    cases hw
    rfl
  | _ => rw [ht] at hw; cases hw

theorem tag_completing (h : Pooled tags s) {r : PduResponse} (hk : s.calls k = .take i r) :
    ∃ a, tags i = .completing a k := by
  have hw := (h.work k i .take).mp (by rw [hk]; rfl)
  cases ht : tags i with
  | completing a j =>
    rw [ht] at hw
    cases hw
    exact ⟨a,rfl⟩
  | _ => rw [ht] at hw; cases hw

theorem tag_releasing (h : Pooled tags s) (hk : s.calls k = .free i) :
    ∃ a b, tags i = .releasing a k b := by
  have hw := (h.work k i .free).mp (by rw [hk]; rfl)
  cases ht : tags i with
  | releasing a j b =>
    rw [ht] at hw
    cases hw
    exact ⟨a,b,rfl⟩
  | _ => rw [ht] at hw; cases hw

theorem tag_allocated (h : Pooled tags s) (hu : (Iscsi.unreleased s.log i).isSome = true) :
    ∃ a, tags i = .allocated a := by
  rw [h.unreleased] at hu
  cases ht : tags i with
  | allocated a => exact ⟨a,rfl⟩
  | _ => rw [ht] at hu; cases hu

theorem tag_free (h : Pooled tags s) (hi : i < 128) (hu : s.pool.inUse i = false) :
    tags i = .free := by
  by_contra hne
  rw [(h.inUse i hi).mpr hne] at hu
  cases hu

theorem bit_kept (h : Pooled tags s) (hi : tags i ≠ .free) (hx : x ≠ .free) {j : Nat}
    (hj : j < 128) : s.pool.inUse j = if j = i then decide (x ≠ .free) else s.pool.inUse j := by
  split
  · rename_i hji
    rw [hji,decide_eq_true hx]
    exact (h.inUse i (hji ▸ hj)).mpr hi
  · rfl

theorem claim (h : Pooled tags s) {half : Half} (hk : s.calls k = .cas half (s.pool.slots half))
    (hb : IttPool.freeBit (s.pool.slots half) < 64) :
    Pooled (Function.update tags (half.base+IttPool.freeBit (s.pool.slots half)) (.claimed k))
      ({ s with pool := s.pool.claim half (IttPool.freeBit (s.pool.slots half)) }.setCall k
        (.store (half.base+IttPool.freeBit (s.pool.slots half)))) := by
  have hi := IttPool.tag_lt (h := half) hb
  have hu : s.pool.inUse (half.base+IttPool.freeBit (s.pool.slots half)) = false := by
    rw [IttPool.inUse_half _ hb,IttPool.freeBit_clear hb]
  have hf := h.tag_free hi hu
  refine h.move hi (fun j y hj => ?_) (fun j y hj => ?_) rfl rfl (fun j y hj => by cases hj; rfl)
    (fun j _ => ?_) (fun _ _ => rfl) (fun a ha => by cases ha) ⟨?_,?_,?_,fun _ _ => ⟨rfl,rfl,rfl⟩⟩
  · rw [hk] at hj
    cases hj
  · rw [hf] at hj
    cases hj
  · refine (IttPool.claim_inUse s.pool hb j).trans ?_
    by_cases hj : j = half.base+IttPool.freeBit (s.pool.slots half)
    · rw [decide_eq_true hj,if_pos hj,Bool.or_true]
      rfl
    · rw [decide_eq_false hj,if_neg hj,Bool.or_false]
  · exact (h.lease _).trans (by rw [hf]; rfl)
  · exact (h.unreleased _).trans (by rw [hf]; rfl)
  · exact (h.senderOf _).trans (by rw [hf]; rfl)

theorem store (h : Pooled tags s) (hk : s.calls k = .store i) :
    Pooled (Function.update tags i (.allocated k))
      (({ s with pool := s.pool.putSender i (some k) }.observe (.allocated k i)).setCall k
        (.returned (some i))) := by
  have hc := h.tag_claimed hk
  have hi := h.range i (by rw [hc]; simp)
  refine h.move hi (fun j y hj => ?_) (fun j y hj => ?_) rfl rfl (fun j y hj => by cases hj)
    (fun j hj => h.bit_kept (by rw [hc]; simp) (by simp) hj)
    (fun j hj => Function.update_of_ne hj _ _) (fun a ha => (Function.update_self i _ _).trans ha)
    (h.logged rfl ⟨rfl,rfl,rfl⟩)
  · rw [hk] at hj
    cases hj
    rfl
  · rw [hc] at hj
    cases hj
    rfl

theorem release (h : Pooled tags s) (hk : s.calls k = .idle)
    (hu : (Iscsi.unreleased s.log i).isSome = true) {c : PoolCall} {y : Work}
    (hc : c.work = some (i,y)) (hy : y ≠ .claim) :
    ∃ x, Pooled (Function.update tags i x) ((s.observe (.released i)).setCall k c) := by
  obtain ⟨a,ha⟩ := h.tag_allocated hu
  have hi := h.range i (by rw [ha]; simp)
  have hmove : ∀ x : Tag, x.worker = some (k,y) → x.lease = some a → x.unreleased = none →
      x.sender = some a → x ≠ .free →
      Pooled (Function.update tags i x) ((s.observe (.released i)).setCall k c) := by
    intro x hx hl hur hs hne
    refine h.move hi (fun j y hj => ?_) (fun j y hj => ?_) rfl (by rw [hc,hx]; rfl)
      (fun j z hj => ?_) (fun j hj => h.bit_kept (by rw [ha]; simp) hne hj) (fun _ _ => rfl)
      (fun b hb => ?_) (h.logged rfl ⟨by rw [hl,ha]; rfl,hur,by rw [hs,ha]; rfl⟩)
    · rw [hk] at hj
      cases hj
    · rw [ha] at hj
      cases hj
    · rw [hx] at hj
      cases hj
      rfl
    · rw [hs] at hb
      exact h.sender i b (by rw [ha]; exact hb)
  cases y with
  | claim => exact absurd rfl hy
  | take => exact ⟨_,hmove (.completing a k) rfl rfl rfl rfl (by simp)⟩
  | free => exact ⟨_,hmove (.releasing a k true) rfl rfl rfl rfl (by simp)⟩

theorem take (h : Pooled tags s) {r : PduResponse} (hk : s.calls k = .take i r) :
    ∃ x, Pooled (Function.update tags i x)
      (({ s with pool := s.pool.putSender i none }.observe
        (.taken i (s.pool.completions i))).setCall k (.send i r (s.pool.completions i))) := by
  obtain ⟨a,ha⟩ := h.tag_completing hk
  have hi := h.range i (by rw [ha]; simp)
  refine ⟨.releasing a k false,h.move hi (fun j y hj => ?_) (fun j y hj => ?_) rfl rfl
    (fun j y hj => by cases hj; rfl) (fun j hj => h.bit_kept (by rw [ha]; simp) (by simp) hj)
    (fun j hj => Function.update_of_ne hj _ _) (fun b hb => by cases hb)
    (h.logged rfl ⟨by rw [ha]; rfl,by rw [ha]; rfl,rfl⟩)⟩
  · rw [hk] at hj
    cases hj
    rfl
  · rw [ha] at hj
    cases hj
    rfl

theorem freed (h : Pooled tags s) (hk : s.calls k = .free i) :
    Pooled (Function.update tags i .free)
      (({ s with pool := s.pool.free i }.observe (.freed i)).setCall k .finished) := by
  obtain ⟨a,b,ha⟩ := h.tag_releasing hk
  have hi := h.range i (by rw [ha]; simp)
  refine h.move hi (fun j y hj => ?_) (fun j y hj => ?_) rfl rfl (fun j y hj => by cases hj)
    (fun j hj => ?_) (fun _ _ => rfl) (fun b hb => by cases hb)
    (h.logged rfl ⟨rfl,by rw [ha]; rfl,rfl⟩)
  · rw [hk] at hj
    cases hj
    rfl
  · rw [ha] at hj
    cases hj
    rfl
  · refine (IttPool.free_inUse s.pool hi hj).trans ?_
    by_cases hji : j = i
    · rw [if_pos hji,decide_eq_true hji,Bool.not_true,Bool.and_false]
      rfl
    · rw [if_neg hji,decide_eq_false hji,Bool.not_false,Bool.and_true]

end Pooled

def Exclusive (log : List PoolEvent) : Prop :=
  ∀ pre k i post, log = pre ++ .allocated k i :: post → i < 128 ∧ lease pre i = none

theorem Exclusive.snoc {log : List PoolEvent} {e : PoolEvent} (h : Exclusive log)
    (he : ∀ k i, e = .allocated k i → i < 128 ∧ lease log i = none) : Exclusive (log ++ [e]) := by
  intro pre k i post hl
  rcases Log.split_snoc hl with ⟨_,hx,rfl⟩ | ⟨post',_,hl'⟩
  · exact he k i hx
  · exact h pre k i post' hl'

def Kept (s : Pooling) : Prop := (∃ tags, Pooled tags s) ∧ Exclusive s.log

section Steps

variable {s t : Pooling} {k : Nat}

theorem kept_start : Kept .start := ⟨⟨_,.start⟩,fun pre k i post h => by cases pre <;> cases h⟩

theorem kept_keep {c : PoolCall} (h : Kept s) (hp : t.pool = s.pool) (hl : QuietLog s.log t.log)
    (hc : t.calls = Function.update s.calls k c) (hw : c.work = (s.calls k).work) : Kept t := by
  obtain ⟨⟨tags,hg⟩,hx⟩ := h
  refine ⟨⟨tags,hg.keep hp hl hc hw⟩,?_⟩
  rcases hl with hl | ⟨j,r,hl⟩ <;> rw [hl]
  · exact hx
  · exact hx.snoc (fun k i he => by cases he)

theorem advance_kept (h : Kept s) (hs : s.advance k = some t) : Kept t := by
  obtain ⟨⟨tags,hg⟩,hx⟩ := h
  unfold Pooling.advance at hs
  split at hs
  · rename_i half hk
    cases hs
    exact kept_keep ⟨⟨tags,hg⟩,hx⟩ rfl (Or.inl rfl) rfl (by rw [hk]; rfl)
  · rename_i half current hk
    simp only at hs
    split at hs
    · rename_i hb
      split at hs
      · rename_i hcur
        subst hcur
        cases hs
        exact ⟨⟨_,hg.claim hk hb⟩,hx⟩
      · cases hs
        exact kept_keep ⟨⟨tags,hg⟩,hx⟩ rfl (Or.inl rfl) rfl (by rw [hk]; rfl)
    · cases hs
      refine kept_keep ⟨⟨tags,hg⟩,hx⟩ rfl (Or.inl rfl) rfl ?_
      rw [hk]
      cases half <;> rfl
  · rename_i i hk
    cases hs
    refine ⟨⟨_,hg.store hk⟩,hx.snoc (fun j m he => ?_)⟩
    cases he
    have hc := hg.tag_claimed hk
    exact ⟨hg.range i (by rw [hc]; simp),by rw [hg.lease,hc]; rfl⟩
  · rename_i i r hk
    cases hs
    obtain ⟨x,hp⟩ := hg.take hk
    exact ⟨⟨_,hp⟩,hx.snoc (fun j m he => by cases he)⟩
  · rename_i i r tx hk
    cases hs
    cases tx with
    | none => exact kept_keep ⟨⟨tags,hg⟩,hx⟩ rfl (Or.inl rfl) rfl (by rw [hk]; rfl)
    | some j => exact kept_keep ⟨⟨tags,hg⟩,hx⟩ rfl (Or.inr ⟨j,r,rfl⟩) rfl (by rw [hk]; rfl)
  · rename_i i hk
    cases hs
    exact ⟨⟨_,hg.freed hk⟩,hx.snoc (fun j m he => by cases he)⟩
  · cases hs

theorem pool_step {l : PoolLabel} (h : Kept s) (ho : OnceEach s l) (hs : poolStep s l = some t) :
    Kept t := by
  cases l with
  | alloc j =>
    simp only [poolStep] at hs
    split at hs
    · rename_i hk
      cases hs
      exact kept_keep h rfl (Or.inl rfl) rfl (by rw [hk]; rfl)
    · cases hs
  | complete j i r =>
    simp only [poolStep] at hs
    split at hs
    · rename_i hk
      cases hs
      obtain ⟨⟨tags,hg⟩,hx⟩ := h
      obtain ⟨x,hp⟩ := hg.release (c := .take i r) (y := .take) hk.1 ho rfl (by simp)
      exact ⟨⟨_,hp⟩,hx.snoc (fun j m he => by cases he)⟩
    · cases hs
  | free j i =>
    simp only [poolStep] at hs
    split at hs
    · rename_i hk
      cases hs
      obtain ⟨⟨tags,hg⟩,hx⟩ := h
      obtain ⟨x,hp⟩ := hg.release (c := .free i) (y := .free) hk.1 ho rfl (by simp)
      exact ⟨⟨_,hp⟩,hx.snoc (fun j m he => by cases he)⟩
    · cases hs
  | advance j => exact advance_kept h hs
  | casFailed j =>
    simp only [poolStep] at hs
    split at hs
    · rename_i hk
      split at hs <;> cases hs
      exact kept_keep h rfl (Or.inl rfl) rfl (by rw [hk]; rfl)
    · cases hs

end Steps

section Full

/-- At some moment of the run call `k` looked at the half, and every tag there was in use. -/
def SeenFull (ls : List PoolLabel) (k : Nat) (h : Half) : Prop :=
  ∃ before after s, ls = before ++ after ∧ run poolStep .start before = some s ∧
    s.calls k = .load h ∧ ∀ i < 128, halfOf i = h → s.pool.inUse i = true

def Seen (ls : List PoolLabel) (k : Nat) : PoolCall → Prop
  | .load .hi => SeenFull ls k .lo
  | .cas .lo current => ¬ IttPool.freeBit current < 64 → SeenFull ls k .lo
  | .cas .hi current => SeenFull ls k .lo ∧ (¬ IttPool.freeBit current < 64 → SeenFull ls k .hi)
  | .returned none => ∀ h, SeenFull ls k h
  | _ => True

variable {ls : List PoolLabel} {s t : Pooling} {k : Nat}

theorem SeenFull.later {h : Half} (hs : SeenFull ls k h) (l : PoolLabel) :
    SeenFull (ls ++ [l]) k h := by
  obtain ⟨before,after,s,rfl,hr,hk,hi⟩ := hs
  exact ⟨before,after ++ [l],s,List.append_assoc _ _ _,hr,hk,hi⟩

theorem Seen.later {c : PoolCall} (hs : Seen ls k c) (l : PoolLabel) : Seen (ls ++ [l]) k c := by
  cases c with
  | load h =>
    cases h with
    | lo => trivial
    | hi => exact SeenFull.later hs l
  | cas h current =>
    cases h with
    | lo => exact fun hb => SeenFull.later (hs hb) l
    | hi => exact ⟨SeenFull.later hs.1 l,fun hb => SeenFull.later (hs.2 hb) l⟩
  | returned o =>
    cases o with
    | none => exact fun h => SeenFull.later (hs h) l
    | some i => trivial
  | _ => trivial

theorem seen_setCall {c : PoolCall} {l : PoolLabel} (h : ∀ j, Seen ls j (s.calls j))
    (ht : t.calls = Function.update s.calls k c) (hc : Seen (ls ++ [l]) k c) (j : Nat) :
    Seen (ls ++ [l]) j (t.calls j) := by
  rw [ht]
  exact (Function.forall_update_iff s.calls (fun j d => Seen (ls ++ [l]) j d)).mpr
    ⟨hc,fun j _ => (h j).later l⟩ j

theorem advance_seen (hr : run poolStep .start ls = some s) (h : ∀ j, Seen ls j (s.calls j))
    (hs : s.advance k = some t) (j : Nat) : Seen (ls ++ [.advance k]) j (t.calls j) := by
  have hk := h k
  unfold Pooling.advance at hs
  split at hs
  · rename_i half hc
    cases hs
    rw [hc] at hk
    have hfull : ¬ IttPool.freeBit (s.pool.slots half) < 64 →
        SeenFull (ls ++ [.advance k]) k half := by
      intro hb
      refine ⟨ls,[.advance k],s,rfl,hr,hc,fun i hi hh => ?_⟩
      by_contra hu
      exact hb (IttPool.freeBit_slots.mpr ⟨i,hi,hh,by simpa using hu⟩)
    refine seen_setCall h rfl ?_ j
    cases half with
    | lo => exact hfull
    | hi => exact ⟨hk.later _,hfull⟩
  · rename_i half current hc
    rw [hc] at hk
    simp only at hs
    split at hs
    · split at hs
      · cases hs
        refine seen_setCall h rfl ?_ j
        trivial
      · cases hs
        refine seen_setCall h rfl ?_ j
        cases half with
        | lo => trivial
        | hi => exact hk.1.later _
    · rename_i hb
      cases hs
      refine seen_setCall h rfl ?_ j
      cases half with
      | lo => exact (hk hb).later _
      | hi =>
        intro half
        cases half with
        | lo => exact hk.1.later _
        | hi => exact (hk.2 hb).later _
  · cases hs
    refine seen_setCall h rfl ?_ j
    trivial
  · cases hs
    refine seen_setCall h rfl ?_ j
    trivial
  · rename_i i r tx hc
    cases hs
    cases tx <;> refine seen_setCall h rfl ?_ j <;> trivial
  · cases hs
    refine seen_setCall h rfl ?_ j
    trivial
  · cases hs

theorem seen_step {l : PoolLabel} (hr : run poolStep .start ls = some s)
    (h : ∀ j, Seen ls j (s.calls j)) (hs : poolStep s l = some t) (j : Nat) :
    Seen (ls ++ [l]) j (t.calls j) := by
  cases l with
  | advance k => exact advance_seen hr h hs j
  | casFailed k =>
    simp only [poolStep] at hs
    split at hs
    · rename_i half current hc
      have hk := h k
      rw [hc] at hk
      split at hs <;> cases hs
      refine seen_setCall h rfl ?_ j
      cases half with
      | lo => trivial
      | hi => exact hk.1.later _
    · cases hs
  | _ =>
    simp only [poolStep] at hs
    split at hs <;> cases hs
    refine seen_setCall h rfl ?_ j
    trivial

theorem seen_run (hr : run poolStep .start ls = some s) (j : Nat) : Seen ls j (s.calls j) := by
  have h0 : ∀ j, Seen [] j (Pooling.start.calls j) := fun _ => trivial
  exact run_history (P := fun ls s => ∀ j, Seen ls j (s.calls j))
    (fun _ _ _ _ hr h hs => seen_step hr h hs) h0 hr j

end Full

section Rest

def PoolCall.resting : PoolCall → Bool
  | .idle | .returned _ | .finished => true
  | _ => false

theorem resting_work {c : PoolCall} (h : c.resting = true) : c.work = none := by
  cases c <;> first | rfl | cases h

def Quiescent (s : Pooling) : Prop := ∀ k, (s.calls k).resting = true

def PoolLabel.Own (k : Nat) (l : PoolLabel) : Prop := l = .advance k ∨ l = .casFailed k

/-- Call `k` is `alloc`, runs alone and returns. -/
def AllocReturns (k : Nat) (s : Pooling) (r : Option Nat) (t : Pooling) : Prop :=
  ∃ u, poolStep s (.alloc k) = some u ∧ Reaches poolStep (PoolLabel.Own k) u t ∧
    t.calls k = .returned r

/-- How many tags are allocated. -/
def allocatedCount (log : List PoolEvent) : Nat :=
  ((Finset.range 128).filter (fun i => (lease log i).isSome = true)).card

theorem allocatedCount_lt {log : List PoolEvent} :
    allocatedCount log < 128 ↔ ∃ i < 128, lease log i = none := by
  have hle := Finset.card_filter_le (Finset.range 128) (fun i => (lease log i).isSome = true)
  rw [Finset.card_range] at hle
  have heq : allocatedCount log = 128 ↔ ∀ i < 128, (lease log i).isSome = true := by
    have hf := Finset.card_filter_eq_iff (s := Finset.range 128)
      (p := fun i => (lease log i).isSome = true)
    rw [Finset.card_range] at hf
    rw [allocatedCount,hf]
    simp only [Finset.mem_range]
  constructor
  · intro hlt
    by_contra hno
    have h : allocatedCount log = 128 := heq.mpr (fun i hi => by
      by_contra hs
      exact hno ⟨i,hi,by simpa using hs⟩)
    omega
  · intro ⟨i,hi,hn⟩
    refine lt_of_le_of_ne hle (fun h => ?_)
    have hs := heq.mp h i hi
    rw [hn] at hs
    cases hs

variable {tags : Nat → Tag} {s t u : Pooling} {k i : Nat}

theorem Pooled.inUse_iff (h : Pooled tags s) (hq : Quiescent s) (hi : i < 128) :
    s.pool.inUse i = true ↔ (Iscsi.lease s.log i).isSome = true := by
  rw [h.inUse i hi,h.lease]
  have hw : (tags i).worker = none := by
    cases hx : (tags i).worker with
    | none => rfl
    | some y =>
      obtain ⟨j,w⟩ := y
      have hj := (h.work j i w).mpr hx
      rw [resting_work (hq j)] at hj
      cases hj
  cases ht : tags i with
  | free | allocated a => simp [Tag.lease]
  | _ => rw [ht] at hw; cases hw

def IttPool.LowestFree (p : IttPool) (i : Nat) : Prop :=
  i < 128 ∧ p.inUse i = false ∧ ∀ j < i, p.inUse j = true

theorem lowestFree_lo {p : IttPool} (hb : IttPool.freeBit (p.slots .lo) < 64) :
    p.LowestFree (Half.lo.base+IttPool.freeBit (p.slots .lo)) := by
  obtain ⟨hc,hlow⟩ := (IttPool.freeBit_spec hb).mp rfl
  refine ⟨IttPool.tag_lt hb,by rw [IttPool.inUse_half p hb,hc],fun j hj => ?_⟩
  rw [show Half.lo.base+IttPool.freeBit (p.slots .lo) = IttPool.freeBit (p.slots .lo) from
    Nat.zero_add _] at hj
  have hlt : j < 64 := by omega
  have hu := IttPool.inUse_half p (h := .lo) hlt
  rw [show Half.lo.base+j = j from Nat.zero_add j,hlow j hj] at hu
  exact hu

theorem lowestFree_hi {p : IttPool} (hlo : ¬ IttPool.freeBit (p.slots .lo) < 64)
    (hb : IttPool.freeBit (p.slots .hi) < 64) :
    p.LowestFree (Half.hi.base+IttPool.freeBit (p.slots .hi)) := by
  obtain ⟨hc,hlow⟩ := (IttPool.freeBit_spec hb).mp rfl
  refine ⟨IttPool.tag_lt hb,by rw [IttPool.inUse_half p hb,hc],fun j hj => ?_⟩
  by_cases hj' : j < 64
  · by_contra hu
    exact hlo (IttPool.freeBit_slots.mpr ⟨j,by omega,if_pos hj',by simpa using hu⟩)
  · have hbase : Half.hi.base = 64 := rfl
    have hlt : j-64 < 64 := by omega
    have hu := IttPool.inUse_half p (h := .hi) hlt
    rw [show Half.hi.base+(j-64) = j from Nat.add_sub_cancel' (show 64 ≤ j by omega),
      hlow (j-64) (by omega)] at hu
    exact hu

def Allocs (p q : IttPool) : PoolCall → Prop
  | .load .lo => q = p
  | .cas .lo current => q = p ∧ current = p.slots .lo
  | .load .hi => q = p ∧ ¬ IttPool.freeBit (p.slots .lo) < 64
  | .cas .hi current => q = p ∧ current = p.slots .hi ∧ ¬ IttPool.freeBit (p.slots .lo) < 64
  | .store i => p.LowestFree i
  | .returned (some i) => p.LowestFree i
  | .returned none => ∀ h, ¬ IttPool.freeBit (p.slots h) < 64
  | _ => False

theorem advance_allocs {p : IttPool} (ha : Allocs p u.pool (u.calls k))
    (h : u.advance k = some t) : Allocs p t.pool (t.calls k) := by
  unfold Pooling.advance at h
  split at h
  · rename_i half hc
    rw [hc] at ha
    cases h
    rw [setCall_self]
    cases half with
    | lo => exact ⟨ha,congrArg (fun q : IttPool => q.slots .lo) ha⟩
    | hi => exact ⟨ha.1,congrArg (fun q : IttPool => q.slots .hi) ha.1,ha.2⟩
  · rename_i half current hc
    rw [hc] at ha
    simp only at h
    split at h
    · rename_i hb
      split at h
      · cases h
        rw [setCall_self]
        cases half with
        | lo =>
          obtain ⟨_,rfl⟩ := ha
          exact lowestFree_lo hb
        | hi =>
          obtain ⟨_,rfl,hlo⟩ := ha
          exact lowestFree_hi hlo hb
      · cases h
        rw [setCall_self]
        cases half with
        | lo => exact ha.1
        | hi => exact ⟨ha.1,ha.2.2⟩
    · rename_i hb
      cases h
      rw [setCall_self]
      cases half with
      | lo =>
        obtain ⟨hq,rfl⟩ := ha
        exact ⟨hq,hb⟩
      | hi =>
        obtain ⟨_,rfl,hlo⟩ := ha
        intro half
        cases half with
        | lo => exact hlo
        | hi => exact hb
  · rename_i i hc
    rw [hc] at ha
    cases h
    rw [setCall_self]
    exact ha
  · rename_i hc
    rw [hc] at ha
    exact ha.elim
  · rename_i hc
    rw [hc] at ha
    exact ha.elim
  · rename_i hc
    rw [hc] at ha
    exact ha.elim
  · cases h

theorem own_allocs {p : IttPool} {l : PoolLabel} (ha : Allocs p u.pool (u.calls k))
    (hl : PoolLabel.Own k l) (h : poolStep u l = some t) : Allocs p t.pool (t.calls k) := by
  rcases hl with rfl | rfl
  · exact advance_allocs ha h
  · simp only [poolStep] at h
    split at h
    · rename_i half current hc
      rw [hc] at ha
      split at h <;> cases h
      rw [setCall_self]
      cases half with
      | lo => exact ha.1
      | hi => exact ⟨ha.1,ha.2.2⟩
    · cases h

theorem alloc_eq_some (h : poolStep s (.alloc k) = some u) :
    s.calls k = .idle ∧ u = s.setCall k (.load .lo) := by
  simp only [poolStep] at h
  split at h
  · rename_i hk
    exact ⟨hk,(Option.some.inj h).symm⟩
  · cases h

theorem AllocReturns.lowest {r : Option Nat} (h : AllocReturns k s r t) :
    match r with
    | some i => s.pool.LowestFree i
    | none => ∀ i < 128, s.pool.inUse i = true := by
  obtain ⟨u,hs,hr,hk⟩ := h
  obtain ⟨_,rfl⟩ := alloc_eq_some hs
  have ha := hr.keeps (I := fun u : Pooling => Allocs s.pool u.pool (u.calls k))
    (fun _ _ _ ha hl h => own_allocs ha hl h) (by rw [setCall_self]; rfl)
  rw [hk] at ha
  cases r with
  | some i => exact ha
  | none =>
    intro i hi
    by_contra hu
    exact ha (halfOf i) (IttPool.freeBit_slots.mpr ⟨i,hi,rfl,by simpa using hu⟩)

theorem alloc_half {half : Half} (hs : Reaches poolStep (PoolLabel.Own k) s u)
    (hk : u.calls k = .load half) (hb : IttPool.freeBit (u.pool.slots half) < 64) :
    ∃ t r, Reaches poolStep (PoolLabel.Own k) s t ∧ t.calls k = .returned r := by
  have h₁ : u.advance k = some (u.setCall k (.cas half (u.pool.slots half))) := by
    rw [Pooling.advance,hk]
  have h₂ : ∃ v i, (u.setCall k (.cas half (u.pool.slots half))).advance k = some v ∧
      v.calls k = .store i := by
    rw [Pooling.advance,setCall_self]
    exact ⟨_,_,(if_pos hb).trans (if_pos rfl),setCall_self _ _ _⟩
  obtain ⟨v,i,h₂,hv⟩ := h₂
  have h₃ : ∃ w, v.advance k = some w ∧ w.calls k = .returned (some i) := by
    rw [Pooling.advance,hv]
    exact ⟨_,rfl,setCall_self _ _ _⟩
  obtain ⟨w,h₃,hw⟩ := h₃
  exact ⟨w,_,((hs.snoc (Or.inl rfl) h₁).snoc (Or.inl rfl) h₂).snoc (Or.inl rfl) h₃,hw⟩

theorem alloc_full {half : Half} (hs : Reaches poolStep (PoolLabel.Own k) s u)
    (hk : u.calls k = .load half) (hb : ¬ IttPool.freeBit (u.pool.slots half) < 64) :
    ∃ v, Reaches poolStep (PoolLabel.Own k) s v ∧ v.calls k = .afterFull half := by
  have h₁ : u.advance k = some (u.setCall k (.cas half (u.pool.slots half))) := by
    rw [Pooling.advance,hk]
  have h₂ : (u.setCall k (.cas half (u.pool.slots half))).advance k =
      some ((u.setCall k (.cas half (u.pool.slots half))).setCall k (.afterFull half)) := by
    rw [Pooling.advance,setCall_self]
    exact if_neg hb
  exact ⟨_,(hs.snoc (Or.inl rfl) h₁).snoc (Or.inl rfl) h₂,setCall_self _ _ _⟩

theorem allocReturns_exists (hk : s.calls k = .idle) : ∃ r t, AllocReturns k s r t := by
  have hs : poolStep s (.alloc k) = some (s.setCall k (.load .lo)) := if_pos hk
  have hend : ∃ t r, Reaches poolStep (PoolLabel.Own k) (s.setCall k (.load .lo)) t ∧
      t.calls k = .returned r := by
    by_cases hlo : IttPool.freeBit (s.pool.slots .lo) < 64
    · exact alloc_half .refl (setCall_self _ _ _) hlo
    · obtain ⟨v,hv,hkv⟩ := alloc_full .refl (setCall_self s k (.load .lo)) hlo
      by_cases hhi : IttPool.freeBit (v.pool.slots .hi) < 64
      · exact alloc_half hv hkv hhi
      · obtain ⟨t,ht,hkt⟩ := alloc_full hv hkv hhi
        exact ⟨t,none,ht,hkt⟩
  obtain ⟨t,r,ht,hkt⟩ := hend
  exact ⟨r,t,_,hs,ht,hkt⟩

end Rest

/-- In every order of steps, a tag is returned to one call at a time and its sender stays until
it is taken; `alloc` gives up only after it has seen both halves full. At rest the tags are
enumerated in order, and `alloc` returns the lowest free one. -/
theorem itt_pool_invariant {ls : List PoolLabel} {s : Pooling}
    (hm : Meets poolStep OnceEach .start ls) (hr : run poolStep .start ls = some s) :
    (∀ pre k i post, s.log = pre ++ .allocated k i :: post → i < 128 ∧ lease pre i = none) ∧
    (∀ k, s.calls k = .returned none → ∀ h, SeenFull ls k h) ∧
    (∀ i k, senderOf s.log i = some k → s.pool.completions i = some k) ∧
    (Quiescent s →
      (∃ l, s.pool.outstandingItts = some l ∧ l.Pairwise (· < ·) ∧
        ∀ i, i ∈ l ↔ (lease s.log i).isSome = true) ∧
      ∀ k, s.calls k = .idle → (∃ r t, AllocReturns k s r t) ∧ ∀ r t, AllocReturns k s r t →
        (r.isSome = true ↔ allocatedCount s.log < 128) ∧
        ∀ i, r = some i → IsLeast {i | lease s.log i = none} i) := by
  obtain ⟨⟨tags,hg⟩,hx⟩ := invariant (fun _ _ _ h ho hs => pool_step h ho hs) kept_start hm hr
  refine ⟨hx,fun k hk => ?_,fun i k hs => ?_,fun hq => ⟨?_,fun k hk => ⟨allocReturns_exists hk,
    fun r t h => ?_⟩⟩⟩
  · have hseen := seen_run hr k
    rw [hk] at hseen
    exact hseen
  · rw [hg.senderOf] at hs
    exact hg.sender i k hs
  · obtain ⟨l,hl,hp,hmem⟩ := s.pool.outstandingItts_spec
    refine ⟨l,hl,hp,fun i => ?_⟩
    rw [hmem]
    constructor
    · intro hi
      exact (hg.inUse_iff hq hi.1).mp hi.2
    · intro hi
      have hlt : i < 128 := by
        refine hg.range i (fun hf => ?_)
        rw [hg.lease,hf] at hi
        cases hi
      exact ⟨hlt,(hg.inUse_iff hq hlt).mpr hi⟩
  · have hlow := h.lowest
    have hfree {i : Nat} (hi : i < 128) : s.pool.inUse i = false ↔ lease s.log i = none := by
      rw [← Bool.not_eq_true,hg.inUse_iff hq hi,Bool.not_eq_true,Option.isSome_eq_false_iff,
        Option.isNone_iff_eq_none]
    rw [allocatedCount_lt]
    cases r with
    | some i =>
      obtain ⟨hi,hf,hb⟩ := hlow
      refine ⟨⟨fun _ => ⟨i,hi,(hfree hi).mp hf⟩,fun _ => rfl⟩,fun j hj => ?_⟩
      cases hj
      refine ⟨(hfree hi).mp hf,fun j hj => ?_⟩
      by_contra hlt
      have hu := hb j (by omega)
      rw [(hfree (by omega)).mpr hj] at hu
      cases hu
    | none =>
      refine ⟨⟨fun h => (by cases h),fun h => ?_⟩,fun i hi => by cases hi⟩
      obtain ⟨i,hi,hn⟩ := h
      have hu := hlow i hi
      rw [(hfree hi).mpr hn] at hu
      cases hu

def reuse : List PoolLabel :=
  .alloc 0 :: List.replicate 3 (.advance 0) ++
    .complete 1 0 ⟨.good,none,none⟩ :: List.replicate 3 (.advance 1) ++
      .alloc 2 :: List.replicate 3 (.advance 2)

/-- The sender is that of the second call, only the first tag is listed, and a third call gets
the lowest of the others. -/
theorem itt_pool_invariant_reused : ∃ s, run poolStep .start reuse = some s ∧
    s.pool.completions 0 = some 2 ∧
    (∃ l, s.pool.outstandingItts = some l ∧ l.Pairwise (· < ·) ∧
      ∀ i, i ∈ l ↔ (lease s.log i).isSome = true) ∧
    (∃ r t, AllocReturns 3 s r t) ∧ ∀ r t, AllocReturns 3 s r t →
      (r.isSome = true ↔ allocatedCount s.log < 128) ∧
      ∀ i, r = some i → IsLeast {i | lease s.log i = none} i := by
  have hm : Meets poolStep OnceEach .start reuse := meets_of_check (by decide +kernel)
  have hr : ∃ s, run poolStep .start reuse = some s ∧ senderOf s.log 0 = some 2 ∧
      Quiescent s ∧ s.calls 3 = .idle := by
    refine ⟨_,rfl,by decide +kernel,fun k => ?_,rfl⟩
    match k with
    | 0 | 1 | 2 => rfl
    | k+3 => rfl
  obtain ⟨s,hr,hs,hq,hk⟩ := hr
  obtain ⟨_,_,hsender,hquiet⟩ := itt_pool_invariant hm hr
  obtain ⟨hlist,halloc⟩ := hquiet hq
  exact ⟨s,hr,hsender 0 2 hs,hlist,halloc 3 hk⟩

end IscsiFuse.Iscsi
