import IscsiFuse.Block.CachedRead
set_option autoImplicit false

/-!
The window of the adaptive readahead over a history of calls of the cache. A
history lists the calls from the last one back to the first.
-/

namespace IscsiFuse.Block
open IscsiFuse.Iscsi

inductive CacheCall where
  | read (startLba blockCount : Nat)
  | invalidate (startLba blockCount : Nat)
  deriving DecidableEq, Repr

/-- The last read of a history, and its number of sequential reads since the last reset. -/
structure Access where
  last : Option (Nat × Nat)
  sequential : Nat
  deriving DecidableEq, Repr

def Access.next (a : Access) : CacheCall → Access
  | .read lba n => ⟨some (lba,n),
      if a.last.map (fun q => q.1+q.2) = some lba then a.sequential+1 else 0⟩
  | .invalidate _ _ => ⟨a.last,0⟩

def access : List CacheCall → Access
  | [] => ⟨none,0⟩
  | c :: cs => (access cs).next c

/-- `ReadaheadState::new`. -/
def ReadaheadState.new (v : Device) : ReadaheadState := ⟨2^64-1,v.raMinBlocks,0,false⟩

def ReadaheadState.Continues (ra : ReadaheadState) (lba n : Nat) : Prop :=
  ra.lastLba ≠ 2^64-1 ∧ lba = (ra.lastLba+n)%2^64

instance (ra : ReadaheadState) (lba n : Nat) : Decidable (ra.Continues lba n) :=
  inferInstanceAs (Decidable (_ ∧ _))

def ReadaheadState.after (v : Device) (ra : ReadaheadState) : CacheCall → Nat × Nat
  | .read lba n => (lba,if ra.Continues lba n then min (ra.raWindow*2) v.raMaxBlocks
      else v.raMinBlocks)
  | .invalidate _ _ => (ra.lastLba,v.raMinBlocks)

def ReadaheadState.detects (ra : ReadaheadState) : Nat × Nat := (ra.lastLba,ra.raWindow)

def Phase.calling : Phase → Option CacheCall
  | .reading r _ _ | .awaiting r _ _ => some (.read r.startLba r.blockCount)
  | .invalidating w _ => some (.invalidate w.startLba w.blockCount)
  | _ => none

/-- The caches go on; of the fetches only those of a prefetch fail. -/
def Undisturbed (s : Worker) (l : Label) : Prop :=
  l.caches = true ∨ ∃ c, l = .fetchFailed c ∧ ∀ r acc, s.phase ≠ .awaiting r c acc

/-- A call is made. Its addresses do not overflow. -/
inductive Worker.Begins (v : Device) (s : Worker) : CacheCall → Worker → Prop
  | read {r : ReadCall} {t : Worker} : 0 < r.blockCount → r.startLba+r.blockCount < 2^64 →
      s.readBlocks v r = some t → Begins v s (.read r.startLba r.blockCount) t
  | invalidate {w : WriteCall} {t : Worker} : w.startLba+w.blockCount < 2^64 →
      s.invalidateRange v w = some t → Begins v s (.invalidate w.startLba w.blockCount) t

def Worker.Returns (v : Device) (s t : Worker) : Prop :=
  t.phase.calling = none ∧
    ∃ ls, Machine.Meets (step v) Undisturbed s ls ∧ Machine.run (step v) s ls = some t

/-- The calls lead from `s` to `t`, and none of them fails. -/
inductive Calls (v : Device) (s : Worker) : List CacheCall → Worker → Prop
  | nil : Calls v s [] s
  | cons {cs : List CacheCall} {c : CacheCall} {t w u : Worker} : Calls v s cs t →
      t.Begins v c w → w.Returns v u → Calls v s (c :: cs) u

/-- The window of the history, with room to double it once more. -/
structure WindowLaw (v : Device) (cs : List CacheCall) (t : Worker) : Prop where
  window : t.ra.raWindow = min v.raMaxBlocks (v.raMinBlocks*2^(access cs).sequential)
  room : t.ra.raWindow*2 < 2^32

/-- The read has the size of the one before it, or starts neither where that one ended nor its
own size behind where that one started. -/
def Fair (v : Device) (cs : List CacheCall) : CacheCall → Prop
  | .read lba n => v.raMaxBlocks = v.raMinBlocks ∨ ∀ q, (access cs).last = some q →
      n = q.2 ∨ (lba ≠ q.1+q.2 ∧ lba ≠ (q.1+n)%2^64)
  | .invalidate _ _ => True

theorem after_congr {v : Device} {ra ra' : ReadaheadState} (h : ra.detects = ra'.detects)
    (c : CacheCall) : ra.after v c = ra'.after v c := by
  obtain ⟨hlast,hw⟩ := Prod.mk.injEq .. ▸ h
  cases c with
  | read lba n =>
    have hc : ra.Continues lba n ↔ ra'.Continues lba n := by
      rw [ReadaheadState.Continues,ReadaheadState.Continues,hlast]
    simp only [ReadaheadState.after,hc,hw]
  | invalidate lba n => rw [ReadaheadState.after,ReadaheadState.after,hlast]

namespace Worker

variable {v : Device} {s t u : Worker} {r : ReadCall} {clba : Nat} {acc : Bytes}

theorem triggerReadahead_detects {lba n : Nat} (h : s.triggerReadahead v lba n = some t) :
    t.phase = s.phase ∧ t.ra.detects = s.ra.after v (.read lba n) := by
  unfold triggerReadahead at h
  simp only [Option.bind_eq_bind,Option.bind_eq_some_iff] at h
  obtain ⟨_,_,h⟩ := h
  split at h
  · rename_i hc
    have hc : ¬ s.ra.Continues lba n := hc
    cases h
    rw [ReadaheadState.after,if_neg hc]
    exact ⟨rfl,rfl⟩
  · rename_i hc
    have hc : s.ra.Continues lba n := not_not.mp hc
    simp only [Option.bind_eq_some_iff,mulU32_eq_some] at h
    obtain ⟨_,⟨_,rfl⟩,_,_,h⟩ := h
    rw [ReadaheadState.after,if_pos hc]
    split at h
    · simp only [Option.bind_eq_some_iff] at h
      obtain ⟨_,_,_,_,h⟩ := h
      cases h
      exact ⟨rfl,rfl⟩
    · cases h
      exact ⟨rfl,rfl⟩

theorem takeChunk_calling {chunk : Bytes} (h : s.takeChunk v r clba acc chunk = some t) :
    t.phase.calling = some (.read r.startLba r.blockCount) ∧ t.ra = s.ra := by
  obtain ⟨_,piece,rfl,_⟩ := takeChunk_cases h
  exact ⟨rfl,rfl⟩

theorem flushDone_calling (s : Worker) (x : Reply Unit) (k : Caller) :
    (s.flushDone x k).phase.calling = none ∧ (s.flushDone x k).ra = s.ra := by
  cases k <;> exact ⟨rfl,rfl⟩

theorem startFlush_calling {k : Caller} (h : s.startFlush v k = some t) :
    t.phase.calling = none ∧ t.ra = s.ra := by
  rcases startFlush_cases h with ⟨_,rfl⟩ | ⟨_,_,_,rfl⟩
  · exact flushDone_calling s (.ok ()) k
  · exact ⟨rfl,rfl⟩

theorem awaitWrites_calling {k : Caller} {dr : List (Nat × Bytes)} {cmds : List FlushCmd}
    (h : s.awaitWrites k dr cmds = some t) : t.phase.calling = none ∧ t.ra = s.ra := by
  rcases awaitWrites_cases h with ⟨_,rfl⟩ | ⟨_,_,_,_,left,err,rfl⟩
  · exact ⟨rfl,rfl⟩
  · exact flushDone_calling _ _ _

theorem readStep_calling (h : s.readStep v r clba acc = some t) :
    (t.phase.calling = some (.read r.startLba r.blockCount) ∧ t.ra = s.ra) ∨
    (t.phase.calling = none ∧ t.ra.detects = s.ra.after v (.read r.startLba r.blockCount)) := by
  obtain ⟨last,hl,⟨_,chunk,_,hk⟩ | ⟨_,_,_,rfl⟩ | ⟨_,_,rfl⟩ | ⟨hlt,_⟩⟩ := readStep_cases h
  · exact Or.inl (takeChunk_calling hk)
  · exact Or.inl ⟨rfl,rfl⟩
  · exact Or.inl ⟨rfl,rfl⟩
  · obtain ⟨w,x,hw,rfl,_⟩ := readStep_end hl hlt h
    exact Or.inr ⟨rfl,(triggerReadahead_detects hw).2⟩

theorem invalidateStep_calling {w : WriteCall} (h : s.invalidateStep v w clba = some t) :
    (t.phase.calling = some (.invalidate w.startLba w.blockCount) ∧ t.ra = s.ra) ∨
    (t.phase.calling = none ∧
      t.ra.detects = s.ra.after v (.invalidate w.startLba w.blockCount)) := by
  unfold invalidateStep at h
  simp only [Option.bind_eq_bind,Option.bind_eq_some_iff] at h
  obtain ⟨last,_,h⟩ := h
  split at h
  · simp only [Option.bind_eq_some_iff] at h
    obtain ⟨next,_,h⟩ := h
    cases h
    exact Or.inl ⟨rfl,rfl⟩
  · split at h
    · obtain ⟨hp,hra⟩ := startFlush_calling h
      exact Or.inr ⟨hp,by rw [hra]; rfl⟩
    · cases h
      exact Or.inr ⟨rfl,rfl⟩

theorem fetchDone_calling {c : Nat} (h : s.fetchDone v c = some t) :
    t.phase.calling = s.phase.calling ∧ t.ra = s.ra := by
  obtain ⟨chunk,tasks,_,⟨rfl,_⟩ | ⟨r,acc,hp,hk⟩⟩ := fetchDone_cases h
  · exact ⟨rfl,rfl⟩
  · obtain ⟨hc,hra⟩ := takeChunk_calling hk
    exact ⟨by rw [hc,hp]; rfl,hra⟩

theorem undisturbed_step {l : Label} (hl : Undisturbed s l) (hs : step v s l = some t) :
    (t.phase.calling = s.phase.calling ∧ t.ra.detects = s.ra.detects) ∨
    ∃ c, s.phase.calling = some c ∧ t.phase.calling = none ∧ t.ra.detects = s.ra.after v c := by
  rcases hl with hl | ⟨c,rfl,hc⟩
  · cases l with
    | read | write | flush | setSyncWrites | tick | close | good | fail | syncGood | syncFail
    | fetchFailed | strayApplied => cases hl
    | cont =>
      cases hp : s.phase with
      | reading r clba acc =>
        have hs : s.readStep v r clba acc = some t := by simpa only [step,hp] using hs
        rcases readStep_calling hs with ⟨hc,hra⟩ | ⟨hc,hra⟩
        · exact Or.inl ⟨hc,by rw [hra]⟩
        · exact Or.inr ⟨_,rfl,hc,hra⟩
      | invalidating w clba =>
        have hs : s.invalidateStep v w clba = some t := by simpa only [step,hp] using hs
        rcases invalidateStep_calling hs with ⟨hc,hra⟩ | ⟨hc,hra⟩
        · exact Or.inl ⟨hc,by rw [hra]⟩
        · exact Or.inr ⟨_,rfl,hc,hra⟩
      | flushing k dr cmds =>
        have hs : s.awaitWrites k dr cmds = some t := by simpa only [step,hp] using hs
        obtain ⟨hc,hra⟩ := awaitWrites_calling hs
        exact Or.inl ⟨hc,by rw [hra]⟩
      | idle | awaiting | syncing | stopped => simp [step,hp] at hs
    | fetched c =>
      have hs : s.fetchDone v c = some t := by simpa only [step] using hs
      obtain ⟨hc,hra⟩ := fetchDone_calling hs
      exact Or.inl ⟨hc,by rw [hra]⟩
    | readahead i =>
      have hs : s.raStep v i = some t := by simpa only [step] using hs
      obtain ⟨hlast,hw,_⟩ := raStep_ra hs
      exact Or.inl ⟨by rw [(raStep_round hs).1],Prod.ext hlast hw⟩
    | evict c =>
      cases hs
      exact Or.inl ⟨rfl,rfl⟩
  · have hs : s.fetchFailed c = some t := by simpa only [step] using hs
    obtain ⟨tasks,rfl | ⟨r,acc,hp,_⟩⟩ := fetchFailed_cases hs
    · exact Or.inl ⟨rfl,rfl⟩
    · exact absurd hp (hc r acc)

theorem Returns.detects {c : CacheCall} (h : s.Returns v t) (hc : s.phase.calling = some c) :
    t.ra.detects = s.ra.after v c := by
  obtain ⟨hn,ls,hm,hr⟩ := h
  have hinv : (t.phase.calling = some c ∧ t.ra.detects = s.ra.detects) ∨
      (t.phase.calling = none ∧ t.ra.detects = s.ra.after v c) := by
    refine Machine.invariant (I := fun x : Worker =>
      (x.phase.calling = some c ∧ x.ra.detects = s.ra.detects) ∨
      (x.phase.calling = none ∧ x.ra.detects = s.ra.after v c)) ?_ (Or.inl ⟨hc,rfl⟩) hm hr
    intro x l y hx hl hs
    rcases undisturbed_step hl hs with ⟨hy,hd⟩ | ⟨c',hx',hy,hd⟩
    · exact hx.imp (fun hx => ⟨hy.trans hx.1,hd.trans hx.2⟩) (fun hx => ⟨hy.trans hx.1,hd.trans hx.2⟩)
    · rcases hx with hx | hx
      · rw [hx.1] at hx'
        cases hx'
        exact Or.inr ⟨hy,hd.trans (after_congr hx.2 c)⟩
      · rw [hx.1] at hx'
        cases hx'
  rcases hinv with h | h
  · rw [hn] at h
    cases h.1
  · exact h.2

theorem Begins.calling {c : CacheCall} (h : s.Begins v c t) :
    t.phase.calling = some c ∧ t.ra = s.ra := by
  cases h with
  | read _ _ h | invalidate _ h =>
    obtain ⟨clba,_,rfl⟩ := Option.map_eq_some_iff.mp h
    exact ⟨rfl,rfl⟩

theorem Begins.detects {c : CacheCall} (h : s.Begins v c t) (hr : t.Returns v u) :
    u.ra.detects = s.ra.after v c := by
  obtain ⟨hc,hra⟩ := h.calling
  rw [hr.detects hc,hra]

theorem Serves.reaches (h : Serves v s t) :
    t.phase = .idle ∧ Machine.Reaches (step v) (fun l => l.caches = true) s t := by
  have hi : t.isIdle = true := Machine.settles_is_done h
  refine ⟨of_decide_eq_true hi,?_⟩
  refine Machine.settles_invariant
    (I := fun x => Machine.Reaches (step v) (fun l => l.caches = true) s x) ?_ .refl h
  intro x y hx _ hs
  unfold serveStep at hs
  split at hs
  · exact hx.snoc rfl hs
  · exact hx.snoc rfl hs
  · cases hs

theorem read_returns (hb : 1 ≤ v.blockSize ∧ v.blockSize ≤ 65536) (hf : Fresh v s)
    (hn : 0 < r.blockCount) (hr : r.startLba+r.blockCount ≤ 2^63)
    (hc : ¬ s.ra.Continues r.startLba r.blockCount) :
    ∃ w u, s.Begins v (.read r.startLba r.blockCount) w ∧ w.Returns v u ∧ Fresh v u := by
  obtain ⟨w,hw,hall⟩ := (readsDirectly_iff hb hf hn hr).mpr (fun hx => absurd hx hc)
  obtain ⟨u,hu⟩ := (hall [] w (by simp) rfl).ends
  obtain ⟨hi,ls,hls,hrun⟩ := hu.reaches
  refine ⟨w,u,.read hn (by omega) hw,⟨by rw [hi]; rfl,ls,?_,hrun⟩,(hall ls u hls hrun).fresh⟩
  exact Machine.meets_of_forall (fun l hl x => Or.inl (hls l hl))

end Worker

structure Remembers (cs : List CacheCall) (t : Worker) : Prop where
  first : (access cs).last = none → t.ra.lastLba = 2^64-1
  last : ∀ q, (access cs).last = some q → t.ra.lastLba = q.1 ∧ 0 < q.2 ∧ q.1+q.2 < 2^64

namespace Calls

variable {v : Device} {s t u w : Worker} {cs pre : List CacheCall} {c : CacheCall}

theorem of_suffix (h : Calls v s cs t) (hp : pre <:+ cs) : ∃ u, Calls v s pre u := by
  induction h with
  | nil =>
    rw [List.suffix_nil.mp hp]
    exact ⟨s,.nil⟩
  | cons h hb hr ih =>
    rcases List.suffix_cons_iff.mp hp with rfl | hp
    · exact ⟨_,h.cons hb hr⟩
    · exact ih hp

theorem remembers (hra : s.ra = .new v) (h : Calls v s cs t) : Remembers cs t := by
  induction h with
  | nil =>
    refine ⟨fun _ => ?_,fun q hq => by cases hq⟩
    rw [hra]
    rfl
  | cons h hb hr ih =>
    have hd := congrArg Prod.fst (hb.detects hr)
    cases hb with
    | read hn hlt _ =>
      refine ⟨(fun hx => by cases hx),fun q hq => ?_⟩
      cases hq
      exact ⟨hd,hn,hlt⟩
    | invalidate _ _ =>
      refine ⟨fun hx => hd.trans (ih.first hx),fun q hq => ?_⟩
      obtain ⟨hlast,hq⟩ := ih.last q hq
      exact ⟨hd.trans hlast,hq⟩

end Calls

section Law

variable {v : Device} {s t u w : Worker} {cs : List CacheCall} {c : CacheCall}

theorem access_read (cs : List CacheCall) (lba n : Nat) :
    (access (.read lba n :: cs)).sequential =
      if (access cs).last.map (fun q => q.1+q.2) = some lba then (access cs).sequential+1 else 0 := rfl

theorem min_double (m a k : Nat) : min (min m (a*2^k)*2) m = min m (a*2^(k+1)) := by
  rw [Nat.pow_succ,← Nat.mul_assoc]
  omega

theorem window_iff (hm : v.raMinBlocks ≤ v.raMaxBlocks) (ht : Remembers cs t)
    (hw : t.ra.raWindow = min v.raMaxBlocks (v.raMinBlocks*2^(access cs).sequential))
    (hb : t.Begins v c w) (hd : u.ra.detects = t.ra.after v c) :
    u.ra.raWindow = min v.raMaxBlocks (v.raMinBlocks*2^(access (c :: cs)).sequential) ↔
      Fair v cs c := by
  have hmin : v.raMinBlocks = 8 := rfl
  have hd := congrArg Prod.snd hd
  cases hb with
  | invalidate _ _ =>
    refine ⟨fun _ => trivial,fun _ => hd.trans ?_⟩
    show v.raMinBlocks = min v.raMaxBlocks (v.raMinBlocks*1)
    omega
  | @read r w hn hlt _ =>
    have hd : u.ra.raWindow = if t.ra.Continues r.startLba r.blockCount then
        min (t.ra.raWindow*2) v.raMaxBlocks else v.raMinBlocks := hd
    rw [hd,access_read,hw]
    generalize (access cs).sequential = k
    have hpow : 2 ≤ 2^(k+1) := Nat.le_self_pow (Nat.succ_ne_zero k) 2
    cases hlast : (access cs).last with
    | none =>
      have hfirst := ht.first hlast
      rw [if_neg (fun hc => hc.1 hfirst),if_neg (by simp)]
      refine ⟨fun _ => Or.inr (fun q hq => ?_),fun _ => by simpa using hm⟩
      rw [hlast] at hq
      cases hq
    | some q =>
      obtain ⟨hq,hpos,hend⟩ := ht.last q hlast
      have hcode : t.ra.Continues r.startLba r.blockCount ↔
          r.startLba = (q.1+r.blockCount)%2^64 := by
        rw [ReadaheadState.Continues,hq]
        exact and_iff_right (by omega)
      have hfair : Fair v cs (.read r.startLba r.blockCount) ↔ v.raMaxBlocks = v.raMinBlocks ∨
          r.blockCount = q.2 ∨ (r.startLba ≠ q.1+q.2 ∧ r.startLba ≠ (q.1+r.blockCount)%2^64) := by
        rw [Fair,hlast]
        simp
      rw [hfair]
      simp only [Option.map_some,Option.some_inj]
      rw [hmin] at hm ⊢
      by_cases hc : r.startLba = (q.1+r.blockCount)%2^64
      · rw [if_pos (hcode.mpr hc),min_double]
        by_cases hs : q.1+q.2 = r.startLba
        · rw [if_pos hs]
          exact iff_of_true rfl (Or.inr (Or.inl (by omega)))
        · rw [if_neg hs,Nat.pow_zero]
          omega
      · rw [if_neg (fun hx => hc (hcode.mp hx))]
        by_cases hs : q.1+q.2 = r.startLba
        · rw [if_pos hs]
          omega
        · rw [if_neg hs,Nat.pow_zero]
          omega

theorem room_iff
    (hw : t.ra.raWindow = min v.raMaxBlocks (v.raMinBlocks*2^(access cs).sequential)) :
    t.ra.raWindow*2 < 2^32 ↔ v.raMaxBlocks < 2^31 ∨ (access cs).sequential < 28 := by
  have hmin : v.raMinBlocks = 8 := rfl
  have hpow : 2^(access cs).sequential < 2^28 ↔ (access cs).sequential < 28 :=
    Nat.pow_lt_pow_iff_right (by decide)
  rw [hw,hmin,← hpow]
  omega

theorem window_of_fair (hra : s.ra = .new v) (hm : v.raMinBlocks ≤ v.raMaxBlocks)
    (h : Calls v s cs t) (hf : ∀ pre c, c :: pre <:+ cs → Fair v pre c) :
    t.ra.raWindow = min v.raMaxBlocks (v.raMinBlocks*2^(access cs).sequential) := by
  induction h with
  | nil =>
    rw [hra]
    show v.raMinBlocks = min v.raMaxBlocks (v.raMinBlocks*1)
    omega
  | @cons cs c t w u h hb hr ih =>
    have hw := ih (fun pre c hp => hf pre c (hp.trans (List.suffix_cons _ _)))
    exact (window_iff hm (h.remembers hra) hw hb (hb.detects hr)).mpr (hf cs c List.suffix_rfl)

end Law

/-- The window follows the history exactly when every read is fair and no run of sequential
reads grows it to `2^31`. -/
theorem readahead_window_iff {v : Device} {s t : Worker} {cs : List CacheCall}
    (hra : s.ra = .new v) (hm : v.raMinBlocks ≤ v.raMaxBlocks) (h : Calls v s cs t) :
    (∀ pre u, pre <:+ cs → Calls v s pre u → WindowLaw v pre u) ↔
      (∀ pre c, c :: pre <:+ cs → Fair v pre c) ∧
      (v.raMaxBlocks < 2^31 ∨ ∀ pre, pre <:+ cs → (access pre).sequential < 28) := by
  constructor
  · intro hlaw
    refine ⟨fun pre c hp => ?_,?_⟩
    · obtain ⟨u,hu⟩ := h.of_suffix hp
      have hend := (hlaw (c :: pre) u hp hu).window
      cases hu with
      | cons hpre hb hr =>
        have hw := (hlaw pre _ ((List.suffix_cons _ _).trans hp) hpre).window
        exact (window_iff hm (hpre.remembers hra) hw hb (hb.detects hr)).mp hend
    · by_cases hmax : v.raMaxBlocks < 2^31
      · exact Or.inl hmax
      · refine Or.inr (fun pre hp => ?_)
        obtain ⟨u,hu⟩ := h.of_suffix hp
        have hu := hlaw pre u hp hu
        exact ((room_iff hu.window).mp hu.room).resolve_left hmax
  · intro h'
    obtain ⟨hfair,hroom⟩ := h'
    intro pre u hp hu
    have hw := window_of_fair hra hm hu (fun pre' c hp' => hfair pre' c (hp'.trans hp))
    exact ⟨hw,(room_iff hw).mpr (hroom.imp id (fun hx => hx pre hp))⟩

def plainBlocks : Device where
  pipeline := ⟨0,512,2048,NegotiatedParams.defaults10g⟩
  totalBytes := 1048576
  coalesceMaxBytes := 1000
  raMaxKb := 512

theorem mixed_reads : ∃ t, Calls plainBlocks (Worker.start plainBlocks false zeros)
    [.read 1 2,.read 0 1] t ∧ t.ra.raWindow = 8 := by
  have hb : 1 ≤ plainBlocks.blockSize ∧ plainBlocks.blockSize ≤ 65536 := by decide
  obtain ⟨w,t,hw,ht,hf⟩ := Worker.read_returns (r := ⟨0,512,0,1,0,512⟩) hb
    (fresh_start plainBlocks false zeros) (by decide) (by decide) (fun hc => hc.1 rfl)
  have hlast : t.ra.lastLba = 0 := congrArg Prod.fst (hw.detects ht)
  have hjump : ¬ t.ra.Continues 1 2 := by
    rw [ReadaheadState.Continues,hlast]
    decide
  obtain ⟨x,u,hx,hu,_⟩ := Worker.read_returns (r := ⟨512,1024,1,2,0,1024⟩) hb hf (by decide)
    (by decide) hjump
  refine ⟨u,(Calls.nil.cons hw ht).cons hx hu,?_⟩
  have hd := congrArg Prod.snd (hx.detects hu)
  rw [ReadaheadState.after,if_neg hjump] at hd
  exact hd

theorem readahead_window_iff_mixed : ∃ t, Calls plainBlocks (Worker.start plainBlocks false zeros)
      [.read 1 2,.read 0 1] t ∧
    ((∀ pre u, pre <:+ [.read 1 2,.read 0 1] →
      Calls plainBlocks (Worker.start plainBlocks false zeros) pre u → WindowLaw plainBlocks pre u) ↔
    (∀ pre c, c :: pre <:+ [.read 1 2,.read 0 1] → Fair plainBlocks pre c) ∧
      (plainBlocks.raMaxBlocks < 2^31 ∨
        ∀ pre, pre <:+ [.read 1 2,.read 0 1] → (access pre).sequential < 28)) := by
  obtain ⟨t,h,_⟩ := mixed_reads
  exact ⟨t,h,readahead_window_iff rfl (by decide) h⟩

/-- The second read starts where the first one ended, and the window is still the smallest. -/
theorem mixed_reads_reset : plainBlocks.raMinBlocks ≤ plainBlocks.raMaxBlocks ∧
    (access [.read 1 2,.read 0 1]).sequential = 1 ∧
    ∃ t, Calls plainBlocks (Worker.start plainBlocks false zeros) [.read 1 2,.read 0 1] t ∧
      t.ra.raWindow ≠ min plainBlocks.raMaxBlocks
        (plainBlocks.raMinBlocks*2^(access [.read 1 2,.read 0 1]).sequential) := by
  refine ⟨by decide,by decide,?_⟩
  obtain ⟨t,h,hw⟩ := mixed_reads
  refine ⟨t,h,?_⟩
  rw [hw]
  decide

end IscsiFuse.Block
