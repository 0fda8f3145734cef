import IscsiFuse.Iscsi.ScsiWrite
set_option autoImplicit false

namespace IscsiFuse.Iscsi
open Tiling

def Receiver.Owes (i q : Nat) : Receiver → Prop
  | .lookup r _ | .loadStat r _ => r.itt = i ∧ r.bufferOffset ≤ q ∧ q < r.bufferOffset+r.desiredLength
  | .dataOut r _ _ sent _ =>
    r.itt = i ∧ r.bufferOffset+sent ≤ q ∧ q < r.bufferOffset+r.desiredLength
  | _ => False

/-- What went out with the command or was solicited has come, but for what is owed. -/
structure Transfer.Served (x : Transfer) (owed : Nat → Prop) : Prop where
  immediate : ∀ q < x.immediate, ∃ v ∈ x.pieces, v.Covers q
  bounds : ∀ b ∈ x.bursts, b.off+b.len ≤ x.edtl
  bursts : ∀ b ∈ x.bursts, ∀ q, b.off ≤ q → q < b.off+b.len →
    (∃ v ∈ x.pieces, v.Covers q) ∨ owed q

namespace Transfer.Served

variable {x : Transfer} {owed owed' : Nat → Prop}

theorem mono (h : x.Served owed) (ho : ∀ q, owed q → owed' q) : x.Served owed' where
  immediate := h.immediate
  bounds := h.bounds
  bursts := fun b hb q hl hu => (h.bursts b hb q hl hu).imp_right (ho q)

theorem solicit {b : Burst} (h : x.Served owed) (hin : b.off+b.len ≤ x.edtl)
    (ho : ∀ q, owed q → owed' q) (hb : ∀ q, b.off ≤ q → q < b.off+b.len → owed' q) :
    { x with bursts := b :: x.bursts }.Served owed' where
  immediate := h.immediate
  bounds := by
    intro c hc
    rcases List.mem_cons.mp hc with rfl | hc
    · exact hin
    · exact h.bounds c hc
  bursts := by
    intro c hc q hl hu
    rcases List.mem_cons.mp hc with rfl | hc
    · exact Or.inr (hb q hl hu)
    · exact (h.bursts c hc q hl hu).imp_right (ho q)

theorem receive {v : Patch} (h : x.Served owed) (ho : ∀ q, owed q → v.Covers q ∨ owed' q) :
    { x with pieces := x.pieces ++ [v] }.Served owed' := by
  have hold : ∀ q, (∃ u ∈ x.pieces, u.Covers q) → ∃ u ∈ x.pieces ++ [v], u.Covers q := by
    intro q ⟨u,hu,hq⟩
    exact ⟨u,List.mem_append_left _ hu,hq⟩
  refine ⟨fun q hq => hold q (h.immediate q hq),h.bounds,fun b hb q hl hu => ?_⟩
  rcases h.bursts b hb q hl hu with hc | hq
  · exact Or.inl (hold q hc)
  · rcases ho q hq with hc | hq
    · exact Or.inl ⟨v,List.mem_append_right _ (List.mem_singleton_self v),hc⟩
    · exact Or.inr hq

end Transfer.Served

structure Pipeline.ChunkOf (p : Pipeline) (whole : Patch) (w : WriteCommand) : Prop where
  length : w.data.length = w.blocks*p.blockSize
  short : w.data.length < 2^24
  lba : w.lba < 2^64
  blocks : w.blocks < 2^32
  piece : ∀ q y, (Patch.mk (w.lba*p.blockSize) w.data).at? q = some y → whole.at? q = some y

namespace Writing

variable (p : Pipeline) (ws : List WriteCommand) (whole : Patch) (medium : Image)

def Answering (s : Writing) (r : R2t) (o : Option Bytes) : Prop :=
  ∃ x k w, s.target.transfers r.itt = some x ∧ s.tags r.itt = some k ∧ ws[k]? = some w ∧
    ⟨r.ttt,r.bufferOffset,r.desiredLength⟩ ∈ x.bursts ∧ ∀ d, o = some d → d = w.data

def Stage (s : Writing) : Receiver → Prop
  | .takeData q => q.bhs.scsiStatus = 0
  | .takeSender _ r => r.status = .good
  | .deliver q r tx => r.status = .good ∧ tx = s.tags q.itt
  | .free q => ∀ k, s.tags q.itt = some k → ∃ r, s.replies k = some r
  | .accumulate _ _ | .pong _ _ | .stopped => False
  | _ => True

def Closed (s : Writing) (k : Nat) : Prop :=
  s.tasks k ≠ .submitting ∧ ∀ i, s.tags i = some k → s.target.transfers i = none

structure Sound (s : Writing) : Prop where
  inside : ∀ k, s.tasks k ≠ .submitting → k < ws.length
  tag : ∀ i k, s.tags i = some k → i < 128 ∧ s.tasks k ≠ .submitting
  unique : ∀ i j k, s.tags i = some k → s.tags j = some k → i = j
  transfer : ∀ i x, s.target.transfers i = some x → ∃ k w, s.tags i = some k ∧ ws[k]? = some w ∧
    x.Of w.lba w.data ∧ x.Served (fun q => s.receiver.Owes i q)
  pending : ∀ i x k, s.target.transfers i = some x → s.tags i = some k →
    s.replies k = none ∧ (s.tasks k).result = none
  closing : ∀ i k, s.tags i = some k → s.target.transfers i = none →
    ∃ q, s.receiver.completing = some q ∧ q.itt = i
  completing : ∀ q, s.receiver.completing = some q →
    s.target.transfers q.itt = none ∧ ∃ k, s.tags q.itt = some k
  stage : s.Stage s.receiver
  answering : ∀ r o, s.receiver.r2t = some (r,o) → s.Answering ws r o
  awaited : ∀ k, s.tasks k ≠ .submitting → (s.tasks k).result = none →
    (∃ i, s.tags i = some k) ∨ ∃ r, s.replies k = some r
  replied : ∀ k r, s.replies k = some r → r.status = .good ∧ s.tasks k ≠ .submitting
  finished : ∀ k r, s.tasks k = .finished r → r = .ok ()
  kept : ∀ q, s.target.medium q = medium q ∨ whole.at? q = some (s.target.medium q)
  written : ∀ k w, ws[k]? = some w → s.Closed k → ∀ q y,
    (Patch.mk (w.lba*p.blockSize) w.data).at? q = some y → s.target.medium q = y

variable {p ws whole medium} {s t : Writing} {l : WriteLabel}

theorem sound_start : (start medium).Sound p ws whole medium where
  inside := fun _ h => absurd rfl h
  tag := fun _ _ h => by cases h
  unique := fun _ _ _ h => by cases h
  transfer := fun _ _ h => by cases h
  pending := fun _ _ _ h => by cases h
  closing := fun _ _ h => by cases h
  completing := fun _ h => by cases h
  stage := trivial
  answering := fun _ _ h => by cases h
  awaited := fun _ h => absurd rfl h
  replied := fun _ _ h => by cases h
  finished := fun _ _ h => by cases h
  kept := fun _ => Or.inl rfl
  written := fun _ _ _ h => absurd rfl h.1

theorem Stage.congr {x : Receiver} (h : s.Stage x)
    (ht : ∀ q, x.completing = some q → t.tags q.itt = s.tags q.itt)
    (hr : ∀ k, (∃ r, t.replies k = some r) ↔ ∃ r, s.replies k = some r) : t.Stage x := by
  cases x with
  | deliver q r tx => exact ⟨h.1,h.2.trans (ht q rfl).symm⟩
  | free q => exact fun k hk => (hr k).mpr (h k (ht q rfl ▸ hk))
  | _ => exact h

theorem Sound.turn {x : Receiver} {d : Nat → Option Bytes} (h : s.Sound p ws whole medium)
    (hc : x.completing = s.receiver.completing) (hs : s.Stage x)
    (ho : ∀ i q, s.receiver.Owes i q → x.Owes i q)
    (ha : ∀ r o, x.r2t = some (r,o) → s.Answering ws r o) :
    Sound p ws whole medium { s with writeData := d, receiver := x } where
  inside := h.inside
  tag := h.tag
  unique := h.unique
  transfer := by
    intro i y hy
    obtain ⟨k,w,hk,hw,hof,hsv⟩ := h.transfer i y hy
    exact ⟨k,w,hk,hw,hof,hsv.mono (ho i)⟩
  pending := h.pending
  closing := fun i k hk hi => hc ▸ h.closing i k hk hi
  completing := fun q hq => h.completing q (hc ▸ hq)
  stage := by
    cases x <;> exact hs
  answering := ha
  awaited := h.awaited
  replied := h.replied
  finished := h.finished
  kept := h.kept
  written := h.written

theorem Sound.task {k : Nat} {x : ChunkTask} {d : Nat → Option Bytes}
    (h : s.Sound p ws whole medium) (hk : s.tasks k ≠ .submitting)
    (hr : (s.tasks k).result = none) (hx : x ≠ .submitting)
    (hf : ∀ r, x = .finished r → r = .ok ()) (hp : x.result = none ∨ s.replies k ≠ none) :
    Sound p ws whole medium { s.setTask k x with writeData := d } := by
  have hsub : ∀ j, Function.update s.tasks k x j ≠ .submitting → s.tasks j ≠ .submitting := by
    intro j hj
    by_cases hjk : j = k
    · rwa [hjk]
    · rwa [Function.update_of_ne hjk] at hj
  have hne : ∀ j, s.tasks j ≠ .submitting → Function.update s.tasks k x j ≠ .submitting := by
    intro j hj
    by_cases hjk : j = k
    · rwa [hjk,Function.update_self]
    · rwa [Function.update_of_ne hjk]
  refine ⟨fun j hj => h.inside j (hsub j hj),fun i j hj => ?_,h.unique,h.transfer,
    fun i y j hy hj => ?_,h.closing,h.completing,?_,h.answering,fun j hj hres => ?_,
    fun j r hj => ?_,fun j r hj => ?_,h.kept,fun j w hw hj => ?_⟩
  · exact ⟨(h.tag i j hj).1,hne j (h.tag i j hj).2⟩
  · obtain ⟨hrep,hres⟩ := h.pending i y j hy hj
    refine ⟨hrep,?_⟩
    by_cases hjk : j = k
    · rcases hp with hp | hp
      · rw [hjk]
        simpa [setTask] using hp
      · exact absurd (hjk ▸ hrep) hp
    · simpa [setTask,hjk] using hres
  · have hst := h.stage
    unfold Stage at hst ⊢
    exact hst
  · refine h.awaited j (hsub j hj) ?_
    by_cases hjk : j = k
    · rwa [hjk]
    · simpa [setTask,hjk] using hres
  · exact ⟨(h.replied j r hj).1,hne j (h.replied j r hj).2⟩
  · by_cases hjk : j = k
    · rw [hjk] at hj
      exact hf r (by simpa [setTask] using hj)
    · exact h.finished j r (by simpa [setTask,hjk] using hj)
  · exact h.written j w hw ⟨hsub j hj.1,hj.2⟩

theorem Sound.feed {i : Nat} {x y : Transfer} {z : Receiver} (h : s.Sound p ws whole medium)
    (hx : s.target.transfers i = some x) (hr : s.receiver.completing = none)
    (hz : z.completing = none) (hs : s.Stage z)
    (hy : ∀ k w, s.tags i = some k → ws[k]? = some w → x.Of w.lba w.data →
      x.Served (fun q => s.receiver.Owes i q) → y.Of w.lba w.data ∧ y.Served (fun q => z.Owes i q))
    (ho : ∀ j q, j ≠ i → s.receiver.Owes j q → z.Owes j q)
    (ha : ∀ r o, z.r2t = some (r,o) → r.itt = i ∧
      ⟨r.ttt,r.bufferOffset,r.desiredLength⟩ ∈ y.bursts ∧
        ∀ k w, s.tags i = some k → ws[k]? = some w → ∀ d, o = some d → d = w.data) :
    Sound p ws whole medium
      { s with target := s.target.setTransfer i (some y), receiver := z } := by
  have hnone : ∀ j, (s.target.setTransfer i (some y)).transfers j = none ↔
      s.target.transfers j = none := by
    intro j
    by_cases hj : j = i
    · rw [hj,Target.setTransfer_self,hx]
      simp
    · rw [Target.setTransfer_other hj]
  refine ⟨h.inside,h.tag,h.unique,fun j v hv => ?_,fun j v k hv hk => ?_,fun j k hk hj => ?_,
    fun q hq => ?_,?_,fun r o hro => ?_,h.awaited,h.replied,h.finished,h.kept,fun k w hw hk => ?_⟩
  · by_cases hj : j = i
    · rw [hj] at hv ⊢
      simp only [Target.setTransfer_self,Option.some.injEq] at hv
      subst hv
      obtain ⟨k,w,hk,hw,hof,hsv⟩ := h.transfer i x hx
      exact ⟨k,w,hk,hw,hy k w hk hw hof hsv⟩
    · simp only [Target.setTransfer_other hj] at hv
      obtain ⟨k,w,hk,hw,hof,hsv⟩ := h.transfer j v hv
      exact ⟨k,w,hk,hw,hof,hsv.mono (fun q => ho j q hj)⟩
  · cases hj : s.target.transfers j with
    | none => exact absurd (((hnone j).mpr hj).symm.trans hv) (by simp)
    | some u => exact h.pending j u k hj hk
  · obtain ⟨q,hq,_⟩ := h.closing j k hk ((hnone j).mp hj)
    rw [hr] at hq
    cases hq
  · have hq : z.completing = some q := hq
    rw [hz] at hq
    cases hq
  · cases z <;> exact hs
  · obtain ⟨hi,hb,hd⟩ := ha r o hro
    obtain ⟨k,w,hk,hw,_⟩ := h.transfer i x hx
    refine ⟨y,k,w,?_,hi ▸ hk,hw,hb,hd k w hk hw⟩
    rw [hi]
    exact Target.setTransfer_self ..
  · exact h.written k w hw ⟨hk.1,fun j hj => (hnone j).mp (hk.2 j hj)⟩

theorem Sound.submit {k i : Nat} {w : WriteCommand} {x : Transfer}
    (h : s.Sound p ws whole medium) (hw : ws[k]? = some w) (hk : s.tasks k = .submitting)
    (hi : s.tags i = none) (hlt : i < 128) (hof : x.Of w.lba w.data)
    (hsv : x.Served (fun q => s.receiver.Owes i q)) :
    Sound p ws whole medium { s.setTask k (.submitted i) with
      tags := Function.update s.tags i (some k)
      target := s.target.setTransfer i (some x) } := by
  have hnone : s.target.transfers i = none := by
    cases hx : s.target.transfers i with
    | none => rfl
    | some y =>
      obtain ⟨_,_,ht,_⟩ := h.transfer i y hx
      rw [hi] at ht
      cases ht
  have htask : ∀ j, j ≠ k → (s.setTask k (.submitted i)).tasks j = s.tasks j :=
    fun j hj => Function.update_of_ne hj _ _
  have hself : (s.setTask k (.submitted i)).tasks k = .submitted i := Function.update_self ..
  have hfree : ∀ j, s.tags j ≠ some k := fun j hj => (h.tag j k hj).2 hk
  have htag : ∀ j m, Function.update s.tags i (some k) j = some m →
      (j = i ∧ m = k) ∨ (j ≠ i ∧ m ≠ k ∧ s.tags j = some m) := by
    intro j m hj
    by_cases hji : j = i
    · rw [hji,Function.update_self] at hj
      exact Or.inl ⟨hji,(Option.some.inj hj).symm⟩
    · rw [Function.update_of_ne hji] at hj
      exact Or.inr ⟨hji,fun hm => hfree j (hm ▸ hj),hj⟩
  have hold : ∀ j m, s.tags j = some m → Function.update s.tags i (some k) j = some m := by
    intro j m hj
    rwa [Function.update_of_ne]
    intro hji
    rw [hji,hi] at hj
    cases hj
  have hother : ∀ j y, s.target.transfers j = some y →
      (s.target.setTransfer i (some x)).transfers j = some y := by
    intro j y hy
    rwa [Target.setTransfer_other]
    intro hji
    rw [hji,hnone] at hy
    cases hy
  refine ⟨fun m hm => ?_,fun j m hj => ?_,fun j j' m hj hj' => ?_,fun j y hy => ?_,
    fun j y m hy hj => ?_,fun j m hj hy => ?_,fun q hq => ?_,?_,fun r o hro => ?_,
    fun m hm hres => ?_,fun m r hm => ?_,fun m r hm => ?_,h.kept,fun m v hv hm => ?_⟩
  · by_cases hmk : m = k
    · rw [hmk]
      exact (List.getElem?_eq_some_iff.mp hw).1
    · exact h.inside m ((htask m hmk) ▸ hm)
  · rcases htag j m hj with ⟨rfl,rfl⟩ | ⟨hji,hmk,hj⟩
    · refine ⟨hlt,?_⟩
      rw [hself]
      simp
    · obtain ⟨h₁,h₂⟩ := h.tag j m hj
      refine ⟨h₁,?_⟩
      rwa [htask m hmk]
  · rcases htag j m hj with ⟨rfl,rfl⟩ | ⟨_,hmk,hj⟩
    · rcases htag j' m hj' with ⟨rfl,_⟩ | ⟨_,hne,_⟩
      · rfl
      · exact absurd rfl hne
    · rcases htag j' m hj' with ⟨_,he⟩ | ⟨_,_,hj'⟩
      · exact absurd he hmk
      · exact h.unique j j' m hj hj'
  · by_cases hji : j = i
    · rw [hji] at hy ⊢
      simp only [Target.setTransfer_self,Option.some.injEq] at hy
      subst hy
      exact ⟨k,w,Function.update_self ..,hw,hof,hsv⟩
    · simp only [Target.setTransfer_other hji] at hy
      obtain ⟨m,v,hm,hv,hof',hsv'⟩ := h.transfer j y hy
      exact ⟨m,v,hold j m hm,hv,hof',hsv'⟩
  · rcases htag j m hj with ⟨rfl,rfl⟩ | ⟨hji,hmk,hj⟩
    · rw [hself]
      refine ⟨?_,rfl⟩
      cases hrep : s.replies m with
      | none => exact hrep
      | some r => exact absurd hk (h.replied m r hrep).2
    · simp only [Target.setTransfer_other hji] at hy
      rw [htask m hmk]
      exact h.pending j y m hy hj
  · rcases htag j m hj with ⟨rfl,rfl⟩ | ⟨hji,_,hj⟩
    · simp [Target.setTransfer_self] at hy
    · exact h.closing j m hj (by simpa [Target.setTransfer_other hji] using hy)
  · obtain ⟨hq₁,m,hm⟩ := h.completing q hq
    have hqi : q.itt ≠ i := by
      intro he
      rw [he,hi] at hm
      cases hm
    refine ⟨?_,m,hold q.itt m hm⟩
    simpa [Target.setTransfer_other hqi] using hq₁
  · refine h.stage.congr (fun q hq => ?_) (fun m => Iff.rfl)
    obtain ⟨_,m,hm⟩ := h.completing q hq
    exact (hold q.itt m hm).trans hm.symm
  · obtain ⟨y,m,v,hy,hm,hv,hb,hd⟩ := h.answering r o hro
    exact ⟨y,m,v,hother _ y hy,hold _ m hm,hv,hb,hd⟩
  · by_cases hmk : m = k
    · rw [hmk]
      exact Or.inl ⟨i,Function.update_self ..⟩
    · have ht := htask m hmk
      rcases h.awaited m (ht ▸ hm) (ht ▸ hres) with ⟨j,hj⟩ | hr
      · exact Or.inl ⟨j,hold j m hj⟩
      · exact Or.inr hr
  · obtain ⟨hgood,hne⟩ := h.replied m r hm
    refine ⟨hgood,?_⟩
    rwa [htask m (fun hmk => hne (hmk ▸ hk))]
  · by_cases hmk : m = k
    · have hm : (s.setTask k (.submitted i)).tasks m = .finished r := hm
      rw [hmk,hself] at hm
      cases hm
    · exact h.finished m r ((htask m hmk).symm.trans hm)
  · by_cases hmk : m = k
    · have hc := hm.2 i (by rw [hmk]; exact Function.update_self ..)
      simp [Target.setTransfer_self] at hc
    · refine h.written m v hv ⟨(htask m hmk) ▸ hm.1,fun j hj => ?_⟩
      have hc := hm.2 j (hold j m hj)
      cases hy : s.target.transfers j with
      | none => rfl
      | some y => exact absurd ((hother j y hy).symm.trans hc) (by simp)

theorem Sound.good {q : Pdu} {x : Transfer} (hws : ∀ w ∈ ws, p.ChunkOf whole w)
    (h : s.Sound p ws whole medium) (hr : s.receiver = .idle)
    (hx : s.target.transfers q.itt = some x) (hc : x.Complete) (hq : q.bhs.scsiStatus = 0) :
    Sound p ws whole medium { s with
      target := { s.target.setTransfer q.itt none with
        medium := (x.patch p.blockSize).apply s.target.medium }
      receiver := .takeData q } := by
  obtain ⟨k,w,hk,hw,hof,_⟩ := h.transfer q.itt x hx
  have hpiece := (hws w (List.mem_of_getElem? hw)).piece
  rw [Transfer.patch_eq hof hc]
  have hother : ∀ j, j ≠ q.itt → (s.target.setTransfer q.itt none).transfers j =
      s.target.transfers j := fun j hj => Target.setTransfer_other hj
  have hopen : ∀ j y, (s.target.setTransfer q.itt none).transfers j = some y →
      s.target.transfers j = some y := by
    intro j y hy
    by_cases hj : j = q.itt
    · rw [hj,Target.setTransfer_self] at hy
      cases hy
    · exact (hother j hj).symm.trans hy
  refine ⟨h.inside,h.tag,h.unique,fun j y hy => ?_,
    fun j y m hy hm => h.pending j y m (hopen j y hy) hm,fun j m hm hj => ?_,fun q' hq' => ?_,hq,
    fun r o hro => ?_,h.awaited,h.replied,h.finished,fun i => ?_,fun m v hv hm i y hy => ?_⟩
  · obtain ⟨m,v,hm,hv,hof',hsv⟩ := h.transfer j y (hopen j y hy)
    refine ⟨m,v,hm,hv,hof',hsv.mono (fun i hi => ?_)⟩
    rw [hr] at hi
    exact hi
  · by_cases hj' : j = q.itt
    · exact ⟨q,rfl,hj'.symm⟩
    · obtain ⟨q',hq',_⟩ := h.closing j m hm ((hother j hj').symm.trans hj)
      rw [hr] at hq'
      cases hq'
  · cases hq'
    exact ⟨Target.setTransfer_self ..,k,hk⟩
  · cases hro
  · by_cases hcov : (Patch.mk (w.lba*p.blockSize) w.data).Covers i
    · obtain ⟨y,hy⟩ := Patch.exists_at? hcov
      refine Or.inr ?_
      simp only [Patch.apply_inside hy]
      exact hpiece i y hy
    · simp only [Patch.apply_outside hcov]
      exact h.kept i
  · by_cases hcov : (Patch.mk (w.lba*p.blockSize) w.data).Covers i
    · obtain ⟨z,hz⟩ := Patch.exists_at? hcov
      simp only [Patch.apply_inside hz]
      have hwhole := (hws v (List.mem_of_getElem? hv)).piece i y hy
      exact Option.some.inj ((hpiece i z hz).symm.trans hwhole)
    · simp only [Patch.apply_outside hcov]
      by_cases hmk : m = k
      · rw [hmk,hw] at hv
        cases hv
        exact absurd (Patch.covers_of_at? hy) hcov
      · refine h.written m v hv ⟨hm.1,fun j hj => ?_⟩ i y hy
        have hjq : j ≠ q.itt := by
          intro he
          rw [he,hk] at hj
          exact hmk (Option.some.inj hj).symm
        exact (hother j hjq).symm.trans (hm.2 j hj)

theorem Sound.deliver {q : Pdu} {r : PduResponse} {tx : Option Nat}
    (h : s.Sound p ws whole medium) (hr : s.receiver = .deliver q r tx) :
    Sound p ws whole medium { s with replies := s.reply tx r, receiver := .free q } := by
  have hst := h.stage
  rw [hr] at hst
  obtain ⟨hgood,rfl⟩ := hst
  have hcomp : s.receiver.completing = some q := by rw [hr]; rfl
  obtain ⟨hnone,k,hk⟩ := h.completing q hcomp
  rw [hk]
  refine ⟨h.inside,h.tag,h.unique,fun j y hy => ?_,fun j y m hy hm => ?_,fun j m hm hj => ?_,
    fun q' hq' => ?_,fun m hm => ?_,fun r o hro => ?_,fun m hm hres => ?_,fun m r' hm => ?_,
    h.finished,h.kept,h.written⟩
  · obtain ⟨m,v,hm,hv,hof,hsv⟩ := h.transfer j y hy
    refine ⟨m,v,hm,hv,hof,hsv.mono (fun i hi => ?_)⟩
    rw [hr] at hi
    exact hi
  · have hmk : m ≠ k := by
      intro he
      rw [h.unique j q.itt k (he ▸ hm) hk] at hy
      cases hnone.symm.trans hy
    obtain ⟨hrep,hres⟩ := h.pending j y m hy hm
    exact ⟨(Function.update_of_ne hmk _ _).trans hrep,hres⟩
  · obtain ⟨q',hq',hj'⟩ := h.closing j m hm hj
    cases hcomp.symm.trans hq'
    exact ⟨q,rfl,hj'⟩
  · cases hq'
    exact ⟨hnone,k,hk⟩
  · cases hk.symm.trans hm
    exact ⟨r,Function.update_self ..⟩
  · cases hro
  · rcases h.awaited m hm hres with hi | ⟨r',hr'⟩
    · exact Or.inl hi
    · refine Or.inr ?_
      by_cases hmk : m = k
      · exact ⟨r,by rw [hmk]; exact Function.update_self ..⟩
      · exact ⟨r',(Function.update_of_ne hmk _ _).trans hr'⟩
  · by_cases hmk : m = k
    · have hm : Function.update s.replies k (some r) m = some r' := hm
      rw [hmk,Function.update_self] at hm
      cases hm
      exact ⟨hgood,hmk ▸ (h.tag q.itt k hk).2⟩
    · exact h.replied m r' ((Function.update_of_ne hmk _ _).symm.trans hm)

theorem Sound.free {q : Pdu} (h : s.Sound p ws whole medium) (hr : s.receiver = .free q) :
    Sound p ws whole medium { s with
      tags := Function.update s.tags q.itt none, receiver := .removeWriteData q.itt } := by
  have hst := h.stage
  rw [hr] at hst
  have hcomp : s.receiver.completing = some q := by rw [hr]; rfl
  obtain ⟨hnone,_⟩ := h.completing q hcomp
  have htag : ∀ j m, Function.update s.tags q.itt none j = some m →
      j ≠ q.itt ∧ s.tags j = some m := by
    intro j m hj
    by_cases hjq : j = q.itt
    · rw [hjq,Function.update_self] at hj
      cases hj
    · exact ⟨hjq,(Function.update_of_ne hjq _ _).symm.trans hj⟩
  have hold : ∀ j m, s.tags j = some m → j ≠ q.itt → Function.update s.tags q.itt none j = some m :=
    fun j m hj hjq => (Function.update_of_ne hjq _ _).trans hj
  refine ⟨h.inside,fun j m hj => h.tag j m (htag j m hj).2,
    fun j j' m hj hj' => h.unique j j' m (htag j m hj).2 (htag j' m hj').2,fun j y hy => ?_,
    fun j y m hy hj => h.pending j y m hy (htag j m hj).2,fun j m hj hy => ?_,fun q' hq' => ?_,
    trivial,fun r o hro => ?_,fun m hm hres => ?_,h.replied,h.finished,h.kept,fun m v hv hm => ?_⟩
  · obtain ⟨m,v,hm,hv,hof,hsv⟩ := h.transfer j y hy
    have hjq : j ≠ q.itt := by
      intro he
      rw [he,hnone] at hy
      cases hy
    refine ⟨m,v,hold j m hm hjq,hv,hof,hsv.mono (fun i hi => ?_)⟩
    rw [hr] at hi
    exact hi
  · obtain ⟨hjq,hj⟩ := htag j m hj
    obtain ⟨q',hq',hj'⟩ := h.closing j m hj hy
    cases hcomp.symm.trans hq'
    exact absurd hj'.symm hjq
  · cases hq'
  · cases hro
  · rcases h.awaited m hm hres with ⟨i,hi⟩ | hrep
    · by_cases hiq : i = q.itt
      · exact Or.inr (hst m (hiq ▸ hi))
      · exact Or.inl ⟨i,hold i m hi hiq⟩
    · exact Or.inr hrep
  · refine h.written m v hv ⟨hm.1,fun j hj => ?_⟩
    by_cases hjq : j = q.itt
    · rw [hjq]
      exact hnone
    · exact hm.2 j (hold j m hj hjq)

theorem Sound.next {r : R2t} {data : Bytes} {stat : BitVec 32} {sent dataSn : Nat}
    (hws : ∀ w ∈ ws, p.ChunkOf whole w) (hm : 0 < p.negotiated.maxSendDataSegmentLength)
    (h : s.Sound p ws whole medium) (hr : s.receiver = .dataOut r data stat sent dataSn)
    (hs : sent < r.desiredLength) : ∃ x q, s.target.transfers r.itt = some x ∧
      r.dataOutPdu p.negotiated.maxSegment data stat sent dataSn = some q ∧ q.wireItt = r.itt ∧
      ⟨r.ttt,r.bufferOffset,r.desiredLength⟩ ∈ x.bursts ∧
      x.receive p.negotiated.maxSendDataSegmentLength q = some { x with pieces := x.pieces ++
        [⟨r.bufferOffset+sent,data.window (r.bufferOffset+sent)
          (min (r.desiredLength-sent) p.negotiated.maxSegment)⟩] } ∧
      r.bufferOffset+r.desiredLength ≤ data.length := by
  obtain ⟨x,k,w,hx,hk,hw,hb,hd⟩ := h.answering r (some data) (by rw [hr]; rfl)
  obtain rfl := hd data rfl
  obtain ⟨k',w',hk',hw',hof,hsv⟩ := h.transfer r.itt x hx
  cases hk.symm.trans hk'
  cases hw.symm.trans hw'
  have hlt := (h.tag r.itt k hk).1
  have hin : r.bufferOffset+r.desiredLength ≤ w.data.length := hof.edtl ▸ hsv.bounds _ hb
  obtain ⟨q,hq,hitt,hrec⟩ := receive_dataOutPdu stat hb hin (hws w (List.mem_of_getElem? hw)).short
    (by omega) hs (Nat.le_of_eq (maxSegment_eq hm))
  exact ⟨x,q,hx,hq,hitt,hb,hrec,hin⟩

theorem opened_submit {w : WriteCommand} {c : Command} {itt : Nat} {cmdSn expStatSn : BitVec 32}
    {u v : Target} (hch : p.ChunkOf whole w) (hlt : itt < 128)
    (hf : p.negotiated.firstBurstLength ≤ p.negotiated.maxSendDataSegmentLength)
    (hc : p.writeCommand w = some c)
    (ht : u.command p.blockSize p.negotiated.maxSendDataSegmentLength
      ((Sender.command c itt).pdu cmdSn expStatSn) = some v) :
    u.transfers itt = none ∧ ∃ x, v = u.setTransfer itt (some x) ∧ x.Of w.lba w.data ∧
      x.bursts = [] ∧ ∀ q < x.immediate, ∃ v ∈ x.pieces, v.Covers q := by
  obtain ⟨hn,x,hx,rfl⟩ := Target.command_eq_some ht
  obtain ⟨y,hy,hof,hb,himm⟩ := opened_write itt cmdSn expStatSn hc hch.length hch.short hch.lba
    hch.blocks hf
  cases hx.symm.trans hy
  rw [wireItt_command c cmdSn expStatSn (by omega)] at hn ⊢
  exact ⟨hn,x,rfl,hof,hb,himm⟩

theorem sound_step (hws : ∀ w ∈ ws, p.ChunkOf whole w)
    (hm : 0 < p.negotiated.maxSendDataSegmentLength)
    (hf : p.negotiated.firstBurstLength ≤ p.negotiated.maxSendDataSegmentLength)
    (h : s.Sound p ws whole medium) (hok : FindsOwn ws s l) (hs : WriteStep p ws s l t) :
    t.Sound p ws whole medium := by
  cases hs with
  | submit k itt cmdSn expStatSn w c target hw hk hi hlt hc ht =>
    obtain ⟨_,x,rfl,hof,hb,himm⟩ := opened_submit (hws w (List.mem_of_getElem? hw)) hlt hf hc ht
    exact h.submit hw hk hi hlt hof ⟨himm,by simp [hb],by simp [hb]⟩
  | register k itt w hw hk =>
    exact h.task (by simp [hk]) (by rw [hk]; rfl) (by simp) (fun _ he => by cases he) (Or.inl rfl)
  | solicit q x y hr hx hy =>
    obtain ⟨⟨_,hin,_,_⟩,rfl⟩ := Transfer.solicit_eq_some.mp hy
    refine h.feed hx (by rw [hr]; rfl) rfl trivial (fun k w hk hw hof hsv => ?_) (fun j i _ hi => ?_)
      (fun r o hro => ?_)
    · refine ⟨⟨hof.lba,hof.edtl,hof.pieces⟩,
        hsv.solicit hin (fun i ho => ?_) (fun i hl hu => ⟨rfl,hl,hu⟩)⟩
      rw [hr] at ho
      cases ho
    · rw [hr] at hi
      cases hi
    · cases hro
      exact ⟨rfl,List.mem_cons_self ..,fun _ _ _ _ _ he => by cases he⟩
  | good q x hr hx hc hq => exact h.good hws hr hx hc hq
  | takeData q stat hr =>
    have hst := h.stage
    rw [hr] at hst
    refine h.turn (by rw [hr]; rfl) ?_ (fun i j hj => ?_) (fun r o hro => by cases hro)
    · have hst : q.bhs.scsiStatus = 0 := hst
      show ScsiStatus.ofByte q.bhs.scsiStatus = .good
      rw [hst]
      rfl
    · rw [hr] at hj
      exact hj
  | takeSender q r stat hr =>
    have hst := h.stage
    rw [hr] at hst
    refine h.turn (by rw [hr]; rfl) ⟨hst,rfl⟩ (fun i j hj => ?_) (fun r o hro => by cases hro)
    rw [hr] at hj
    exact hj
  | deliver q r tx stat hr => exact h.deliver hr
  | free q stat hr => exact h.free hr
  | removeWriteData itt stat hr =>
    refine h.turn (by rw [hr]; rfl) trivial (fun i j hj => ?_) (fun r o hro => by cases hro)
    rw [hr] at hj
    exact hj
  | found r tries data stat hr hd =>
    obtain ⟨x,k,w,hx,hk,hw,hb,_⟩ := h.answering r none (by rw [hr]; rfl)
    have hown : w.data = data := by
      simpa [FindsOwn,hr,hd,hk,hw] using hok
    refine h.turn (by rw [hr]; rfl) trivial (fun i j hj => ?_) (fun r' o hro => ?_)
    · rw [hr] at hj
      exact hj
    · cases hro
      exact ⟨x,k,w,hx,hk,hw,hb,fun d he => by cases he; exact hown.symm⟩
  | missed r tries stat hr hd =>
    have htries : 1 < tries := by
      simpa [FindsOwn,hr,hd] using hok
    rw [if_neg (by omega)]
    refine h.turn (by rw [hr]; rfl) trivial (fun i j hj => ?_) (fun r' o hro => ?_)
    · rw [hr] at hj
      exact hj
    · cases hro
      exact h.answering r none (by rw [hr]; rfl)
  | loadStat r data stat hr =>
    refine h.turn (by rw [hr]; rfl) trivial (fun i j hj => ?_) (fun r' o hro => ?_)
    · rw [hr] at hj
      exact hj
    · cases hro
      exact h.answering r (some data) (by rw [hr]; rfl)
  | dataOut r data stat stat' sent dataSn q x y hr hlt hq hx hy =>
    obtain ⟨x',q',hx',hq',hitt,hb,hrec,hin⟩ := h.next hws hm hr hlt
    cases hq.symm.trans hq'
    rw [hitt] at hx ⊢
    cases hx.symm.trans hx'
    cases hy.symm.trans hrec
    have hwin : (data.window (r.bufferOffset+sent)
        (min (r.desiredLength-sent) p.negotiated.maxSegment)).length =
        min (r.desiredLength-sent) p.negotiated.maxSegment := Bytes.window_length (by omega)
    refine h.feed hx (by rw [hr]; rfl) rfl trivial (fun k w hk hw hof hsv => ?_) (fun j i hj hi => ?_)
      (fun r' o hro => ?_)
    · obtain ⟨_,_,_,hx'',hk'',hw'',_,hd⟩ := h.answering r (some data) (by rw [hr]; rfl)
      cases hk.symm.trans hk''
      cases hw.symm.trans hw''
      have hdata := hd data rfl
      refine ⟨hof.receive (fun i z hz => hdata ▸ at?_window hz),hsv.receive (fun i ho => ?_)⟩
      rw [hr] at ho
      obtain ⟨_,hlo,hhi⟩ := ho
      by_cases hcov : i < r.bufferOffset+sent+min (r.desiredLength-sent) p.negotiated.maxSegment
      · refine Or.inl ⟨hlo,?_⟩
        simp only [hwin]
        exact hcov
      · exact Or.inr ⟨rfl,by omega,hhi⟩
    · rw [hr] at hi
      exact absurd hi.1.symm hj
    · cases hro
      refine ⟨rfl,hb,fun k w hk hw d he => ?_⟩
      obtain ⟨_,_,_,_,hk'',hw'',_,hd⟩ := h.answering r (some data) (by rw [hr]; rfl)
      cases hk.symm.trans hk''
      cases hw.symm.trans hw''
      exact hd d he
  | answered r data stat stat' sent dataSn hr hge =>
    refine h.turn (by rw [hr]; rfl) trivial (fun i j hj => ?_) (fun r' o hro => by cases hro)
    rw [hr] at hj
    have hj : r.itt = i ∧ r.bufferOffset+sent ≤ j ∧ j < r.bufferOffset+r.desiredLength := hj
    omega
  | finish k r hk hr =>
    refine h.task (by simp [hk]) (by rw [hk]; rfl) (by simp) (fun r' he => ?_)
      (Or.inr (by simp [hr]))
    cases he
    exact (checkScsiStatus_eq_ok _).mpr (h.replied k r hr).1

end Writing

def ChunkTask.rank (n : Nat) : ChunkTask → Nat
  | .submitting => 60*n+10
  | .submitted _ => 2
  | .awaiting => 1
  | .finished _ => 0

def Transfer.rank : Option Transfer → Nat
  | some x => 60*x.unsolicited.card+6
  | none => 0

def Receiver.rank : Receiver → Nat
  | .takeData _ => 5
  | .takeSender _ _ => 4
  | .deliver _ _ _ => 3
  | .free _ => 2
  | .removeWriteData _ => 1
  | .lookup r tries => r.desiredLength+tries+3
  | .loadStat r _ => r.desiredLength+2
  | .dataOut r _ _ sent _ => r.desiredLength-sent+1
  | _ => 0

namespace Writing

def tasksLeft (ws : List WriteCommand) (tasks : Nat → ChunkTask) : Nat :=
  ∑ k ∈ Finset.range ws.length, (tasks k).rank ((ws[k]?.map (fun w => w.data.length)).getD 0)

def transfersLeft (transfers : Nat → Option Transfer) : Nat :=
  ∑ i ∈ Finset.range 128, Transfer.rank (transfers i)

def potential (ws : List WriteCommand) (s : Writing) : Nat :=
  tasksLeft ws s.tasks+transfersLeft s.target.transfers+s.receiver.rank

variable {p : Pipeline} {ws : List WriteCommand} {whole : Patch} {medium : Image} {s t : Writing}
  {l : WriteLabel}

theorem tasksLeft_update {w : WriteCommand} {k : Nat} (hw : ws[k]? = some w) (x : ChunkTask) :
    tasksLeft ws (Function.update s.tasks k x)+(s.tasks k).rank w.data.length =
      tasksLeft ws s.tasks+x.rank w.data.length := by
  have hlen : (ws[k]?.map (fun w => w.data.length)).getD 0 = w.data.length := by rw [hw]; rfl
  have h := Machine.sum_update (f := s.tasks)
    (fun j (x : ChunkTask) => x.rank ((ws[j]?.map (fun w => w.data.length)).getD 0))
    (List.getElem?_eq_some_iff.mp hw).1 x
  simp only [hlen] at h
  exact h

theorem transfersLeft_update {i : Nat} (hi : i < 128) (u : Target) (x : Option Transfer) :
    transfersLeft (u.setTransfer i x).transfers+Transfer.rank (u.transfers i) =
      transfersLeft u.transfers+Transfer.rank x :=
  Machine.sum_update (f := u.transfers) (fun _ x => Transfer.rank x) hi x

theorem potential_step (hws : ∀ w ∈ ws, p.ChunkOf whole w)
    (hm : 0 < p.negotiated.maxSendDataSegmentLength)
    (hf : p.negotiated.firstBurstLength ≤ p.negotiated.maxSendDataSegmentLength)
    (h : s.Sound p ws whole medium) (hs : WriteStep p ws s l t) : t.potential ws < s.potential ws := by
  unfold potential
  have htag : ∀ i x, s.target.transfers i = some x → i < 128 := by
    intro i x hx
    obtain ⟨k,_,hk,_⟩ := h.transfer i x hx
    exact (h.tag i k hk).1
  cases hs with
  | submit k itt cmdSn expStatSn w c target hw hk hi hlt hc ht =>
    obtain ⟨hn,x,rfl,hof,_⟩ := opened_submit (hws w (List.mem_of_getElem? hw)) hlt hf hc ht
    have htask := tasksLeft_update (s := s) hw (.submitted itt)
    have htr := transfersLeft_update hlt s.target (some x)
    have hcard := x.unsolicited_card_le
    rw [hof.edtl] at hcard
    rw [hk] at htask
    rw [hn] at htr
    simp only [ChunkTask.rank,Transfer.rank] at htask htr
    simp only [setTask]
    omega
  | register k itt w hw hk =>
    have htask := tasksLeft_update (s := s) hw .awaiting
    rw [hk] at htask
    simp only [ChunkTask.rank] at htask
    simp only [setTask]
    omega
  | solicit q x y hr hx hy =>
    have htr := transfersLeft_update (htag _ _ hx) s.target (some y)
    have hcard := Transfer.solicit_card hy
    obtain ⟨⟨hpos,_⟩,_⟩ := Transfer.solicit_eq_some.mp hy
    rw [hx] at htr
    simp only [Transfer.rank] at htr
    simp only [hr,Receiver.rank]
    omega
  | good q x hr hx hc hq =>
    have htr := transfersLeft_update (htag _ _ hx) s.target none
    rw [hx] at htr
    simp only [Transfer.rank] at htr
    simp only [hr,Receiver.rank]
    omega
  | missed r tries stat hr hd =>
    simp only [hr]
    split <;> simp only [Receiver.rank] <;> omega
  | dataOut r data stat stat' sent dataSn q x y hr hlt hq hx hy =>
    obtain ⟨x',q',hx',hq',hitt,_,hrec,_⟩ := h.next hws hm hr hlt
    cases hq.symm.trans hq'
    rw [hitt] at hx ⊢
    cases hx.symm.trans hx'
    cases hy.symm.trans hrec
    have htr := transfersLeft_update (htag _ _ hx) s.target (some { x with pieces := x.pieces ++
      [⟨r.bufferOffset+sent,data.window (r.bufferOffset+sent)
        (min (r.desiredLength-sent) p.negotiated.maxSegment)⟩] })
    rw [hx] at htr
    have hpos : 0 < p.negotiated.maxSegment := by rwa [maxSegment_eq hm]
    have hsame : Transfer.rank (some { x with pieces := x.pieces ++
      [⟨r.bufferOffset+sent,data.window (r.bufferOffset+sent)
        (min (r.desiredLength-sent) p.negotiated.maxSegment)⟩] }) = Transfer.rank (some x) := rfl
    rw [hsame] at htr
    simp only [hr,Receiver.rank]
    omega
  | answered r data stat stat' sent dataSn hr hge =>
    simp only [hr,Receiver.rank]
    omega
  | finish k r hk hr =>
    obtain ⟨w,hw⟩ : ∃ w, ws[k]? = some w :=
      ⟨_,List.getElem?_eq_getElem (h.inside k (by simp [hk]))⟩
    have htask := tasksLeft_update (s := s) hw (.finished (checkScsiStatus "SCSI WRITE" r))
    rw [hk] at htask
    simp only [ChunkTask.rank] at htask
    simp only [setTask]
    omega
  | takeData q stat hr | takeSender q r stat hr | deliver q r tx stat hr | free q stat hr
  | removeWriteData itt stat hr | found r tries data stat hr hd | loadStat r data stat hr =>
    simp only [hr,Receiver.rank]
    omega

theorem Sound.idle (hws : ∀ w ∈ ws, p.ChunkOf whole w)
    (hm : 0 < p.negotiated.maxSendDataSegmentLength) (h : s.Sound p ws whole medium)
    (hstuck : s.handle p.negotiated 0 = none) : s.receiver = .idle := by
  unfold handle at hstuck
  have hst := h.stage
  cases hr : s.receiver with
  | idle => rfl
  | lookup r tries =>
    rw [hr] at hstuck
    simp only at hstuck
    split at hstuck <;> cases hstuck
  | dataOut r data stat sent dataSn =>
    rw [hr] at hstuck
    simp only at hstuck
    split at hstuck
    · rename_i hlt
      obtain ⟨x,q,hx,hq,hitt,_,hrec,_⟩ := h.next hws hm hr hlt
      simp [hq,Target.dataOut,hitt,hx,hrec] at hstuck
    · cases hstuck
  | accumulate q data | pong ttt n | stopped =>
    rw [hr] at hst
    cases hst
  | _ =>
    rw [hr] at hstuck
    cases hstuck

theorem Sound.sends {i : Nat} {x : Transfer} (hws : ∀ w ∈ ws, p.ChunkOf whole w)
    (h : s.Sound p ws whole medium) (hr : s.receiver = .idle)
    (hx : s.target.transfers i = some x) : ∃ q u, writeStep p ws s (.receive q) = some u := by
  obtain ⟨k,w,hk,hw,hof,hsv⟩ := h.transfer i x hx
  have hitt : (BitVec.ofNat 32 i).toNat = i := Nat.mod_eq_of_lt (by have := (h.tag i k hk).1; omega)
  by_cases hc : x.Complete
  · let q : Pdu := ⟨Bhs.buildScsiResponse (BitVec.ofNat 32 i) 0 0 0 0,none,none⟩
    have hq : q.itt = i := hitt
    have hsent := @Target.sends_good p.blockSize s.target q x (hq ▸ hx) rfl
      (Bhs.buildScsiResponse_status _ _ _ _ _) hc
    exact ⟨q,_,by rw [writeStep,if_pos hr,hsent]; rfl⟩
  · obtain ⟨j,hj,hcov⟩ : ∃ j, j < x.edtl ∧ ¬ ∃ v ∈ x.pieces, v.Covers j := by
      by_contra hno
      exact hc (fun j hj => by_contra (fun hcov => hno ⟨j,hj,hcov⟩))
    let q : Pdu := ⟨Bhs.buildR2t (BitVec.ofNat 32 i) 0 0 0 0 0 (BitVec.ofNat 32 j) 1,none,none⟩
    have hq : q.itt = i := hitt
    have hshort := (hws w (List.mem_of_getElem? hw)).short
    have hburst : q.burst = ⟨0,j,1⟩ := by
      obtain ⟨ho,hl⟩ := Bhs.buildR2t_range (BitVec.ofNat 32 i) 0 0 0 0 0 (BitVec.ofNat 32 j) 1
      rw [Pdu.burst,ho,hl,Bhs.buildR2t_ttt,BitVec.toNat_ofNat,
        Nat.mod_eq_of_lt (by rw [hof.edtl] at hj; omega)]
      rfl
    have himm : x.immediate ≤ j := by
      by_contra hlt
      exact hcov (hsv.immediate j (by omega))
    have hy : x.solicit q.burst = some { x with bursts := q.burst :: x.bursts } := by
      refine Transfer.solicit_eq_some.mpr ⟨?_,rfl⟩
      rw [hburst]
      refine ⟨Nat.one_pos,hj,himm,fun b hb => ?_⟩
      by_contra hno
      have hno : ¬ (j+1 ≤ b.off ∨ b.off+b.len ≤ j) := hno
      rcases hsv.bursts b hb j (by omega) (by omega) with hc | ho
      · exact hcov hc
      · rw [hr] at ho
        exact ho
    have hsent := @Target.sends_r2t p.blockSize s.target q x _ (hq ▸ hx) rfl hy
    exact ⟨q,_,by rw [writeStep,if_pos hr,hsent]; rfl⟩

theorem Sound.submits {k : Nat} {w : WriteCommand} {c : Command} (itt : Nat)
    (cmdSn expStatSn : BitVec 32) (hws : ∀ w ∈ ws, p.ChunkOf whole w)
    (hf : p.negotiated.firstBurstLength ≤ p.negotiated.maxSendDataSegmentLength)
    (hw : ws[k]? = some w) (hk : s.tasks k = .submitting) (hc : p.writeCommand w = some c)
    (hlt : itt < 128) (htag : s.tags itt = none) (hnone : s.target.transfers itt = none) :
    ∃ u, writeStep p ws s (.submit k itt cmdSn expStatSn) = some u := by
  have hch := hws w (List.mem_of_getElem? hw)
  obtain ⟨x,hx,_⟩ := opened_write itt cmdSn expStatSn hc hch.length hch.short hch.lba hch.blocks hf
  have hitt := wireItt_command c cmdSn expStatSn (show itt < 2^32 by omega)
  have ht := Target.command_of_opened (hitt.symm ▸ hnone) hx
  simp [writeStep,Writing.submit,hw,hk,htag,hlt,hc,ht]

theorem Sound.stuck (hws : ∀ w ∈ ws, p.ChunkOf whole w)
    (hm : 0 < p.negotiated.maxSendDataSegmentLength)
    (hf : p.negotiated.firstBurstLength ≤ p.negotiated.maxSendDataSegmentLength)
    (hc : ∀ w ∈ ws, ∃ c, p.writeCommand w = some c) (h : s.Sound p ws whole medium)
    (hstuck : ∀ l, writeStep p ws s l = none) :
    ∀ k < ws.length, ∃ r, s.tasks k = .finished r := by
  have hr := h.idle hws hm (hstuck (.handle 0))
  have hnone : ∀ i, s.target.transfers i = none := by
    intro i
    cases hx : s.target.transfers i with
    | none => rfl
    | some x =>
      obtain ⟨q,u,hu⟩ := h.sends hws hr hx
      exact absurd ((hstuck _).symm.trans hu) (by simp)
  have htag : ∀ i, s.tags i = none := by
    intro i
    cases hi : s.tags i with
    | none => rfl
    | some k =>
      obtain ⟨q,hq,_⟩ := h.closing i k hi (hnone i)
      rw [hr] at hq
      cases hq
  intro k hk
  have hw : ws[k]? = some ws[k] := List.getElem?_eq_getElem hk
  cases htask : s.tasks k with
  | submitting =>
    obtain ⟨c,hcw⟩ := hc _ (List.getElem_mem hk)
    obtain ⟨u,hu⟩ := submits 0 0 0 hws hf hw htask hcw (by decide) (htag 0) (hnone 0)
    exact absurd ((hstuck _).symm.trans hu) (by simp)
  | submitted itt =>
    have hu := hstuck (.register k)
    simp [writeStep,register,hw,htask] at hu
  | awaiting =>
    rcases h.awaited k (by simp [htask]) (by rw [htask]; rfl) with ⟨i,hi⟩ | ⟨r,hrep⟩
    · cases (htag i).symm.trans hi
    · have hu := hstuck (.finish k)
      simp [writeStep,finish,htask,hrep] at hu
  | finished r => exact ⟨r,rfl⟩

theorem Sound.medium_eq (hcov : ∀ q, whole.Covers q →
      ∃ w ∈ ws, (Patch.mk (w.lba*p.blockSize) w.data).Covers q)
    (hws : ∀ w ∈ ws, p.ChunkOf whole w) (h : s.Sound p ws whole medium)
    (hall : ∀ k < ws.length, ∃ r, s.tasks k = .finished r) :
    s.target.medium = whole.apply medium := by
  funext q
  by_cases hq : whole.Covers q
  · obtain ⟨w,hw,hc⟩ := hcov q hq
    obtain ⟨k,hk,rfl⟩ := List.getElem_of_mem hw
    obtain ⟨y,hy⟩ := Patch.exists_at? hc
    obtain ⟨r,hr⟩ := hall k hk
    have hclosed : s.Closed k := by
      refine ⟨by simp [hr],fun i hi => ?_⟩
      cases hx : s.target.transfers i with
      | none => rfl
      | some x =>
        have hres := (h.pending i x k hx hi).2
        rw [hr] at hres
        cases hres
    rw [h.written k _ (List.getElem?_eq_getElem hk) hclosed q y hy,
      Patch.apply_inside ((hws _ hw).piece q y hy)]
  · rw [Patch.apply_outside hq]
    rcases h.kept q with hk | hk
    · exact hk
    · exact absurd (Patch.covers_of_at? hk) hq

theorem Sound.result_eq (h : s.Sound p ws whole medium) :
    (∀ r, s.result ws = some r → r = .ok () ∧ ∀ k < ws.length, ∃ r, s.tasks k = .finished r) ∧
      ((∀ k < ws.length, ∃ r, s.tasks k = .finished r) → s.result ws ≠ none) := by
  have hmem : none ∉ (List.range ws.length).map (fun k => (s.tasks k).result) ↔
      ∀ k < ws.length, ∃ r, s.tasks k = .finished r := by
    simp only [List.mem_map,List.mem_range,not_exists,not_and]
    refine forall₂_congr (fun k _ => ?_)
    cases s.tasks k <;> simp [ChunkTask.result]
  have hok : ∀ r ∈ (List.range ws.length).map (fun k => (s.tasks k).result),
      r = none ∨ r = some (.ok ()) := by
    intro r hr
    obtain ⟨k,_,rfl⟩ := List.mem_map.mp hr
    cases hk : s.tasks k with
    | finished r => exact Or.inr (congrArg some (h.finished k r hk))
    | _ => exact Or.inl rfl
  rw [← hmem]
  have hr : s.result ws = awaitWrites ((List.range ws.length).map (fun k => (s.tasks k).result)) :=
    rfl
  rw [hr,awaitWrites_ok hok]
  split
  · rename_i hn
    exact ⟨fun r hr => (by cases hr),fun h => absurd hn h⟩
  · rename_i hn
    exact ⟨fun r hr => ⟨(Option.some.inj hr).symm,hn⟩,fun _ => by simp⟩

end Writing

variable {p : Pipeline} {lba : Nat} {data : Bytes} {ws : List WriteCommand}

theorem chunkOf_writeCommands (h : p.writeCommands lba data = some ws)
    (hd : p.blockSize ∣ data.length) (hlt : data.length < 2^32)
    (hl : lba+data.length/p.blockSize < 2^64) (hb : p.negotiated.maxBurstLength < 2^24)
    {w : WriteCommand} (hw : w ∈ ws) : p.ChunkOf ⟨lba*p.blockSize,data⟩ w := by
  obtain ⟨hlo,hhi,hle,hlen⟩ := Pipeline.writeCommands_mem h hlt hd hw
  obtain ⟨gs,ht,htot,hcut⟩ := Pipeline.writeCommands_patches h
  rw [Pipeline.carried_eq hlt hd] at htot hcut
  have hdiv := Nat.div_le_self data.length p.blockSize
  have hburst : w.blocks*p.blockSize ≤ p.negotiated.maxBurstLength := by
    refine Nat.le_trans (Nat.mul_le_mul_right _ hle) ?_
    unfold Pipeline.maxWriteBlocks maxReadBlocksFor
    split
    · simp
    · exact Nat.div_mul_le_self ..
  refine ⟨hlen,by omega,by omega,by omega,fun q y hy => ?_⟩
  have hmem : w.patch p.blockSize ∈ cut p.blockSize data 0 gs :=
    hcut ▸ List.mem_map_of_mem hw
  refine cut_at? ht htot hmem ?_
  rwa [WriteCommand.patch,← hlen,List.take_length]

theorem chunks_cover (h : p.writeCommands lba data = some ws)
    (hd : p.blockSize ∣ data.length) (hlt : data.length < 2^32) {q : Nat}
    (hq : (Patch.mk (lba*p.blockSize) data).Covers q) :
    ∃ w ∈ ws, (Patch.mk (w.lba*p.blockSize) w.data).Covers q := by
  obtain ⟨gs,ht,htot,hcut⟩ := Pipeline.writeCommands_patches h
  rw [Pipeline.carried_eq hlt hd] at htot hcut
  obtain ⟨v,hv,hc⟩ := cut_covers ht htot hq
  rw [← hcut] at hv
  obtain ⟨w,hw,rfl⟩ := List.mem_map.mp hv
  obtain ⟨_,_,_,hlen⟩ := Pipeline.writeCommands_mem h hlt hd hw
  rw [WriteCommand.patch,← hlen,List.take_length] at hc
  exact ⟨w,hw,hc⟩

/-- Every run of a `scsi_write` to a compliant target, whose R2Ts find their own data, ends, and
`scsi_write` returns Ok with the payload in its blocks and every other block as it was. -/
theorem scsi_write_end_to_end (hne : data ≠ []) (hd : p.blockSize ∣ data.length)
    (hlt : data.length < 2^32) (hl : lba+data.length/p.blockSize < 2^64)
    (hb : p.blockSize ≤ p.negotiated.maxBurstLength) (hb' : p.negotiated.maxBurstLength < 2^24)
    (hf : p.negotiated.firstBurstLength ≤ p.negotiated.maxSendDataSegmentLength)
    (hm : 0 < p.negotiated.maxSendDataSegmentLength) :
    ∃ ws, p.writeCommands lba data = some ws ∧
      (∀ w ∈ ws, ∃ c, p.writeCommand w = some c ∧ c.edtl.toNat = w.data.length) ∧
      ∃ n, ∀ medium ls t, Machine.run (writeStep p ws) (.start medium) ls = some t →
        Machine.Meets (writeStep p ws) (FindsOwn ws) (.start medium) ls → ls.length ≤ n ∧
          (∀ r, t.result ws = some r →
            r = .ok () ∧ t.target.medium = medium.write (lba*p.blockSize) data) ∧
          ((∀ l, writeStep p ws t l = none) → t.result ws ≠ none) := by
  have hpos : p.blockSize ≠ 0 := by
    intro h0
    rw [h0,Nat.zero_dvd] at hd
    exact hne (List.length_eq_zero_iff.mp hd)
  obtain ⟨ws,h⟩ := @Pipeline.writeCommands_isSome p lba data hpos hb
    (by rwa [Nat.mod_eq_of_lt hlt])
  have hws : ∀ w ∈ ws, p.ChunkOf ⟨lba*p.blockSize,data⟩ w :=
    fun w hw => chunkOf_writeCommands h hd hlt hl hb' hw
  have hc : ∀ w ∈ ws, ∃ c, p.writeCommand w = some c ∧ c.edtl.toNat = w.data.length := by
    intro w hw
    have hlen := (hws w hw).length
    have hshort := (hws w hw).short
    have hmul : w.blocks*p.blockSize < 2^32 := by omega
    obtain ⟨c,hc⟩ := Pipeline.writeCommand_isSome hmul
    obtain ⟨_,rfl⟩ := Pipeline.writeCommand_eq_some hc
    refine ⟨_,hc,?_⟩
    rw [BitVec.toNat_ofNat,Nat.mod_eq_of_lt hmul,hlen]
  refine ⟨ws,h,hc,(Writing.start (fun _ => 0)).potential ws,fun medium ls t hr hok => ?_⟩
  have hstep : ∀ s l t, s.Sound p ws ⟨lba*p.blockSize,data⟩ medium → FindsOwn ws s l →
      writeStep p ws s l = some t → t.Sound p ws ⟨lba*p.blockSize,data⟩ medium :=
    fun s l t hs hok ht => Writing.sound_step hws hm hf hs hok (write_step ht)
  have ht := Machine.invariant hstep Writing.sound_start hok hr
  obtain ⟨hres,hret⟩ := ht.result_eq
  refine ⟨?_,fun r hr => ?_,fun hstuck => ?_⟩
  · have hle := Machine.run_length_le (Φ := Writing.potential ws) hstep
      (fun s l t hs ht => Writing.potential_step hws hm hf hs (write_step ht)) Writing.sound_start
      hok hr
    exact Nat.le_trans (Nat.le_add_right _ _) hle
  · obtain ⟨hok,hall⟩ := hres r hr
    exact ⟨hok,ht.medium_eq (fun q hq => chunks_cover h hd hlt hq) hws hall⟩
  · exact hret (ht.stuck hws hm hf (fun w hw => (hc w hw).imp (fun _ h => h.1)) hstuck)

def narrowDisk : Pipeline :=
  (Pipeline.new 0 { NegotiatedParams.defaults10g with
    maxBurstLength := 2, firstBurstLength := 1, maxSendDataSegmentLength := 1 }).setGeometry 2 8

def solicited (itt : BitVec 32) : List WriteLabel :=
  .receive ⟨Bhs.buildR2t itt 7 0 0 0 0 1 1,none,none⟩ :: List.replicate 4 (.handle 0)

def responded (itt statSn : BitVec 32) : List WriteLabel :=
  .receive ⟨Bhs.buildScsiResponse itt 0 statSn 0 0,none,none⟩ :: List.replicate 5 (.handle 0)

/-- Both commands are out before their second bytes are solicited, the later one's first. -/
def twoChunks : List WriteLabel :=
  [.submit 0 5 1 0,.submit 1 9 2 0,.register 1,.register 0] ++ solicited 9 ++ solicited 5 ++
    responded 9 1 ++ responded 5 2 ++ [.finish 0,.finish 1]

theorem scsi_write_end_to_end_two_chunks : ∃ ws ls t,
    narrowDisk.writeCommands 3 [1,2,3,4] = some ws ∧ ws.length = 2 ∧
      Machine.run (writeStep narrowDisk ws) (.start (fun _ => 0)) ls = some t ∧
      t.result ws = some (.ok ()) ∧ t.target.medium = Image.write (fun _ => 0) 6 [1,2,3,4] := by
  obtain ⟨ws,hws,_,n,h⟩ := @scsi_write_end_to_end narrowDisk 3 [1,2,3,4] (by decide) (by decide)
    (by decide) (by decide) (by decide) (by decide) (by decide) (by decide)
  have heq : narrowDisk.writeCommands 3 [1,2,3,4] = some [⟨3,1,[1,2]⟩,⟨4,1,[3,4]⟩] := by decide
  cases hws.symm.trans heq
  have hret : ((Machine.run (writeStep narrowDisk [⟨3,1,[1,2]⟩,⟨4,1,[3,4]⟩]) (.start (fun _ => 0))
    twoChunks).bind (fun t => t.result [⟨3,1,[1,2]⟩,⟨4,1,[3,4]⟩])).isSome = true := by decide +kernel
  obtain ⟨r,hr⟩ := Option.isSome_iff_exists.mp hret
  obtain ⟨t,ht,hr⟩ := Option.bind_eq_some_iff.mp hr
  obtain ⟨_,hres,_⟩ := h _ twoChunks t ht (Machine.meets_of_check (by decide +kernel))
  obtain ⟨rfl,hmedium⟩ := hres r hr
  exact ⟨_,_,t,heq,rfl,ht,hr,hmedium⟩

end IscsiFuse.Iscsi
