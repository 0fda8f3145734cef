import IscsiFuse.Block.Transitions
set_option autoImplicit false

namespace IscsiFuse.Block
open IscsiFuse.Iscsi Tiling

def Device.submitted (v : Device) (e : Nat × Bytes) : Patch :=
  ⟨e.1*v.blockSize,v.pipeline.carried e.2⟩

def Device.entryCommands (v : Device) (e : Nat × Bytes) : Option (List WriteCommand) :=
  v.pipeline.writeCommands e.1 e.2

def Device.pieces (v : Device) (cmds : List WriteCommand) : List Patch :=
  cmds.map (WriteCommand.patch v.blockSize)

variable {v : Device}

@[simp] theorem pieces_append (cs ds : List WriteCommand) :
    v.pieces (cs ++ ds) = v.pieces cs ++ v.pieces ds := List.map_append

theorem piece_at? {e : Nat × Bytes} {cs : List WriteCommand} (h : v.entryCommands e = some cs)
    {w : Patch} (hw : w ∈ v.pieces cs) {p : Nat} {x : UInt8} (hx : w.at? p = some x) :
    (v.submitted e).at? p = some x := by
  obtain ⟨gs,ht,hl,hc⟩ := Pipeline.writeCommands_patches h
  have hm : w ∈ cut v.pipeline.blockSize (v.pipeline.carried e.2) 0 gs := hc ▸ hw
  exact cut_at? ht hl hm hx

theorem pieces_cover {e : Nat × Bytes} {cs : List WriteCommand} (h : v.entryCommands e = some cs)
    {p : Nat} (hp : (v.submitted e).Covers p) : ∃ w ∈ v.pieces cs, w.Covers p := by
  obtain ⟨gs,ht,hl,hc⟩ := Pipeline.writeCommands_patches h
  have hx := cut_covers ht hl hp
  rw [← hc] at hx
  exact hx

theorem pieces_apart {e : Nat × Bytes} {cs : List WriteCommand} (h : v.entryCommands e = some cs) :
    (v.pieces cs).Pairwise Patch.Apart := by
  obtain ⟨gs,ht,hl,hc⟩ := Pipeline.writeCommands_patches h
  have ha := cut_apart ht hl
  rw [← hc] at ha
  exact ha

theorem applyAll_pieces {e : Nat × Bytes} {cs : List WriteCommand}
    (h : v.entryCommands e = some cs) (d : Image) :
    Patch.applyAll d (v.pieces cs) = (v.submitted e).apply d := by
  obtain ⟨gs,ht,hl,hc⟩ := Pipeline.writeCommands_patches h
  have ha := applyAll_cut ht hl d
  rw [← hc] at ha
  exact ha

def Device.AllCommands (v : Device) (es : List (Nat × Bytes)) (cs : List WriteCommand) : Prop :=
  ∃ css, es.mapM v.entryCommands = some css ∧ cs = css.flatten

namespace Device.AllCommands

theorem nil {cs : List WriteCommand} (h : v.AllCommands [] cs) : cs = [] := by
  obtain ⟨css,hc,rfl⟩ := h
  simp at hc
  simp [hc]

theorem cons {e : Nat × Bytes} {es : List (Nat × Bytes)} {cs : List WriteCommand}
    (h : v.AllCommands (e :: es) cs) : ∃ c₁ c₂, v.entryCommands e = some c₁ ∧
      v.AllCommands es c₂ ∧ cs = c₁ ++ c₂ := by
  obtain ⟨css,hc,rfl⟩ := h
  simp only [List.mapM_cons,Option.bind_eq_bind,Option.bind_eq_some_iff,Option.pure_def,
    Option.some.injEq] at hc
  obtain ⟨c₁,h₁,c₂,h₂,rfl⟩ := hc
  exact ⟨c₁,c₂.flatten,h₁,⟨c₂,h₂,rfl⟩,rfl⟩

theorem at? {es : List (Nat × Bytes)} {cs : List WriteCommand} (h : v.AllCommands es cs)
    {w : Patch} (hw : w ∈ v.pieces cs) :
    ∃ e ∈ es, ∀ p x, w.at? p = some x → (v.submitted e).at? p = some x := by
  induction es generalizing cs with
  | nil =>
    rw [h.nil] at hw
    cases hw
  | cons e es ih =>
    obtain ⟨c₁,c₂,h₁,h₂,rfl⟩ := h.cons
    rw [pieces_append,List.mem_append] at hw
    rcases hw with hw | hw
    · exact ⟨e,by simp,fun p x hx => piece_at? h₁ hw hx⟩
    · obtain ⟨f,hf,hx⟩ := ih h₂ hw
      exact ⟨f,by simp [hf],hx⟩

theorem covers {es : List (Nat × Bytes)} {cs : List WriteCommand} (h : v.AllCommands es cs)
    {e : Nat × Bytes} (he : e ∈ es) {p : Nat} {x : UInt8} (hx : (v.submitted e).at? p = some x) :
    ∃ w ∈ v.pieces cs, w.at? p = some x := by
  induction es generalizing cs with
  | nil => cases he
  | cons f es ih =>
    obtain ⟨c₁,c₂,h₁,h₂,rfl⟩ := h.cons
    rcases List.mem_cons.mp he with rfl | he
    · obtain ⟨w,hw,hc⟩ := pieces_cover h₁ (Patch.covers_of_at? hx)
      obtain ⟨y,hy⟩ := Patch.exists_at? hc
      have hxy : some y = some x := (piece_at? h₁ hw hy).symm.trans hx
      exact ⟨w,by simp [hw],hy.trans hxy⟩
    · obtain ⟨w,hw,hwx⟩ := ih h₂ he
      exact ⟨w,by simp [hw],hwx⟩

theorem apart {es : List (Nat × Bytes)} {cs : List WriteCommand} (h : v.AllCommands es cs)
    (ha : (es.map v.submitted).Pairwise Patch.Apart) : (v.pieces cs).Pairwise Patch.Apart := by
  induction es generalizing cs with
  | nil =>
    rw [h.nil]
    exact List.Pairwise.nil
  | cons e es ih =>
    obtain ⟨c₁,c₂,h₁,h₂,rfl⟩ := h.cons
    obtain ⟨he,hes⟩ := List.pairwise_cons.mp ha
    rw [pieces_append,List.pairwise_append]
    refine ⟨pieces_apart h₁,ih h₂ hes,fun w hw u hu p hp hup => ?_⟩
    obtain ⟨x,hx⟩ := Patch.exists_at? hp
    obtain ⟨y,hy⟩ := Patch.exists_at? hup
    obtain ⟨f,hf,hfx⟩ := h₂.at? hu
    have hep := Patch.covers_of_at? (piece_at? h₁ hw hx)
    exact he _ (List.mem_map.mpr ⟨f,hf,rfl⟩) p hep (Patch.covers_of_at? (hfx p y hy))

theorem applyAll {es : List (Nat × Bytes)} {cs : List WriteCommand} (h : v.AllCommands es cs)
    (d : Image) : Patch.applyAll d (v.pieces cs) = Patch.applyAll d (es.map v.submitted) := by
  induction es generalizing cs d with
  | nil =>
    rw [h.nil]
    rfl
  | cons e es ih =>
    obtain ⟨c₁,c₂,h₁,h₂,rfl⟩ := h.cons
    rw [pieces_append,Patch.applyAll_append,applyAll_pieces h₁,ih h₂]
    rfl

end Device.AllCommands

def Device.pending (v : Device) (cmds : List FlushCmd) : List Patch :=
  (cmds.filter (fun c => c.status = .pending)).map (fun c => c.cmd.patch v.blockSize)

theorem pending_new (cs : List WriteCommand) :
    v.pending (cs.map (fun c => ⟨c,.pending⟩)) = v.pieces cs := by
  simp [Device.pending,Device.pieces,List.filter_map,Function.comp_def]

theorem pending_set {cmds : List FlushCmd} {i : Nat} {c : FlushCmd} {x : CmdStatus}
    (hc : cmds[i]? = some c) (hp : c.status = .pending) (hx : x ≠ .pending) :
    (v.pending cmds).Perm (c.cmd.patch v.blockSize ::
      v.pending (cmds.set i { c with status := x })) := by
  induction cmds generalizing i with
  | nil => simp at hc
  | cons b cmds ih =>
    cases i with
    | zero =>
      simp only [List.getElem?_cons_zero,Option.some.injEq] at hc
      subst hc
      simp [Device.pending,hp,hx]
    | succ i =>
      have hi := ih (i := i) (by simpa using hc)
      by_cases hb : b.status = .pending
      · simp only [Device.pending,List.set_cons_succ,List.filter_cons,hb,decide_true,if_true,
          List.map_cons] at hi ⊢
        exact (List.Perm.cons _ hi).trans (List.Perm.swap _ _ _)
      · simpa [Device.pending,List.filter_cons,hb] using hi

theorem pending_eq_nil {cmds : List FlushCmd} (h : ∀ c ∈ cmds, c.status = .good) :
    v.pending cmds = [] := by
  simp only [Device.pending,List.map_eq_nil_iff,List.filter_eq_nil_iff]
  intro c hc
  simp [h c hc]

end IscsiFuse.Block
