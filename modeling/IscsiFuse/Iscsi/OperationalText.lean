import Mathlib.Tactic.IntervalCases
import IscsiFuse.Library.Text
import IscsiFuse.Iscsi.Negotiation
set_option autoImplicit false

namespace IscsiFuse.Iscsi
open KeyedFold

def digestText (digest : Bool) : String := if digest then "CRC32C" else "None"

def booleanText (b : Bool) : String := if b then "Yes" else "No"

namespace NegotiatedParams

def buildOperationalTextFrom (defaults : NegotiatedParams) : String :=
  s!"HeaderDigest={digestText defaults.headerDigest}\x00" ++
  s!"DataDigest={digestText defaults.dataDigest}\x00" ++
  s!"MaxRecvDataSegmentLength={defaults.maxRecvDataSegmentLength}\x00" ++
  s!"MaxBurstLength={defaults.maxBurstLength}\x00" ++
  s!"FirstBurstLength={defaults.firstBurstLength}\x00" ++
  s!"InitialR2T={booleanText defaults.initialR2t}\x00" ++
  s!"ImmediateData={booleanText defaults.immediateData}\x00" ++
  s!"MaxOutstandingR2T={defaults.maxOutstandingR2t}\x00" ++
  s!"MaxConnections={defaults.maxConnections}\x00" ++
  s!"DataPDUInOrder={booleanText defaults.dataPduInOrder}\x00" ++
  s!"DataSequenceInOrder={booleanText defaults.dataSequenceInOrder}\x00" ++
  s!"ErrorRecoveryLevel={defaults.errorRecoveryLevel}\x00" ++
  s!"DefaultTime2Wait={defaults.defaultTime2wait}\x00" ++
  s!"DefaultTime2Retain={defaults.defaultTime2retain}\x00"

def buildOperationalText : String := defaults10g.buildOperationalTextFrom

end NegotiatedParams

theorem utf8_append (s t : String) : utf8 (s ++ t) = utf8 s ++ utf8 t := by
  simp [utf8]

theorem isUtf8_utf8 (s : String) : isUtf8 (utf8 s) = true := by
  unfold isUtf8 utf8
  rw [ByteArray.validateUTF8_eq_true_iff]
  exact s.isValidUTF8

theorem utf8_repr_digit {n : Nat} (h : n < 10) : utf8 n.repr = [UInt8.ofNat (0x30+n)] := by
  interval_cases n <;> rfl

theorem digits_repr_digit {bound d : Nat} (a : Nat) (hd : d < 10) (h : a*10+d < bound) :
    (utf8 d.repr).foldlM (digits bound) a = some (a*10+d) := by
  rw [utf8_repr_digit hd,List.foldlM_cons]
  have hdigit : digits bound a (UInt8.ofNat (0x30+d)) = some (a*10+d) := by
    unfold digits
    interval_cases d <;> simpa using h
  rw [hdigit]
  rfl

theorem foldlM_repr {bound n : Nat} (h : n < bound) :
    (utf8 n.repr).foldlM (digits bound) 0 = some n := by
  induction n using Nat.strongRecOn with
  | ind n ih =>
    by_cases hn : n < 10
    · have hd := digits_repr_digit 0 hn (show 0*10+n < bound by omega)
      rwa [Nat.zero_mul,Nat.zero_add] at hd
    · have hdiv := Nat.div_add_mod' n 10
      have hd := digits_repr_digit (n/10) (Nat.mod_lt n (by decide))
        (show n/10*10+n%10 < bound by omega)
      rw [hdiv] at hd
      rw [Nat.repr_eq_repr_append_repr (by omega),utf8_append,List.foldlM_append,
        ih (n/10) (by omega) (by omega)]
      exact hd

theorem digit_of_mem_repr {n : Nat} {b : UInt8} (h : b ∈ utf8 n.repr) : 0x30 ≤ b ∧ b ≤ 0x39 := by
  induction n using Nat.strongRecOn with
  | ind n ih =>
    have hdigit : ∀ d, d < 10 → b ∈ utf8 d.repr → 0x30 ≤ b ∧ b ≤ 0x39 := by
      intro d hd hb
      rw [utf8_repr_digit hd,List.mem_singleton] at hb
      subst hb
      interval_cases d <;> decide
    by_cases hn : n < 10
    · exact hdigit n hn h
    · rw [Nat.repr_eq_repr_append_repr (by omega),utf8_append] at h
      rcases List.mem_append.mp h with h | h
      · exact ih (n/10) (by omega) h
      · exact hdigit _ (Nat.mod_lt n (by decide)) h

theorem parseUnsigned_repr {bound n : Nat} (h : n < bound) :
    parseUnsigned bound (utf8 n.repr) = some n := by
  have hf := foldlM_repr h
  have hplus : ∀ ds, utf8 n.repr ≠ 0x2B :: ds := by
    intro ds he
    have hb := digit_of_mem_repr (n := n) (b := 0x2B) (by rw [he]; exact List.mem_cons_self)
    exact absurd hb.1 (by decide)
  have hne : utf8 n.repr ≠ [] := by
    by_cases hn : n < 10
    · rw [utf8_repr_digit hn]
      exact List.cons_ne_nil _ _
    · rw [Nat.repr_eq_repr_append_repr (by omega),utf8_append,
        utf8_repr_digit (Nat.mod_lt n (by decide))]
      exact List.append_ne_nil_of_right_ne_nil _ (List.cons_ne_nil _ _)
  unfold parseUnsigned
  generalize utf8 n.repr = value at hf hplus hne
  cases value with
  | nil => exact absurd rfl hne
  | cons b ds => simp [hf]

def entry (kv : Bytes × Bytes) : Bytes := kv.1 ++ 0x3D :: kv.2 ++ [0]

def entryText (key value : String) : String := key ++ "=" ++ value ++ "\x00"

theorem utf8_entryText (key value : String) :
    utf8 (entryText key value) = entry (utf8 key,utf8 value) := by
  simp only [entryText,entry,utf8_append]
  rw [show utf8 "=" = [0x3D] from rfl,show utf8 "\x00" = [0] from rfl]
  simp

theorem utf8_foldl_append (ts : List String) (s : String) :
    utf8 (ts.foldl (· ++ ·) s) = utf8 s ++ ts.flatMap utf8 := by
  induction ts generalizing s with
  | nil => simp
  | cons t ts ih => rw [List.foldl_cons,ih,utf8_append,List.flatMap_cons,List.append_assoc]

/-- A pair that can be told apart in the text. -/
structure Framed (kv : Bytes × Bytes) : Prop where
  key_nul : 0 ∉ kv.1
  key_separator : 0x3D ∉ kv.1
  value_nul : 0 ∉ kv.2

theorem splitOnce_framed {kv : Bytes × Bytes} (h : Framed kv) :
    splitOnce 0x3D (kv.1 ++ 0x3D :: kv.2) = some kv := by
  have hne : ∀ b ∈ kv.1, decide (b ≠ 0x3D) = true :=
    fun b hb => decide_eq_true (fun he => h.key_separator (he ▸ hb))
  unfold splitOnce
  rw [List.dropWhile_append_of_pos hne,List.takeWhile_append_of_pos hne]
  simp

theorem Framed.nul {kv : Bytes × Bytes} (h : Framed kv) : 0 ∉ kv.1 ++ 0x3D :: kv.2 := by
  intro hb
  rcases List.mem_append.mp hb with hb | hb
  · exact h.key_nul hb
  · rcases List.mem_cons.mp hb with hb | hb
    · exact absurd hb (by decide)
    · exact h.value_nul hb

theorem splitOn_entries {ps : List (Bytes × Bytes)} (h : ∀ kv ∈ ps, Framed kv) :
    (ps.flatMap entry).splitOn 0 = ps.map (fun kv => kv.1 ++ 0x3D :: kv.2) ++ [[]] := by
  have ht : ps.flatMap entry = Text.terminated 0 (ps.map (fun kv => kv.1 ++ 0x3D :: kv.2)) ++ [] := by
    rw [List.append_nil,Text.terminated,List.flatMap_map]
    rfl
  rw [ht,Text.splitOn_terminated (fun c hc => ?_)]
  · rfl
  · obtain ⟨kv,hm,rfl⟩ := List.mem_map.mp hc
    exact (h kv hm).nul

theorem parseKvPairs_entries {ps : List (Bytes × Bytes)} (h : ∀ kv ∈ ps, Framed kv)
    (hu : isUtf8 (ps.flatMap entry) = true) : parseKvPairs (ps.flatMap entry) = ps := by
  have hsplit : ∀ qs : List (Bytes × Bytes), (∀ kv ∈ qs, Framed kv) →
      (qs.map (fun kv => kv.1 ++ 0x3D :: kv.2)).filterMap
        (fun entry => if entry = [] then none else splitOnce 0x3D entry) = qs := by
    intro qs hq
    rw [List.filterMap_map]
    refine (List.filterMap_congr (fun kv hm => ?_)).trans List.filterMap_some
    have hne : kv.1 ++ 0x3D :: kv.2 ≠ [] :=
      List.append_ne_nil_of_right_ne_nil _ (List.cons_ne_nil _ _)
    exact (if_neg hne).trans (splitOnce_framed (hq kv hm))
  rw [parseKvPairs,if_pos hu,splitOn_entries h,List.filterMap_append,hsplit ps h]
  simp

namespace NegotiatedParams

def Key.offered (p : NegotiatedParams) : (k : Key) → k.rule.Value
  | .headerDigest => p.headerDigest
  | .dataDigest => p.dataDigest
  | .maxRecvDataSegmentLength => p.maxRecvDataSegmentLength
  | .maxBurstLength => p.maxBurstLength
  | .firstBurstLength => p.firstBurstLength
  | .initialR2t => p.initialR2t
  | .immediateData => p.immediateData
  | .maxOutstandingR2t => p.maxOutstandingR2t
  | .maxConnections => p.maxConnections
  | .dataPduInOrder => p.dataPduInOrder
  | .dataSequenceInOrder => p.dataSequenceInOrder
  | .errorRecoveryLevel => p.errorRecoveryLevel
  | .defaultTime2wait => p.defaultTime2wait
  | .defaultTime2retain => p.defaultTime2retain

def Key.offer (p : NegotiatedParams) : Key → String
  | .headerDigest => digestText p.headerDigest
  | .dataDigest => digestText p.dataDigest
  | .maxRecvDataSegmentLength => p.maxRecvDataSegmentLength.repr
  | .maxBurstLength => p.maxBurstLength.repr
  | .firstBurstLength => p.firstBurstLength.repr
  | .initialR2t => booleanText p.initialR2t
  | .immediateData => booleanText p.immediateData
  | .maxOutstandingR2t => p.maxOutstandingR2t.repr
  | .maxConnections => p.maxConnections.repr
  | .dataPduInOrder => booleanText p.dataPduInOrder
  | .dataSequenceInOrder => booleanText p.dataSequenceInOrder
  | .errorRecoveryLevel => p.errorRecoveryLevel.repr
  | .defaultTime2wait => p.defaultTime2wait.repr
  | .defaultTime2retain => p.defaultTime2retain.repr

def offers (p : NegotiatedParams) : List (Bytes × Bytes) :=
  Key.all.map (fun k => (utf8 k.name,utf8 (k.offer p)))

/-- The numbers are within their types, of 32 bits and of 8 bits. -/
structure Fits (p : NegotiatedParams) : Prop where
  maxRecvDataSegmentLength : p.maxRecvDataSegmentLength < 2^32
  maxBurstLength : p.maxBurstLength < 2^32
  firstBurstLength : p.firstBurstLength < 2^32
  maxOutstandingR2t : p.maxOutstandingR2t < 2^32
  maxConnections : p.maxConnections < 2^32
  errorRecoveryLevel : p.errorRecoveryLevel < 2^8
  defaultTime2wait : p.defaultTime2wait < 2^32
  defaultTime2retain : p.defaultTime2retain < 2^32

theorem buildOperationalTextFrom_eq (p : NegotiatedParams) : p.buildOperationalTextFrom =
    (Key.all.map (fun k => entryText k.name (k.offer p))).foldl (· ++ ·) "" := by
  simp only [Key.all,List.map_cons,List.map_nil,List.foldl_cons,List.foldl_nil,
    String.empty_append,entryText,Key.name,Key.offer,String.reduceAppend]
  rfl

theorem utf8_buildOperationalTextFrom (p : NegotiatedParams) :
    utf8 p.buildOperationalTextFrom = p.offers.flatMap entry := by
  rw [buildOperationalTextFrom_eq,utf8_foldl_append,offers,List.flatMap_map,List.flatMap_map]
  refine List.flatMap_congr (fun k _ => ?_)
  exact utf8_entryText _ _

theorem digestValue_digestText (key : String) (b : Bool) :
    digestValue key (utf8 (digestText b)) = .ok b := by cases b <;> rfl

theorem numericValue_repr {bits n : Nat} (key : String) (h : n < 2^bits) :
    numericValue bits key (utf8 n.repr) = .ok n := numericValue_eq_ok.mpr (parseUnsigned_repr h)

theorem yes_booleanText (b : Bool) : decide (utf8 (booleanText b) = utf8 "Yes") = b := by
  cases b <;> rfl

theorem read_offer {p : NegotiatedParams} (h : p.Fits) (k : Key) :
    k.rule.read (utf8 (k.offer p)) = .ok (k.offered p) := by
  cases k with
  | headerDigest | dataDigest => exact digestValue_digestText _ _
  | initialR2t | immediateData | dataPduInOrder | dataSequenceInOrder =>
    exact congrArg Except.ok (yes_booleanText _)
  | maxRecvDataSegmentLength => exact numericValue_repr _ h.maxRecvDataSegmentLength
  | maxBurstLength => exact numericValue_repr _ h.maxBurstLength
  | firstBurstLength => exact numericValue_repr _ h.firstBurstLength
  | maxOutstandingR2t => exact numericValue_repr _ h.maxOutstandingR2t
  | maxConnections => exact numericValue_repr _ h.maxConnections
  | errorRecoveryLevel => exact numericValue_repr _ h.errorRecoveryLevel
  | defaultTime2wait => exact numericValue_repr _ h.defaultTime2wait
  | defaultTime2retain => exact numericValue_repr _ h.defaultTime2retain

theorem framed_offer {p : NegotiatedParams} {kv : Bytes × Bytes} (h : kv ∈ p.offers) : Framed kv := by
  obtain ⟨k,_,rfl⟩ := List.mem_map.mp h
  have hnum : ∀ n : Nat, 0 ∉ utf8 n.repr :=
    fun n hz => absurd (digit_of_mem_repr hz).1 (by decide)
  have hdigest : ∀ b, 0 ∉ utf8 (digestText b) := by decide
  have hbool : ∀ b, 0 ∉ utf8 (booleanText b) := by decide
  have hname : ∀ k : Key, 0 ∉ utf8 k.name ∧ 0x3D ∉ utf8 k.name := by
    intro k
    cases k <;> decide
  refine ⟨(hname k).1,(hname k).2,?_⟩
  cases k with
  | headerDigest | dataDigest => exact hdigest _
  | initialR2t | immediateData | dataPduInOrder | dataSequenceInOrder => exact hbool _
  | _ => exact hnum _

theorem parseKvPairs_offers (p : NegotiatedParams) :
    parseKvPairs (utf8 p.buildOperationalTextFrom) = p.offers := by
  rw [utf8_buildOperationalTextFrom]
  refine parseKvPairs_entries (fun kv h => framed_offer h) ?_
  rw [← utf8_buildOperationalTextFrom]
  exact isUtf8_utf8 _

def combine (q p : NegotiatedParams) : NegotiatedParams where
  maxRecvDataSegmentLength := q.maxRecvDataSegmentLength
  maxSendDataSegmentLength := p.maxRecvDataSegmentLength
  maxBurstLength := min q.maxBurstLength p.maxBurstLength
  firstBurstLength := min q.firstBurstLength p.firstBurstLength
  initialR2t := q.initialR2t || p.initialR2t
  immediateData := q.immediateData && p.immediateData
  maxOutstandingR2t := min q.maxOutstandingR2t p.maxOutstandingR2t
  maxConnections := min q.maxConnections p.maxConnections
  dataPduInOrder := p.dataPduInOrder
  dataSequenceInOrder := p.dataSequenceInOrder
  errorRecoveryLevel := min q.errorRecoveryLevel p.errorRecoveryLevel
  headerDigest := p.headerDigest
  dataDigest := p.dataDigest
  defaultTime2wait := p.defaultTime2wait
  defaultTime2retain := p.defaultTime2retain

theorem foldlM_offers {p : NegotiatedParams} (h : p.Fits) (ks : List Key) (q : NegotiatedParams) :
    (ks.map (fun k => (utf8 k.name,utf8 (k.offer p)))).foldlM applyPair q =
      .ok (ks.foldl (fun q k => k.rule.put q (k.rule.combine (k.rule.get q) (k.offered p))) q) := by
  induction ks generalizing q with
  | nil => rfl
  | cons k ks ih =>
    rw [List.map_cons,List.foldlM_cons,applyPair_key,Rule.answer,read_offer h]
    exact ih _

theorem combine_self (p : NegotiatedParams) :
    p.combine p = { p with maxSendDataSegmentLength := p.maxRecvDataSegmentLength } := by
  simp [combine]

/-- A target that echoes every offer is understood, whatever this side started from. -/
theorem applyTargetResponse_echo {p : NegotiatedParams} (h : p.Fits) :
    p.applyTargetResponse (utf8 p.buildOperationalTextFrom) =
      .ok { p with maxSendDataSegmentLength := p.maxRecvDataSegmentLength } ∧
    ∀ q : NegotiatedParams, q.applyTargetResponse (utf8 p.buildOperationalTextFrom) =
      .ok (q.combine p) := by
  have hq : ∀ q : NegotiatedParams, q.applyTargetResponse (utf8 p.buildOperationalTextFrom) =
      .ok (q.combine p) := by
    intro q
    rw [applyTargetResponse,parseKvPairs_offers,offers,foldlM_offers h]
    rfl
  exact ⟨combine_self p ▸ hq p,hq⟩

/-- The defaults, echoed to this side and to one with less room. -/
theorem applyTargetResponse_echo_defaults : defaults10g.Fits ∧
    defaults10g.applyTargetResponse (utf8 buildOperationalText) = .ok defaults10g ∧
    { defaults10g with maxBurstLength := 8192, initialR2t := true }.applyTargetResponse
      (utf8 buildOperationalText) =
        .ok { defaults10g with maxBurstLength := 8192, initialR2t := true } := by
  have h : defaults10g.Fits := by constructor <;> decide
  exact ⟨h,(applyTargetResponse_echo h).1,(applyTargetResponse_echo h).2 _⟩

end NegotiatedParams

end IscsiFuse.Iscsi
