import IscsiFuse.Library.KeyedFold
import IscsiFuse.Iscsi.Login
set_option autoImplicit false

namespace IscsiFuse.Iscsi
open KeyedFold

theorem numericValue_eq_ok {bits n : Nat} {key : String} {value : Bytes} :
    numericValue bits key value = .ok n ↔ parseUnsigned (2^bits) value = some n := by
  unfold numericValue
  cases parseUnsigned (2^bits) value <;> simp

theorem digestValue_eq_ok {key : String} {value : Bytes} {b : Bool} :
    digestValue key value = .ok b ↔
      value = utf8 "CRC32C" ∧ b = true ∨ value = utf8 "None" ∧ b = false := by
  have hne : utf8 "None" ≠ utf8 "CRC32C" := by decide
  unfold digestValue
  split
  · rename_i h
    subst h
    simp [hne.symm,eq_comm]
  · split
    · rename_i h h'
      simp [h',hne,eq_comm]
    · rename_i h h'
      simp [h,h']

namespace NegotiatedParams

/-- The keys a response is read for. -/
inductive Key where
  | headerDigest | dataDigest | maxRecvDataSegmentLength | maxBurstLength | firstBurstLength
  | initialR2t | immediateData | maxOutstandingR2t | maxConnections | dataPduInOrder
  | dataSequenceInOrder | errorRecoveryLevel | defaultTime2wait | defaultTime2retain
  deriving DecidableEq, Repr

def Key.name : Key → String
  | .headerDigest => "HeaderDigest"
  | .dataDigest => "DataDigest"
  | .maxRecvDataSegmentLength => "MaxRecvDataSegmentLength"
  | .maxBurstLength => "MaxBurstLength"
  | .firstBurstLength => "FirstBurstLength"
  | .initialR2t => "InitialR2T"
  | .immediateData => "ImmediateData"
  | .maxOutstandingR2t => "MaxOutstandingR2T"
  | .maxConnections => "MaxConnections"
  | .dataPduInOrder => "DataPDUInOrder"
  | .dataSequenceInOrder => "DataSequenceInOrder"
  | .errorRecoveryLevel => "ErrorRecoveryLevel"
  | .defaultTime2wait => "DefaultTime2Wait"
  | .defaultTime2retain => "DefaultTime2Retain"

abbrev KeyRule := Rule NegotiatedParams Bytes Bytes Error

def digestRule (key : Key) (get : NegotiatedParams → Bool)
    (put : NegotiatedParams → Bool → NegotiatedParams) : KeyRule where
  Value := Bool
  key := utf8 key.name
  get := get
  put := put
  read := digestValue key.name
  combine := last

def numericRule (bits : Nat) (key : Key) (get : NegotiatedParams → Nat)
    (put : NegotiatedParams → Nat → NegotiatedParams) (combine : Nat → Nat → Nat) : KeyRule where
  Value := Nat
  key := utf8 key.name
  get := get
  put := put
  read := numericValue bits key.name
  combine := combine

def booleanRule (key : Key) (get : NegotiatedParams → Bool)
    (put : NegotiatedParams → Bool → NegotiatedParams) (combine : Bool → Bool → Bool) : KeyRule where
  Value := Bool
  key := utf8 key.name
  get := get
  put := put
  read := fun value => .ok (value = utf8 "Yes")
  combine := combine

def Key.rule : Key → KeyRule
  | .headerDigest => digestRule .headerDigest (·.headerDigest) ({ · with headerDigest := · })
  | .dataDigest => digestRule .dataDigest (·.dataDigest) ({ · with dataDigest := · })
  | .maxRecvDataSegmentLength => numericRule 32 .maxRecvDataSegmentLength
      (·.maxSendDataSegmentLength) ({ · with maxSendDataSegmentLength := · }) last
  | .maxBurstLength => numericRule 32 .maxBurstLength
      (·.maxBurstLength) ({ · with maxBurstLength := · }) min
  | .firstBurstLength => numericRule 32 .firstBurstLength
      (·.firstBurstLength) ({ · with firstBurstLength := · }) min
  | .initialR2t => booleanRule .initialR2t (·.initialR2t) ({ · with initialR2t := · }) or
  | .immediateData => booleanRule .immediateData
      (·.immediateData) ({ · with immediateData := · }) and
  | .maxOutstandingR2t => numericRule 32 .maxOutstandingR2t
      (·.maxOutstandingR2t) ({ · with maxOutstandingR2t := · }) min
  | .maxConnections => numericRule 32 .maxConnections
      (·.maxConnections) ({ · with maxConnections := · }) min
  | .dataPduInOrder => booleanRule .dataPduInOrder
      (·.dataPduInOrder) ({ · with dataPduInOrder := · }) last
  | .dataSequenceInOrder => booleanRule .dataSequenceInOrder
      (·.dataSequenceInOrder) ({ · with dataSequenceInOrder := · }) last
  | .errorRecoveryLevel => numericRule 8 .errorRecoveryLevel
      (·.errorRecoveryLevel) ({ · with errorRecoveryLevel := · }) min
  | .defaultTime2wait => numericRule 32 .defaultTime2wait
      (·.defaultTime2wait) ({ · with defaultTime2wait := · }) last
  | .defaultTime2retain => numericRule 32 .defaultTime2retain
      (·.defaultTime2retain) ({ · with defaultTime2retain := · }) last

theorem rule_key (k : Key) : k.rule.key = utf8 k.name := by cases k <;> rfl

def Key.all : List Key :=
  [.headerDigest,.dataDigest,.maxRecvDataSegmentLength,.maxBurstLength,.firstBurstLength,
    .initialR2t,.immediateData,.maxOutstandingR2t,.maxConnections,.dataPduInOrder,
    .dataSequenceInOrder,.errorRecoveryLevel,.defaultTime2wait,.defaultTime2retain]

def Key.ofName (name : Bytes) : Option Key := Key.all.find? (fun k => utf8 k.name = name)

theorem ofName_name (k : Key) : Key.ofName (utf8 k.name) = some k := by cases k <;> rfl

theorem applyPair_key (k : Key) (p : NegotiatedParams) (value : Bytes) :
    p.applyPair (utf8 k.name,value) = k.rule.answer p value := by
  cases k <;> rfl

theorem applyPair_unknown {p : NegotiatedParams} {key value : Bytes}
    (h : ∀ k : Key, key ≠ utf8 k.name) : p.applyPair (key,value) = .ok p := by
  refine (if_neg (h .headerDigest)).trans ?_
  refine (if_neg (h .dataDigest)).trans ?_
  refine (if_neg (h .maxRecvDataSegmentLength)).trans ?_
  refine (if_neg (h .maxBurstLength)).trans ?_
  refine (if_neg (h .firstBurstLength)).trans ?_
  refine (if_neg (h .initialR2t)).trans ?_
  refine (if_neg (h .immediateData)).trans ?_
  refine (if_neg (h .maxOutstandingR2t)).trans ?_
  refine (if_neg (h .maxConnections)).trans ?_
  refine (if_neg (h .dataPduInOrder)).trans ?_
  refine (if_neg (h .dataSequenceInOrder)).trans ?_
  refine (if_neg (h .errorRecoveryLevel)).trans ?_
  refine (if_neg (h .defaultTime2wait)).trans ?_
  refine (if_neg (h .defaultTime2retain)).trans ?_
  rfl

theorem applyPair_keyed : Keyed Key.rule maxRecvDataSegmentLength applyPair where
  known k p value := by rw [rule_key,applyPair_key]
  unknown p key value h := applyPair_unknown (fun k hk => h k (hk.trans (rule_key k).symm))
  injective i j h := by
    have hn := congrArg Key.ofName ((rule_key i).symm.trans (h.trans (rule_key j)))
    rw [ofName_name,ofName_name] at hn
    exact Option.some.inj hn
  get_put k p x := by cases k <;> rfl
  get_put_other i j p x h := by
    cases i <;> cases j <;> first | rfl | exact absurd rfl h
  rest_put k p x := by cases k <;> rfl
  ext p q hm h := by
    obtain ⟨⟩ := p
    obtain ⟨⟩ := q
    simp only [mk.injEq]
    exact ⟨hm,h .maxRecvDataSegmentLength,h .maxBurstLength,h .firstBurstLength,h .initialR2t,
      h .immediateData,h .maxOutstandingR2t,h .maxConnections,h .dataPduInOrder,
      h .dataSequenceInOrder,h .errorRecoveryLevel,h .headerDigest,h .dataDigest,
      h .defaultTime2wait,h .defaultTime2retain⟩

theorem combine_associative (k : Key) : Std.Associative k.rule.combine := by
  cases k <;> refine ⟨fun a b c => ?_⟩ <;>
    first | rfl | exact Nat.min_assoc a b c | exact Bool.or_assoc a b c | exact Bool.and_assoc a b c

theorem combine_idempotent (k : Key) : Std.IdempotentOp k.rule.combine := by
  cases k <;> refine ⟨fun a => ?_⟩ <;>
    first | rfl | exact Nat.min_self a | exact Bool.or_self a | exact Bool.and_self a

def numbers (bits : Nat) (key : String) (pairs : List (Bytes × Bytes)) : List Nat :=
  (given (utf8 key) pairs).filterMap (parseUnsigned (2^bits))

def spelled (text key : String) (pairs : List (Bytes × Bytes)) : List Bool :=
  (given (utf8 key) pairs).map (fun value => value = utf8 text)

/-- The parameters `q` that the answers `pairs` make of the parameters `p`. -/
structure Folded (p : NegotiatedParams) (pairs : List (Bytes × Bytes)) (q : NegotiatedParams) :
    Prop where
  readable : ∀ k : Key, ∀ v ∈ given (utf8 k.name) pairs, ∃ x, k.rule.read v = .ok x
  maxBurstLength : IsLeast {n | n = p.maxBurstLength ∨ n ∈ numbers 32 "MaxBurstLength" pairs}
    q.maxBurstLength
  firstBurstLength : IsLeast {n | n = p.firstBurstLength ∨
    n ∈ numbers 32 "FirstBurstLength" pairs} q.firstBurstLength
  maxOutstandingR2t : IsLeast {n | n = p.maxOutstandingR2t ∨
    n ∈ numbers 32 "MaxOutstandingR2T" pairs} q.maxOutstandingR2t
  maxConnections : IsLeast {n | n = p.maxConnections ∨ n ∈ numbers 32 "MaxConnections" pairs}
    q.maxConnections
  errorRecoveryLevel : IsLeast {n | n = p.errorRecoveryLevel ∨
    n ∈ numbers 8 "ErrorRecoveryLevel" pairs} q.errorRecoveryLevel
  initialR2t : q.initialR2t = (p.initialR2t || (spelled "Yes" "InitialR2T" pairs).any id)
  immediateData : q.immediateData = (p.immediateData && (spelled "Yes" "ImmediateData" pairs).all id)
  headerDigest : q.headerDigest = (spelled "CRC32C" "HeaderDigest" pairs).getLastD p.headerDigest
  dataDigest : q.dataDigest = (spelled "CRC32C" "DataDigest" pairs).getLastD p.dataDigest
  maxSendDataSegmentLength : q.maxSendDataSegmentLength =
    (numbers 32 "MaxRecvDataSegmentLength" pairs).getLastD p.maxSendDataSegmentLength
  dataPduInOrder : q.dataPduInOrder =
    (spelled "Yes" "DataPDUInOrder" pairs).getLastD p.dataPduInOrder
  dataSequenceInOrder : q.dataSequenceInOrder =
    (spelled "Yes" "DataSequenceInOrder" pairs).getLastD p.dataSequenceInOrder
  defaultTime2wait : q.defaultTime2wait =
    (numbers 32 "DefaultTime2Wait" pairs).getLastD p.defaultTime2wait
  defaultTime2retain : q.defaultTime2retain =
    (numbers 32 "DefaultTime2Retain" pairs).getLastD p.defaultTime2retain
  maxRecvDataSegmentLength : q.maxRecvDataSegmentLength = p.maxRecvDataSegmentLength

theorem numericRule_values (bits : Nat) (key : Key) (get : NegotiatedParams → Nat)
    (put : NegotiatedParams → Nat → NegotiatedParams) (combine : Nat → Nat → Nat)
    (pairs : List (Bytes × Bytes)) :
    (numericRule bits key get put combine).values pairs = numbers bits key.name pairs := by
  unfold Rule.values numbers
  refine congrArg (List.filterMap · _) (funext fun v => ?_)
  show (numericValue bits key.name v).toOption = _
  unfold numericValue
  cases parseUnsigned (2^bits) v <;> rfl

theorem booleanRule_values (key : Key) (get : NegotiatedParams → Bool)
    (put : NegotiatedParams → Bool → NegotiatedParams) (combine : Bool → Bool → Bool)
    (pairs : List (Bytes × Bytes)) :
    (booleanRule key get put combine).values pairs = spelled "Yes" key.name pairs := by
  unfold Rule.values spelled
  rw [← List.filterMap_eq_map]
  rfl

theorem digestRule_values {key : Key} {get : NegotiatedParams → Bool}
    {put : NegotiatedParams → Bool → NegotiatedParams} {pairs : List (Bytes × Bytes)}
    (h : ∀ v ∈ given (utf8 key.name) pairs, ∃ b, digestValue key.name v = .ok b) :
    (digestRule key get put).values pairs = spelled "CRC32C" key.name pairs := by
  unfold Rule.values spelled
  rw [← List.filterMap_eq_map]
  refine List.filterMap_congr (fun v hv => ?_)
  obtain ⟨b,hb⟩ := h v hv
  show (digestValue key.name v).toOption = _
  rw [hb]
  rcases digestValue_eq_ok.mp hb with ⟨rfl,rfl⟩ | ⟨rfl,rfl⟩ <;> rfl

section Applied

variable {p q : NegotiatedParams} {pairs : List (Bytes × Bytes)} {key : Key}

theorem numeric_field {bits : Nat} {get : NegotiatedParams → Nat}
    {put : NegotiatedParams → Nat → NegotiatedParams} {combine : Nat → Nat → Nat}
    (h : get q = ((numericRule bits key get put combine).values pairs).foldl combine (get p)) :
    get q = (numbers bits key.name pairs).foldl combine (get p) := by
  rwa [numericRule_values] at h

theorem boolean_field {get : NegotiatedParams → Bool}
    {put : NegotiatedParams → Bool → NegotiatedParams} {combine : Bool → Bool → Bool}
    (h : get q = ((booleanRule key get put combine).values pairs).foldl combine (get p)) :
    get q = (spelled "Yes" key.name pairs).foldl combine (get p) := by
  rwa [booleanRule_values] at h

theorem digest_field {get : NegotiatedParams → Bool}
    {put : NegotiatedParams → Bool → NegotiatedParams}
    (hr : ∀ v ∈ given (utf8 key.name) pairs, ∃ b, digestValue key.name v = .ok b)
    (h : get q = ((digestRule key get put).values pairs).foldl last (get p)) :
    get q = (spelled "CRC32C" key.name pairs).getLastD (get p) := by
  rw [digestRule_values hr] at h
  exact h.trans (foldl_last _ _)

theorem folded_of_applied (h : pairs.foldlM applyPair p = .ok q) : Folded p pairs q := by
  have hv := fun k => (applyPair_keyed.run_values h k).1
  have hr : ∀ k : Key, ∀ v ∈ given (utf8 k.name) pairs, ∃ x, k.rule.read v = .ok x :=
    fun k => rule_key k ▸ (applyPair_keyed.run_values h k).2
  have hmin : ∀ a b (ns : List Nat), a = ns.foldl min b → IsLeast {n | n = b ∨ n ∈ ns} a := by
    intro a b ns ha
    exact ha ▸ isLeast_foldl_min ns b
  exact {
    readable := hr
    maxBurstLength := hmin _ _ _ (numeric_field (hv .maxBurstLength))
    firstBurstLength := hmin _ _ _ (numeric_field (hv .firstBurstLength))
    maxOutstandingR2t := hmin _ _ _ (numeric_field (hv .maxOutstandingR2t))
    maxConnections := hmin _ _ _ (numeric_field (hv .maxConnections))
    errorRecoveryLevel := hmin _ _ _ (numeric_field (hv .errorRecoveryLevel))
    initialR2t := (boolean_field (hv .initialR2t)).trans (foldl_or _ _)
    immediateData := (boolean_field (hv .immediateData)).trans (foldl_and _ _)
    headerDigest := digest_field (hr .headerDigest) (hv .headerDigest)
    dataDigest := digest_field (hr .dataDigest) (hv .dataDigest)
    maxSendDataSegmentLength := (numeric_field (hv .maxRecvDataSegmentLength)).trans (foldl_last _ _)
    dataPduInOrder := (boolean_field (hv .dataPduInOrder)).trans (foldl_last _ _)
    dataSequenceInOrder := (boolean_field (hv .dataSequenceInOrder)).trans (foldl_last _ _)
    defaultTime2wait := (numeric_field (hv .defaultTime2wait)).trans (foldl_last _ _)
    defaultTime2retain := (numeric_field (hv .defaultTime2retain)).trans (foldl_last _ _)
    maxRecvDataSegmentLength := applyPair_keyed.run_rest h }

end Applied

/-- An accepted response is folded in key by key, whatever the order of different keys, and
once and for all. -/
theorem applyTargetResponse_folds {p q : NegotiatedParams} {data : Bytes}
    (h : p.applyTargetResponse data = .ok q) :
    Folded p (parseKvPairs data) q ∧
    (∀ as bs k₁ v₁ k₂ v₂, k₁ ≠ k₂ → parseKvPairs data = as ++ (k₁,v₁) :: (k₂,v₂) :: bs →
      ∀ data', parseKvPairs data' = as ++ (k₂,v₂) :: (k₁,v₁) :: bs →
        p.applyTargetResponse data' = .ok q) ∧
    q.applyTargetResponse data = .ok q := by
  refine ⟨folded_of_applied h,?_,applyPair_keyed.run_twice combine_associative combine_idempotent h⟩
  intro as bs k₁ v₁ k₂ v₂ hk hd data' hd'
  unfold applyTargetResponse at h ⊢
  rw [hd] at h
  rw [hd']
  exact applyPair_keyed.run_swap hk h

def smallTarget : Bytes :=
  utf8 "MaxBurstLength=65536\x00ImmediateData=No\x00MaxBurstLength=8192\x00X=1\x00"

def smallTargetSwapped : Bytes :=
  utf8 "ImmediateData=No\x00MaxBurstLength=65536\x00MaxBurstLength=8192\x00X=1\x00"

theorem applyTargetResponse_folds_small_target :
    ∃ q, defaults10g.applyTargetResponse smallTarget = .ok q ∧
      Folded defaults10g (parseKvPairs smallTarget) q ∧ q.maxBurstLength = 8192 ∧
      defaults10g.applyTargetResponse smallTargetSwapped = .ok q := by
  have h : defaults10g.applyTargetResponse smallTarget =
    .ok { defaults10g with maxBurstLength := 8192, immediateData := false } := by rfl
  obtain ⟨hf,hs,_⟩ := applyTargetResponse_folds h
  exact ⟨_,h,hf,rfl,hs [] [(utf8 "MaxBurstLength",utf8 "8192"),(utf8 "X",utf8 "1")]
    (utf8 "MaxBurstLength") (utf8 "65536") (utf8 "ImmediateData") (utf8 "No")
    (by decide) (by rfl) smallTargetSwapped (by rfl)⟩

end NegotiatedParams

end IscsiFuse.Iscsi
