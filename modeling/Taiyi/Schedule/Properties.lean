import Taiyi.Schedule.Votes

set_option autoImplicit false

namespace Taiyi.Schedule

open Library.Attempt Library.OrderStatistic

def taiyiMaxSimingUrlLength : ℕ := 2048

def taiyiMinBlockSizeLimit : ℕ := 1024 * 64

def taiyiSoftMaxBlockSize : ℕ := 2 * 1024 * 1024

def taiyiMinAccountCreationFee : ℤ := 1

def taiyiMaxAccountCreationFee : ℤ := 1000000000

/-- `YANG_SYMBOL_SER`. -/
def yangSymbolSer : ℕ := 0x474E415903

/-- `fc::raw` and `fc::is_utf8`, which are not part of the repository. -/
structure Codec where
  unpackAsset : List UInt8 → Option Asset
  unpackUint32 : List UInt8 → Option ℕ
  unpackKey : List UInt8 → Option (Option ℕ)
  unpackString : List UInt8 → Option (List UInt8)
  isUtf8 : List UInt8 → Bool

/-- A `legacy_taiyi_asset`, which is in YANG whatever its symbol. -/
structure LegacyAsset where
  amount : ℤ
  ser : ℕ := yangSymbolSer

def LegacyAsset.toAsset (a : LegacyAsset) : Asset := ⟨a.amount, yangSymbol⟩

structure LegacyChainProperties where
  accountCreationFee : LegacyAsset := ⟨taiyiMinAccountCreationFee, yangSymbolSer⟩
  maximumBlockSize : ℕ := taiyiMinBlockSizeLimit * 2
  proposalAdoptedVotesThreshold : ℕ := 1

structure SimingUpdate where
  owner : ℕ
  url : List UInt8
  blockSigningKey : Option ℕ
  props : LegacyChainProperties

/-- The properties are a `flat_map` of what they are packed to. -/
structure SimingSetProperties where
  owner : ℕ
  props : List (String × List UInt8)

def require (c : Prop) [Decidable c] (msg : String) : Except String Unit :=
  if c then pure () else throw msg

def unpackFromVector {α : Type} (unpack : List UInt8 → Option α) (bytes : List UInt8) :
    Except String α :=
  match unpack bytes with
  | some a => pure a
  | none => throw "unpack error"

/-- The value of a property, if it is among those to change, after a check of it. -/
def SimingSetProperties.entry {α : Type} (o : SimingSetProperties) (name : String)
    (unpack : List UInt8 → Option α) (check : α → Except String Unit) : Except String (Option α) :=
  match o.props.lookup name with
  | none => pure none
  | some bytes => do
    let a ← unpackFromVector unpack bytes
    check a
    pure (some a)

def LegacyChainProperties.toChainProperties (p : LegacyChainProperties) : ChainProperties where
  accountCreationFee := p.accountCreationFee.toAsset
  maximumBlockSize := p.maximumBlockSize
  proposalAdoptedVotesThreshold := p.proposalAdoptedVotesThreshold

/-- `validate< false >`. -/
def LegacyChainProperties.validate (p : LegacyChainProperties) : Except String Unit := do
  require (taiyiMinAccountCreationFee ≤ p.accountCreationFee.amount)
    "account_creation_fee.amount >= TAIYI_MIN_ACCOUNT_CREATION_FEE"
  require (taiyiMinBlockSizeLimit ≤ p.maximumBlockSize)
    "maximum_block_size >= TAIYI_MIN_BLOCK_SIZE_LIMIT"
  require (1 ≤ p.proposalAdoptedVotesThreshold) "proposal_adopted_votes_threshold >= 1"

section Operations

variable (codec : Codec)

def validateUrl (url : List UInt8) : Except String Unit := do
  require (url.length ≤ taiyiMaxSimingUrlLength) "URL is too long"
  require (0 < url.length) "URL size must be greater than 0"
  require (codec.isUtf8 url = true) "URL is not valid UTF8"

def SimingUpdate.validate (o : SimingUpdate) : Except String Unit := do
  validateUrl codec o.url
  o.props.validate

/-- The evaluator of `siming_update`: a change of a siming or a new one, which has to be paid. -/
def SimingUpdate.evaluate (o : SimingUpdate) (paid : Bool) (s : State) : Except String Step := do
  require (o.props.accountCreationFee.ser = yangSymbolSer)
    "o.props.account_creation_fee.symbol.is_canon()"
  require (o.props.accountCreationFee.amount ≤ taiyiMaxAccountCreationFee)
    "account_creation_fee greater than maximum account creation fee"
  require (o.props.maximumBlockSize ≤ taiyiSoftMaxBlockSize)
    "Max block size cannot be more than 2MiB"
  if (s.getSiming (some o.owner)).isSome then
    pure (.setProperties o.owner o.blockSigningKey o.props.toChainProperties)
  else do
    require (paid = true) "Owner account does not have enough qi for siming registration"
    pure (.register o.owner o.blockSigningKey o.props.toChainProperties)

def SimingSetProperties.validate (o : SimingSetProperties) : Except String Unit := do
  require ((o.props.lookup "key").isSome = true) "No signing key provided"
  let _ ← o.entry "account_creation_fee" codec.unpackAsset fun fee ↦ do
    require (fee.symbol = yangSymbol) "account_creation_fee must be in YANG"
    require (taiyiMinAccountCreationFee ≤ fee.amount)
      "account_creation_fee smaller than minimum account creation fee"
  let _ ← o.entry "maximum_block_size" codec.unpackUint32 fun size ↦
    require (taiyiMinBlockSizeLimit ≤ size) "maximum_block_size smaller than minimum max block size"
  let _ ← o.entry "proposal_adopted_votes_threshold" codec.unpackUint32 fun threshold ↦
    require (1 ≤ threshold) "proposal_adopted_votes_threshold smaller than 1"
  -- this tests the deserialization of the key
  let _ ← o.entry "new_signing_key" codec.unpackKey fun _ ↦ pure ()
  let _ ← o.entry "url" codec.unpackString (validateUrl codec)

/-- The evaluator of `siming_set_properties`. The new block size is not compared with the limit. -/
def SimingSetProperties.evaluate (o : SimingSetProperties) (s : State) : Except String Step :=
  match s.getSiming (some o.owner) with
  | none => throw "unknown key"
  | some siming => do
    let _ ← o.entry "key" codec.unpackKey fun key ↦
      require (key = siming.signingKey) "'key' does not match siming signing key."
    let fee ← o.entry "account_creation_fee" codec.unpackAsset fun fee ↦
      require (fee.amount ≤ taiyiMaxAccountCreationFee)
        "account_creation_fee greater than maximum account creation fee"
    let size ← o.entry "maximum_block_size" codec.unpackUint32 fun _ ↦ pure ()
    let threshold ← o.entry "proposal_adopted_votes_threshold" codec.unpackUint32 fun _ ↦ pure ()
    let newKey ← o.entry "new_signing_key" codec.unpackKey fun _ ↦ pure ()
    let _ ← o.entry "url" codec.unpackString fun _ ↦ pure ()
    pure (.setProperties o.owner (newKey.getD siming.signingKey)
      { accountCreationFee := fee.getD siming.props.accountCreationFee
        maximumBlockSize := size.getD siming.props.maximumBlockSize
        proposalAdoptedVotesThreshold := threshold.getD siming.props.proposalAdoptedVotesThreshold })

/-- What changes the simings and what they vote for, and the updates of the schedule. -/
inductive Action
  | simingUpdate (o : SimingUpdate) (paid : Bool)
  | simingSetProperties (o : SimingSetProperties)
  | report (owner runningVersion hardforkVersionVote hardforkTimeVote : ℕ)
  | adjustAdore (owner : ℕ) (delta totalQi : ℤ)
  | updateSchedule (headBlockTime headBlockNum : ℕ)

/-- Whether the action is an update of the schedule at the end of a round. -/
def Action.updates : Action → Bool
  | .updateSchedule _ num => num % taiyiMaxSimings = 0
  | _ => false

/-- The step that an action makes; an operation is validated before it is evaluated. -/
def Action.toStep (s : State) : Action → Except String Step
  | .simingUpdate o paid => do
    o.validate codec
    o.evaluate paid s
  | .simingSetProperties o => do
    o.validate codec
    o.evaluate codec s
  | .report owner version vote time => pure (.report owner version vote time)
  | .adjustAdore owner delta totalQi => pure (.adjustAdore owner delta totalQi)
  | .updateSchedule time num => pure (.updateSchedule time num)

def Action.step (divide : ℕ → ℕ → Option ℕ) (act : Action) (s : State) : Option State :=
  match act.toStep codec s with
  | .ok st => s.step divide st
  | .error _ => none

/-- The states of the runs from `s₀` whose actions all meet a condition, and whether there was an
update of the schedule. -/
inductive Runs (divide : ℕ → ℕ → Option ℕ) (P : Action → Prop) (s₀ : State) : Bool → State → Prop
  | start : Runs divide P s₀ false s₀
  | step {updated : Bool} {s t : State} (act : Action) : Runs divide P s₀ updated s → P act →
      act.step codec divide s = some t → Runs divide P s₀ (updated || act.updates) t

end Operations

/-- The bounds of what a siming can vote for. -/
structure ChainProperties.Bounded (p : ChainProperties) : Prop where
  symbol : p.accountCreationFee.symbol = yangSymbol
  minFee : taiyiMinAccountCreationFee ≤ p.accountCreationFee.amount
  maxFee : p.accountCreationFee.amount ≤ taiyiMaxAccountCreationFee
  minSize : taiyiMinBlockSizeLimit ≤ p.maximumBlockSize
  maxSize : p.maximumBlockSize ≤ taiyiSoftMaxBlockSize
  threshold : 1 ≤ p.proposalAdoptedVotesThreshold

/-- A `siming_set_properties` keeps to the limit that is checked for a `siming_update`. -/
def Action.sizeAllowed (codec : Codec) : Action → Prop
  | .simingSetProperties o =>
    ∀ size, (o.props.lookup "maximum_block_size").bind codec.unpackUint32 = some size →
      size ≤ taiyiSoftMaxBlockSize
  | _ => True

section Checks

variable {α : Type} {codec : Codec} {s : State} {st : Step}

theorem require_eq_ok {c : Prop} [Decidable c] {msg : String} {u : Unit} :
    require c msg = .ok u ↔ c := by
  unfold require
  split
  · next h => exact ⟨fun _ ↦ h, fun _ ↦ rfl⟩
  · next h => exact ⟨nofun, fun hc ↦ absurd hc h⟩

theorem entry_eq_ok {o : SimingSetProperties} {name : String} {unpack : List UInt8 → Option α}
    {check : α → Except String Unit} {r : Option α} (h : o.entry name unpack check = .ok r) :
    r = (o.props.lookup name).bind unpack ∧ ∀ a, r = some a → check a = .ok ⟨⟩ := by
  unfold SimingSetProperties.entry at h
  split at h
  · next hnone =>
    cases h
    exact ⟨by rw [hnone]; rfl, nofun⟩
  · next bytes hbytes =>
    obtain ⟨a, ha, h⟩ := bind_eq_ok.mp h
    obtain ⟨u, hu, h⟩ := bind_eq_ok.mp h
    cases h
    unfold unpackFromVector at ha
    split at ha
    · next a' ha' =>
      cases ha
      refine ⟨by rw [hbytes, Option.bind_some, ha'], fun b hb ↦ ?_⟩
      cases hb
      exact hu
    · cases ha

theorem update_bounded {o : SimingUpdate} {paid : Bool} {u : Unit} (hv : o.validate codec = .ok u)
    (he : o.evaluate paid s = .ok st) :
    o.props.toChainProperties.Bounded ∧
      (st = .setProperties o.owner o.blockSigningKey o.props.toChainProperties ∨
        st = .register o.owner o.blockSigningKey o.props.toChainProperties) := by
  obtain ⟨_, -, hv⟩ := bind_eq_ok.mp hv
  obtain ⟨_, hminFee, hv⟩ := bind_eq_ok.mp hv
  obtain ⟨_, hminSize, hthreshold⟩ := bind_eq_ok.mp hv
  obtain ⟨_, -, he⟩ := bind_eq_ok.mp he
  obtain ⟨_, hmaxFee, he⟩ := bind_eq_ok.mp he
  obtain ⟨_, hmaxSize, he⟩ := bind_eq_ok.mp he
  refine ⟨⟨rfl, require_eq_ok.mp hminFee, require_eq_ok.mp hmaxFee, require_eq_ok.mp hminSize,
    require_eq_ok.mp hmaxSize, require_eq_ok.mp hthreshold⟩, ?_⟩
  split at he
  · cases he
    exact .inl rfl
  · obtain ⟨_, -, he⟩ := bind_eq_ok.mp he
    cases he
    exact .inr rfl

/-- A value that is set is checked, and one that is not is the old one. -/
theorem getD_of_checked {P : α → Prop} {r : Option α} {a : α} (ha : P a) (hr : ∀ b, r = some b → P b) :
    P (r.getD a) := by
  cases r with
  | none => exact ha
  | some b => exact hr b rfl

theorem setProperties_bounded {o : SimingSetProperties} {u : Unit}
    (hs : ∀ x ∈ s.simings, x.props.Bounded) (hv : o.validate codec = .ok u)
    (he : o.evaluate codec s = .ok st) (hsize : (Action.simingSetProperties o).sizeAllowed codec) :
    ∃ key props, st = .setProperties o.owner key props ∧ props.Bounded := by
  obtain ⟨_, -, hv⟩ := bind_eq_ok.mp hv
  obtain ⟨fee, hfee, hv⟩ := bind_eq_ok.mp hv
  obtain ⟨size, hsize', hv⟩ := bind_eq_ok.mp hv
  obtain ⟨threshold, hthreshold, -⟩ := bind_eq_ok.mp hv
  unfold SimingSetProperties.evaluate at he
  split at he
  · cases he
  · next siming hsiming =>
    have hold := hs siming (getSiming_some hsiming).1
    obtain ⟨_, -, he⟩ := bind_eq_ok.mp he
    obtain ⟨fee₂, hfee₂, he⟩ := bind_eq_ok.mp he
    obtain ⟨size₂, hsize₂, he⟩ := bind_eq_ok.mp he
    obtain ⟨threshold₂, hthreshold₂, he⟩ := bind_eq_ok.mp he
    obtain ⟨newKey, -, he⟩ := bind_eq_ok.mp he
    obtain ⟨_, -, he⟩ := bind_eq_ok.mp he
    cases he
    obtain ⟨hfee, hfeeCheck⟩ := entry_eq_ok hfee
    obtain ⟨hfee₂, hfeeMax⟩ := entry_eq_ok hfee₂
    obtain ⟨hsize', hsizeCheck⟩ := entry_eq_ok hsize'
    obtain ⟨hsize₂, -⟩ := entry_eq_ok hsize₂
    obtain ⟨hthreshold, hthresholdCheck⟩ := entry_eq_ok hthreshold
    obtain ⟨hthreshold₂, -⟩ := entry_eq_ok hthreshold₂
    have hyang : ∀ f, fee₂ = some f → f.symbol = yangSymbol ∧ taiyiMinAccountCreationFee ≤ f.amount := by
      intro f hf
      obtain ⟨_, hsymbol, hmin⟩ := bind_eq_ok.mp (hfeeCheck f (hfee.trans (hfee₂.symm.trans hf)))
      exact ⟨require_eq_ok.mp hsymbol, require_eq_ok.mp hmin⟩
    refine ⟨_, _, rfl, ?_, ?_, ?_, ?_, ?_, ?_⟩
    · exact getD_of_checked (P := fun f ↦ f.symbol = yangSymbol) hold.symbol fun f hf ↦ (hyang f hf).1
    · exact getD_of_checked (P := fun f ↦ taiyiMinAccountCreationFee ≤ f.amount) hold.minFee
        fun f hf ↦ (hyang f hf).2
    · exact getD_of_checked (P := fun f ↦ f.amount ≤ taiyiMaxAccountCreationFee) hold.maxFee
        fun f hf ↦ require_eq_ok.mp (hfeeMax f hf)
    · exact getD_of_checked (P := fun n ↦ taiyiMinBlockSizeLimit ≤ n) hold.minSize fun n hn ↦
        require_eq_ok.mp (hsizeCheck n (hsize'.trans (hsize₂.symm.trans hn)))
    · exact getD_of_checked (P := fun n ↦ n ≤ taiyiSoftMaxBlockSize) hold.maxSize fun n hn ↦
        hsize n (hsize₂.symm.trans hn)
    · exact getD_of_checked (P := fun n ↦ 1 ≤ n) hold.threshold fun n hn ↦
        require_eq_ok.mp (hthresholdCheck n (hthreshold.trans (hthreshold₂.symm.trans hn)))

end Checks

section Runs

variable {codec : Codec} {divide : ℕ → ℕ → Option ℕ} {P : Siming → Prop} {s t : State}

theorem mem_scheduled {l : List Siming} (h : s.scheduled = some l) : ∀ x ∈ l, x ∈ s.simings :=
  forall_of_mapM (P := fun _ ↦ True) h (fun _ _ ↦ trivial) fun slot x _ hx ↦ by
    cases slot with
    | none => cases hx
    | some name => exact (getSiming_some hx).1

theorem median_of {κ : Type} [LinearOrder κ] {f : Siming → κ} {l : List Siming} {m : κ}
    (h : medianOf f l = some m) : ∃ x ∈ l, f x = m := List.mem_map.mp (mem_of_nthElement h)

theorem props_timeless : Timeless Siming.props := ⟨fun _ _ _ ↦ rfl, fun _ _ ↦ rfl⟩

theorem forall_props {Q : ChainProperties → Prop} (h : t.simings.map Siming.props = s.simings.map Siming.props)
    (hs : ∀ x ∈ s.simings, Q x.props) : ∀ x ∈ t.simings, Q x.props := by
  rw [← List.forall_mem_map (f := Siming.props)] at hs ⊢
  rwa [h]

/-- The medians are within the bounds that all simings vote within, and so is the limit. -/
theorem bounded_update {time n : ℕ} (hs : ∀ x ∈ s.simings, x.props.Bounded)
    (h : updateSimingSchedule4 divide time n s = some t) :
    (∀ x ∈ t.simings, x.props.Bounded) ∧ t.wso.medianProps.Bounded ∧
      taiyiMinBlockSizeLimit ≤ t.maximumBlockSize ∧ t.maximumBlockSize ≤ taiyiSoftMaxBlockSize := by
  have ht := forall_props (update_map props_timeless h) hs
  obtain ⟨u, v, scheduled, -, -, hmedian⟩ := update_some_iff.mp h
  obtain ⟨active, fee, size, threshold, hactive, hfee, hsize, hthreshold, rfl⟩ := median_spec hmedian
  have hall : ∀ x ∈ active, x.props.Bounded := fun x hx ↦ ht x (mem_scheduled hactive x hx)
  obtain ⟨x, hx, hfee⟩ := median_of hfee
  obtain ⟨y, hy, hsize⟩ := median_of hsize
  obtain ⟨z, hz, hthreshold⟩ := median_of hthreshold
  have hx := hall x hx
  have hy := hall y hy
  have hz := hall z hz
  exact ⟨ht, ⟨hfee ▸ hx.symbol, hfee ▸ hx.minFee, hfee ▸ hx.maxFee, hsize ▸ hy.minSize,
    hsize ▸ hy.maxSize, hthreshold ▸ hz.threshold⟩, hsize ▸ hy.minSize, hsize ▸ hy.maxSize⟩

/-- What the simings vote for, and what comes of it. -/
structure Bounds (updated : Bool) (s : State) : Prop where
  simings : ∀ x ∈ s.simings, x.props.Bounded
  median : s.wso.medianProps.Bounded
  limit : updated = true →
    taiyiMinBlockSizeLimit ≤ s.maximumBlockSize ∧ s.maximumBlockSize ≤ taiyiSoftMaxBlockSize

theorem Bounds.modify {updated : Bool} {p : Siming → Bool} {f : Siming → Siming} (h : Bounds updated s)
    (hf : ∀ x ∈ s.simings, (f x).props.Bounded) : Bounds updated (s.modifySimings p f) :=
  ⟨forall_modifySimings h.simings fun x hx _ ↦ hf x hx, h.median, h.limit⟩

theorem Bounds.setProperties {updated : Bool} (h : Bounds updated s) {owner : ℕ} {key : Option ℕ}
    {props : ChainProperties} (hprops : props.Bounded)
    (ht : s.step divide (.setProperties owner key props) = some t) : Bounds updated t := by
  obtain ⟨x, -, ht⟩ := Option.bind_eq_some_iff.mp ht
  cases ht
  exact h.modify fun _ _ ↦ hprops

theorem Bounds.register {updated : Bool} (h : Bounds updated s) {owner : ℕ} {key : Option ℕ}
    {props : ChainProperties} (hprops : props.Bounded)
    (ht : s.step divide (.register owner key props) = some t) : Bounds updated t := by
  simp only [State.step] at ht
  split at ht
  · cases ht
  · cases ht
    refine ⟨fun x hx ↦ ?_, h.median, h.limit⟩
    rcases List.mem_append.mp hx with hx | hx
    · exact h.simings x hx
    · cases List.mem_singleton.mp hx
      exact hprops

theorem Bounds.step {updated : Bool} (h : Bounds updated s) {act : Action} (hact : act.sizeAllowed codec)
    (hstep : act.step codec divide s = some t) : Bounds (updated || act.updates) t := by
  have hkeep (hno : act.updates = false) : (updated || act.updates) = updated := by
    rw [hno, Bool.or_false]
  unfold Action.step at hstep
  split at hstep
  · next st hst =>
    cases act with
    | simingUpdate o paid =>
      obtain ⟨_, hv, he⟩ := bind_eq_ok.mp hst
      rw [hkeep rfl]
      obtain ⟨hprops, rfl | rfl⟩ := update_bounded hv he
      · exact h.setProperties hprops hstep
      · exact h.register hprops hstep
    | simingSetProperties o =>
      obtain ⟨_, hv, he⟩ := bind_eq_ok.mp hst
      rw [hkeep rfl]
      obtain ⟨key, props, rfl, hprops⟩ := setProperties_bounded h.simings hv he hact
      exact h.setProperties hprops hstep
    | report owner version vote time =>
      cases hst
      obtain ⟨x, -, ht⟩ := Option.bind_eq_some_iff.mp hstep
      cases ht
      rw [hkeep rfl]
      exact h.modify h.simings
    | adjustAdore owner delta totalQi =>
      cases hst
      obtain ⟨x, hx, ht⟩ := Option.bind_eq_some_iff.mp hstep
      obtain ⟨y, hy, ht⟩ := Option.bind_eq_some_iff.mp ht
      cases ht
      rw [hkeep rfl]
      refine h.modify fun _ _ ↦ ?_
      unfold Siming.adjust at hy
      split at hy
      · obtain ⟨rest, -, rfl⟩ := Option.map_eq_some_iff.mp hy
        exact h.simings x (getSiming_some hx).1
      · cases hy
    | updateSchedule time num =>
      cases hst
      simp only [State.step, updateSimingSchedule] at hstep
      split at hstep
      · obtain ⟨hsimings, hmedian, hlimit⟩ := bounded_update h.simings hstep
        exact ⟨hsimings, hmedian, fun _ ↦ hlimit⟩
      · next hnum =>
        cases hstep
        rw [hkeep (decide_eq_false hnum)]
        exact h
  · cases hstep

theorem bounded_default : ({} : ChainProperties).Bounded :=
  ⟨rfl, by decide, by decide, by decide, by decide, by decide⟩

theorem bounds_genesis (initKey : ℕ) : Bounds false (genesis initKey) where
  simings x hx := by
    cases List.mem_singleton.mp hx
    exact bounded_default
  median := bounded_default
  limit := nofun

/-- While no `siming_set_properties` sets a block size over the limit, all that the simings vote for
is within the bounds, and from the first update of the schedule on the block size limit is. -/
theorem bounds_of_runs {initKey : ℕ} {updated : Bool}
    (h : Runs codec divide (Action.sizeAllowed codec) (genesis initKey) updated s) :
    Bounds updated s := by
  induction h with
  | start => exact bounds_genesis initKey
  | step act _ hact hstep ih => exact ih.step hact hstep

end Runs

section Example

/-- So many bytes as a number, the lowest byte first. -/
def readBytes (n : ℕ) (bytes : List UInt8) : Option ℕ :=
  if n ≤ bytes.length then some ((bytes.take n).foldr (fun b m ↦ b.toNat + 2 ^ 8 * m) 0) else none

/-- The formats for keys named by their number, short texts of ASCII and assets in YANG. -/
def plainCodec : Codec where
  unpackAsset bytes := do
    let amount ← readBytes 8 bytes
    let ser ← readBytes 8 (bytes.drop 8)
    if ser = yangSymbolSer then some ⟨(amount : ℤ).bmod (2 ^ 64), yangSymbol⟩ else none
  unpackUint32 := readBytes 4
  unpackKey bytes := (readBytes 33 bytes).map fun n ↦ if n = 0 then none else some n
  unpackString bytes := do
    let n ← readBytes 1 bytes
    if n < 128 ∧ n < bytes.length then some ((bytes.drop 1).take n) else none
  isUtf8 bytes := bytes.all (· < 128)

/-- The first siming, which signs with the key 1, sets its block size to some number of MiB. -/
def setBlockSize (mebibytes : UInt8) : Action :=
  .simingSetProperties
    { owner := initSiming
      props := [("key", 1 :: List.replicate 32 0),
        ("maximum_block_size", [0, 0, mebibytes * 16, mebibytes / 16])] }

/-- Two mebibytes are allowed, and are the limit after the first round. -/
theorem bounds_of_runs_limit : ∃ t, Bounds true t ∧ t.maximumBlockSize = taiyiSoftMaxBlockSize := by
  have hrun : (((setBlockSize 2).step plainCodec checkedDivide (genesis 1)).bind fun s ↦
      ((Action.updateSchedule 1762840863 21).step plainCodec checkedDivide s).map fun t ↦
        t.maximumBlockSize) = some taiyiSoftMaxBlockSize := by decide +kernel
  obtain ⟨s, hs, hrun⟩ := Option.bind_eq_some_iff.mp hrun
  obtain ⟨t, ht, hlimit⟩ := Option.map_eq_some_iff.mp hrun
  have hallowed : (setBlockSize 2).sizeAllowed plainCodec := by
    intro size hsize
    have hread : some size = some taiyiSoftMaxBlockSize := hsize.symm.trans (by decide)
    exact (Option.some.inj hread).le
  exact ⟨t, bounds_of_runs (.step (.updateSchedule 1762840863 21) (.step _ .start hallowed hs) trivial ht),
    hlimit⟩

/-- A `siming_set_properties` can set four. -/
theorem block_size_over_limit : ¬∀ codec divide initKey updated s,
    Runs codec divide (fun _ ↦ True) (genesis initKey) updated s → Bounds updated s := by
  intro h
  have hrun : (((setBlockSize 4).step plainCodec checkedDivide (genesis 1)).bind fun s ↦
      ((Action.updateSchedule 1762840863 21).step plainCodec checkedDivide s).map fun t ↦
        t.maximumBlockSize) = some (2 * taiyiSoftMaxBlockSize) := by decide +kernel
  obtain ⟨s, hs, hrun⟩ := Option.bind_eq_some_iff.mp hrun
  obtain ⟨t, ht, hlimit⟩ := Option.map_eq_some_iff.mp hrun
  have hle := (h plainCodec checkedDivide 1 true t
    (.step (.updateSchedule 1762840863 21) (.step _ .start trivial hs) trivial ht)).limit rfl
  rw [hlimit] at hle
  exact absurd hle.2 (by decide)

end Example

end Taiyi.Schedule
