import Ennbo.Forward.Package

/-! # Launch plans of a decoder layer

A request names the packed linears of a KDA-MoE layer. Once it is checked, it is
lowered to ten kernels, each over a grid of threads in groups. The sizes of the
grids are products of machine words.
-/

namespace Ennbo.Forward

open Trials

section Definitions

inductive WorkAxis where
  | token
  | output
  | input
  | head
  | expert
  | state
  deriving DecidableEq

structure WorkTile where
  axis : WorkAxis
  items : UInt64
  items_ne : items ≠ 0
  deriving DecidableEq

def WorkTile.new (axis : WorkAxis) (items : UInt64) : Except String WorkTile :=
  if h : items = 0 then throw "kernel tile size must be positive" else pure ⟨axis, items, h⟩

structure WorkGrid where
  items : UInt64
  threadsPerGroup : UInt64
  ne : ¬(items = 0 ∨ threadsPerGroup = 0)
  deriving DecidableEq

namespace WorkGrid

def new (items threadsPerGroup : UInt64) : Except String WorkGrid :=
  if h : items = 0 ∨ threadsPerGroup = 0 then
    throw "kernel work grid dimensions must be positive"
  else pure ⟨items, threadsPerGroup, h⟩

def groups (grid : WorkGrid) : UInt64 := divCeil grid.items grid.threadsPerGroup

/-- The groups are enough for the items, and none is idle. -/
def Covers (grid : WorkGrid) : Prop :=
  (grid.groups.toNat - 1) * grid.threadsPerGroup.toNat < grid.items.toNat ∧
    grid.items.toNat ≤ grid.groups.toNat * grid.threadsPerGroup.toNat

end WorkGrid

structure KernelPlan where
  kernel : String
  grid : WorkGrid
  tiles : List WorkTile := []
  scratchBytes : UInt64 := 0
  deriving DecidableEq

namespace KernelPlan

def new (kernel : String) (items threadsPerGroup : UInt64) : Except String KernelPlan := do
  return { kernel, grid := ← WorkGrid.new items threadsPerGroup }

def withTile (axis : WorkAxis) (items : UInt64) (plan : KernelPlan) :
    Except String KernelPlan := do
  return { plan with tiles := plan.tiles ++ [← WorkTile.new axis items] }

def withScratchBytes (bytes : UInt64) (plan : KernelPlan) : KernelPlan :=
  { plan with scratchBytes := bytes }

end KernelPlan

structure PackedAffinePlan where
  tokenTile : UInt64
  outputTile : UInt64
  inputTile : UInt64
  threadsPerGroup : UInt64
  deriving DecidableEq

namespace PackedAffinePlan

def appleSimd : PackedAffinePlan where
  tokenTile := 1
  outputTile := 16
  inputTile := 64
  threadsPerGroup := 256

def validate (affine : PackedAffinePlan) (linear : KdaPackedLinear) : Except String Unit := do
  linear.validate
  if affine.tokenTile = 0 ∨ affine.outputTile = 0 ∨ affine.inputTile = 0 ∨
      affine.threadsPerGroup = 0 then
    throw "packed affine schedule dimensions must be positive"
  else if linear.inputWidth % affine.inputTile ≠ 0 then
    throw "packed affine input width must be divisible by input tile"
  else pure ()

def kernelPlan (affine : PackedAffinePlan) (kernel : String) (tokens : UInt64)
    (linear : KdaPackedLinear) : Except String KernelPlan := do
  affine.validate linear
  let items ← checkedMul tokens linear.outputWidth "packed affine dispatch size overflow"
  KernelPlan.new kernel items affine.threadsPerGroup >>=
    KernelPlan.withTile .token affine.tokenTile >>=
    KernelPlan.withTile .output affine.outputTile >>=
    KernelPlan.withTile .input affine.inputTile

end PackedAffinePlan

structure KdaTensorLayout where
  batch : UInt64
  sequenceLength : UInt64
  heads : UInt64
  keyWidth : UInt64
  valueWidth : UInt64
  deriving DecidableEq

namespace KdaTensorLayout

def new (batch sequenceLength heads keyWidth valueWidth : UInt64) :
    Except String KdaTensorLayout :=
  if batch = 0 ∨ sequenceLength = 0 ∨ heads = 0 ∨ keyWidth = 0 ∨ valueWidth = 0 then
    throw "KDA tensor dimensions must be positive"
  else pure ⟨batch, sequenceLength, heads, keyWidth, valueWidth⟩

def qkvElements (t : KdaTensorLayout) : UInt64 :=
  t.batch * t.sequenceLength * t.heads * t.keyWidth

end KdaTensorLayout

structure KdaForwardRequest where
  tensor : KdaTensorLayout
  qkv : KdaPackedLinear
  control : KdaPackedLinear
  output : KdaPackedLinear

namespace KdaForwardRequest

def qkvOutputWidth (r : KdaForwardRequest) : UInt64 := 3 * r.tensor.heads * r.tensor.keyWidth

def projectionDispatchThreads (r : KdaForwardRequest) : UInt64 :=
  r.tensor.batch * r.tensor.sequenceLength * r.qkvOutputWidth

def recurrenceDispatchThreads (r : KdaForwardRequest) : UInt64 :=
  r.tensor.batch * r.tensor.heads * r.tensor.valueWidth

def validate (r : KdaForwardRequest) : Except String Unit := do
  [r.qkv, r.control, r.output].forM KdaPackedLinear.validate
  if r.qkv.inputWidth ≠ r.output.inputWidth then
    throw "KDA projection input widths do not match"
  else if r.qkv.outputWidth ≠ r.qkvOutputWidth then
    throw s!"KDA QKV output width must be {r.qkvOutputWidth}, got {r.qkv.outputWidth}"
  else pure ()

end KdaForwardRequest

inductive KdaDispatch where
  | projectQkv (threads : UInt64)
  | splitQkv (threads : UInt64)
  | recur (threads : UInt64)
  deriving DecidableEq

def KdaDispatch.kernelPlan (affine : PackedAffinePlan) : KdaDispatch → Except String KernelPlan
  | projectQkv threads =>
    KernelPlan.new "kda_project_packed_16k" threads affine.threadsPerGroup >>=
      KernelPlan.withTile .token affine.tokenTile >>=
      KernelPlan.withTile .output affine.outputTile >>=
      KernelPlan.withTile .input affine.inputTile
  | splitQkv threads =>
    KernelPlan.new "kda_split_qkv_16k" threads 256 >>=
      KernelPlan.withTile .head 1 >>= KernelPlan.withTile .input 256
  | recur threads =>
    KernelPlan.withScratchBytes 0 <$> (KernelPlan.new "kda_recurrence_16k" threads 256 >>=
      KernelPlan.withTile .state 1 >>= KernelPlan.withTile .token 16384)

/-- The dispatches of a request that `KdaEncoder::new` accepts. -/
def KdaForwardRequest.encode (r : KdaForwardRequest) : Except String (List KdaDispatch) := do
  r.validate
  return [.projectQkv r.projectionDispatchThreads, .splitQkv r.tensor.qkvElements,
    .recur r.recurrenceDispatchThreads]

structure KdaMoeLayerRequest (F : Type) where
  kda : KdaForwardRequest
  attentionNorm : KdaPackedLinear
  moeNorm : KdaPackedLinear
  router : KdaPackedLinear
  expertGate : List KdaPackedLinear
  expertUp : List KdaPackedLinear
  expertDown : List KdaPackedLinear
  topK : UInt64
  residualScale : F
  rmsEpsilon : F

inductive KdaMoeDispatch where
  | attentionNorm (threads : UInt64)
  | kda (dispatch : KdaDispatch)
  | attentionResidual (threads : UInt64)
  | moeNorm (threads : UInt64)
  | routeExperts (threads : UInt64)
  | expertGateUp (threads : UInt64)
  | expertDown (threads : UInt64)
  | moeResidual (threads : UInt64)
  deriving DecidableEq

def KdaMoeDispatch.kernelPlan (affine : PackedAffinePlan) :
    KdaMoeDispatch → Except String KernelPlan
  | attentionNorm threads | moeNorm threads =>
    KernelPlan.new "decoder_rms_norm" threads 256 >>=
      KernelPlan.withTile .token 1 >>= KernelPlan.withTile .input 256
  | kda dispatch => dispatch.kernelPlan affine
  | attentionResidual threads | moeResidual threads =>
    KernelPlan.new "decoder_residual" threads 256 >>= KernelPlan.withTile .input 256
  | routeExperts threads =>
    KernelPlan.new "moe_router_topk" threads 1 >>= KernelPlan.withTile .token 1
  | expertGateUp threads =>
    KernelPlan.new "moe_gate_up" threads affine.threadsPerGroup >>=
      KernelPlan.withTile .token affine.tokenTile >>= KernelPlan.withTile .expert 1 >>=
      KernelPlan.withTile .input affine.inputTile
  | expertDown threads =>
    KernelPlan.new "moe_down" threads affine.threadsPerGroup >>=
      KernelPlan.withTile .token affine.tokenTile >>=
      KernelPlan.withTile .output affine.outputTile >>=
      KernelPlan.withTile .input affine.inputTile

namespace KdaMoeLayerRequest

variable {F : Type}

/-- The checks of one expert. -/
def validateExpert (hidden : UInt64) (gate up down : KdaPackedLinear) : Except String Unit := do
  gate.validate
  up.validate
  down.validate
  if gate.inputWidth ≠ hidden ∨ up.inputWidth ≠ hidden ∨ gate.outputWidth ≠ up.outputWidth then
    throw "expert gate and up projections must share hidden input and expert width"
  else if down.inputWidth ≠ gate.outputWidth ∨ down.outputWidth ≠ hidden then
    throw "expert down projection must map expert width to hidden width"
  else pure ()

def experts (r : KdaMoeLayerRequest F) :
    List ((KdaPackedLinear × KdaPackedLinear) × KdaPackedLinear) :=
  (r.expertGate.zip r.expertUp).zip r.expertDown

def validate [TrialFloat F] (r : KdaMoeLayerRequest F) : Except String Unit := do
  r.kda.validate
  [r.attentionNorm, r.moeNorm, r.router].forM KdaPackedLinear.validate
  let hidden := r.kda.qkv.inputWidth
  let experts := r.expertGate.length
  if r.attentionNorm.inputWidth ≠ hidden ∨ r.attentionNorm.outputWidth ≠ 1 then
    throw "attention norm must be a hidden-width vector"
  else if r.moeNorm.inputWidth ≠ hidden ∨ r.moeNorm.outputWidth ≠ 1 then
    throw "MoE norm must be a hidden-width vector"
  else if experts = 0 ∨ r.expertUp.length ≠ experts ∨ r.expertDown.length ≠ experts then
    throw "KDA-MoE expert descriptor lists must be non-empty and equal in length"
  else if r.topK = 0 ∨ experts < r.topK.toNat ∨ 8 < r.topK then
    throw "KDA-MoE top_k must be in 1..=min(experts, 8)"
  else if !Trials.isFinite r.residualScale || !Trials.isFinite r.rmsEpsilon then
    throw "KDA-MoE numeric parameters must be finite"
  else if fle r.rmsEpsilon 0 then
    throw "KDA-MoE RMS epsilon must be positive"
  else if r.router.inputWidth ≠ hidden ∨ r.router.outputWidth.toNat ≠ experts then
    throw "router dimensions must be hidden_width by num_experts"
  else r.experts.forM fun e => validateExpert hidden e.1.1 e.1.2 e.2

def hiddenElements (r : KdaMoeLayerRequest F) : UInt64 :=
  r.kda.tensor.batch * r.kda.tensor.sequenceLength * r.kda.qkv.inputWidth

def expertWidth (r : KdaMoeLayerRequest F) : UInt64 :=
  r.expertGate.head?.elim 0 KdaPackedLinear.outputWidth

def expertActivationElements (r : KdaMoeLayerRequest F) : UInt64 :=
  r.kda.tensor.batch * r.kda.tensor.sequenceLength * r.topK * r.expertWidth

variable [TrialFloat F]

def encode (r : KdaMoeLayerRequest F) : Except String (List KdaMoeDispatch) := do
  r.validate
  let kda ← r.kda.encode
  let tokens := r.kda.tensor.batch * r.kda.tensor.sequenceLength
  let hidden := r.hiddenElements
  return .attentionNorm tokens :: kda.map .kda ++ [.attentionResidual hidden, .moeNorm tokens,
    .routeExperts tokens, .expertGateUp r.expertActivationElements, .expertDown hidden,
    .moeResidual hidden]

def kernelPlans (r : KdaMoeLayerRequest F) (affine : PackedAffinePlan) :
    Except String (List KernelPlan) := do
  r.validate
  affine.validate r.kda.qkv
  affine.validate r.router
  (r.expertGate ++ r.expertUp ++ r.expertDown).forM affine.validate
  (← r.encode).mapM (KdaMoeDispatch.kernelPlan affine)

end KdaMoeLayerRequest

end Definitions

section Counts

/-- A machine word that holds a positive number. -/
structure Counts (a : UInt64) (n : ℕ) : Prop where
  eq : a.toNat = n
  pos : 0 < n

variable {a b : UInt64} {m n : ℕ}

theorem Counts.of_ne_zero (h : a ≠ 0) : Counts a a.toNat :=
  ⟨rfl, Nat.pos_of_ne_zero fun hzero => h (UInt64.toNat_inj.mp hzero)⟩

theorem Counts.ne_zero (h : Counts a n) : a ≠ 0 := by
  rintro rfl
  exact h.pos.ne h.eq

theorem Counts.mul (ha : Counts a m) (hb : Counts b n) (h : m * n < 2 ^ 64) :
    Counts (a * b) (m * n) :=
  ⟨by rw [toNat_mul_of_lt (by rwa [ha.eq, hb.eq]), ha.eq, hb.eq], Nat.mul_pos ha.pos hb.pos⟩

theorem lt_of_mul_lt_left (h : m * n < 2 ^ 64) (hn : 0 < n) : m < 2 ^ 64 :=
  (Nat.le_mul_of_pos_right m hn).trans_lt h

theorem lt_of_mul_lt_right (h : m * n < 2 ^ 64) (hm : 0 < m) : n < 2 ^ 64 :=
  (Nat.le_mul_of_pos_left n hm).trans_lt h

theorem Counts.mul_mul {c : UInt64} {k : ℕ} (ha : Counts a m) (hb : Counts b n)
    (hc : Counts c k) (h : m * n * k < 2 ^ 64) : Counts (a * b * c) (m * n * k) :=
  (ha.mul hb (lt_of_mul_lt_left h hc.pos)).mul hc h

end Counts

section Plans

variable {affine : PackedAffinePlan} {linear : KdaPackedLinear} {kernel : String}
  {threads group : UInt64} {n : ℕ}

theorem KdaPackedLinear.widths_of_validate (h : linear.validate = .ok ()) :
    linear.inputWidth ≠ 0 ∧ linear.outputWidth ≠ 0 := by
  obtain ⟨hwidths, _⟩ := check_ok_iff.mp h
  simp only [not_or] at hwidths
  exact ⟨hwidths.1, hwidths.2.1⟩

theorem WorkGrid.covers (grid : WorkGrid) : grid.Covers := by
  obtain ⟨hitems, hthreads⟩ := not_or.mp grid.ne
  have hpos := (Counts.of_ne_zero hthreads).pos
  have hitems := (Counts.of_ne_zero hitems).pos
  have hceil : grid.groups.toNat =
      (grid.items.toNat + grid.threadsPerGroup.toNat - 1) / grid.threadsPerGroup.toNat :=
    toNat_divCeil hthreads
  have hdiv := Nat.div_add_mod (grid.items.toNat + grid.threadsPerGroup.toNat - 1)
    grid.threadsPerGroup.toNat
  have hmod := Nat.mod_lt (grid.items.toNat + grid.threadsPerGroup.toNat - 1) hpos
  rw [← hceil, Nat.mul_comm] at hdiv
  rw [Covers, Nat.sub_mul, Nat.one_mul]
  omega

/-- A plan of a kernel over a number of items. -/
structure KernelPlan.Launches (plan : KernelPlan) (kernel : String) (n : ℕ) : Prop where
  kernel : plan.kernel = kernel
  items : plan.grid.items.toNat = n
  covers : plan.grid.Covers

def Planned (x : Except String KernelPlan) (kernel : String) (n : ℕ) : Prop :=
  ∃ plan, x = .ok plan ∧ plan.Launches kernel n

theorem planned_new (h : Counts threads n) (hgroup : group ≠ 0) :
    Planned (KernelPlan.new kernel threads group) kernel n := by
  have hne : ¬(threads = 0 ∨ group = 0) := not_or.mpr ⟨h.ne_zero, hgroup⟩
  refine ⟨{ kernel, grid := ⟨threads, group, hne⟩ }, ?_, rfl, h.eq, WorkGrid.covers _⟩
  rw [KernelPlan.new, WorkGrid.new, dif_neg hne]
  rfl

theorem Planned.withTile {x : Except String KernelPlan} (h : Planned x kernel n)
    (axis : WorkAxis) {items : UInt64} (hitems : items ≠ 0) :
    Planned (x >>= KernelPlan.withTile axis items) kernel n := by
  obtain ⟨plan, rfl, hplan⟩ := h
  refine ⟨{ plan with tiles := plan.tiles ++ [⟨axis, items, hitems⟩] }, ?_, hplan.kernel,
    hplan.items, hplan.covers⟩
  rw [show (Except.ok plan >>= KernelPlan.withTile axis items) =
    KernelPlan.withTile axis items plan from rfl, KernelPlan.withTile, WorkTile.new,
    dif_neg hitems]
  rfl

theorem Planned.withScratchBytes {x : Except String KernelPlan} (h : Planned x kernel n)
    (bytes : UInt64) : Planned (KernelPlan.withScratchBytes bytes <$> x) kernel n := by
  obtain ⟨plan, rfl, hplan⟩ := h
  exact ⟨plan.withScratchBytes bytes, rfl, hplan.kernel, hplan.items, hplan.covers⟩

/-- What is checked of the schedule of the packed projections. -/
structure PackedAffinePlan.Positive (affine : PackedAffinePlan) : Prop where
  tokenTile : affine.tokenTile ≠ 0
  outputTile : affine.outputTile ≠ 0
  inputTile : affine.inputTile ≠ 0
  threadsPerGroup : affine.threadsPerGroup ≠ 0

theorem PackedAffinePlan.positive_of_validate (h : affine.validate linear = .ok ()) :
    affine.Positive := by
  obtain ⟨_, _, h⟩ := bind_ok_iff.mp h
  obtain ⟨htiles, _⟩ := check_ok_iff.mp h
  simp only [not_or] at htiles
  exact ⟨htiles.1, htiles.2.1, htiles.2.2.1, htiles.2.2.2⟩

theorem PackedAffinePlan.planned {tokens : UInt64} (h : affine.validate linear = .ok ())
    (htokens : tokens ≠ 0) (hlt : tokens.toNat * linear.outputWidth.toNat < 2 ^ 64) :
    Planned (affine.kernelPlan kernel tokens linear) kernel
      (tokens.toNat * linear.outputWidth.toNat) := by
  obtain ⟨_, hlinear, _⟩ := bind_ok_iff.mp h
  have hpositive := positive_of_validate h
  have houtput := (KdaPackedLinear.widths_of_validate hlinear).2
  have hitems := (Counts.of_ne_zero htokens).mul (Counts.of_ne_zero houtput) hlt
  rw [kernelPlan, h, checkedMul, if_neg (not_le.mpr hlt)]
  exact (((planned_new hitems hpositive.threadsPerGroup).withTile _
    hpositive.tokenTile).withTile _ hpositive.outputTile).withTile _ hpositive.inputTile

/-- The kernel of a dispatch, and the threads it asks for. -/
def KdaDispatch.launch : KdaDispatch → String × UInt64
  | projectQkv threads => ("kda_project_packed_16k", threads)
  | splitQkv threads => ("kda_split_qkv_16k", threads)
  | recur threads => ("kda_recurrence_16k", threads)

def KdaMoeDispatch.launch : KdaMoeDispatch → String × UInt64
  | attentionNorm threads | moeNorm threads => ("decoder_rms_norm", threads)
  | kda dispatch => dispatch.launch
  | attentionResidual threads | moeResidual threads => ("decoder_residual", threads)
  | routeExperts threads => ("moe_router_topk", threads)
  | expertGateUp threads => ("moe_gate_up", threads)
  | expertDown threads => ("moe_down", threads)

theorem KdaDispatch.planned (haffine : affine.Positive) (d : KdaDispatch)
    (h : Counts d.launch.2 n) : Planned (d.kernelPlan affine) d.launch.1 n := by
  cases d with
  | projectQkv threads =>
    exact (((planned_new h haffine.threadsPerGroup).withTile _ haffine.tokenTile).withTile _
      haffine.outputTile).withTile _ haffine.inputTile
  | splitQkv threads =>
    exact ((planned_new h (by decide)).withTile _ (by decide)).withTile _ (by decide)
  | recur threads =>
    exact (((planned_new h (by decide)).withTile _ (by decide)).withTile _
      (by decide)).withScratchBytes 0

theorem KdaMoeDispatch.planned (haffine : affine.Positive) (d : KdaMoeDispatch)
    (h : Counts d.launch.2 n) : Planned (d.kernelPlan affine) d.launch.1 n := by
  cases d with
  | attentionNorm threads | moeNorm threads =>
    exact ((planned_new h (by decide)).withTile _ (by decide)).withTile _ (by decide)
  | kda dispatch => exact dispatch.planned haffine h
  | attentionResidual threads | moeResidual threads =>
    exact (planned_new h (by decide)).withTile _ (by decide)
  | routeExperts threads => exact (planned_new h (by decide)).withTile _ (by decide)
  | expertGateUp threads =>
    exact (((planned_new h haffine.threadsPerGroup).withTile _ haffine.tokenTile).withTile _
      (by decide)).withTile _ haffine.inputTile
  | expertDown threads =>
    exact (((planned_new h haffine.threadsPerGroup).withTile _ haffine.tokenTile).withTile _
      haffine.outputTile).withTile _ haffine.inputTile

theorem planned_mapM (haffine : affine.Positive) {ds : List KdaMoeDispatch}
    {sizes : List (String × ℕ)}
    (h : List.Forall₂ (fun d s => d.launch.1 = s.1 ∧ Counts d.launch.2 s.2) ds sizes) :
    ∃ plans, ds.mapM (KdaMoeDispatch.kernelPlan affine) = .ok plans ∧
      List.Forall₂ (fun s plan => plan.Launches s.1 s.2) sizes plans := by
  induction h with
  | nil => exact ⟨[], rfl, .nil⟩
  | @cons d s ds sizes hd _ ih =>
    obtain ⟨plans, hplans, hlaunches⟩ := ih
    obtain ⟨plan, hplan, hlaunch⟩ := d.planned haffine hd.2
    refine ⟨plan :: plans, ?_, .cons (hd.1 ▸ hlaunch) hlaunches⟩
    rw [List.mapM_cons, hplan, hplans]
    rfl

end Plans

section Layers

variable {F : Type} [TrialFloat F] {r : KdaMoeLayerRequest F}

theorem forM_ok_iff {α ε : Type} {f : α → Except ε Unit} {as : List α} :
    as.forM f = .ok () ↔ ∀ a ∈ as, f a = .ok () := by
  induction as with
  | nil => exact ⟨nofun, fun _ => rfl⟩
  | cons a as ih =>
    change (f a >>= fun _ => as.forM f) = .ok () ↔ _
    rw [bind_ok_iff, List.forall_mem_cons, ← ih]
    exact ⟨fun ⟨_, ha, has⟩ => ⟨ha, has⟩, fun ⟨ha, has⟩ => ⟨(), ha, has⟩⟩

namespace KdaMoeLayerRequest

/-- The sizes of the tensor are positive. -/
def PositiveTensor (r : KdaMoeLayerRequest F) : Prop :=
  KdaTensorLayout.new r.kda.tensor.batch r.kda.tensor.sequenceLength r.kda.tensor.heads
    r.kda.tensor.keyWidth r.kda.tensor.valueWidth = .ok r.kda.tensor

def tokenCount (r : KdaMoeLayerRequest F) : ℕ :=
  r.kda.tensor.batch.toNat * r.kda.tensor.sequenceLength.toNat

def hiddenCount (r : KdaMoeLayerRequest F) : ℕ := r.tokenCount * r.kda.qkv.inputWidth.toNat

def projectionCount (r : KdaMoeLayerRequest F) : ℕ :=
  r.tokenCount * (3 * r.kda.tensor.heads.toNat * r.kda.tensor.keyWidth.toNat)

def recurrenceCount (r : KdaMoeLayerRequest F) : ℕ :=
  r.kda.tensor.batch.toNat * r.kda.tensor.heads.toNat * r.kda.tensor.valueWidth.toNat

def activationCount (r : KdaMoeLayerRequest F) : ℕ :=
  r.tokenCount * r.topK.toNat * r.expertWidth.toNat

/-- No size of a tensor reaches `2 ^ 64`. -/
structure Roomy (r : KdaMoeLayerRequest F) : Prop where
  hidden : r.hiddenCount < 2 ^ 64
  projection : r.projectionCount < 2 ^ 64
  recurrence : r.recurrenceCount < 2 ^ 64
  activation : r.activationCount < 2 ^ 64

/-- The kernels of a layer in order, each with the number of its items. -/
def schedule (r : KdaMoeLayerRequest F) : List (String × ℕ) :=
  [("decoder_rms_norm", r.tokenCount),
   ("kda_project_packed_16k", r.projectionCount),
   ("kda_split_qkv_16k",
     r.tokenCount * r.kda.tensor.heads.toNat * r.kda.tensor.keyWidth.toNat),
   ("kda_recurrence_16k", r.recurrenceCount),
   ("decoder_residual", r.hiddenCount),
   ("decoder_rms_norm", r.tokenCount),
   ("moe_router_topk", r.tokenCount),
   ("moe_gate_up", r.activationCount),
   ("moe_down", r.hiddenCount),
   ("decoder_residual", r.hiddenCount)]

def affineLinears (r : KdaMoeLayerRequest F) : List KdaPackedLinear :=
  r.kda.qkv :: r.router :: (r.expertGate ++ r.expertUp ++ r.expertDown)

/-- What the sizes need of a checked request. -/
theorem positive_of_validate (h : r.validate = .ok ()) :
    r.kda.qkv.inputWidth ≠ 0 ∧ r.topK ≠ 0 ∧ r.expertWidth ≠ 0 ∧ r.kda.validate = .ok () := by
  obtain ⟨_, hkda, h⟩ := bind_ok_iff.mp h
  obtain ⟨_, _, h⟩ := bind_ok_iff.mp h
  obtain ⟨_, hlinears, _⟩ := bind_ok_iff.mp hkda
  have hqkv : r.kda.qkv.validate = .ok () := forM_ok_iff.mp hlinears _ (List.mem_cons_self ..)
  obtain ⟨_, h⟩ := check_ok_iff.mp h
  obtain ⟨_, h⟩ := check_ok_iff.mp h
  obtain ⟨hlengths, h⟩ := check_ok_iff.mp h
  obtain ⟨htop, h⟩ := check_ok_iff.mp h
  obtain ⟨_, h⟩ := check_ok_iff.mp h
  obtain ⟨_, h⟩ := check_ok_iff.mp h
  obtain ⟨_, h⟩ := check_ok_iff.mp h
  simp only [not_or, not_not] at hlengths htop
  refine ⟨(KdaPackedLinear.widths_of_validate hqkv).1, htop.1, ?_, hkda⟩
  cases hgate : r.expertGate with
  | nil => exact absurd (congrArg List.length hgate) hlengths.1
  | cons gate gates =>
    rw [hgate] at hlengths
    obtain ⟨up, ups, hup⟩ := List.exists_cons_of_length_eq_add_one hlengths.2.1
    obtain ⟨down, downs, hdown⟩ := List.exists_cons_of_length_eq_add_one hlengths.2.2
    have hmem : ((gate, up), down) ∈ r.experts := by
      rw [experts, hgate, hup, hdown]
      exact List.mem_cons_self ..
    obtain ⟨_, hvalid, _⟩ := bind_ok_iff.mp (forM_ok_iff.mp h _ hmem)
    rw [expertWidth, hgate]
    exact (KdaPackedLinear.widths_of_validate hvalid).2

/-- The dispatches of a request, with their exact sizes. -/
theorem encode_schedule (htensor : r.PositiveTensor) (hroom : r.Roomy)
    (h : r.validate = .ok ()) :
    ∃ ds, r.encode = .ok ds ∧
      List.Forall₂ (fun d s => d.launch.1 = s.1 ∧ Counts d.launch.2 s.2) ds r.schedule := by
  obtain ⟨hwidth, htop, hexpert, hkda⟩ := positive_of_validate h
  obtain ⟨hpositive, _⟩ := check_ok_iff.mp htensor
  simp only [not_or] at hpositive
  obtain ⟨hbatch, hsequence, hheads, hkey, hvalue⟩ := hpositive
  have hbatch := Counts.of_ne_zero hbatch
  have hsequence := Counts.of_ne_zero hsequence
  have hheads := Counts.of_ne_zero hheads
  have hkey := Counts.of_ne_zero hkey
  have hvalue := Counts.of_ne_zero hvalue
  have hwidth := Counts.of_ne_zero hwidth
  have htop := Counts.of_ne_zero htop
  have hexpert := Counts.of_ne_zero hexpert
  have hthree : Counts 3 3 := ⟨rfl, by decide⟩
  have htokens : Counts (r.kda.tensor.batch * r.kda.tensor.sequenceLength) r.tokenCount :=
    hbatch.mul hsequence (lt_of_mul_lt_left hroom.hidden hwidth.pos)
  have hhidden : Counts r.hiddenElements r.hiddenCount := htokens.mul hwidth hroom.hidden
  have hqkv : Counts r.kda.qkvOutputWidth
      (3 * r.kda.tensor.heads.toNat * r.kda.tensor.keyWidth.toNat) :=
    hthree.mul_mul hheads hkey (lt_of_mul_lt_right hroom.projection htokens.pos)
  have hproject : Counts r.kda.projectionDispatchThreads r.projectionCount :=
    htokens.mul hqkv hroom.projection
  have hsplit : Counts r.kda.tensor.qkvElements
      (r.tokenCount * r.kda.tensor.heads.toNat * r.kda.tensor.keyWidth.toNat) := by
    refine htokens.mul_mul hheads hkey (lt_of_le_of_lt ?_ hroom.projection)
    rw [projectionCount, Nat.mul_assoc, Nat.mul_assoc 3]
    exact Nat.mul_le_mul_left _ (Nat.le_mul_of_pos_left _ (by decide))
  have hrecur : Counts r.kda.recurrenceDispatchThreads r.recurrenceCount :=
    hbatch.mul_mul hheads hvalue hroom.recurrence
  have hactivation : Counts r.expertActivationElements r.activationCount :=
    htokens.mul_mul htop hexpert hroom.activation
  refine ⟨_, by rw [encode, h, KdaForwardRequest.encode, hkda]; rfl, ?_⟩
  exact .cons ⟨rfl, htokens⟩ <| .cons ⟨rfl, hproject⟩ <| .cons ⟨rfl, hsplit⟩ <|
    .cons ⟨rfl, hrecur⟩ <| .cons ⟨rfl, hhidden⟩ <| .cons ⟨rfl, htokens⟩ <|
    .cons ⟨rfl, htokens⟩ <| .cons ⟨rfl, hactivation⟩ <| .cons ⟨rfl, hhidden⟩ <|
    .cons ⟨rfl, hhidden⟩ .nil

/-- A request is lowered exactly when its checks pass, to kernels over the exact sizes. -/
theorem launches_of_kernelPlans (affine : PackedAffinePlan) (htensor : r.PositiveTensor)
    (hroom : r.Roomy) :
    ((∃ plans, r.kernelPlans affine = .ok plans) ↔
        r.validate = .ok () ∧ ∀ linear ∈ r.affineLinears, affine.validate linear = .ok ()) ∧
      ∀ plans, r.kernelPlans affine = .ok plans →
        List.Forall₂ (fun s plan => plan.Launches s.1 s.2) r.schedule plans := by
  have hchecks {plans : List KernelPlan} (h : r.kernelPlans affine = .ok plans) :
      r.validate = .ok () ∧ ∀ linear ∈ r.affineLinears, affine.validate linear = .ok () := by
    obtain ⟨_, hvalid, h⟩ := bind_ok_iff.mp h
    obtain ⟨_, hqkv, h⟩ := bind_ok_iff.mp h
    obtain ⟨_, hrouter, h⟩ := bind_ok_iff.mp h
    obtain ⟨_, hexperts, _⟩ := bind_ok_iff.mp h
    exact ⟨hvalid, List.forall_mem_cons.mpr ⟨hqkv, List.forall_mem_cons.mpr
      ⟨hrouter, forM_ok_iff.mp hexperts⟩⟩⟩
  have hplans (hvalid : r.validate = .ok ())
      (haffine : ∀ linear ∈ r.affineLinears, affine.validate linear = .ok ()) :
      ∃ plans, r.kernelPlans affine = .ok plans ∧
        List.Forall₂ (fun s plan => plan.Launches s.1 s.2) r.schedule plans := by
    obtain ⟨ds, hencode, hsizes⟩ := encode_schedule htensor hroom hvalid
    obtain ⟨hqkv, haffine⟩ := List.forall_mem_cons.mp haffine
    obtain ⟨hrouter, hexperts⟩ := List.forall_mem_cons.mp haffine
    have hpositive := PackedAffinePlan.positive_of_validate hqkv
    obtain ⟨plans, hmap, hlaunches⟩ := planned_mapM hpositive hsizes
    refine ⟨plans, ?_, hlaunches⟩
    rw [kernelPlans, hvalid, hqkv, hrouter, forM_ok_iff.mpr hexperts, hencode]
    exact hmap
  refine ⟨⟨fun ⟨plans, h⟩ => hchecks h, fun h => ?_⟩, fun plans h => ?_⟩
  · obtain ⟨plans, hok, _⟩ := hplans h.1 h.2
    exact ⟨plans, hok⟩
  · obtain ⟨hvalid, haffine⟩ := hchecks h
    obtain ⟨plans', hok, hlaunches⟩ := hplans hvalid haffine
    obtain rfl := Except.ok.inj (h.symm.trans hok)
    exact hlaunches

end KdaMoeLayerRequest

end Layers

section Example

def smallLinear (inputWidth outputWidth : UInt64) : KdaPackedLinear :=
  ⟨0, 0, 0, inputWidth, outputWidth, 8, 4, 0, 0, 0⟩

/-- A layer of one expert, for two tokens. -/
def oneExpertLayer : KdaMoeLayerRequest ℚ where
  kda := ⟨⟨1, 2, 1, 4, 4⟩, smallLinear 64 12, smallLinear 64 3, smallLinear 64 64⟩
  attentionNorm := smallLinear 64 1
  moeNorm := smallLinear 64 1
  router := smallLinear 64 1
  expertGate := [smallLinear 64 128]
  expertUp := [smallLinear 64 128]
  expertDown := [smallLinear 128 64]
  topK := 1
  residualScale := 1
  rmsEpsilon := 1

theorem launches_of_kernelPlans_oneExpert :
    ∃ plans, oneExpertLayer.kernelPlans .appleSimd = .ok plans ∧
      List.Forall₂ (fun s plan => plan.Launches s.1 s.2) oneExpertLayer.schedule plans := by
  have hroom : oneExpertLayer.Roomy := ⟨by decide, by decide, by decide, by decide⟩
  have htensor : oneExpertLayer.PositiveTensor := rfl
  have haffine : oneExpertLayer.affineLinears.forM PackedAffinePlan.appleSimd.validate = .ok () :=
    rfl
  have hspec := KdaMoeLayerRequest.launches_of_kernelPlans .appleSimd htensor hroom
  obtain ⟨plans, hplans⟩ := hspec.1.mpr ⟨rfl, forM_ok_iff.mp haffine⟩
  exact ⟨plans, hplans, hspec.2 plans hplans⟩

end Example

end Ennbo.Forward
