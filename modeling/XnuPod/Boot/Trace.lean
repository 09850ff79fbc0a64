import XnuPod.Boot.Bootloader

/-! The calls that `xnuxx_bootloader_start` makes.  `Protocol` is the grammar of the calls from one
check on; every run of the code follows it, and the order of the checks, the single load and the
recovery call are read off the grammar. -/

namespace XnuPod.Boot

open List Call

variable {α : Type} {call : Call} {before after : List Call}

variable {σ : Type}

inductive Stage
  | signature
  | measurement
  | rollback
  | load
  deriving DecidableEq

def Stage.rejection : Stage → BootResult
  | .signature => .signatureRejected
  | .measurement => .measurementRejected
  | .rollback => .rollbackRejected
  | .load => .loadFailed

def Call.IsConsole : Call → Prop
  | .writeConsole _ => True
  | _ => False

def Call.isLoadKernel : Call → Bool
  | .loadKernel .. => true
  | _ => false

def Call.isEnterRecovery : Call → Bool
  | .enterRecovery .. => true
  | _ => false

/-- The calls of `boot_reject`: at most one, of `enter_recovery` with the result. -/
def Recovers (result : BootResult) (calls : List Call) : Prop :=
  calls = [] ∨ ∃ status, calls = [.enterRecovery result status]

inductive Refused (image : BootImage) (payload signature : Addr) : Stage → Call → Prop
  | signature {verified} : verified ≠ 0 → Refused image payload signature .signature
      (.verifySignature payload image.payloadSize signature image.signatureSize verified)
  | measurement {status measurement} : Refused image payload signature .measurement
      (.measureSha256 payload image.payloadSize status measurement)
  | rollback {status generation} : Refused image payload signature .rollback
      (.readMinimumGeneration status generation)
  | load {status} : status ≠ 0 → Refused image payload signature .load
      (.loadKernel payload image.payloadSize status)

/-- The calls from a check on, with the result they lead to, for an image with the given payload,
signature and expected measurement. -/
inductive Protocol (image : BootImage) (policy : UInt32) (payload signature : Addr)
    (expected : Measurement) : Stage → BootResult → List Call → Prop
  | skipped {stage calls} : Recovers stage.rejection calls →
      Protocol image policy payload signature expected stage stage.rejection calls
  | refused {stage call calls} : Refused image payload signature stage call →
      Recovers stage.rejection calls →
      Protocol image policy payload signature expected stage stage.rejection (call :: calls)
  | verified {result calls} : policy &&& requireSignature ≠ 0 →
      Protocol image policy payload signature expected .measurement result calls →
      Protocol image policy payload signature expected .signature result
        (.verifySignature payload image.payloadSize signature image.signatureSize 0 :: calls)
  | measured {result calls} : policy &&& requireMeasurement ≠ 0 →
      Protocol image policy payload signature expected .rollback result calls →
      Protocol image policy payload signature expected .measurement result
        (.measureSha256 payload image.payloadSize 0 expected :: calls)
  | current {result calls minimum} : policy &&& requireRollbackProtection ≠ 0 →
      minimum ≤ image.generation →
      Protocol image policy payload signature expected .load result calls →
      Protocol image policy payload signature expected .rollback result
        (.readMinimumGeneration 0 minimum :: calls)
  | loaded {calls} : (∀ call ∈ calls, call.IsConsole) →
      Protocol image policy payload signature expected .load .ok
        (.loadKernel payload image.payloadSize 0 :: calls)

/-- A computation, started in `run`, adds calls to the trace that satisfy `Q` together with its
result. -/
def Adds {α : Type} (action : BootM σ α) (run : Run σ) (Q : α → List Call → Prop) : Prop :=
  ∃ calls, (action run).2.trace = run.trace ++ calls ∧ Q (action run).1 calls

theorem Adds.pure {Q : α → List Call → Prop} (h : Q value []) : Adds (Pure.pure value) run Q :=
  ⟨[], (append_nil _).symm, h⟩

theorem Adds.mono {Q Q' : α → List Call → Prop} (h : Adds action run Q)
    (hQ : ∀ value calls, Q value calls → Q' value calls) : Adds action run Q' := by
  obtain ⟨calls, htrace, hcalls⟩ := h
  exact ⟨calls, htrace, hQ _ _ hcalls⟩

theorem Adds.bind {β : Type} {action : BootM σ α} {next : α → BootM σ β} {run : Run σ}
    {P : α → List Call → Prop} {Q : β → List Call → Prop} (h : Adds action run P)
    (hnext : ∀ value before run', P value before → Adds (next value) run' fun result calls => Q
      result (before ++ calls)) : Adds (action >>= next) run Q := by
  obtain ⟨before, htrace, hbefore⟩ := h
  obtain ⟨calls, htrace', hcalls⟩ := hnext _ before (action run).2 hbefore
  refine ⟨before ++ calls, ?_, hcalls⟩
  rw [← append_assoc, ← htrace]
  exact htrace'

theorem Adds.callback {action : StateM σ α} {call : α → Call} {run : Run σ} :
    Adds (Boot.callback action call) run fun value calls => calls = [call value] :=
  ⟨_, rfl, rfl⟩

theorem bootLog_adds (p : Platform σ) (text : String) (run : Run σ) :
    Adds (bootLog p text) run fun _ calls => ∀ call ∈ calls, call.IsConsole := by
  unfold bootLog
  split
  · refine Adds.callback.mono fun _ calls hcalls => ?_
    simp [hcalls, IsConsole]
  · exact Adds.pure (by simp)

theorem bootReject_adds (p : Platform σ) (result : BootResult) (run : Run σ) :
    Adds (bootReject p result) run fun value calls => value = result ∧ Recovers result calls := by
  have hfail : Adds (bootFail p result) run fun _ calls => Recovers result calls := by
    unfold bootFail
    split
    · refine Adds.callback.bind fun status before run' hbefore => Adds.pure ?_
      exact .inr ⟨status, by simp [hbefore]⟩
    · exact Adds.pure (.inl rfl)
  exact hfail.bind fun _ before run' hbefore => Adds.pure ⟨rfl, by simpa using hbefore⟩

theorem bootMemcmp_eq_zero (hlength : xs.length = ys.length) : bootMemcmp xs ys = 0 ↔ xs = ys := by
  induction xs generalizing ys with
  | nil =>
    cases ys with
    | nil => simp [bootMemcmp]
    | cons y ys => simp at hlength
  | cons x xs ih =>
    cases ys with
    | nil => simp at hlength
    | cons y ys =>
      simp only [bootMemcmp, List.cons.injEq]
      by_cases hxy : x = y
      · simpa [hxy] using ih (by simpa using hlength)
      · rw [if_pos hxy]
        simp only [hxy, false_and]
        split <;> decide

theorem bootMemcmp_measurement (actual expected : Measurement) :
    bootMemcmp actual.toList expected.toList = 0 ↔ actual = expected := by
  rw [bootMemcmp_eq_zero (by simp), Vector.toList_inj]

section Stages

variable {p : Platform σ} {image : BootImage} {policy : UInt32} {payload signature : Addr}
  {expected : Measurement} {run : Run σ}

theorem reject_protocol (stage : Stage) : Adds (bootReject p stage.rejection) run
      (Protocol image policy payload signature expected stage) :=
  (bootReject_adds p _ run).mono fun _ _ h => h.1 ▸ .skipped h.2

theorem refuse_protocol (stage : Stage) (hcall : Refused image payload signature stage call) :
    Adds (bootReject p stage.rejection) run fun result calls =>
      Protocol image policy payload signature expected stage result ([call] ++ calls) :=
  (bootReject_adds p _ run).mono fun _ _ h => h.1 ▸ .refused hcall h.2

theorem loadImage_protocol : Adds (loadImage p image payload) run
      (Protocol image policy payload signature expected .load) := by
  unfold loadImage
  split
  case h_2 => exact reject_protocol .load
  refine Adds.callback.bind fun status before run1 hbefore => ?_
  subst hbefore
  split
  · rename_i hstatus
    exact refuse_protocol .load (.load hstatus)
  rename_i hstatus
  obtain rfl : status = 0 := by simpa using hstatus
  refine (bootLog_adds p _ run1).bind fun _ announced run2 hannounced => ?_
  have hdone : ∀ after : List Call, (∀ call ∈ after, call.IsConsole) →
      Protocol image policy payload signature expected .load .ok
        ([.loadKernel payload image.payloadSize 0] ++ (announced ++ after)) := by
    intro after hafter
    refine .loaded fun call hcall => ?_
    rcases mem_append.mp (by simpa using hcall) with hcall | hcall
    · exact hannounced call hcall
    · exact hafter call hcall
  split
  · exact (bootLog_adds p _ run2).bind fun _ after run3 hafter =>
      Adds.pure (by simpa using hdone after hafter)
  · exact Adds.pure (hdone [] (by simp))

theorem checkRollback_protocol : Adds (checkRollback p image policy payload) run
      (Protocol image policy payload signature expected .rollback) := by
  unfold checkRollback
  split
  · exact reject_protocol .rollback
  rename_i hpolicy
  split
  case h_2 => exact reject_protocol .rollback
  refine Adds.callback.bind fun (status, minimum) before run1 hbefore => ?_
  subst hbefore
  dsimp only
  split
  · exact refuse_protocol .rollback .rollback
  rename_i hanswer
  simp only [not_or, not_not, UInt64.not_lt] at hanswer
  obtain ⟨rfl, hminimum⟩ := hanswer
  exact loadImage_protocol.mono fun _ _ h => .current hpolicy hminimum h

theorem checkMeasurement_protocol : Adds (checkMeasurement p image policy payload expected) run
      (Protocol image policy payload signature expected .measurement) := by
  unfold checkMeasurement
  split
  · exact reject_protocol .measurement
  rename_i hpolicy
  split
  case h_2 => exact reject_protocol .measurement
  refine Adds.callback.bind fun (status, actual) before run1 hbefore => ?_
  subst hbefore
  dsimp only
  split
  · exact refuse_protocol .measurement .measurement
  rename_i hanswer
  simp only [not_or, not_not, bootMemcmp_measurement] at hanswer
  obtain ⟨rfl, rfl⟩ := hanswer
  exact checkRollback_protocol.mono fun _ _ h => .measured hpolicy h

theorem checkSignature_protocol :
    Adds (checkSignature p image policy payload signature expected) run
      (Protocol image policy payload signature expected .signature) := by
  unfold checkSignature
  split
  · exact reject_protocol .signature
  rename_i hpolicy
  split
  case h_2 => exact reject_protocol .signature
  refine Adds.callback.bind fun verified before run1 hbefore => ?_
  subst hbefore
  split
  · rename_i hverified
    exact refuse_protocol .signature (.signature hverified)
  rename_i hverified
  obtain rfl : verified = 0 := by simpa using hverified
  exact checkMeasurement_protocol.mono fun _ _ h => .verified hpolicy h

end Stages

/-- What the code knows of an image when it starts to call the checking callbacks: the argument
and header checks of `xnuxx_bootloader_start` and its capability check. -/
structure Admitted (target : Target) (p : Platform σ) (image : BootImage) (policy : UInt32)
    (payload signature : Addr) (expected : Measurement) : Prop where
  payload_eq : image.payload = some payload
  payloadSize_pos : 0 < image.payloadSize
  payloadSize_le : image.payloadSize ≤ bootloaderMaxImageSize
  magic_eq : image.magic = bootloaderMagic
  version_eq : image.version = bootloaderApiVersion
  headerSize_ge : sizeofBootImage target ≤ image.headerSize.toNat
  signature_eq : image.signature = some signature
  signatureSize_pos : 0 < image.signatureSize
  measurement_eq : image.expectedMeasurement = some expected
  capabilities : policy &&& requireLayerCapabilities ≠ 0 →
    image.requiredCapabilities &&& ~~~p.capabilities = 0

inductive BootCalls (target : Target) (p : Option (Platform σ)) (image : Option BootImage)
    (policy : UInt32) : BootResult → List Call → Prop
  | invalidArgument : BootCalls target p image policy .invalidArgument []
  | rejected {result greeting calls} : result = .invalidImage ∨ result = .capabilityRejected →
      (∀ call ∈ greeting, call.IsConsole) → Recovers result calls →
      BootCalls target p image policy result (greeting ++ calls)
  | checked {platform bootImage payload signature expected result greeting calls} :
      p = some platform → image = some bootImage →
      Admitted target platform bootImage policy payload signature expected →
      (∀ call ∈ greeting, call.IsConsole) →
      Protocol bootImage policy payload signature expected .signature result calls →
      BootCalls target p image policy result (greeting ++ calls)

section Image

variable {target : Target} {p : Platform σ} {image : BootImage} {policy : UInt32} {payload : Addr}
  {run : Run σ} {greeting : List Call} (hgreeting : ∀ call ∈ greeting, call.IsConsole)
include hgreeting

theorem reject_bootCalls (hresult : result = .invalidImage ∨ result = .capabilityRejected) :
    Adds (bootReject p result) run fun result calls =>
      BootCalls target (some p) (some image) policy result (greeting ++ calls) :=
  (bootReject_adds p result run).mono fun _ _ h => h.1 ▸ .rejected hresult hgreeting h.2

theorem checkImage_bootCalls (hpayload : image.payload = some payload)
    (hpos : 0 < image.payloadSize) (hle : image.payloadSize ≤ bootloaderMaxImageSize) :
    Adds (checkImage target p image policy payload) run fun result calls =>
      BootCalls target (some p) (some image) policy result (greeting ++ calls) := by
  unfold checkImage
  split
  · exact reject_bootCalls hgreeting (.inl rfl)
  rename_i hheader
  split
  case h_2 => exact reject_bootCalls hgreeting (.inl rfl)
  rename_i signature hsignature
  split
  · exact reject_bootCalls hgreeting (.inl rfl)
  split
  case h_2 => exact reject_bootCalls hgreeting (.inl rfl)
  rename_i expected hexpected
  split
  · exact reject_bootCalls hgreeting (.inr rfl)
  rename_i hcapabilities
  simp only [not_or, not_not, not_lt] at hheader
  refine checkSignature_protocol.mono fun result calls h => .checked rfl rfl ?_ hgreeting h
  exact ⟨hpayload, hpos, hle, hheader.1, hheader.2.1, hheader.2.2, hsignature, by omega,
    hexpected, fun hpolicy => by simpa [hpolicy] using hcapabilities⟩

end Image

theorem xnuxxBootloaderStart_adds (target : Target) (p : Option (Platform σ))
    (image : Option BootImage) (policy : UInt32) (run : Run σ) :
    Adds (xnuxxBootloaderStart target p image policy) run (BootCalls target p image policy) := by
  unfold xnuxxBootloaderStart
  split
  case h_2 => exact Adds.pure .invalidArgument
  rename_i p
  split
  case h_2 => exact Adds.pure .invalidArgument
  rename_i image
  split
  case h_2 => exact Adds.pure .invalidArgument
  rename_i payload hpayload
  split
  · exact Adds.pure .invalidArgument
  rename_i hsize
  simp only [not_or, not_lt] at hsize
  have hpos : 0 < image.payloadSize := by omega
  split
  · refine (bootLog_adds p _ run).bind fun _ blue run1 hblue => ?_
    refine (bootLog_adds p _ run1).bind fun _ banner run2 hbanner => ?_
    simp only [← append_assoc]
    exact checkImage_bootCalls
      (fun call hcall => (mem_append.mp hcall).elim (hblue call) (hbanner call)) hpayload hpos
      hsize.2.1
  · refine (bootLog_adds p _ run).bind fun _ banner run1 hbanner => ?_
    exact checkImage_bootCalls hbanner hpayload hpos hsize.2.1

def Stage.checks (image : BootImage) (payload signature : Addr) (expected : Measurement)
    (minimum : UInt64) : Stage → List Call
  | .signature =>
    [.verifySignature payload image.payloadSize signature image.signatureSize 0,
      .measureSha256 payload image.payloadSize 0 expected, .readMinimumGeneration 0 minimum]
  | .measurement =>
    [.measureSha256 payload image.payloadSize 0 expected, .readMinimumGeneration 0 minimum]
  | .rollback => [.readMinimumGeneration 0 minimum]
  | .load => []

def Stage.Enforced (policy : UInt32) : Stage → Prop
  | .signature => policy &&& requireSignature ≠ 0 ∧ policy &&& requireMeasurement ≠ 0 ∧
      policy &&& requireRollbackProtection ≠ 0
  | .measurement => policy &&& requireMeasurement ≠ 0 ∧ policy &&& requireRollbackProtection ≠ 0
  | .rollback => policy &&& requireRollbackProtection ≠ 0
  | .load => True

theorem Recovers.not_mem (h : Recovers result calls) (hcall : call.isEnterRecovery = false) :
    call ∉ calls := by
  rcases h with rfl | ⟨status, rfl⟩
  · simp
  · rintro hmem
    obtain rfl := mem_singleton.mp hmem
    simp [isEnterRecovery] at hcall

theorem not_mem_console {calls : List Call} (h : ∀ call ∈ calls, call.IsConsole)
    (hcall : ¬call.IsConsole) : call ∉ calls :=
  fun hmem => hcall (h call hmem)

section Protocol

variable {image : BootImage} {policy : UInt32} {payload signature : Addr} {expected : Measurement}
  {result : BootResult} {calls : List Call}

theorem Recovers.countP_load (h : Recovers result calls) : calls.countP isLoadKernel = 0 := by
  rcases h with rfl | ⟨status, rfl⟩ <;> rfl

theorem countP_console (hf : ∀ call : Call, call.IsConsole → f call = false)
    (h : ∀ call ∈ calls, call.IsConsole) : calls.countP f = 0 :=
  countP_eq_zero.mpr fun call hcall => by simp [hf call (h call hcall)]

theorem isLoadKernel_console (call : Call) (h : call.IsConsole) : call.isLoadKernel = false := by
  cases call <;> first | rfl | exact h.elim

theorem isEnterRecovery_console (call : Call) (h : call.IsConsole) :
    call.isEnterRecovery = false := by
  cases call <;> first | rfl | exact h.elim

theorem Recovers.filter (h : Recovers result calls) : calls.filter isEnterRecovery = calls := by
  rcases h with rfl | ⟨status, rfl⟩ <;> rfl

theorem filter_console (h : ∀ call ∈ calls, call.IsConsole) : calls.filter isEnterRecovery = [] :=
  filter_eq_nil_iff.mpr fun call hcall => by simp [isEnterRecovery_console call (h call hcall)]

variable (h : Protocol image policy payload signature expected stage result calls)
include h

/-- A load is of the image's payload and comes after the successful calls of every check from the
stage on, whose policy bits are set. -/
theorem Protocol.load (hcalls : calls = before ++ .loadKernel address size status :: after) :
    address = payload ∧ size = image.payloadSize ∧ stage.Enforced policy ∧
      ∃ minimum ≤ image.generation,
        (stage.checks image payload signature expected minimum).Sublist before := by
  induction h generalizing before with
  | skipped hrecovers =>
    exact absurd (hcalls ▸ mem_append_right _ mem_cons_self) (hrecovers.not_mem rfl)
  | refused hrefused hrecovers =>
    cases before with
    | nil =>
      obtain ⟨rfl, -⟩ := List.cons.inj hcalls
      cases hrefused
      exact ⟨rfl, rfl, trivial, _, UInt64.le_refl _, List.Sublist.refl _⟩
    | cons call before =>
      obtain ⟨-, rfl⟩ := List.cons.inj hcalls
      exact absurd (mem_append_right _ mem_cons_self) (hrecovers.not_mem rfl)
  | verified hpolicy _ ih
  | measured hpolicy _ ih =>
    cases before with
    | nil => simp at hcalls
    | cons call before =>
      obtain ⟨rfl, hrest⟩ := List.cons.inj hcalls
      obtain ⟨haddress, hsize, henforced, minimum, hminimum, hsublist⟩ := ih hrest
      exact ⟨haddress, hsize, ⟨hpolicy, henforced⟩, minimum, hminimum, hsublist.cons_cons _⟩
  | @current _ _ minimum hpolicy hminimum _ ih =>
    cases before with
    | nil => simp at hcalls
    | cons call before =>
      obtain ⟨rfl, hrest⟩ := List.cons.inj hcalls
      obtain ⟨haddress, hsize, -, -⟩ := ih hrest
      exact ⟨haddress, hsize, hpolicy, minimum, hminimum, (nil_sublist _).cons_cons _⟩
  | loaded hconsole =>
    cases before with
    | nil =>
      obtain ⟨hload, -⟩ := List.cons.inj hcalls
      cases hload
      exact ⟨rfl, rfl, trivial, _, UInt64.le_refl _, List.Sublist.refl _⟩
    | cons call before =>
      obtain ⟨-, rfl⟩ := List.cons.inj hcalls
      exact absurd (mem_append_right _ mem_cons_self)
        (not_mem_console hconsole (by simp [IsConsole]))

theorem Protocol.ok_iff : result = .ok ↔ ∃ address size, .loadKernel address size 0 ∈ calls := by
  induction h with
  | @skipped stage _ hrecovers =>
    refine iff_of_false (by cases stage <;> simp [Stage.rejection]) ?_
    rintro ⟨address, size, hmem⟩
    exact hrecovers.not_mem rfl hmem
  | @refused stage _ _ hrefused hrecovers =>
    refine iff_of_false (by cases stage <;> simp [Stage.rejection]) ?_
    rintro ⟨address, size, hmem⟩
    rcases mem_cons.mp hmem with rfl | hmem
    · cases hrefused with
      | load hstatus => exact hstatus rfl
    · exact hrecovers.not_mem rfl hmem
  | verified _ _ ih => simpa using ih
  | measured _ _ ih => simpa using ih
  | current _ _ _ ih => simpa using ih
  | loaded => exact iff_of_true rfl ⟨_, _, mem_cons_self⟩

theorem Protocol.countP_load : calls.countP isLoadKernel ≤ 1 := by
  induction h with
  | skipped hrecovers => simp [hrecovers.countP_load]
  | refused _ hrecovers =>
    rw [countP_cons, hrecovers.countP_load]
    split <;> omega
  | verified _ _ ih => simpa [isLoadKernel] using ih
  | measured _ _ ih => simpa [isLoadKernel] using ih
  | current _ _ _ ih => simpa [isLoadKernel] using ih
  | loaded hconsole =>
    rw [countP_cons, countP_console isLoadKernel_console hconsole]
    split <;> omega

theorem Protocol.recovers : Recovers result (calls.filter isEnterRecovery) := by
  induction h with
  | skipped hrecovers => rwa [hrecovers.filter]
  | refused hrefused hrecovers =>
    rw [filter_cons_of_neg (by cases hrefused <;> simp [isEnterRecovery]), hrecovers.filter]
    exact hrecovers
  | verified _ _ ih => simpa [isEnterRecovery] using ih
  | measured _ _ ih => simpa [isEnterRecovery] using ih
  | current _ _ _ ih => simpa [isEnterRecovery] using ih
  | loaded hconsole =>
    left
    simpa [isEnterRecovery] using filter_console hconsole

end Protocol

theorem missing_eq_zero (required offered : UInt64) :
    required &&& ~~~offered = 0 ↔
      ∀ i, required.toBitVec.getLsbD i = true → offered.toBitVec.getLsbD i = true := by
  rw [← UInt64.toBitVec_inj]
  constructor
  · intro h i hi
    have hbit := congrArg (·.getLsbD i) h
    have hlt := BitVec.lt_of_getLsbD hi
    simpa [hi, hlt] using hbit
  intro h
  apply BitVec.eq_of_getLsbD_eq
  intro i hi
  have := h i
  cases hr : required.toBitVec.getLsbD i <;> simp_all

/-- What a load of `payloadSize` bytes at `payload` needs: the image passed the argument and
header checks; under the capability bit the required capabilities are a subset of the offered
ones; and among the calls `before` the load are, in this order, a signature check, a measurement
and a read of the minimum generation that accept the image, each under its policy bit. -/
def VerifiedBefore (target : Target) (p : Option (Platform σ)) (image : Option BootImage)
    (policy : UInt32) (payload : Addr) (payloadSize : Nat) (before : List Call) : Prop :=
  ∃ platform bootImage signature expected minimum,
    p = some platform ∧ image = some bootImage ∧ bootImage.payloadSize = payloadSize ∧
    Admitted target platform bootImage policy payload signature expected ∧
    (policy &&& requireLayerCapabilities ≠ 0 → ∀ i,
      bootImage.requiredCapabilities.toBitVec.getLsbD i = true →
        platform.capabilities.toBitVec.getLsbD i = true) ∧
    policy &&& requireSignature ≠ 0 ∧ policy &&& requireMeasurement ≠ 0 ∧
    policy &&& requireRollbackProtection ≠ 0 ∧ minimum ≤ bootImage.generation ∧
    [.verifySignature payload payloadSize signature bootImage.signatureSize 0,
      .measureSha256 payload payloadSize 0 expected,
      .readMinimumGeneration 0 minimum].Sublist before

section Run

variable {target : Target} {p : Option (Platform σ)} {image : Option BootImage} {policy : UInt32}
  {result : BootResult}

theorem BootCalls.countP_load (h : BootCalls target p image policy result calls) :
    calls.countP isLoadKernel ≤ 1 := by
  cases h with
  | invalidArgument => simp
  | rejected _ hgreeting hrecovers =>
    simp [countP_console isLoadKernel_console hgreeting, hrecovers.countP_load]
  | checked _ _ _ hgreeting hprotocol =>
    simpa [countP_console isLoadKernel_console hgreeting] using hprotocol.countP_load

theorem append_eq_of_console (hgreeting : ∀ call ∈ greeting, call.IsConsole)
    (hcall : ¬call.IsConsole) (h : greeting ++ rest = before ++ call :: after) :
    ∃ before', before = greeting ++ before' ∧ rest = before' ++ call :: after := by
  rcases append_eq_append_iff.mp h with ⟨more, hbefore, hrest⟩ | ⟨more, hgreet, hrest⟩
  · exact ⟨more, hbefore, hrest⟩
  cases more with
  | nil => exact ⟨[], by simpa using hgreet.symm, by simpa using hrest.symm⟩
  | cons head more =>
    obtain ⟨rfl, -⟩ := List.cons.inj hrest
    exact absurd (hgreeting call (by simp [hgreet])) hcall

section

variable (h : BootCalls target p image policy result calls)
include h

theorem BootCalls.load (hcalls : calls = before ++ .loadKernel payload payloadSize status :: after) :
    VerifiedBefore target p image policy payload payloadSize before := by
  cases h with
  | invalidArgument => simp at hcalls
  | rejected _ hgreeting hrecovers =>
    obtain ⟨before', -, hrest⟩ := append_eq_of_console hgreeting (by simp [IsConsole]) hcalls
    exact absurd (hrest ▸ mem_append_right _ mem_cons_self) (hrecovers.not_mem rfl)
  | @checked platform bootImage _ signature expected _ greeting _ hp himage hadmitted hgreeting
      hprotocol =>
    obtain ⟨before', rfl, hrest⟩ :=
      append_eq_of_console hgreeting (by simp [IsConsole]) hcalls
    obtain ⟨rfl, rfl, ⟨hsignature, hmeasurement, hrollback⟩, minimum, hminimum, hsublist⟩ :=
      hprotocol.load hrest
    exact ⟨platform, bootImage, signature, expected, minimum, hp, himage, rfl, hadmitted,
      fun hpolicy => (missing_eq_zero _ _).mp (hadmitted.capabilities hpolicy), hsignature,
      hmeasurement, hrollback, hminimum, hsublist.trans (sublist_append_right _ _)⟩

theorem BootCalls.ok_iff :
    result = .ok ↔ ∃ payload payloadSize, .loadKernel payload payloadSize 0 ∈ calls := by
  have hnot : ∀ {greeting : List Call}, (∀ call ∈ greeting, call.IsConsole) →
      ∀ payload payloadSize, .loadKernel payload payloadSize 0 ∉ greeting :=
    fun hgreeting _ _ => not_mem_console hgreeting (by simp [IsConsole])
  cases h with
  | invalidArgument => simp
  | rejected hresult hgreeting hrecovers =>
    refine iff_of_false (by rcases hresult with rfl | rfl <;> simp) ?_
    rintro ⟨payload, payloadSize, hmem⟩
    rcases mem_append.mp hmem with hmem | hmem
    · exact hnot hgreeting _ _ hmem
    · exact hrecovers.not_mem rfl hmem
  | checked _ _ _ hgreeting hprotocol =>
    rw [hprotocol.ok_iff]
    simp [hnot hgreeting]

theorem BootCalls.recovers : Recovers result (calls.filter isEnterRecovery) := by
  cases h with
  | invalidArgument => exact .inl rfl
  | rejected _ hgreeting hrecovers =>
    rw [filter_append, filter_console hgreeting, hrecovers.filter]
    exact hrecovers
  | checked _ _ _ hgreeting hprotocol =>
    rw [filter_append, filter_console hgreeting]
    exact hprotocol.recovers

end

end Run

/-- The calls of `xnuxx_bootloader_start` on every platform, image and policy: `load_kernel` is
called at most once, and only after every check accepted the image; the result is
`XNUXX_BOOT_OK` exactly when `load_kernel` was called and returned 0; and recovery is entered at
most once, with the result of the call. -/
theorem xnuxxBootloaderStart_trace (target : Target) (p : Option (Platform σ))
    (image : Option BootImage) (policy : UInt32) (world : σ) :
    let (result, run) := xnuxxBootloaderStart target p image policy ⟨world, []⟩
    run.trace.countP isLoadKernel ≤ 1 ∧
    (∀ before after payload payloadSize status,
      run.trace = before ++ .loadKernel payload payloadSize status :: after →
        VerifiedBefore target p image policy payload payloadSize before) ∧
    (result = .ok ↔ ∃ payload payloadSize, .loadKernel payload payloadSize 0 ∈ run.trace) ∧
    (run.trace.filter isEnterRecovery = [] ∨
      ∃ status, run.trace.filter isEnterRecovery = [.enterRecovery result status]) := by
  obtain ⟨calls, htrace, h⟩ := xnuxxBootloaderStart_adds target p image policy ⟨world, []⟩
  rcases hrun : xnuxxBootloaderStart target p image policy ⟨world, []⟩ with ⟨result, run⟩
  rw [hrun] at htrace h
  obtain rfl : run.trace = calls := htrace
  exact ⟨h.countP_load, fun _ _ _ _ _ hcalls => h.load hcalls, h.ok_iff, h.recovers⟩

end XnuPod.Boot
