import Mathlib

/-! The secure bootloader of `security/bootloader.c`.  A callback is a state transformer over an
arbitrary world, so that it may return anything and remember anything, and every call made is recorded
in a trace. -/

namespace XnuPod.Boot

inductive Target
  | i386
  | x86_64
  deriving DecidableEq, Repr

def Target.pointerSize : Target → Nat
  | .i386 => 4
  | .x86_64 => 8

/-- An address; `NULL` is `none` wherever a pointer may be null. -/
abbrev Addr := Nat

abbrev Measurement := Vector UInt8 32

inductive BootResult
  | ok
  | invalidArgument
  | invalidImage
  | unsupported
  | signatureRejected
  | measurementRejected
  | rollbackRejected
  | capabilityRejected
  | loadFailed
  | recoveryFailed
  deriving DecidableEq, Repr

def bootloaderApiVersion : UInt16 := 1

def bootloaderMagic : UInt32 := 0x584E5542

def bootloaderMaxImageSize : Nat := 1024 * 1024 * 1024

def requireSignature : UInt32 := (1 : UInt32) <<< 0

def requireMeasurement : UInt32 := (1 : UInt32) <<< 1

def requireRollbackProtection : UInt32 := (1 : UInt32) <<< 2

def requireLayerCapabilities : UInt32 := (1 : UInt32) <<< 4

/-- `struct xnuxx_boot_image`.  The measurement that `expected_measurement` points at is held by
value. -/
structure BootImage where
  magic : UInt32
  version : UInt16
  headerSize : UInt16
  generation : UInt64
  requiredCapabilities : UInt64
  payload : Option Addr
  payloadSize : Nat
  signature : Option Addr
  signatureSize : Nat
  expectedMeasurement : Option Measurement

/-- `sizeof(struct xnuxx_boot_image)`: one `uint32_t`, two `uint16_t`, two `uint64_t` and five
words of pointer size, which leave no padding on either target. -/
def sizeofBootImage (target : Target) : Nat :=
  4 + 2 + 2 + 8 + 8 + 5 * target.pointerSize

inductive Call
  | writeConsole (text : String)
  | verifySignature (payload : Addr) (payloadSize : Nat) (signature : Addr) (signatureSize : Nat)
      (verified : Int)
  | measureSha256 (payload : Addr) (payloadSize : Nat) (status : Int) (measurement : Measurement)
  | readMinimumGeneration (status : Int) (generation : UInt64)
  | loadKernel (payload : Addr) (payloadSize : Nat) (status : Int)
  | enterRecovery (result : BootResult) (status : Int)
  deriving DecidableEq

/-- `struct xnuxx_boot_platform`.  A callback that may be `NULL` is an option; the state `σ` is
whatever `context` leads to. -/
structure Platform (σ : Type) where
  capabilities : UInt64
  ansiConsole : Int
  verifySignature : Option (Addr → Nat → Addr → Nat → StateM σ Int)
  measureSha256 : Option (Addr → Nat → StateM σ (Int × Measurement))
  readMinimumGeneration : Option (StateM σ (Int × UInt64))
  loadKernel : Option (Addr → Nat → StateM σ Int)
  enterRecovery : Option (BootResult → StateM σ Int)
  writeConsole : Option (String → StateM σ Unit)

/-- The world of the callbacks and the calls made so far, oldest first. -/
structure Run (σ : Type) where
  world : σ
  trace : List Call

abbrev BootM (σ : Type) := StateM (Run σ)

variable {σ : Type}

def callback {α : Type} (action : StateM σ α) (call : α → Call) : BootM σ α := fun run =>
  let (value, world) := action.run run.world
  (value, ⟨world, run.trace ++ [call value]⟩)

/-- `boot_memcmp`: 0 on equal bytes, otherwise the order of the first two that differ. -/
def bootMemcmp : List UInt8 → List UInt8 → Int
  | x :: xs, y :: ys => if x ≠ y then (if x < y then -1 else 1) else bootMemcmp xs ys
  | _, _ => 0

def bootLog (p : Platform σ) (text : String) : BootM σ Unit :=
  match p.writeConsole with
  | some writeConsole => callback (writeConsole text) fun _ => .writeConsole text
  | none => pure ()

/-- `boot_fail`: whatever recovery answers, the caller goes on to return. -/
def bootFail (p : Platform σ) (result : BootResult) : BootM σ Unit :=
  match p.enterRecovery with
  | some enterRecovery => do
    let _ ← callback (enterRecovery result) fun status => .enterRecovery result status
    pure ()
  | none => pure ()

def bootReject (p : Platform σ) (result : BootResult) : BootM σ BootResult := do
  bootFail p result
  return result

def ansiBlueWhite : String := "\x1b[44;37m"

def ansiReset : String := "\x1b[0m"

/-- The end of `xnuxx_bootloader_start`: the kernel is loaded and the boot announced. -/
def loadImage (p : Platform σ) (image : BootImage) (payload : Addr) : BootM σ BootResult := do
  let some loadKernel := p.loadKernel | return ← bootReject p .loadFailed
  let status ← callback (loadKernel payload image.payloadSize)
    (.loadKernel payload image.payloadSize)
  if status ≠ 0 then
    return ← bootReject p .loadFailed
  bootLog p "secure verification complete; transferring control\n"
  if p.ansiConsole ≠ 0 then
    bootLog p ansiReset
  return .ok

/-- `xnuxx_bootloader_start` from its rollback check on.  The IOMMU bit of the policy is tested by
the source after this check, to no effect. -/
def checkRollback (p : Platform σ) (image : BootImage) (policy : UInt32) (payload : Addr) :
    BootM σ BootResult := do
  if policy &&& requireRollbackProtection = 0 then
    return ← bootReject p .rollbackRejected
  let some readMinimumGeneration := p.readMinimumGeneration
    | return ← bootReject p .rollbackRejected
  let (status, minimumGeneration) ← callback readMinimumGeneration
    fun (status, generation) => .readMinimumGeneration status generation
  if status ≠ 0 ∨ image.generation < minimumGeneration then
    return ← bootReject p .rollbackRejected
  loadImage p image payload

/-- `xnuxx_bootloader_start` from its measurement check on. -/
def checkMeasurement (p : Platform σ) (image : BootImage) (policy : UInt32) (payload : Addr)
    (expected : Measurement) : BootM σ BootResult := do
  if policy &&& requireMeasurement = 0 then
    return ← bootReject p .measurementRejected
  let some measureSha256 := p.measureSha256 | return ← bootReject p .measurementRejected
  let (status, actual) ← callback (measureSha256 payload image.payloadSize)
    fun (status, actual) => .measureSha256 payload image.payloadSize status actual
  if status ≠ 0 ∨ bootMemcmp actual.toList expected.toList ≠ 0 then
    return ← bootReject p .measurementRejected
  checkRollback p image policy payload

/-- `xnuxx_bootloader_start` from its signature check on. -/
def checkSignature (p : Platform σ) (image : BootImage) (policy : UInt32) (payload : Addr)
    (signature : Addr) (expected : Measurement) : BootM σ BootResult := do
  if policy &&& requireSignature = 0 then
    return ← bootReject p .signatureRejected
  let some verifySignature := p.verifySignature | return ← bootReject p .signatureRejected
  let verified ← callback
    (verifySignature payload image.payloadSize signature image.signatureSize)
    (.verifySignature payload image.payloadSize signature image.signatureSize)
  if verified ≠ 0 then
    return ← bootReject p .signatureRejected
  checkMeasurement p image policy payload expected

/-- `xnuxx_bootloader_start` from its header checks on. -/
def checkImage (target : Target) (p : Platform σ) (image : BootImage) (policy : UInt32)
    (payload : Addr) : BootM σ BootResult := do
  if image.magic ≠ bootloaderMagic ∨ image.version ≠ bootloaderApiVersion ∨
      image.headerSize.toNat < sizeofBootImage target then
    return ← bootReject p .invalidImage
  let some signature := image.signature | return ← bootReject p .invalidImage
  if image.signatureSize = 0 then
    return ← bootReject p .invalidImage
  let some expected := image.expectedMeasurement | return ← bootReject p .invalidImage
  if policy &&& requireLayerCapabilities ≠ 0 ∧
      image.requiredCapabilities &&& ~~~p.capabilities ≠ 0 then
    return ← bootReject p .capabilityRejected
  checkSignature p image policy payload signature expected

def xnuxxBootloaderStart (target : Target) (p : Option (Platform σ)) (image : Option BootImage)
    (policy : UInt32) : BootM σ BootResult := do
  let some p := p | return .invalidArgument
  let some image := image | return .invalidArgument
  let some payload := image.payload | return .invalidArgument
  if image.payloadSize = 0 ∨ bootloaderMaxImageSize < image.payloadSize ∨
      p.writeConsole.isNone then
    return .invalidArgument
  if p.ansiConsole ≠ 0 then
    bootLog p ansiBlueWhite
  bootLog p "xnu++ secure bootloader\n"
  checkImage target p image policy payload

end XnuPod.Boot
