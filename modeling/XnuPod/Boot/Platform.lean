import XnuPod.Boot.Measure
import XnuPod.Boot.Trace

/-! The boot chain of `boot/boot_entry.c` and `boot/boot_platform.c`.  `boot_platform_start` returns
nothing, so the bootloader's verdict is lost: the kernel is started after a rejection as after an
acceptance. -/

namespace XnuPod.Boot

open Kit

/-- The callbacks that the static platform of `boot_platform_start` points at, none of them null.
Their outcomes are arbitrary here; `sourceCallbacks` are the ones of the source. -/
structure Callbacks (σ : Type) where
  verifySignature : Addr → Nat → Addr → Nat → StateM σ Int
  measureSha256 : Addr → Nat → StateM σ (Int × Measurement)
  readMinimumGeneration : StateM σ (Int × UInt64)
  loadKernel : Addr → Nat → StateM σ Int
  enterRecovery : BootResult → StateM σ Int
  writeConsole : String → StateM σ Unit

structure Machine where
  memory : Addr → UInt8
  consoleCursor : Nat

def vga : Nat := 0xB8000

/-- `console_write`, on the characters of the text. -/
def consoleWrite : List Char → Machine → Machine
  | [], machine => machine
  | char :: text, machine =>
    if char = '\n' then
      consoleWrite text
        { machine with
          consoleCursor := machine.consoleCursor + (80 - machine.consoleCursor % 80) }
    else if machine.consoleCursor ≥ 80 * 25 then machine
    else
      let cell := vga + machine.consoleCursor * 2
      let memory := Function.update machine.memory cell (UInt8.ofNat char.toNat)
      consoleWrite text ⟨Function.update memory (cell + 1) 0x1F, machine.consoleCursor + 1⟩

/-- The callbacks of `boot_platform.c`.  The signature is never looked at, and neither the load nor
the recovery does anything. -/
def sourceCallbacks : Callbacks Machine where
  verifySignature _ _ _ _ := pure 0
  measureSha256 payload payloadSize := do
    let machine ← get
    let bytes := if payload = 0 then none else some fun i => machine.memory (payload + i)
    let (status, measurement) := measureSha256 bytes payloadSize (some (Vector.replicate 32 0))
    pure (status, measurement.getD (Vector.replicate 32 0))
  readMinimumGeneration := pure (0, 0)
  loadKernel _ _ := pure 0
  enterRecovery _ := pure (-1)
  writeConsole text := modify (consoleWrite text.toList)

def capKernelProvider : UInt64 := (1 : UInt64) <<< 0

def capSecurityLayer : UInt64 := (1 : UInt64) <<< 1

def capUpdateLayer : UInt64 := (1 : UInt64) <<< 2

def capDeviceLayer : UInt64 := (1 : UInt64) <<< 3

def capRecovery : UInt64 := (1 : UInt64) <<< 4

/-- The static `platform` of `boot_platform_start`. -/
def bootPlatform {σ : Type} (callbacks : Callbacks σ) : Platform σ where
  capabilities :=
    capKernelProvider ||| capSecurityLayer ||| capUpdateLayer ||| capDeviceLayer ||| capRecovery
  ansiConsole := 0
  verifySignature := some callbacks.verifySignature
  measureSha256 := some callbacks.measureSha256
  readMinimumGeneration := some callbacks.readMinimumGeneration
  loadKernel := some callbacks.loadKernel
  enterRecovery := some callbacks.enterRecovery
  writeConsole := some callbacks.writeConsole

def payloadAddress : Addr := 0x100000

def payloadSize : Nat := 4096

/-- The static `image` of `boot_platform_start`, with the two signature bytes at
`signatureBytes`. -/
def bootImage (target : Target) (signatureBytes : Addr) : BootImage where
  magic := bootloaderMagic
  version := bootloaderApiVersion
  headerSize := UInt16.ofNat (sizeofBootImage target)
  generation := 0
  requiredCapabilities := capKernelProvider ||| capSecurityLayer ||| capDeviceLayer
  payload := some payloadAddress
  payloadSize := payloadSize
  signature := some signatureBytes
  signatureSize := 2
  expectedMeasurement := some (Vector.replicate 32 0)

def bootPolicy : UInt32 :=
  requireSignature ||| requireMeasurement ||| requireRollbackProtection |||
    requireLayerCapabilities

inductive BootEvent
  | bootloaderReturned (result : BootResult)
  | kernelMain (multibootInfo : UInt32)
  | halt
  deriving DecidableEq

section Chain

variable {σ : Type} (target : Target) (signatureBytes : Addr) (callbacks : Callbacks σ)

/-- `boot_platform_start`.  The result of the call is an event of the run and nothing else: the
source discards it. -/
def bootPlatformStart (world : σ) : List BootEvent :=
  let (result, _) := xnuxxBootloaderStart target (some (bootPlatform callbacks))
    (some (bootImage target signatureBytes)) bootPolicy ⟨world, []⟩
  [.bootloaderReturned result]

def multiboot2BootloaderMagic : UInt32 := 0x36D76289

def bootEntry (magic multibootInfo : UInt32) (world : σ) : List BootEvent :=
  if magic ≠ multiboot2BootloaderMagic then [.halt]
  else bootPlatformStart target signatureBytes callbacks world ++
    [.kernelMain multibootInfo, .halt]

end Chain

/-- The kernel is started only after the bootloader returned `XNUXX_BOOT_OK`. -/
def DenyByDefault (events : List BootEvent) : Prop :=
  ∀ before multibootInfo after, events = before ++ .kernelMain multibootInfo :: after →
    .bootloaderReturned .ok ∈ before

/-- The callbacks, called one after the other, accept the static image: the signature is verified,
the measurement succeeds with thirty-two zero bytes, the minimum generation is read and is 0, and
the kernel is loaded. -/
def Accepts {σ : Type} (signatureBytes : Addr) (callbacks : Callbacks σ) (world : σ) : Prop :=
  let greeted := callbacks.writeConsole "xnu++ secure bootloader\n" world
  let verified := callbacks.verifySignature payloadAddress payloadSize signatureBytes 2 greeted.2
  let measured := callbacks.measureSha256 payloadAddress payloadSize verified.2
  let read := callbacks.readMinimumGeneration measured.2
  let loaded := callbacks.loadKernel payloadAddress payloadSize read.2
  verified.1 = 0 ∧ measured.1 = (0, Vector.replicate 32 0) ∧ read.1 = (0, 0) ∧ loaded.1 = 0

theorem denyByDefault_started :
    DenyByDefault [.bootloaderReturned result, .kernelMain multibootInfo, .halt] ↔
      result = .ok := by
  constructor
  · intro h
    have hmem := h [.bootloaderReturned result] multibootInfo [.halt] rfl
    simpa [eq_comm] using hmem
  rintro rfl before info after hevents
  cases before with
  | nil => simp at hevents
  | cons event before =>
    obtain ⟨rfl, -⟩ := List.cons.inj hevents
    exact List.mem_cons_self

theorem denyByDefault_halted : DenyByDefault [.halt] := by
  intro before info after hevents
  cases before <;> simp at hevents

section Verdict

variable {σ : Type}

theorem callback_bind {α β : Type} (action : StateM σ α) (call : α → Call)
    (next : α → BootM σ β) (run : Run σ) :
    (callback action call >>= next) run = next (action run.world).1
      ⟨(action run.world).2, run.trace ++ [call (action run.world).1]⟩ := rfl

/-- A stage that rejects a refused answer and goes on behind one that passes. -/
theorem stage_ok {refused passed accepted : Prop} [Decidable refused] (hresult : result ≠ .ok)
    (hpassed : ¬refused ↔ passed) (hnext : (next run).1 = .ok ↔ accepted) :
    ((if refused then bootReject p result else next) run).1 = .ok ↔ passed ∧ accepted := by
  split
  · rename_i hrefused
    exact iff_of_false hresult fun h => hpassed.mpr h.1 hrefused
  · rename_i hrefused
    exact hnext.trans (and_iff_right (hpassed.mp hrefused)).symm

variable (callbacks : Callbacks σ) (image : BootImage) (payload signature : Addr)
  (expected : Measurement) (run : Run σ)

theorem loadImage_ok : (loadImage (bootPlatform callbacks) image payload run).1 = .ok ↔
      (callbacks.loadKernel payload image.payloadSize run.world).1 = 0 := by
  rw [loadImage, show (bootPlatform callbacks).loadKernel = some callbacks.loadKernel from rfl]
  simp only [callback_bind]
  split
  · rename_i hstatus
    exact iff_of_false (show BootResult.loadFailed ≠ .ok by decide) hstatus
  · rename_i hstatus
    exact iff_of_true rfl (not_not.mp hstatus)

theorem checkRollback_ok :
    (checkRollback (bootPlatform callbacks) image bootPolicy payload run).1 = .ok ↔
      let read := callbacks.readMinimumGeneration run.world
      (read.1.1 = 0 ∧ read.1.2 ≤ image.generation) ∧
        (callbacks.loadKernel payload image.payloadSize read.2).1 = 0 := by
  rw [checkRollback, if_neg (by decide), show (bootPlatform callbacks).readMinimumGeneration =
    some callbacks.readMinimumGeneration from rfl]
  simp only [callback_bind]
  refine stage_ok (by decide) ?_ (loadImage_ok _ _ _ _)
  simp only [not_or, not_not, UInt64.not_lt]

theorem checkMeasurement_ok :
    (checkMeasurement (bootPlatform callbacks) image bootPolicy payload expected run).1 = .ok ↔
      let measured := callbacks.measureSha256 payload image.payloadSize run.world
      let read := callbacks.readMinimumGeneration measured.2
      (measured.1.1 = 0 ∧ measured.1.2 = expected) ∧ (read.1.1 = 0 ∧ read.1.2 ≤ image.generation) ∧
        (callbacks.loadKernel payload image.payloadSize read.2).1 = 0 := by
  rw [checkMeasurement, if_neg (by decide),
    show (bootPlatform callbacks).measureSha256 = some callbacks.measureSha256 from rfl]
  simp only [callback_bind]
  refine stage_ok (by decide) ?_ (checkRollback_ok _ _ _ _)
  simp only [not_or, not_not, bootMemcmp_measurement]

theorem checkSignature_ok :
    (checkSignature (bootPlatform callbacks) image bootPolicy payload signature expected run).1 =
        .ok ↔ let verified :=
        callbacks.verifySignature payload image.payloadSize signature image.signatureSize run.world
      let measured := callbacks.measureSha256 payload image.payloadSize verified.2
      let read := callbacks.readMinimumGeneration measured.2
      verified.1 = 0 ∧ (measured.1.1 = 0 ∧ measured.1.2 = expected) ∧
        (read.1.1 = 0 ∧ read.1.2 ≤ image.generation) ∧
        (callbacks.loadKernel payload image.payloadSize read.2).1 = 0 := by
  rw [checkSignature, if_neg (by decide),
    show (bootPlatform callbacks).verifySignature = some callbacks.verifySignature from rfl]
  simp only [callback_bind]
  exact stage_ok (by decide) not_not (checkMeasurement_ok _ _ _ _ _)

theorem checkImage_bootImage (target : Target) (signatureBytes : Addr) :
    checkImage target (bootPlatform callbacks) (bootImage target signatureBytes) bootPolicy
        payloadAddress =
      checkSignature (bootPlatform callbacks) (bootImage target signatureBytes) bootPolicy
        payloadAddress signatureBytes (Vector.replicate 32 0) := by
  have hsize : ¬(bootImage target signatureBytes).headerSize.toNat < sizeofBootImage target := by
    simp only [bootImage]
    cases target <;> decide
  have hheader : ¬((bootImage target signatureBytes).magic ≠ bootloaderMagic ∨
      (bootImage target signatureBytes).version ≠ bootloaderApiVersion ∨
      (bootImage target signatureBytes).headerSize.toNat < sizeofBootImage target) := by
    rintro (hmagic | hversion | h)
    · exact hmagic rfl
    · exact hversion rfl
    · exact hsize h
  have hcapabilities : ¬(bootPolicy &&& requireLayerCapabilities ≠ 0 ∧
      (bootImage target signatureBytes).requiredCapabilities &&&
        ~~~(bootPlatform callbacks).capabilities ≠ 0) := by
    simp only [bootImage, bootPlatform]
    decide
  have hsignature : ¬(bootImage target signatureBytes).signatureSize = 0 := by
    simp only [bootImage]
    decide
  rw [checkImage, if_neg hheader]
  exact (if_neg hsignature).trans (if_neg hcapabilities)

theorem bootloader_ok_iff (target : Target) (signatureBytes : Addr) (world : σ) :
    (xnuxxBootloaderStart target (some (bootPlatform callbacks))
      (some (bootImage target signatureBytes)) bootPolicy ⟨world, []⟩).1 = .ok ↔
      Accepts signatureBytes callbacks world := by
  have hstart : xnuxxBootloaderStart target (some (bootPlatform callbacks))
      (some (bootImage target signatureBytes)) bootPolicy ⟨world, []⟩ =
        checkImage target (bootPlatform callbacks) (bootImage target signatureBytes) bootPolicy
          payloadAddress ⟨(callbacks.writeConsole "xnu++ secure bootloader\n" world).2,
            [.writeConsole "xnu++ secure bootloader\n"]⟩ := rfl
  have hgeneration : ∀ minimum : UInt64, minimum ≤ (0 : UInt64) ↔ minimum = 0 := fun minimum => by
    rw [← UInt64.toNat_inj]
    exact Nat.le_zero
  rw [hstart, checkImage_bootImage, checkSignature_ok]
  simp only [Accepts, bootImage, hgeneration, Prod.ext_iff]

end Verdict

theorem consoleWrite_memory (text : List Char) (machine : Machine) (addr : Nat)
    (haddr : vga + 80 * 25 * 2 ≤ addr) :
    (consoleWrite text machine).memory addr = machine.memory addr := by
  induction text generalizing machine with
  | nil => rfl
  | cons char text ih =>
    rw [consoleWrite]
    split
    · exact ih _
    split
    · rfl
    · have hcell : ∀ k < 2, addr ≠ vga + machine.consoleCursor * 2 + k := by omega
      exact (ih _).trans ((Function.update_of_ne (hcell 1 (by decide)) _ _).trans
        (Function.update_of_ne (hcell 0 (by decide)) _ _))

/-- With the callbacks of the source the static image is started exactly when the SHA-256 digest of the
payload in memory is the placeholder of thirty-two zero bytes. -/
theorem bootloader_ok_sourceCallbacks_iff (target : Target) (signatureBytes : Addr)
    (machine : Machine) :
    (xnuxxBootloaderStart target (some (bootPlatform sourceCallbacks))
      (some (bootImage target signatureBytes)) bootPolicy ⟨machine, []⟩).1 = .ok ↔
      Fips180.digest (payloadBytes (fun i => machine.memory (payloadAddress + i)) payloadSize) =
        List.replicate 32 0 := by
  have hmemory : ∀ text, (fun i => (consoleWrite text machine).memory (payloadAddress + i)) =
      fun i => machine.memory (payloadAddress + i) := fun text => funext fun i =>
    consoleWrite_memory text machine _ (Nat.le_add_right_of_le (by decide))
  have hmeasured : ∀ machine', (sourceCallbacks.measureSha256 payloadAddress payloadSize machine').1 =
      (0, storeWords (sha256Words (fun i => machine'.memory (payloadAddress + i)) payloadSize)) :=
    fun _ => rfl
  rw [bootloader_ok_iff, ← storeWords_sha256Words _ (by decide), ← Vector.toList_replicate,
    Vector.toList_inj, ← hmemory "xnu++ secure bootloader\n".toList]
  simp only [Accepts, hmeasured, Prod.mk.injEq, true_and]
  exact ⟨fun h => h.2.1, fun h => ⟨rfl, h, rfl, rfl⟩⟩

/-- The kernel is started only after an acceptance exactly when the Multiboot2 magic is wrong, so
that nothing is started, or the callbacks accept the static image. -/
theorem bootEntry_denyByDefault_iff {σ : Type} (target : Target) (signatureBytes : Addr)
    (callbacks : Callbacks σ) (magic multibootInfo : UInt32) (world : σ) :
    DenyByDefault (bootEntry target signatureBytes callbacks magic multibootInfo world) ↔
      magic ≠ multiboot2BootloaderMagic ∨ Accepts signatureBytes callbacks world := by
  unfold bootEntry
  split
  · rename_i hmagic
    exact iff_of_true denyByDefault_halted (.inl hmagic)
  · rename_i hmagic
    rw [or_iff_right hmagic, ← bootloader_ok_iff callbacks target]
    exact denyByDefault_started

def zeroPayloadDigest : Measurement :=
  #v[0xad, 0x7f, 0xac, 0xb2, 0x58, 0x6f, 0xc6, 0xe9, 0x66, 0xc0, 0x04, 0xd7, 0xd1, 0xd1, 0x6b, 0x02,
    0x4f, 0x58, 0x05, 0xff, 0x7c, 0xb4, 0x7c, 0x7a, 0x85, 0xda, 0xbd, 0x8b, 0x48, 0x89, 0x2c, 0xa7]

/-- The outcomes of the callbacks of the source on a payload of zero bytes. -/
def zeroPayloadCallbacks : Callbacks Unit where
  verifySignature _ _ _ _ := pure 0
  measureSha256 _ _ := pure (0, zeroPayloadDigest)
  readMinimumGeneration := pure (0, 0)
  loadKernel _ _ := pure 0
  enterRecovery _ := pure (-1)
  writeConsole _ := pure ()

/-- The measurement of a zeroed payload is rejected, and the kernel is started. -/
theorem bootEntry_zeroPayload :
    bootEntry .x86_64 0x2000 zeroPayloadCallbacks multiboot2BootloaderMagic 0 () =
        [.bootloaderReturned .measurementRejected, .kernelMain 0, .halt] ∧
      ¬DenyByDefault
        (bootEntry .x86_64 0x2000 zeroPayloadCallbacks multiboot2BootloaderMagic 0 ()) := by
  have hevents : bootEntry .x86_64 0x2000 zeroPayloadCallbacks multiboot2BootloaderMagic 0 () =
      [.bootloaderReturned .measurementRejected, .kernelMain 0, .halt] := by
    decide
  rw [hevents, denyByDefault_started]
  decide

end XnuPod.Boot
