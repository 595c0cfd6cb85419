import Mathlib.Data.List.Nodup
import Mathlib.Tactic.IntervalCases

namespace Leoman.Pci

/-!
# PCI enumeration (`kernel/pci.c`)

The configuration space of the functions is read through an address latch and a data window, both
I/O ports.  `pci_read_config` keeps the low 16 bits of the window before it shifts, so that it
returns the upper half of a double word as zero.

* `PciPorts` — the ports, with the calls of `kprintf` that report functions;
* `pciReadConfig`, `pciInit` — the code;
* `readConfig_value` — what a read returns, `pciInit_reports` — what is reported;
* `pci_faithful_iff` — a read is right exactly for a lower half, or an upper half that is zero, and
  the enumeration is faithful exactly when every function present has the device id zero.
-/

/-! ### The ports -/

/-- What the functions have in their configuration space: bus, device, function, and the offset of
    the byte. -/
abbrev PciConfig := BitVec 8 → BitVec 5 → BitVec 3 → BitVec 8 → BitVec 8

/-- The arguments of the `kprintf` in `pci_init`. -/
structure Report where
  bus : Nat
  device : Nat
  function : Nat
  vendorId : BitVec 16
  deviceId : BitVec 16
deriving DecidableEq, Repr

/-- The configuration mechanism, and the functions reported so far. -/
structure PciPorts where
  config : PciConfig
  address : BitVec 32
  reports : List Report

/-- `PCI_COMMAND_PORT`. -/
def pciCommandPort : BitVec 16 := 0xcf8#16

/-- `PCI_DATA_PORT`. -/
def pciDataPort : BitVec 16 := 0xcfc#16

/-- `PCI_REG_VENDOR_ID`. -/
def pciRegVendorId : BitVec 8 := 0x00#8

/-- `PCI_REG_DEVICE_ID`. -/
def pciRegDeviceId : BitVec 8 := 0x02#8

/-- The double word of the configuration space that an address selects. -/
def PciConfig.window (config : PciConfig) (address : BitVec 32) : BitVec 32 :=
  let byte := config (address.extractLsb' 16 8) (address.extractLsb' 11 5) (address.extractLsb' 8 3)
  let reg := address.extractLsb' 0 8 &&& 0xfc#8
  byte (reg + 3#8) ++ byte (reg + 2#8) ++ byte (reg + 1#8) ++ byte reg

/-- `outl`. -/
def outl (port : BitVec 16) (value : BitVec 32) (s : PciPorts) : PciPorts :=
  if port = pciCommandPort then { s with address := value } else s

/-- `inl`.  The window is open while the highest bit of the latch is set. -/
def inl (port : BitVec 16) (s : PciPorts) : BitVec 32 :=
  if port = pciDataPort ∧ s.address.getLsbD 31 = true then s.config.window s.address
  else 0xffffffff#32

/-! ### The code -/

/-- The `id` of `pci_read_config`. -/
def configId (bus dev fun_ reg : BitVec 8) : BitVec 32 :=
  1#32 <<< 31 ||| bus.setWidth 32 <<< 16 ||| dev.setWidth 32 <<< 11 ||| fun_.setWidth 32 <<< 8 |||
    (reg &&& 0xfc#8).setWidth 32

/-- `pci_read_config`.  `result` has 16 bits. -/
def pciReadConfig (bus dev fun_ reg : BitVec 8) (s : PciPorts) : BitVec 16 × PciPorts :=
  let s := outl pciCommandPort (configId bus dev fun_ reg) s
  let result : BitVec 16 := (inl pciDataPort s).setWidth 16
  let result := result >>> ((reg &&& 2#8) * 8#8).toNat
  (result &&& 0xffff#16, s)

/-- The body of the loops of `pci_init`. -/
def pciInitFunction (bus device function : Nat) (s : PciPorts) : PciPorts :=
  let b := BitVec.ofNat 8 bus
  let d := BitVec.ofNat 8 device
  let f := BitVec.ofNat 8 function
  let (vendorId, s) := pciReadConfig b d f pciRegVendorId s
  let (deviceId, s) := pciReadConfig b d f pciRegDeviceId s
  if vendorId = 0x0000#16 ∨ vendorId = 0xffff#16 then s
  else { s with reports := s.reports ++ [⟨bus, device, function, vendorId, deviceId⟩] }

/-- `pci_init`. -/
def pciInit (s : PciPorts) : PciPorts :=
  (List.range 8).foldl (fun s bus =>
    (List.range 32).foldl (fun s device =>
      (List.range 8).foldl (fun s function => pciInitFunction bus device function s) s) s) s

/-! ### What they ought to do -/

/-- The word of a function at a byte offset. -/
def PciConfig.word (config : PciConfig) (bus dev fun_ reg : BitVec 8) : BitVec 16 :=
  config bus (dev.setWidth 5) (fun_.setWidth 3) (reg + 1#8) ++
    config bus (dev.setWidth 5) (fun_.setWidth 3) reg

/-- The vendor id of a function. -/
def PciConfig.vendorId (config : PciConfig) (bus device function : Nat) : BitVec 16 :=
  config.word (BitVec.ofNat 8 bus) (BitVec.ofNat 8 device) (BitVec.ofNat 8 function) 0x00#8

/-- Its device id. -/
def PciConfig.deviceId (config : PciConfig) (bus device function : Nat) : BitVec 16 :=
  config.word (BitVec.ofNat 8 bus) (BitVec.ofNat 8 device) (BitVec.ofNat 8 function) 0x02#8

/-- There is a function, on one of the first eight buses. -/
def PciConfig.Present (config : PciConfig) (bus device function : Nat) : Prop :=
  bus < 8 ∧ device < 32 ∧ function < 8 ∧ config.vendorId bus device function ≠ 0x0000#16 ∧
    config.vendorId bus device function ≠ 0xffff#16

/-- Exactly the functions present are reported, each once, with their ids. -/
def Faithful (config : PciConfig) (reports : List Report) : Prop :=
  reports.Nodup ∧ ∀ r, r ∈ reports ↔ config.Present r.bus r.device r.function ∧
    r.vendorId = config.vendorId r.bus r.device r.function ∧
    r.deviceId = config.deviceId r.bus r.device r.function

/-! ### Reads -/

section Read

variable {s : PciPorts} {bus dev fun_ reg : BitVec 8}

/-- The parts of the address do not overlap. -/
theorem configId_fields (bus reg : BitVec 8) (hdev : dev.toNat < 32) (hfun : fun_.toNat < 8) :
    (configId bus dev fun_ reg).extractLsb' 16 8 = bus ∧
      (configId bus dev fun_ reg).extractLsb' 11 5 = dev.setWidth 5 ∧
      (configId bus dev fun_ reg).extractLsb' 8 3 = fun_.setWidth 3 ∧
      (configId bus dev fun_ reg).extractLsb' 0 8 = reg &&& 0xfc#8 ∧
      (configId bus dev fun_ reg).getLsbD 31 = true := by
  obtain ⟨d, rfl⟩ : ∃ d : BitVec 5, dev = d.setWidth 8 := by
    refine ⟨dev.setWidth 5, BitVec.eq_of_toNat_eq ?_⟩
    simp only [BitVec.toNat_setWidth]
    omega
  obtain ⟨f, rfl⟩ : ∃ f : BitVec 3, fun_ = f.setWidth 8 := by
    refine ⟨fun_.setWidth 3, BitVec.eq_of_toNat_eq ?_⟩
    simp only [BitVec.toNat_setWidth]
    omega
  have hbit : ∀ i, (configId bus (d.setWidth 8) (f.setWidth 8) reg).getLsbD i = _ := fun i => by
    simp only [configId, BitVec.getLsbD_or, BitVec.getLsbD_shiftLeft, BitVec.getLsbD_setWidth,
      BitVec.getLsbD_and]
    rfl
  refine ⟨?_, ?_, ?_, ?_, ?_⟩
  · apply BitVec.eq_of_getLsbD_eq
    intro i hi
    rw [BitVec.getLsbD_extractLsb', hbit]
    interval_cases i <;> simp
  · apply BitVec.eq_of_getLsbD_eq
    intro i hi
    rw [BitVec.getLsbD_extractLsb', hbit]
    interval_cases i <;> simp
  · apply BitVec.eq_of_getLsbD_eq
    intro i hi
    rw [BitVec.getLsbD_extractLsb', hbit]
    interval_cases i <;> simp
  · apply BitVec.eq_of_getLsbD_eq
    intro i hi
    rw [BitVec.getLsbD_extractLsb', hbit]
    interval_cases i <;> simp
  · rw [hbit]
    simp

/-- The low half of the window. -/
theorem window_low (config : PciConfig) (hdev : dev.toNat < 32) (hfun : fun_.toNat < 8) :
    (config.window (configId bus dev fun_ reg)).setWidth 16
      = config.word bus dev fun_ (reg &&& 0xfc#8) := by
  obtain ⟨hb, hd, hf, hr, -⟩ := configId_fields bus reg hdev hfun
  have hmask : (reg &&& 0xfc#8) &&& 0xfc#8 = reg &&& 0xfc#8 := by
    rw [BitVec.and_assoc, BitVec.and_self]
  have hlow : ∀ b₃ b₂ b₁ b₀ : BitVec 8, (b₃ ++ b₂ ++ b₁ ++ b₀).setWidth 16 = b₁ ++ b₀ := by
    intro b₃ b₂ b₁ b₀
    rw [BitVec.append_assoc]
    exact BitVec.setWidth_append_eq_right
  rw [PciConfig.window, hb, hd, hf, hr, hmask, hlow, PciConfig.word]

/-- **What a read returns.**  The upper half has been cut off when `result` is shifted. -/
theorem readConfig_value (hdev : dev.toNat < 32) (hfun : fun_.toNat < 8)
    (hreg : reg.toNat % 2 = 0) : (pciReadConfig bus dev fun_ reg s).1
      = if reg &&& 2#8 = 0#8 then s.config.word bus dev fun_ reg else 0#16 := by
  have hopen := (configId_fields bus reg hdev hfun).2.2.2.2
  have hones : ∀ x : BitVec 16, x &&& 0xffff#16 = x := fun x => BitVec.and_allOnes
  rw [pciReadConfig, outl, if_pos rfl, inl, if_pos ⟨rfl, hopen⟩, window_low _ hdev hfun, hones]
  split
  · rename_i hlow
    have heven : ∀ r : BitVec 8, r.toNat % 2 = 0 → r &&& 2#8 = 0#8 → r &&& 0xfc#8 = r := by
      decide +kernel
    rw [hlow, heven reg hreg hlow]
    exact BitVec.ushiftRight_zero _
  · rename_i hhigh
    have hshift : ∀ r : BitVec 8, r &&& 2#8 ≠ 0#8 → ((r &&& 2#8) * 8#8).toNat = 16 := by
      decide +kernel
    rw [hshift reg hhigh]
    exact BitVec.ushiftRight_eq_zero (by decide)

end Read

/-! ### The enumeration -/

section Init

variable {s : PciPorts}

/-- The report of a function, if there is one.  Device ids are read as zero. -/
def PciConfig.report (config : PciConfig) (bus device function : Nat) : List Report :=
  if config.vendorId bus device function = 0x0000#16 ∨
      config.vendorId bus device function = 0xffff#16 then []
  else [⟨bus, device, function, config.vendorId bus device function, 0#16⟩]

/-- What `pci_init` does to the ports. -/
def Reports (s s' : PciPorts) (l : List Report) : Prop :=
  s'.config = s.config ∧ s'.reports = s.reports ++ l

/-- **Loop rule.** -/
theorem Reports.foldl {f : PciPorts → Nat → PciPorts} {g : PciConfig → Nat → List Report} {n : Nat}
    (hstep : ∀ s, ∀ i < n, Reports s (f s i) (g s.config i)) (s : PciPorts) :
    Reports s ((List.range n).foldl f s) ((List.range n).flatMap (g s.config)) := by
  induction n with
  | zero => exact ⟨rfl, (List.append_nil _).symm⟩
  | succ n ih =>
    obtain ⟨hc, hr⟩ := ih fun s i hi => hstep s i (by omega)
    rw [List.range_succ, List.foldl_append, List.flatMap_append]
    obtain ⟨hc', hr'⟩ := hstep ((List.range n).foldl f s) n (by omega)
    refine ⟨hc'.trans hc, ?_⟩
    rw [List.foldl_cons, List.foldl_nil, hr', hr, hc, List.append_assoc, List.flatMap_singleton]

/-- **Step lemma.**  One function. -/
theorem pciInitFunction_reports {bus device function : Nat} (hdev : device < 32)
    (hfun : function < 8) : Reports s (pciInitFunction bus device function s)
      (s.config.report bus device function) := by
  have hd : (BitVec.ofNat 8 device).toNat < 32 := by
    rw [BitVec.toNat_ofNat]
    omega
  have hf : (BitVec.ofNat 8 function).toNat < 8 := by
    rw [BitVec.toNat_ofNat]
    omega
  have hvendor : (pciReadConfig (BitVec.ofNat 8 bus) (BitVec.ofNat 8 device)
      (BitVec.ofNat 8 function) pciRegVendorId s).1 = s.config.vendorId bus device function :=
    (readConfig_value hd hf (by decide)).trans (if_pos (by decide))
  have hdevice : ∀ s₁ : PciPorts, (pciReadConfig (BitVec.ofNat 8 bus) (BitVec.ofNat 8 device)
      (BitVec.ofNat 8 function) pciRegDeviceId s₁).1 = 0#16 := fun s₁ =>
    (readConfig_value hd hf (by decide)).trans (if_neg (by decide))
  unfold pciInitFunction
  simp only [hvendor, hdevice]
  rw [PciConfig.report]
  split
  · exact ⟨rfl, (List.append_nil _).symm⟩
  · exact ⟨rfl, rfl⟩

/-- **Run lemma.**  All functions of the first eight buses. -/
theorem pciInit_reports (s : PciPorts) : Reports s (pciInit s)
    ((List.range 8).flatMap fun bus => (List.range 32).flatMap fun device =>
      (List.range 8).flatMap fun function => s.config.report bus device function) := by
  have hdevice : ∀ (s : PciPorts) (bus : Nat), ∀ device < 32,
      Reports s ((List.range 8).foldl (fun s function => pciInitFunction bus device function s) s)
        ((List.range 8).flatMap (s.config.report bus device)) := fun s bus device hd =>
    Reports.foldl (g := fun c function => c.report bus device function)
      (fun s function hf => pciInitFunction_reports hd hf) s
  have hbus : ∀ (s : PciPorts), ∀ bus < 8, Reports s ((List.range 32).foldl (fun s device =>
      (List.range 8).foldl (fun s function => pciInitFunction bus device function s) s) s)
        ((List.range 32).flatMap fun device =>
          (List.range 8).flatMap (s.config.report bus device)) := fun s bus _ =>
    Reports.foldl (g := fun c device => (List.range 8).flatMap (c.report bus device))
      (fun s device hd => hdevice s bus device hd) s
  exact Reports.foldl (g := fun c bus => (List.range 32).flatMap fun device =>
    (List.range 8).flatMap (c.report bus device)) hbus s

/-- What is reported of the configuration space. -/
theorem mem_reports {config : PciConfig} {r : Report} :
    (r ∈ (List.range 8).flatMap fun bus => (List.range 32).flatMap fun device =>
      (List.range 8).flatMap fun function => config.report bus device function) ↔
      config.Present r.bus r.device r.function ∧
        r.vendorId = config.vendorId r.bus r.device r.function ∧ r.deviceId = 0#16 := by
  have hreport : ∀ bus device function, r ∈ config.report bus device function ↔
      (config.vendorId bus device function ≠ 0x0000#16 ∧
        config.vendorId bus device function ≠ 0xffff#16) ∧
        r = ⟨bus, device, function, config.vendorId bus device function, 0#16⟩ := by
    intro bus device function
    rw [PciConfig.report]
    split
    · rename_i habsent
      simp only [List.not_mem_nil, false_iff, not_and]
      intro hpresent
      exact absurd habsent (not_or.mpr hpresent)
    · rename_i hpresent
      rw [List.mem_singleton]
      exact (and_iff_right (not_or.mp hpresent)).symm
  simp only [List.mem_flatMap, List.mem_range, hreport]
  constructor
  · rintro ⟨bus, hb, device, hd, function, hf, ⟨h₀, h₁⟩, rfl⟩
    exact ⟨⟨hb, hd, hf, h₀, h₁⟩, rfl, rfl⟩
  · rintro ⟨⟨hb, hd, hf, h₀, h₁⟩, hv, hid⟩
    refine ⟨_, hb, _, hd, _, hf, ⟨h₀, h₁⟩, ?_⟩
    rw [← hv, ← hid]

/-- No function is reported twice. -/
theorem reports_nodup {config : PciConfig} :
    ((List.range 8).flatMap fun bus => (List.range 32).flatMap fun device =>
      (List.range 8).flatMap fun function => config.report bus device function).Nodup := by
  have hplace : ∀ {bus device function : Nat} {r : Report},
      r ∈ config.report bus device function →
        r.bus = bus ∧ r.device = device ∧ r.function = function := by
    intro bus device function r hr
    rw [PciConfig.report] at hr
    split at hr
    · exact absurd hr List.not_mem_nil
    · obtain rfl := List.mem_singleton.mp hr
      exact ⟨rfl, rfl, rfl⟩
  refine List.nodup_flatMap.mpr ⟨fun bus _ => List.nodup_flatMap.mpr ⟨fun device _ =>
    List.nodup_flatMap.mpr ⟨fun function _ => ?_, ?_⟩, ?_⟩, ?_⟩
  · rw [PciConfig.report]
    split
    · exact List.nodup_nil
    · exact List.nodup_singleton _
  · refine List.nodup_range.imp fun hne r hr hr' => hne ?_
    rw [← (hplace hr).2.2, (hplace hr').2.2]
  · refine List.nodup_range.imp fun hne r hr hr' => hne ?_
    simp only [List.mem_flatMap] at hr hr'
    obtain ⟨_, -, hr⟩ := hr
    obtain ⟨_, -, hr'⟩ := hr'
    rw [← (hplace hr).2.1, (hplace hr').2.1]
  · refine List.nodup_range.imp fun hne r hr hr' => hne ?_
    simp only [List.mem_flatMap] at hr hr'
    obtain ⟨_, -, _, -, hr⟩ := hr
    obtain ⟨_, -, _, -, hr'⟩ := hr'
    rw [← (hplace hr).1, (hplace hr').1]

/-- **PCI enumeration.**  Whatever the latch holds, a read returns the word of the function exactly
    where the word is the lower half of a double word, or zero; and `pci_init` reports exactly the
    functions present, each once and with its ids, when they all have the device id zero. -/
theorem pci_faithful_iff (config : PciConfig) (address : BitVec 32) :
    (∀ bus dev fun_ reg : BitVec 8, dev.toNat < 32 → fun_.toNat < 8 → reg.toNat % 2 = 0 →
      ((pciReadConfig bus dev fun_ reg ⟨config, address, []⟩).1 = config.word bus dev fun_ reg ↔
        reg &&& 2#8 = 0#8 ∨ config.word bus dev fun_ reg = 0#16)) ∧
    (Faithful config (pciInit ⟨config, address, []⟩).reports ↔ ∀ bus device function,
      config.Present bus device function → config.deviceId bus device function = 0#16) := by
  constructor
  · intro bus dev fun_ reg hdev hfun hreg
    rw [readConfig_value hdev hfun hreg]
    split
    · rename_i hlow
      exact ⟨fun _ => Or.inl hlow, fun _ => rfl⟩
    · rename_i hhigh
      exact ⟨fun h => Or.inr h.symm, fun h => (h.resolve_left hhigh).symm⟩
  · rw [(pciInit_reports ⟨config, address, []⟩).2, List.nil_append, Faithful]
    simp only [mem_reports]
    constructor
    · rintro ⟨-, hall⟩ bus device function hp
      exact ((hall ⟨bus, device, function, config.vendorId bus device function, 0#16⟩).mp
        ⟨hp, rfl, rfl⟩).2.2.symm
    · intro hzero
      refine ⟨reports_nodup, fun r => and_congr_right fun hp => ?_⟩
      rw [hzero _ _ _ hp]

/-- One function, with the vendor id `0x8086` and a device id. -/
def oneFunction (deviceId : BitVec 16) : PciConfig := fun bus dev fun_ reg =>
  if bus = 0#8 ∧ dev = 0#5 ∧ fun_ = 0#3 then
    if reg = 0#8 then 0x86#8
    else if reg = 1#8 then 0x80#8
    else if reg = 2#8 then deviceId.setWidth 8
    else if reg = 3#8 then (deviceId >>> 8).setWidth 8
    else 0#8
  else 0#8

/-- A function with the device id zero is reported as it is. -/
theorem pci_faithful_iff_zero :
    (pciReadConfig 0#8 0#8 0#8 0#8 ⟨oneFunction 0#16, 0#32, []⟩).1 = 0x8086#16 ∧
      Faithful (oneFunction 0#16) (pciInit ⟨oneFunction 0#16, 0#32, []⟩).reports := by
  obtain ⟨hread, hinit⟩ := pci_faithful_iff (oneFunction 0#16) 0#32
  constructor
  · have hword := (hread 0#8 0#8 0#8 0#8 (by decide) (by decide) (by decide)).mpr
      (Or.inl (by decide))
    exact hword
  · refine hinit.mpr fun bus device function _ => ?_
    have hbyte : ∀ b d f, oneFunction 0#16 b d f 2#8 = 0#8 ∧ oneFunction 0#16 b d f 3#8 = 0#8 := by
      intro b d f
      unfold oneFunction
      constructor <;> split <;> rfl
    rw [PciConfig.deviceId, PciConfig.word, (hbyte _ _ _).1]
    exact congrArg (· ++ 0#8) (hbyte _ _ _).2

/-- The device id of another is read as zero. -/
theorem device_id_lost : ¬ ∀ (config : PciConfig) (address : BitVec 32),
    (∀ bus dev fun_ reg : BitVec 8, dev.toNat < 32 → fun_.toNat < 8 → reg.toNat % 2 = 0 →
      (pciReadConfig bus dev fun_ reg ⟨config, address, []⟩).1 = config.word bus dev fun_ reg) ∧
    Faithful config (pciInit ⟨config, address, []⟩).reports := by
  intro h
  have hread := (h (oneFunction 0x1237#16) 0#32).1 0#8 0#8 0#8 2#8 (by decide) (by decide)
    (by decide)
  exact absurd hread (by decide)

end Init

end Leoman.Pci
