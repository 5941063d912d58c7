import Attune.MuplayDisassembler
import Attune.MuplayTaskHelper
import Attune.RodataStrings

namespace Attune.Muplay
open Memory Disasm Rodata List Option

inductive Reg where
  | rax | rcx | rdx | rbx | rsp | rbp | rsi | rdi | r8 | r9 | r10 | r11 | r12 | r13 | r14 | r15
  deriving DecidableEq

namespace Reg

def all : List Reg :=
  [rax, rcx, rdx, rbx, rsp, rbp, rsi, rdi, r8, r9, r10, r11, r12, r13, r14, r15]

def number (r : Reg) : Nat := all.idxOf r

def name : Reg → Text
  | rax => "rax".toList | rcx => "rcx".toList | rdx => "rdx".toList | rbx => "rbx".toList
  | rsp => "rsp".toList | rbp => "rbp".toList | rsi => "rsi".toList | rdi => "rdi".toList
  | r8 => "r8".toList | r9 => "r9".toList | r10 => "r10".toList | r11 => "r11".toList
  | r12 => "r12".toList | r13 => "r13".toList | r14 => "r14".toList | r15 => "r15".toList

end Reg

structure Lea where
  dst : Reg
  disp : Int
  small : -2 ^ 31 ≤ disp ∧ disp < 2 ^ 31

/-- A prefix for 64 bits with the register's high bit, the opcode, the register and mode, and the
displacement. -/
def Lea.bytes (l : Lea) : Bytes :=
  [UInt8.ofNat (0x48 + 4 * (l.dst.number / 8)), 0x8d, UInt8.ofNat (0x05 + 8 * (l.dst.number % 8))]
    ++ encode 4 (l.disp % 2 ^ 32).toNat

def Lea.opStr (l : Lea) : Text := l.dst.name ++ ", [rip".toList ++ (dispText l.disp ++ [']'])

def movabsRegsMap : List (Text × Nat) :=
  [("r10".toList, 0x49ba), ("r11".toList, 0x49bb), ("r12".toList, 0x49bc), ("r13".toList, 0x49bd),
    ("r14".toList, 0x49be), ("r15".toList, 0x49bf), ("r8".toList, 0x49b8), ("r9".toList, 0x49b9),
    ("rax".toList, 0x48b8), ("rbp".toList, 0x48bd), ("rbx".toList, 0x48bb), ("rcx".toList, 0x48b9),
    ("rdi".toList, 0x48bf), ("rdx".toList, 0x48ba), ("rsi".toList, 0x48be), ("rsp".toList, 0x48bc)]

/-- The first register of the map whose name is in the text. -/
def movabsOpcode (opStr : Text) : Nat :=
  match movabsRegsMap.find? fun e => decide (e.1 <:+: opStr) with
  | some e => e.2
  | none => 0

def movabsBytes (opStr : Text) (target : Nat) : Bytes :=
  [UInt8.ofNat (movabsOpcode opStr / 256), UInt8.ofNat (movabsOpcode opStr)] ++ encode 8 target

/-- What linking depends on: the bytes and size of `.rodata`, the executable's path, the region's
permissions and the task's mappings. -/
structure StringContext where
  rodata : Bytes
  rodataSize : Nat
  oldPath : Name
  readable : Bool
  writable : Bool
  executable : Bool
  mappings : List KernelMapping

def StringContext.permissions (c : StringContext) : BitVec 32 :=
  (if c.readable then 1 else 0) ||| (if c.writable then 2 else 0) ||| (if c.executable then 4 else 0)

/-- The instructions that stand for a reference: the old one, and perhaps one behind it. -/
structure LinkedCode where
  lea : Lea
  inserted : Option Bytes

/-- `none` is a fault or the message that the string cannot be linked. -/
def linkStringReference (c : StringContext) (lea : Lea) (key : Bytes) : Option LinkedCode :=
  match findStringOffset c.rodata c.rodataSize key with
  | .error _ => none
  | .ok stringOffset =>
    if (BitVec.ofNat 32 stringOffset).slt 0#32 then none
    else
      let moduleOffset := findModuleOffset c.oldPath c.permissions c.mappings
      let stringAddress := ptrAdd moduleOffset stringOffset
      if lea.bytes[0]? = some 0x48 ∧ lea.bytes[1]? = some 0x8d then
        some ⟨lea, some (movabsBytes lea.opStr stringAddress)⟩
      else some ⟨lea, none⟩

section Execution

abbrev Regs := Reg → Nat

def Regs.set (regs : Regs) (r : Reg) (v : Nat) : Regs := fun r' => if r' = r then v else regs r'

def execMovabs (bytes : Bytes) (regs : Regs) : Option Regs :=
  match bytes with
  | rex :: opcode :: imm =>
    if (rex = 0x48 ∨ rex = 0x49) ∧ 0xb8 ≤ opcode.toNat ∧ opcode.toNat < 0xc0 ∧ imm.length = 8 then do
      let r ← Reg.all[opcode.toNat - 0xb8 + 8 * (rex.toNat - 0x48)]?
      return regs.set r (littleEndian imm)
    else none
  | _ => none

/-- `leaValue` is the address that the instruction computes where it has been placed. -/
def LinkedCode.exec (code : LinkedCode) (leaValue : Nat) (regs : Regs) : Option Regs :=
  let regs := regs.set code.lea.dst leaValue
  match code.inserted with
  | none => some regs
  | some bytes => execMovabs bytes regs

end Execution

section Opcode

/-- A short text that begins with a letter that is missing in the rest lies in the beginning. -/
theorem infix_take {key a rest : Text} (hlen : key.length ≤ 3) (hh : key.head? = some 'r')
    (hr : 'r' ∉ rest) : key <:+: a ++ rest ↔ key <:+: a ++ rest.take 2 := by
  constructor
  · rintro ⟨x, y, hxy⟩
    have hc : (a ++ rest)[x.length]? = some 'r' := by
      rw [← hxy, append_assoc, getElem?_append_right (Nat.le_refl _), Nat.sub_self,
        getElem?_append_left]
      · rw [← head?_eq_getElem?, hh]
      · cases key with
        | nil => cases hh
        | cons c key => exact Nat.succ_pos _
    have hx : x.length < a.length := by
      by_contra hge
      rw [getElem?_append_right (by omega)] at hc
      exact hr (mem_of_getElem? hc)
    have ht : x ++ key <+: a ++ rest.take 2 := by
      have hpre : x ++ key <+: a ++ rest := ⟨y, hxy⟩
      have hsh : (a ++ rest).take (a.length + 2) = a ++ rest.take 2 := by
        rw [take_append, take_of_length_le (by omega)]
        congr 2
        omega
      rw [← hsh]
      apply prefix_take_iff.mpr
      refine ⟨hpre, ?_⟩
      rw [length_append]
      omega
    exact (infix_append' x key []).trans (by simpa using ht.isInfix)
  · intro h
    apply h.trans
    exact ((prefix_append_right_inj a).mpr ( take_prefix 2 rest)).isInfix

theorem find?_congr_mem {l : List α} {f g : α → Bool} (h : ∀ a ∈ l, f a = g a) :
    l.find? f = l.find? g := by
  induction l with
  | nil => rfl
  | cons a l ih =>
    rw [find?_cons, find?_cons, h a mem_cons_self,
      ih fun b hb => h b (mem_cons_of_mem _ hb)]

theorem movabsOpcode_take {a rest : Text} (hr : 'r' ∉ rest) :
    movabsOpcode (a ++ rest) = movabsOpcode (a ++ rest.take 2) := by
  have hk : ∀ e ∈ movabsRegsMap, e.1.length ≤ 3 ∧ e.1.head? = some 'r' := by decide
  have hf : (movabsRegsMap.find? fun e => decide (e.1 <:+: a ++ rest)) =
      movabsRegsMap.find? fun e => decide (e.1 <:+: a ++ rest.take 2) := by
    apply find?_congr_mem
    intro e he
    rw [decide_eq_decide]
    exact infix_take (hk e he).1 (hk e he).2 hr
  rw [movabsOpcode, hf, movabsOpcode]

theorem dispText_take (disp : Int) :
    (dispText disp ++ [']']).take 2 ∈ ["]".toList, " +".toList, " -".toList] := by
  rw [dispText]
  split
  · exact mem_cons_self
  · split
    · exact mem_cons_of_mem _ mem_cons_self
    · exact mem_cons_of_mem _ (mem_cons_of_mem _ mem_cons_self)

theorem r_not_mem_dispText (disp : Int) : 'r' ∉ dispText disp ++ [']'] := by
  rw [mem_append, not_or]
  refine ⟨?_, by decide⟩
  rw [dispText]
  split
  · exact not_mem_nil
  · split
    · rw [mem_append, not_or]
      exact ⟨by decide, not_mem_immText (by decide) (by decide)⟩
    · rw [mem_append, not_or]
      exact ⟨by decide, not_mem_immText (by decide) (by decide)⟩

theorem movabsOpcode_lea (lea : Lea) (hlow : lea.dst.number < 8) :
    movabsOpcode lea.opStr = 0x48b8 + lea.dst.number := by
  have hall : ∀ r ∈ Reg.all, r.number < 8 →
      ∀ t ∈ ["]".toList, " +".toList, " -".toList],
        movabsOpcode (r.name ++ ", [rip".toList ++ t) = 0x48b8 + r.number := by
    decide +kernel
  have hmem : lea.dst ∈ Reg.all := by
    cases lea.dst <;> decide
  rw [Lea.opStr, movabsOpcode_take (r_not_mem_dispText lea.disp)]
  exact hall lea.dst hmem hlow _ (dispText_take lea.disp)

theorem execMovabs_lea (lea : Lea) (hlow : lea.dst.number < 8) (target : Nat) (regs : Regs) :
    execMovabs (movabsBytes lea.opStr target) regs =
      some (regs.set lea.dst (target % 2 ^ 64)) := by
  have hreg : Reg.all[lea.dst.number]? = some lea.dst := by
    cases lea.dst <;> rfl
  have hop : (UInt8.ofNat (0x48b8 + lea.dst.number)).toNat = 0xb8 + lea.dst.number := by
    rw [UInt8.toNat_ofNat']
    omega
  have hrex : UInt8.ofNat ((0x48b8 + lea.dst.number) / 256) = 0x48 := by
    have hdiv : (0x48b8 + lea.dst.number) / 256 = 0x48 := by omega
    rw [hdiv]
    rfl
  have himm : littleEndian (encode 8 target) = target % 2 ^ 64 := littleEndian_encode 8 target
  rw [movabsBytes, movabsOpcode_lea lea hlow, hrex]
  simp only [cons_append, nil_append, execMovabs]
  rw [if_pos, hop]
  · have hin : 0xb8 + lea.dst.number - 0xb8 + 8 * ((0x48 : UInt8).toNat - 0x48) =
        lea.dst.number := by
      have hz : (0x48 : UInt8).toNat - 0x48 = 0 := rfl
      omega
    rw [hin, hreg, himm]
    rfl
  · rw [hop, length_encode]
    exact ⟨.inl trivial, by omega, by omega, rfl⟩

end Opcode

/-- The task holds the bytes of a string and a zero byte at an address. -/
def HoldsText (mem : Nat → UInt8) (a : Nat) (key : Bytes) : Prop :=
  ∀ i b, (key ++ [0])[i]? = some b → mem (a + i) = b

/-- After the linked code the register holds an address of the string. -/
def ReferenceWorks (c : StringContext) (lea : Lea) (key : Bytes) (mem : Nat → UInt8)
    (leaValue : Nat) : Prop :=
  ∃ code, linkStringReference c lea key = some code ∧ ∀ regs, ∃ regs',
    code.exec leaValue regs = some regs' ∧ HoldsText mem (regs' lea.dst) key

/-- The mapping taken for the executable's holds at the string's distance from `.rodata` what
`.rodata` has there. -/
def RodataAtStart (c : StringContext) (mem : Nat → UInt8) (offset size : Nat) : Prop :=
  ∀ i b, i < size → c.rodata[offset + i]? = some b →
    mem (ptrAdd (findModuleOffset c.oldPath c.permissions c.mappings) offset + i) = b

theorem scanStrings_holds (hkey : 0 ∉ key)
    (h : scanStrings m size key fuel p = .ok (some o)) : HoldsAt m key o := by
  induction fuel generalizing p with
  | zero => cases h
  | succ fuel ih =>
    rw [scanStrings] at h
    split at h
    · cases h
    obtain ⟨same, hsa, h⟩ := bind_eq_ok.mp h
    cases same with
    | true =>
      cases h
      exact (textEq_true_iff hkey).mp hsa
    | false =>
      rw [if_neg Bool.false_ne_true] at h
      obtain ⟨text, _, h⟩ := bind_eq_ok.mp h
      exact ih h

theorem findStringOffset_holds (hkey : 0 ∉ key) (h : findStringOffset m size key = .ok o)
    (hf : o ≠ notFound) : HoldsAt m key o := by
  rw [findStringOffset, bind_eq_ok] at h
  obtain ⟨found, hsc, h⟩ := h
  cases found with
  | none =>
    cases h
    exact absurd rfl hf
  | some p =>
    cases h
    exact scanStrings_holds hkey hsc

theorem rodataAtStart_iff {c : StringContext} (h : HoldsAt c.rodata key o) :
    RodataAtStart c mem o (key.length + 1) ↔
      HoldsText mem (ptrAdd (findModuleOffset c.oldPath c.permissions c.mappings) o) key := by
  have hby (i : Nat) (hi : i < key.length + 1) : c.rodata[o + i]? = (key ++ [0])[i]? := by
    obtain ⟨t, ht⟩ := h
    rw [← getElem?_drop, ← ht, getElem?_append_left (by simpa using hi)]
  have hlen {i : Nat} {b : UInt8} (hb : (key ++ [0])[i]? = some b) : i < key.length + 1 := by
    obtain ⟨hi, _⟩ := List.getElem?_eq_some_iff.mp hb
    simpa using hi
  constructor
  · intro hmem i b hb
    exact hmem i b (hlen hb) ((hby i (hlen hb)).trans hb)
  · intro hmem i b hi hb
    exact hmem i b ((hby i hi).symm.trans hb)

theorem lea_bytes (lea : Lea) :
    (lea.bytes[0]? = some 0x48 ∧ lea.bytes[1]? = some 0x8d) ↔ lea.dst.number < 8 := by
  obtain ⟨dst, disp, small⟩ := lea
  simp only [Lea.bytes, cons_append, nil_append, getElem?_cons_zero,
    getElem?_cons_succ, and_true, some.injEq]
  cases dst <;> decide

theorem offset_sign (o : Nat) : (BitVec.ofNat 32 o).slt 0#32 = decide (2 ^ 31 ≤ o % 2 ^ 32) := by
  rw [BitVec.slt_zero_eq_msb, BitVec.msb_eq_decide, BitVec.toNat_ofNat]

section Reference

variable {c : StringContext} {lea : Lea} {key : Bytes} {mem : Nat → UInt8} {leaValue o : Nat}

theorem not_referenceWorks_of_sign (ho : findStringOffset c.rodata c.rodataSize key = .ok o)
    (hsign : 2 ^ 31 ≤ o % 2 ^ 32) : ¬ ReferenceWorks c lea key mem leaValue := by
  have hn : linkStringReference c lea key = none := by
    rw [linkStringReference, ho]
    exact if_pos (by rw [offset_sign, decide_eq_true hsign])
  rintro ⟨code, hc, _⟩
  rw [hn] at hc
  cases hc

variable (ho : findStringOffset c.rodata c.rodataSize key = .ok o) (hsign : o % 2 ^ 32 < 2 ^ 31)
include ho hsign

theorem linkStringReference_eq : linkStringReference c lea key =
    if lea.bytes[0]? = some 0x48 ∧ lea.bytes[1]? = some 0x8d then
      some ⟨lea, some (movabsBytes lea.opStr
        (ptrAdd (findModuleOffset c.oldPath c.permissions c.mappings) o))⟩
    else some ⟨lea, none⟩ := by
  have hno : ¬ 2 ^ 31 ≤ o % 2 ^ 32 := by omega
  rw [linkStringReference, ho]
  exact if_neg (by rw [offset_sign, decide_eq_false hno]; exact Bool.false_ne_true)

theorem referenceWorks_low (hlow : lea.dst.number < 8) : ReferenceWorks c lea key mem leaValue ↔
    HoldsText mem (ptrAdd (findModuleOffset c.oldPath c.permissions c.mappings) o) key := by
  have he (regs : Regs) : (LinkedCode.mk lea (some (movabsBytes lea.opStr
      (ptrAdd (findModuleOffset c.oldPath c.permissions c.mappings) o)))).exec leaValue regs =
      some ((regs.set lea.dst leaValue).set lea.dst
        (ptrAdd (findModuleOffset c.oldPath c.permissions c.mappings) o)) := by
    simp only [LinkedCode.exec, execMovabs_lea lea hlow, ptrAdd, Nat.mod_mod]
  rw [ReferenceWorks, linkStringReference_eq ho hsign, if_pos ((lea_bytes lea).mpr hlow)]
  constructor
  · rintro ⟨code, hc, hrun⟩
    cases hc
    obtain ⟨regs', hr, ht⟩ := hrun fun _ => 0
    rw [he] at hr
    cases hr
    rwa [Regs.set, if_pos rfl] at ht
  · intro ht
    refine ⟨_, rfl, fun regs => ⟨_, he regs, ?_⟩⟩
    rwa [Regs.set, if_pos rfl]

theorem referenceWorks_high (hh : ¬ lea.dst.number < 8) :
    ReferenceWorks c lea key mem leaValue ↔ HoldsText mem leaValue key := by
  rw [ReferenceWorks, linkStringReference_eq ho hsign, if_neg (mt (lea_bytes lea).mp hh)]
  constructor
  · rintro ⟨code, hc, hrun⟩
    cases hc
    obtain ⟨regs', hr, ht⟩ := hrun fun _ => 0
    cases hr
    rwa [Regs.set, if_pos rfl] at ht
  · intro ht
    refine ⟨_, rfl, fun regs => ⟨_, rfl, ?_⟩⟩
    rwa [Regs.set, if_pos rfl]

end Reference

section Layouts

def appPage (start : Nat) : KernelMapping :=
  ⟨⟨start, start + 4096⟩, "/bin/app".toList, 0, 0, 1, mapPrivate, 0⟩

def appStrings (mappings : List KernelMapping) : StringContext :=
  ⟨[104, 105, 0], 3, "/bin/app".toList, true, false, false, mappings⟩

def hiLoaded (a : Nat) : UInt8 := if a = 0x402000 then 104 else if a = 0x402001 then 105 else 0

def leaTo (dst : Reg) : Lea := ⟨dst, 100, by decide⟩

end Layouts

end Attune.Muplay
