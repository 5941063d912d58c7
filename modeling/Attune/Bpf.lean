import Mathlib

namespace Attune.Bpf
open List Option

structure Insn where
  code : BitVec 16
  jt : BitVec 8 := 0
  jf : BitVec 8 := 0
  k : BitVec 32
  deriving DecidableEq

inductive AluOp where
  | add | sub | mul | div | or | and | lsh | rsh | xor
  deriving DecidableEq

inductive Cond where
  | eq | gt | ge | set
  deriving DecidableEq

inductive Src where
  | k | x
  deriving DecidableEq

inductive Op where
  | ldAbs | ldLen | ldImm | ldMem | ldxLen | ldxImm | ldxMem | st | stx
  | alu (op : AluOp) (src : Src) | neg | tax | txa
  | ja | jmp (cond : Cond) (src : Src)
  | retK | retA
  deriving DecidableEq

def decode (code : BitVec 16) : Option Op :=
  match code.toNat with
  | 0x20 => some .ldAbs
  | 0x80 => some .ldLen
  | 0x00 => some .ldImm
  | 0x60 => some .ldMem
  | 0x81 => some .ldxLen
  | 0x01 => some .ldxImm
  | 0x61 => some .ldxMem
  | 0x02 => some .st
  | 0x03 => some .stx
  | 0x04 => some (.alu .add .k)
  | 0x0c => some (.alu .add .x)
  | 0x14 => some (.alu .sub .k)
  | 0x1c => some (.alu .sub .x)
  | 0x24 => some (.alu .mul .k)
  | 0x2c => some (.alu .mul .x)
  | 0x34 => some (.alu .div .k)
  | 0x3c => some (.alu .div .x)
  | 0x44 => some (.alu .or .k)
  | 0x4c => some (.alu .or .x)
  | 0x54 => some (.alu .and .k)
  | 0x5c => some (.alu .and .x)
  | 0x64 => some (.alu .lsh .k)
  | 0x6c => some (.alu .lsh .x)
  | 0x74 => some (.alu .rsh .k)
  | 0x7c => some (.alu .rsh .x)
  | 0xa4 => some (.alu .xor .k)
  | 0xac => some (.alu .xor .x)
  | 0x84 => some .neg
  | 0x07 => some .tax
  | 0x87 => some .txa
  | 0x05 => some .ja
  | 0x15 => some (.jmp .eq .k)
  | 0x1d => some (.jmp .eq .x)
  | 0x25 => some (.jmp .gt .k)
  | 0x2d => some (.jmp .gt .x)
  | 0x35 => some (.jmp .ge .k)
  | 0x3d => some (.jmp .ge .x)
  | 0x45 => some (.jmp .set .k)
  | 0x4d => some (.jmp .set .x)
  | 0x06 => some .retK
  | 0x16 => some .retA
  | _ => none

structure Regs where
  a : BitVec 32
  x : BitVec 32
  m : Nat → BitVec 32

def Regs.zero : Regs := ⟨0, 0, fun _ => 0⟩

/-- The data a program runs on: its words by byte offset, and its length. -/
structure Packet where
  word : Nat → BitVec 32
  len : BitVec 32

/-- How a program ends. Dividing by a zero index register ends it at once, with result 0. -/
inductive Exit where
  | ret (result : BitVec 32)
  | divisionByZero
  deriving DecidableEq

namespace Exit

def result : Exit → BitVec 32
  | .ret v => v
  | .divisionByZero => 0

def map (g : BitVec 32 → BitVec 32) : Exit → Exit
  | .ret v => .ret (g v)
  | .divisionByZero => .divisionByZero

@[simp] theorem result_ret (v : BitVec 32) : (ret v).result = v := rfl

@[simp] theorem result_divisionByZero : divisionByZero.result = 0 := rfl

end Exit

def AluOp.apply (op : AluOp) (a b : BitVec 32) : Option (BitVec 32) :=
  match op with
  | .add => some (a + b)
  | .sub => some (a - b)
  | .mul => some (a * b)
  | .div => if b = 0 then none else some (a / b)
  | .or => some (a ||| b)
  | .and => some (a &&& b)
  | .lsh => some (a <<< (b.toNat % 32))
  | .rsh => some (a >>> (b.toNat % 32))
  | .xor => some (a ^^^ b)

def Cond.holds (c : Cond) (a b : BitVec 32) : Bool :=
  match c with
  | .eq => decide (a = b)
  | .gt => decide (b < a)
  | .ge => decide (b ≤ a)
  | .set => decide (a &&& b ≠ 0)

def Src.value (s : Src) (i : Insn) (r : Regs) : BitVec 32 :=
  match s with
  | .k => i.k
  | .x => r.x

inductive Next where
  | exit (e : Exit)
  | goOn (skip : Nat) (r : Regs)

def step (p : Packet) (i : Insn) (r : Regs) : Op → Next
  | .ldAbs => .goOn 0 { r with a := p.word i.k.toNat }
  | .ldLen => .goOn 0 { r with a := p.len }
  | .ldImm => .goOn 0 { r with a := i.k }
  | .ldMem => .goOn 0 { r with a := r.m i.k.toNat }
  | .ldxLen => .goOn 0 { r with x := p.len }
  | .ldxImm => .goOn 0 { r with x := i.k }
  | .ldxMem => .goOn 0 { r with x := r.m i.k.toNat }
  | .st => .goOn 0 { r with m := fun n => if n = i.k.toNat then r.a else r.m n }
  | .stx => .goOn 0 { r with m := fun n => if n = i.k.toNat then r.x else r.m n }
  | .alu op src =>
    match op.apply r.a (src.value i r) with
    | some v => .goOn 0 { r with a := v }
    | none => .exit .divisionByZero
  | .neg => .goOn 0 { r with a := -r.a }
  | .tax => .goOn 0 { r with x := r.a }
  | .txa => .goOn 0 { r with a := r.x }
  | .ja => .goOn i.k.toNat r
  | .jmp c src => .goOn (if c.holds r.a (src.value i r) then i.jt.toNat else i.jf.toNat) r
  | .retK => .exit (.ret i.k)
  | .retA => .exit (.ret r.a)

def exec (p : Packet) : Nat → List Insn → Regs → Option Exit
  | 0, _, _ => none
  | _ + 1, [], _ => none
  | fuel + 1, i :: rest, r =>
    match decode i.code with
    | none => none
    | some op =>
      match step p i r op with
      | .exit e => some e
      | .goOn skip r' => exec p fuel (rest.drop skip) r'

def run (p : Packet) (prog : List Insn) (r : Regs) : Option Exit := exec p prog.length prog r

variable {p : Packet} {i : Insn} {prog rest : List Insn} {r : Regs}

theorem exec_cons (hop : decode i.code = some op) : exec p (fuel + 1) (i :: rest) r =
    match step p i r op with
    | .exit e => some e
    | .goOn skip r' => exec p fuel (rest.drop skip) r' := by
  rw [exec, hop]

theorem exec_fuel (h : prog.length ≤ n) (h' : prog.length ≤ m) :
    exec p n prog r = exec p m prog r := by
  induction n generalizing prog r m with
  | zero =>
    obtain rfl := length_eq_zero_iff.mp (Nat.le_zero.mp h)
    cases m with
    | zero | succ m => rfl
  | succ n ih =>
    cases prog with
    | nil =>
      cases m with
      | zero | succ m => rfl
    | cons i rest =>
      obtain ⟨m, rfl⟩ : ∃ k, m = k + 1 := ⟨m - 1, by simp only [length_cons] at h'; omega⟩
      simp only [length_cons] at h h'
      rw [exec, exec]
      cases decode i.code with
      | none => rfl
      | some op =>
        simp only
        cases step p i r op with
        | exit e => rfl
        | goOn skip r' =>
          have hd : (rest.drop skip).length ≤ rest.length := by
            rw [length_drop]
            omega
          exact ih (by omega) (by omega)

theorem run_cons (op : Op) (hop : decode i.code = some op) : run p (i :: rest) r =
    match step p i r op with
    | .exit e => some e
    | .goOn skip r' => run p (rest.drop skip) r' := by
  rw [run, length_cons, exec_cons hop]
  cases step p i r op with
  | exit e => rfl
  | goOn skip r' => exact exec_fuel (by rw [length_drop]; omega) (Nat.le_refl _)

def mapRet (g : BitVec 32 → BitVec 32) (i : Insn) : Insn :=
  if decode i.code = some .retK then { i with k := g i.k } else i

theorem mapRet_code : (mapRet g i).code = i.code := by
  rw [mapRet]
  split
  · rfl
  · rfl

def ConstantReturns (prog : List Insn) : Prop := ∀ i ∈ prog, decode i.code ≠ some .retA

theorem step_ret (h : step p i r op = .exit (.ret v)) : (op = .retK ∧ v = i.k) ∨ op = .retA := by
  cases op with
  | retK =>
    cases h
    exact .inl ⟨rfl, rfl⟩
  | retA => exact .inr rfl
  | alu op src =>
    simp only [step] at h
    split at h
    · cases h
    · cases h
  | _ => cases h

theorem exec_ret_mem (h : ConstantReturns prog) (hr : exec p n prog r = some (.ret v)) :
    ∃ i ∈ prog, decode i.code = some .retK ∧ i.k = v := by
  induction n generalizing prog r with
  | zero => cases hr
  | succ n ih =>
    cases prog with
    | nil => cases hr
    | cons i rest =>
      cases hop : decode i.code with
      | none =>
        rw [exec, hop] at hr
        cases hr
      | some op =>
        rw [exec_cons hop] at hr
        cases hst : step p i r op with
        | exit e =>
          simp only [hst, some.injEq] at hr
          cases step_ret (hr ▸ hst) with
          | inl hk => exact ⟨i, mem_cons_self, hk.1 ▸ hop, hk.2.symm⟩
          | inr ha => exact absurd (ha ▸ hop) (h i mem_cons_self)
        | goOn skip r' =>
          simp only [hst] at hr
          obtain ⟨j, hj, hjop, hjk⟩ := ih
            (fun j hj => h j (mem_cons_of_mem i (mem_of_mem_drop hj))) hr
          exact ⟨j, mem_cons_of_mem i (mem_of_mem_drop hj), hjop, hjk⟩

/-- Changing the constants of a program changes its result in the same way and nothing else. -/
theorem exec_mapRet (h : ConstantReturns prog) :
    exec p n (prog.map (mapRet g)) r = (exec p n prog r).map (Exit.map g) := by
  induction n generalizing prog r with
  | zero => rfl
  | succ n ih =>
    cases prog with
    | nil => rfl
    | cons i rest =>
      rw [map_cons, exec, exec, mapRet_code]
      cases hop : decode i.code with
      | none => rfl
      | some op =>
        by_cases hret : op = .retK
        · subst hret
          simp only [mapRet, hop, if_true, step, map_some, Exit.map]
        have hsa : mapRet g i = i := by
          rw [mapRet, hop, if_neg fun heq => hret (some.inj heq)]
        have ht : ConstantReturns rest := fun j hj => h j (mem_cons_of_mem i hj)
        have hacc : op ≠ .retA := fun heq => h i mem_cons_self (heq ▸ hop)
        simp only [hsa]
        cases hst : step p i r op with
        | exit e =>
          cases e with
          | divisionByZero => rfl
          | ret v =>
            exfalso
            cases step_ret hst with
            | inl hk => exact hret hk.1
            | inr ha => exact hacc ha
        | goOn skip r' =>
          simp only
          rw [← map_drop]
          exact ih fun j hj => ht j (mem_of_mem_drop hj)

theorem run_mapRet (h : ConstantReturns prog) :
    run p (prog.map (mapRet g)) r = (run p prog r).map (Exit.map g) := by
  rw [run, run, length_map]
  exact exec_mapRet h

/-- The checks of one instruction at installation: offsets, constants, and jumps that stay inside.
-/
def checkInsn (dataSize left : Nat) (i : Insn) : Option Op → Bool
  | none => false
  | some .ldAbs => decide (i.k.toNat % 4 = 0 ∧ i.k.toNat < dataSize)
  | some .ldMem | some .ldxMem | some .st | some .stx => decide (i.k.toNat < 16)
  | some (.alu .div .k) => decide (i.k ≠ 0)
  | some (.alu .lsh .k) | some (.alu .rsh .k) => decide (i.k.toNat < 32)
  | some .ja => decide (i.k.toNat < left)
  | some (.jmp _ _) => decide (i.jt.toNat < left ∧ i.jf.toNat < left)
  | some _ => true

def checkAll (dataSize : Nat) : List Insn → Bool
  | [] => true
  | i :: rest => checkInsn dataSize rest.length i (decode i.code) && checkAll dataSize rest

def isRet (i : Insn) : Bool := decide (decode i.code = some .retK ∨ decode i.code = some .retA)

/-- The programs that may be installed: not too long, checked, and ending in a return. -/
structure Valid (dataSize : Nat) (prog : List Insn) : Prop where
  length : prog.length ≤ 4096
  checked : checkAll dataSize prog = true
  endsInRet : prog.getLast?.any isRet = true

theorem checkAll_drop (h : checkAll dataSize prog = true) :
    checkAll dataSize (prog.drop n) = true := by
  induction prog generalizing n with
  | nil =>
    rw [drop_nil]
    rfl
  | cons i rest ih =>
    cases n with
    | zero => exact h
    | succ n =>
      rw [checkAll, Bool.and_eq_true] at h
      exact ih h.2

theorem skip_lt (h : checkInsn dataSize left i (some op) = true) (hl : 0 < left)
    (hst : step p i r op = .goOn skip r') : skip < left := by
  cases op with
  | ja =>
    cases hst
    exact of_decide_eq_true h
  | jmp c src =>
    cases hst
    have hb := of_decide_eq_true h
    split
    · exact hb.1
    · exact hb.2
  | alu op src =>
    simp only [step] at hst
    split at hst
    · cases hst
      exact hl
    · cases hst
  | retK | retA => cases hst
  | _ =>
    cases hst
    exact hl

theorem exec_isSome (hne : prog ≠ []) (hc : checkAll dataSize prog = true)
    (hl : prog.getLast?.any isRet = true) (hn : prog.length ≤ n) :
    (exec p n prog r).isSome = true := by
  induction n generalizing prog r with
  | zero => exact absurd (length_eq_zero_iff.mp (Nat.le_zero.mp hn)) hne
  | succ n ih =>
    cases prog with
    | nil => exact absurd rfl hne
    | cons i rest =>
      rw [checkAll, Bool.and_eq_true] at hc
      cases hop : decode i.code with
      | none =>
        rw [hop] at hc
        cases hc.1
      | some op =>
        rw [exec_cons hop]
        cases hst : step p i r op with
        | exit e => rfl
        | goOn skip r' =>
          simp only
          -- an instruction that goes on is not a return, so it is not the last one
          have hr : rest ≠ [] := by
            intro hnil
            subst hnil
            simp only [getLast?_singleton, any_some, isRet, hop, some.injEq,
              decide_eq_true_eq] at hl
            obtain rfl | rfl := hl
            · cases hst
            · cases hst
          have hpos : 0 < rest.length := length_pos_iff.mpr hr
          have hsk := skip_lt (hop ▸ hc.1) hpos hst
          have hd : rest.drop skip ≠ [] := by
            rw [ne_eq, drop_eq_nil_iff]
            omega
          apply ih hd (checkAll_drop hc.2)
          · rw [getLast?_drop, if_neg (by omega)]
            rw [getLast?_cons_of_ne_nil hr] at hl
            exact hl
          · simp only [length_cons] at hn
            rw [length_drop]
            omega

theorem Valid.run_isSome (h : Valid dataSize prog) : (run p prog r).isSome = true := by
  refine exec_isSome ?_ h.checked h.endsInRet (Nat.le_refl _)
  intro hnil
  have hl := h.endsInRet
  rw [hnil] at hl
  cases hl

end Attune.Bpf
