import Attune.Neighbours
import Attune.OrderedMap

namespace Attune.Disasm
open OrderedMap List

abbrev Text := List Char

structure Insn where
  address : Nat
  size : Nat
  mnemonic : Text
  opStr : Text
  deriving DecidableEq

def paramHasAddress (operands : Text) : Bool := decide ("[rip".toList <:+: operands)

def hexDigitValue (c : Char) : Option Nat :=
  if c.isDigit then some (c.toNat - '0'.toNat)
  else if 'a' ≤ c ∧ c ≤ 'f' then some (c.toNat - 'a'.toNat + 10)
  else if 'A' ≤ c ∧ c ≤ 'F' then some (c.toNat - 'A'.toNat + 10)
  else none

def hexDigits : Text → List Nat
  | [] => []
  | c :: s =>
    match hexDigitValue c with
    | some d => d :: hexDigits s
    | none => []

def hexValue (digits : List Nat) : Nat := digits.foldl (fun v d => 16 * v + d) 0

def skipHexMark : Text → Text
  | '0' :: x :: s => if (x = 'x' ∨ x = 'X') ∧ hexDigits s ≠ [] then s else '0' :: x :: s
  | s => s

def isBlank (c : Char) : Bool := c == ' ' || (9 ≤ c.toNat && c.toNat ≤ 13)

def splitSign : Text → Bool × Text
  | '-' :: rest => (true, rest)
  | '+' :: rest => (false, rest)
  | rest => (false, rest)

/-- `stoull` with base 16; it throws without a digit and when the value is too large. -/
def stoull16 (s : Text) : Option Nat :=
  let signed := splitSign (s.dropWhile isBlank)
  let digits := hexDigits (skipHexMark signed.2)
  if digits = [] ∨ 2 ^ 64 ≤ hexValue digits then none
  else some (if signed.1 then (2 ^ 64 - hexValue digits) % 2 ^ 64 else hexValue digits)

/-- `none` is an exception, of `substr` or of `stoull`. -/
def getGlobOffset (opParams : Text) : Option Nat :=
  match opParams.findIdx? (· == '+') with
  | none => some 0
  | some start =>
    if opParams.length < start + 2 then none
    else
      let count :=
        match opParams.findIdx? (· == ']') with
        | some stop => if start + 2 ≤ stop then stop - (start + 2) else opParams.length
        | none => opParams.length
      stoull16 ((opParams.drop (start + 2)).take count)

def calcGlobAddr (eip prevOff : Nat) : Nat := (eip + prevOff) % 2 ^ 64

/-- The loop of `get_glob_addrs`; `pending` is the offset and address of the instruction before. -/
def globLoop (addrTable : List Nat) :
    List Insn → Option (Nat × Nat) → List (Nat × Int) → Option (List (Nat × Int))
  | [], _, globAddrs => some globAddrs
  | insn :: rest, pending, globAddrs =>
    let globAddrs :=
      match pending with
      | some (prevGlobOff, prevInstrAddr) =>
        if calcGlobAddr insn.address prevGlobOff ∈ addrTable then
          insert less prevInstrAddr 8 globAddrs
        else globAddrs
      | none => globAddrs
    if insn.mnemonic = "mov".toList ∧ paramHasAddress insn.opStr = true then do
      let prevGlobOff ← getGlobOffset insn.opStr
      globLoop addrTable rest (some (prevGlobOff, insn.address)) globAddrs
    else globLoop addrTable rest none globAddrs

/-- Without any instruction the program exits. -/
def getGlobAddrs (addrTable : List Nat) (insns : List Insn) : Option (List (Nat × Int)) :=
  if insns = [] then none else globLoop addrTable insns none []

section Capstone

def immText (n : Nat) : Text := if n ≤ 9 then Nat.toDigits 10 n else '0' :: 'x' :: Nat.toDigits 16 n

def dispText (disp : Int) : Text :=
  if disp = 0 then []
  else if 0 < disp then " + ".toList ++ immText disp.toNat
  else " - ".toList ++ immText (-disp).toNat

/-- The operands: with an address relative to the instruction pointer, or without. At most one is in
brackets. -/
inductive Operands where
  | ripRelative (before : Text) (disp : Int) (after : Text)
      (plain : ∀ c ∈ before ++ after, c ≠ '+' ∧ c ≠ ']') (small : -2 ^ 31 ≤ disp ∧ disp < 2 ^ 31)
  | other (text : Text) (plain : ¬ "[rip".toList <:+: text)

def Operands.text : Operands → Text
  | .ripRelative before disp after _ _ =>
    before ++ "[rip".toList ++ dispText disp ++ ']' :: after
  | .other text _ => text

structure Instruction where
  address : Nat
  size : Nat
  mnemonic : Text
  operands : Operands

def Instruction.insn (i : Instruction) : Insn := ⟨i.address, i.size, i.mnemonic, i.operands.text⟩

def Instruction.movDisp (i : Instruction) : Option Int :=
  match i.operands with
  | .ripRelative _ disp _ _ _ => if i.mnemonic = "mov".toList then some disp else none
  | .other _ _ => none

def Instruction.target (i : Instruction) (disp : Int) : Nat :=
  ((i.address + i.size + disp : Int) % 2 ^ 64).toNat

structure Disassembly where
  instructions : List Instruction
  consecutive : instructions.IsChain fun i j => j.address = i.address + i.size
  inhabited : ∀ i ∈ instructions, 0 < i.size
  fits : ∀ i ∈ instructions, i.address + i.size ≤ 2 ^ 64

end Capstone

section Numbers

theorem hexDigitValue_digitChar : ∀ d < 16, hexDigitValue (Nat.digitChar d) = some d := by
  decide

theorem hexDigits_cons (h : hexDigitValue c = some d) (s : Text) :
    hexDigits (c :: s) = d :: hexDigits s := by
  rw [hexDigits, h]

theorem hexValue_append (ds : List Nat) (d : Nat) :
    hexValue (ds ++ [d]) = 16 * hexValue ds + d := by
  rw [hexValue, foldl_append]
  rfl

theorem hexDigits_toDigits (n : Nat) : ∃ ds, ds ≠ [] ∧ hexValue ds = n ∧
    ∀ s, hexDigits (Nat.toDigits 16 n ++ s) = ds ++ hexDigits s := by
  induction n using Nat.strongRecOn with
  | ind n ih =>
    by_cases hn : n < 16
    · refine ⟨[n], cons_ne_nil _ _, by simp [hexValue], ?_⟩
      intro s
      rw [Nat.toDigits_of_lt_base hn]
      exact hexDigits_cons (hexDigitValue_digitChar n hn) s
    · obtain ⟨ds, _, hv, hr⟩ := ih (n / 16) (by omega)
      refine ⟨ds ++ [n % 16], by simp, ?_, ?_⟩
      · rw [hexValue_append, hv]
        omega
      · intro s
        rw [Nat.toDigits_of_base_le (by decide) (by omega), append_assoc, hr,
          singleton_append, hexDigits_cons (hexDigitValue_digitChar _ (by omega)),
          append_assoc, singleton_append]

theorem mem_toDigits (h : c ∈ Nat.toDigits 16 n) : ∃ d < 16, c = Nat.digitChar d := by
  induction n using Nat.strongRecOn with
  | ind n ih =>
    by_cases hn : n < 16
    · rw [Nat.toDigits_of_lt_base hn] at h
      exact ⟨n, hn, mem_singleton.mp h⟩
    · rw [Nat.toDigits_of_base_le (by decide) (by omega), mem_append] at h
      rcases h with h | h
      · exact ih (n / 16) (by omega) h
      · exact ⟨n % 16, by omega, mem_singleton.mp h⟩

theorem immText_small (h : n ≤ 9) : immText n = [Nat.digitChar n] := by
  rw [immText, if_pos h, Nat.toDigits_of_lt_base (by omega)]

theorem stoull16_immText (h : n < 2 ^ 64) : stoull16 (immText n) = some n := by
  by_cases hn : n ≤ 9
  · have hall : ∀ n ≤ 9, stoull16 [Nat.digitChar n] = some n := by decide
    rw [immText_small hn]
    exact hall n hn
  obtain ⟨ds, hne, hv, hr⟩ := hexDigits_toDigits n
  have hd : hexDigits (Nat.toDigits 16 n) = ds := by
    have hnil := hr []
    rwa [append_nil, hexDigits, append_nil] at hnil
  have hm : skipHexMark ('0' :: 'x' :: Nat.toDigits 16 n) = Nat.toDigits 16 n := by
    rw [skipHexMark, if_pos ⟨.inl rfl, hd ▸ hne⟩]
  have hsi : splitSign (('0' :: 'x' :: Nat.toDigits 16 n).dropWhile isBlank) =
      (false, '0' :: 'x' :: Nat.toDigits 16 n) := by
    rw [dropWhile_cons_of_neg (by decide)]
    simp [splitSign]
  rw [immText, if_neg hn]
  simp only [stoull16, hsi, hm, hd, hv, hne, false_or, Nat.not_le.mpr h,
    Bool.false_eq_true, if_false]

theorem not_mem_immText (hdi : ∀ d < 16, c ≠ Nat.digitChar d) (hm : c ≠ 'x') :
    c ∉ immText n := by
  intro hmem
  by_cases hn : n ≤ 9
  · rw [immText_small hn] at hmem
    exact hdi n (by omega) (mem_singleton.mp hmem)
  rw [immText, if_neg hn, mem_cons, mem_cons] at hmem
  rcases hmem with h | h | h
  · exact hdi 0 (by decide) h
  · exact hm h
  · obtain ⟨d, hd, heq⟩ := mem_toDigits h
    exact hdi d hd heq

end Numbers

section Operand

variable {before after : Text} (plain : ∀ c ∈ before ++ after, c ≠ '+' ∧ c ≠ ']')

include plain

theorem getGlobOffset_nonpositive (h : disp ≤ 0) :
    getGlobOffset (before ++ "[rip".toList ++ dispText disp ++ ']' :: after) = some 0 := by
  have hd : '+' ∉ dispText disp := by
    rw [dispText]
    split
    · exact not_mem_nil
    · rw [if_neg (by omega), mem_append, not_or]
      exact ⟨by decide, not_mem_immText (by decide) (by decide)⟩
  have hp : '+' ∉ before ++ "[rip".toList ++ dispText disp ++ ']' :: after := by
    simp only [mem_append, mem_cons, not_or]
    refine ⟨⟨⟨?_, by decide⟩, hd⟩, by decide, ?_⟩
    · exact fun hmem => (plain '+' (mem_append_left _ hmem)).1 rfl
    · exact fun hmem => (plain '+' (mem_append_right _ hmem)).1 rfl
  rw [getGlobOffset, findIdx?_absent hp]

theorem getGlobOffset_positive (h : 0 < disp) (hsm : disp < 2 ^ 31) :
    getGlobOffset (before ++ "[rip".toList ++ dispText disp ++ ']' :: after) =
      some disp.toNat := by
  have hnot (c : Char) (hc : c = '+' ∨ c = ']') : c ∉ before := by
    intro hmem
    have hp := plain c (mem_append_left _ hmem)
    rcases hc with rfl | rfl
    · exact hp.1 rfl
    · exact hp.2 rfl
  have ht : before ++ "[rip".toList ++ dispText disp ++ ']' :: after =
      (before ++ "[rip ".toList) ++ '+' :: ' ' :: (immText disp.toNat ++ ']' :: after) := by
    rw [dispText, if_neg (by omega), if_pos h]
    simp
  have hpl : '+' ∉ before ++ "[rip ".toList := by
    rw [mem_append, not_or]
    exact ⟨hnot '+' (.inl rfl), by decide⟩
  have hb : ']' ∉ (before ++ "[rip ".toList) ++ '+' :: ' ' :: immText disp.toNat := by
    simp only [mem_append, mem_cons, not_or]
    exact ⟨⟨hnot ']' (.inr rfl), by decide⟩, by decide, by decide,
      not_mem_immText (by decide) (by decide)⟩
  have hst := findIdx?_first hb after
  rw [append_assoc, cons_append, cons_append] at hst
  have hd : ((before ++ "[rip ".toList) ++ '+' :: ' ' ::
      (immText disp.toNat ++ ']' :: after)).drop ((before ++ "[rip ".toList).length + 2) =
        immText disp.toNat ++ ']' :: after := by
    rw [← drop_drop, drop_left]
    rfl
  have hlen : ((before ++ "[rip ".toList) ++ '+' :: ' ' :: immText disp.toNat).length -
      ((before ++ "[rip ".toList).length + 2) = (immText disp.toNat).length := by
    rw [length_append, length_cons, length_cons]
    omega
  rw [ht, getGlobOffset, findIdx?_first hpl, hst]
  simp only
  rw [if_neg, if_pos, hd, hlen, take_left, stoull16_immText (by omega)]
  · simp only [length_append, length_cons]
    omega
  · simp only [length_append, length_cons]
    omega

end Operand

section Loop

def Keyed (globAddrs : List (Nat × Int)) (a : Nat) : Prop := ∃ v, (a, v) ∈ globAddrs

theorem keyed_insert {globAddrs : List (Nat × Int)} (hs : Sorted globAddrs) :
    Keyed (insert less k 8 globAddrs) a ↔ a = k ∨ Keyed globAddrs a := by
  cases hget : get k globAddrs with
  | none =>
    rw [insert_eq_assign 8 hget]
    constructor
    · rintro ⟨v, hv⟩
      rcases hs.mem_assign.mp hv with heq | ⟨hmem, _⟩
      · exact .inl (congrArg Prod.fst heq)
      · exact .inr ⟨v, hmem⟩
    · rintro (rfl | ⟨v, hv⟩)
      · exact ⟨8, hs.mem_assign.mpr (.inl rfl)⟩
      · exact ⟨v, hs.mem_assign.mpr (.inr ⟨hv, hs.get_eq_none.mp hget _ hv⟩)⟩
  | some w =>
    have hf : insert less k 8 globAddrs = globAddrs := by
      obtain ⟨e, he, _⟩ := Option.map_eq_some_iff.mp hget
      rw [OrderedMap.insert, he]
    have hk : Keyed globAddrs k := ⟨w, hs.get_eq_some.mp hget⟩
    rw [hf]
    constructor
    · exact .inr
    · rintro (rfl | h)
      · exact hk
      · exact h

theorem sorted_insert {globAddrs : List (Nat × Int)} (hs : Sorted globAddrs) :
    Sorted (insert less k 8 globAddrs) := by
  cases hget : get k globAddrs with
  | none =>
    rw [insert_eq_assign 8 hget]
    exact hs.assign k 8
  | some w =>
    obtain ⟨e, he, _⟩ := Option.map_eq_some_iff.mp hget
    rw [OrderedMap.insert, he]
    exact hs

/-- The offset that the text of an instruction gives; it is null for a negative displacement. -/
def Instruction.seenOffset (i : Instruction) : Option Nat := i.movDisp.map Int.toNat

variable (addrTable : List Nat)

theorem globLoop_cons (i : Instruction) (rest : List Insn)
    (pending : Option (Nat × Nat)) (globAddrs : List (Nat × Int)) :
    globLoop addrTable (i.insn :: rest) pending globAddrs =
      globLoop addrTable rest (i.seenOffset.map fun off => (off, i.address))
        (match pending with
        | some (off, addr) => if calcGlobAddr i.address off ∈ addrTable then
            insert less addr 8 globAddrs else globAddrs
        | none => globAddrs) := by
  obtain ⟨address, size, mnemonic, operands⟩ := i
  rw [globLoop.eq_def]
  dsimp only
  by_cases hmov : mnemonic = "mov".toList
  · cases operands with
    | other text plain =>
      have hno : paramHasAddress text = false := decide_eq_false plain
      rw [if_neg]
      · rfl
      · rintro ⟨_, h⟩
        exact absurd (hno.symm.trans h) Bool.false_ne_true
    | ripRelative before disp after plain small =>
      have hyes : paramHasAddress (before ++ "[rip".toList ++ dispText disp ++ ']' :: after) =
          true := by
        rw [paramHasAddress, decide_eq_true_eq]
        exact ⟨before, dispText disp ++ ']' :: after, by simp⟩
      have hoff : getGlobOffset (before ++ "[rip".toList ++ dispText disp ++ ']' :: after) =
          some disp.toNat := by
        by_cases hpos : 0 < disp
        · exact getGlobOffset_positive plain hpos small.2
        · rw [getGlobOffset_nonpositive plain (by omega), Int.toNat_of_nonpos (by omega)]
      rw [if_pos ⟨hmov, hyes⟩]
      simp only [Instruction.insn, Operands.text, hoff, Instruction.seenOffset,
        Instruction.movDisp, if_pos hmov]
      rfl
  · rw [if_neg]
    · cases operands with
      | other text plain => rfl
      | ripRelative before disp after plain small =>
        simp only [Instruction.seenOffset, Instruction.movDisp, if_neg hmov]
        rfl
    · rintro ⟨h, _⟩
      exact hmov h

/-- What the loop finds out about an instruction when it looks at the next one. -/
def Reported (p : Instruction × Instruction) : Prop :=
  ∃ off, p.1.seenOffset = some off ∧ calcGlobAddr p.2.address off ∈ addrTable

theorem globLoop_keys (l : List Instruction) (prev : Option Instruction) (hs : Sorted globAddrs) :
    ∃ result, globLoop addrTable (l.map Instruction.insn)
        (prev.bind fun i => i.seenOffset.map fun off => (off, i.address)) globAddrs = some result ∧
      ∀ a, Keyed result a ↔ Keyed globAddrs a ∨
        ∃ p ∈ neighbours (prev.toList ++ l), Reported addrTable p ∧ a = p.1.address := by
  induction l generalizing prev globAddrs with
  | nil =>
    refine ⟨globAddrs, rfl, ?_⟩
    intro a
    cases prev with
    | none | some i => simp [neighbours]
  | cons i l ih =>
    rw [map_cons, globLoop_cons]
    cases prev with
    | none =>
      obtain ⟨result, hrun, hk⟩ := ih (some i) hs
      exact ⟨result, hrun, hk⟩
    | some j =>
      have hh (a : Nat) : (∃ p ∈ neighbours ((some j).toList ++ i :: l),
          Reported addrTable p ∧ a = p.1.address) ↔ (Reported addrTable (j, i) ∧ a = j.address) ∨
            ∃ p ∈ neighbours (i :: l), Reported addrTable p ∧ a = p.1.address := by
        rw [Option.toList_some, singleton_append, neighbours_cons, exists_mem_cons_iff]
      have hst : ∃ globAddrs', Sorted globAddrs' ∧ (∀ a, Keyed globAddrs' a ↔
            Keyed globAddrs a ∨ (Reported addrTable (j, i) ∧ a = j.address)) ∧
          (match (some j).bind fun i => i.seenOffset.map fun off => (off, i.address) with
          | some (off, addr) => if calcGlobAddr i.address off ∈ addrTable then
              insert less addr 8 globAddrs else globAddrs
          | none => globAddrs) = globAddrs' := by
        rw [Option.bind_some]
        cases hoff : j.seenOffset with
        | none =>
          refine ⟨globAddrs, hs, fun a => ?_, rfl⟩
          have hno : ¬ Reported addrTable (j, i) := by
            rintro ⟨off, h, _⟩
            exact absurd (hoff.symm.trans h) (by simp)
          simp only [hno, false_and, or_false]
        | some off =>
          have hrep : Reported addrTable (j, i) ↔ calcGlobAddr i.address off ∈ addrTable := by
            constructor
            · rintro ⟨off', h, hmem⟩
              obtain rfl := Option.some.inj (hoff.symm.trans h)
              exact hmem
            · exact fun h => ⟨off, hoff, h⟩
          simp only [Option.map_some, hrep]
          by_cases hmem : calcGlobAddr i.address off ∈ addrTable
          · refine ⟨_, sorted_insert hs, fun a => ?_, if_pos hmem⟩
            rw [keyed_insert hs]
            simp only [hmem, true_and, or_comm]
          · refine ⟨globAddrs, hs, fun a => ?_, if_neg hmem⟩
            simp only [hmem, false_and, or_false]
      obtain ⟨globAddrs', hs', hk', hm⟩ := hst
      obtain ⟨result, hrun, hk⟩ := ih (some i) hs'
      rw [hm]
      refine ⟨result, hrun, ?_⟩
      intro a
      rw [hk, hk', hh, or_assoc]
      rfl

end Loop

/-- The result has the addresses of the `mov`s whose target is in the table and no others. -/
def FindsGlobals (d : Disassembly) (addrTable : List Nat) : Prop :=
  ∃ result, getGlobAddrs addrTable (d.instructions.map Instruction.insn) = some result ∧
    ∀ a, Keyed result a ↔ ∃ i ∈ d.instructions, ∃ disp, i.movDisp = some disp ∧
      i.target disp ∈ addrTable ∧ a = i.address

/-- There is an instruction, the sign of a displacement does not matter, and the last one does not
refer to the table. -/
structure GlobalsVisible (d : Disassembly) (addrTable : List Nat) : Prop where
  nonempty : d.instructions ≠ []
  backward : ∀ p ∈ neighbours d.instructions, ∀ disp, p.1.movDisp = some disp → disp < 0 →
    (p.2.address ∈ addrTable ↔ p.1.target disp ∈ addrTable)
  last : ∀ i, d.instructions.getLast? = some i → ∀ disp, i.movDisp = some disp →
    i.target disp ∉ addrTable

namespace Disassembly

variable {d : Disassembly} {addrTable : List Nat}

theorem next_address (hp : p ∈ neighbours d.instructions) :
    p.2.address = p.1.address + p.1.size := by
  obtain ⟨A, B, hsp⟩ := mem_neighbours_iff.mp hp
  have hc := d.consecutive
  rw [hsp] at hc
  exact (isChain_cons_cons.mp (isChain_append.mp hc).2.1).1

theorem addresses_increase (d : Disassembly) :
    d.instructions.Pairwise fun i j => i.address < j.address := by
  have hc : d.instructions.IsChain fun i j => i.address < j.address := by
    apply isChain_iff_forall_rel_of_append_cons_cons.mpr
    intro i j A B hsp
    have hp : (i, j) ∈ neighbours d.instructions := mem_neighbours_iff.mpr ⟨A, B, hsp⟩
    have hn := next_address hp
    have hsi := d.inhabited i (mem_of_mem_neighbours hp).1
    simp only at hn
    omega
  exact isChain_iff_pairwise.mp hc

theorem eq_of_address (hi : i ∈ d.instructions) (hj : j ∈ d.instructions)
    (h : i.address = j.address) : i = j := by
  have hn : (d.instructions.map Instruction.address).Nodup :=
    pairwise_map.mpr (d.addresses_increase.imp Nat.ne_of_lt)
  exact inj_on_of_nodup_map hn hi hj h

theorem reported_iff (hp : p ∈ neighbours d.instructions) (hd : p.1.movDisp = some disp) :
    Reported addrTable p ↔
      if 0 ≤ disp then p.1.target disp ∈ addrTable else p.2.address ∈ addrTable := by
  have hoff : p.1.seenOffset = some disp.toNat := by
    rw [Instruction.seenOffset, hd, Option.map_some]
  have hc : calcGlobAddr p.2.address disp.toNat =
      if 0 ≤ disp then p.1.target disp else p.2.address := by
    have hn := next_address hp
    have hf := d.fits p.2 (mem_of_mem_neighbours hp).2
    have hsi := d.inhabited p.2 (mem_of_mem_neighbours hp).2
    rw [calcGlobAddr]
    split
    · rw [hn, Instruction.target]
      omega
    · rw [Int.toNat_of_nonpos (by omega), Nat.add_zero, Nat.mod_eq_of_lt (by omega)]
  have hrep : Reported addrTable p ↔ calcGlobAddr p.2.address disp.toNat ∈ addrTable := by
    constructor
    · rintro ⟨off, h, hmem⟩
      obtain rfl := Option.some.inj (hoff.symm.trans h)
      exact hmem
    · exact fun h => ⟨disp.toNat, hoff, h⟩
  rw [hrep, hc]
  split
  · rfl
  · rfl

theorem Reported.movDisp (h : Reported addrTable p) : ∃ disp, p.1.movDisp = some disp := by
  obtain ⟨off, hoff, _⟩ := h
  obtain ⟨disp, hd, _⟩ := Option.map_eq_some_iff.mp hoff
  exact ⟨disp, hd⟩

theorem getGlobAddrs_keys (addrTable : List Nat) (hne : d.instructions ≠ []) :
    ∃ result, getGlobAddrs addrTable (d.instructions.map Instruction.insn) = some result ∧
      ∀ a, Keyed result a ↔
        ∃ p ∈ neighbours d.instructions, Reported addrTable p ∧ a = p.1.address := by
  obtain ⟨result, hrun, hk⟩ :=
    globLoop_keys addrTable d.instructions none (List.Pairwise.nil : Sorted [])
  refine ⟨result, ?_, ?_⟩
  · rw [getGlobAddrs, if_neg (by simpa using hne)]
    exact hrun
  · intro a
    rw [hk]
    simp [Keyed]

theorem keyed_iff_reported (hk : ∀ a, Keyed result a ↔
      ∃ p ∈ neighbours d.instructions, Reported addrTable p ∧ a = p.1.address)
    (hp : p ∈ neighbours d.instructions) :
    Keyed result p.1.address ↔ Reported addrTable p := by
  rw [hk]
  constructor
  · rintro ⟨q, hq, hrep, heq⟩
    have hf := eq_of_address (mem_of_mem_neighbours hp).1 (mem_of_mem_neighbours hq).1 heq
    have hse : q = p := by
      apply Prod.ext hf.symm
      apply eq_of_address (mem_of_mem_neighbours hq).2 (mem_of_mem_neighbours hp).2
      rw [next_address hq, next_address hp, hf]
    exact hse ▸ hrep
  · exact fun h => ⟨p, hp, h, rfl⟩

theorem findsGlobals_of_visible (h : GlobalsVisible d addrTable) : FindsGlobals d addrTable := by
  obtain ⟨result, hr, hk⟩ := getGlobAddrs_keys addrTable h.nonempty
  refine ⟨result, hr, ?_⟩
  intro a
  rw [hk]
  constructor
  · rintro ⟨p, hp, hrep, rfl⟩
    obtain ⟨disp, hd⟩ := Reported.movDisp hrep
    refine ⟨p.1, (mem_of_mem_neighbours hp).1, disp, hd, ?_, rfl⟩
    rw [reported_iff hp hd] at hrep
    split at hrep
    · exact hrep
    · exact (h.backward p hp disp hd (by omega)).mp hrep
  · rintro ⟨i, hi, disp, hd, ht, rfl⟩
    -- the last instruction does not refer to the table, so this one has a neighbour
    have hla : d.instructions.getLast? ≠ some i := fun hl => h.last i hl disp hd ht
    obtain ⟨j, hp⟩ := exists_neighbour hi hla
    refine ⟨(i, j), hp, ?_, rfl⟩
    rw [reported_iff hp hd]
    split
    · exact ht
    · exact (h.backward _ hp disp hd (by omega)).mpr ht

theorem visible_of_findsGlobals (h : FindsGlobals d addrTable) : GlobalsVisible d addrTable := by
  obtain ⟨result, hr, hf⟩ := h
  have hne : d.instructions ≠ [] := by
    intro hnil
    rw [hnil, map_nil, getGlobAddrs, if_pos rfl] at hr
    cases hr
  obtain ⟨result', hr', hk⟩ := getGlobAddrs_keys addrTable hne
  obtain rfl := Option.some.inj (hr'.symm.trans hr)
  have hown {i : Instruction} {disp : Int} (hi : i ∈ d.instructions)
      (hd : i.movDisp = some disp) :
      Keyed result' i.address ↔ i.target disp ∈ addrTable := by
    rw [hf]
    constructor
    · rintro ⟨j, hj, disp', hd', ht, heq⟩
      obtain rfl := eq_of_address hi hj heq
      obtain rfl := Option.some.inj (hd.symm.trans hd')
      exact ht
    · exact fun ht => ⟨i, hi, disp, hd, ht, rfl⟩
  refine ⟨hne, ?_, ?_⟩
  · intro p hp disp hd hneg
    rw [← hown (mem_of_mem_neighbours hp).1 hd, keyed_iff_reported hk hp,
      reported_iff hp hd, if_neg (by omega)]
  · intro i hla disp hd ht
    have hi := mem_of_getLast? hla
    obtain ⟨p, hp, _, heq⟩ := (hk _).mp ((hown hi hd).mpr ht)
    have hlt := pairwise_neighbours d.addresses_increase hp
    obtain ⟨A, hA⟩ := getLast?_eq_some_iff.mp hla
    have hmem := (mem_of_mem_neighbours hp).2
    have hinc := d.addresses_increase
    rw [hA] at hmem hinc
    rcases mem_append.mp hmem with hb | hse
    · have hl := (pairwise_append.mp hinc).2.2 p.2 hb i (mem_singleton_self _)
      omega
    · rw [mem_singleton.mp hse] at hlt
      omega

end Disassembly

theorem finds_globals_iff (d : Disassembly) (addrTable : List Nat) :
    FindsGlobals d addrTable ↔ GlobalsVisible d addrTable :=
  ⟨Disassembly.visible_of_findsGlobals, Disassembly.findsGlobals_of_visible⟩

def movFromRip (address : Nat) (disp : Int) (small : -2 ^ 31 ≤ disp ∧ disp < 2 ^ 31) :
    Instruction :=
  ⟨address, 7, "mov".toList, .ripRelative "rax, qword ptr ".toList disp [] (by simp) small⟩

def ret (address : Nat) : Instruction := ⟨address, 1, "ret".toList, .other [] (by decide)⟩

/-- A reference to a global that lies before the code, and one that ends the code. -/
def backwardReference : Disassembly where
  instructions := [movFromRip 4096 (-1031) (by decide), ret 4103]
  consecutive := by simp [movFromRip, ret]
  inhabited := by simp [movFromRip, ret]
  fits := by simp [movFromRip, ret]

def lastReference : Disassembly where
  instructions := [movFromRip 4096 1000 (by decide)]
  consecutive := by simp
  inhabited := by simp [movFromRip]
  fits := by simp [movFromRip]

theorem references_missed :
    (getGlobAddrs [3072] (backwardReference.instructions.map Instruction.insn) = some [] ∧
      ¬ FindsGlobals backwardReference [3072]) ∧
    getGlobAddrs [5103] (lastReference.instructions.map Instruction.insn) = some [] ∧
      ¬ FindsGlobals lastReference [5103] := by
  have hb : getGlobAddrs [3072] (backwardReference.instructions.map Instruction.insn) = some [] := by
    decide +kernel
  have hl : getGlobAddrs [5103] (lastReference.instructions.map Instruction.insn) = some [] := by
    decide +kernel
  refine ⟨⟨hb, ?_⟩, hl, ?_⟩
  · rintro ⟨result, hr, hf⟩
    obtain rfl := Option.some.inj (hb.symm.trans hr)
    obtain ⟨v, hv⟩ := (hf 4096).mpr
      ⟨_, mem_cons_self, -1031, rfl, by decide +kernel, rfl⟩
    cases hv
  · rintro ⟨result, hr, hf⟩
    obtain rfl := Option.some.inj (hl.symm.trans hr)
    obtain ⟨v, hv⟩ := (hf 4096).mpr
      ⟨_, mem_cons_self, 1000, rfl, by decide +kernel, rfl⟩
    cases hv

end Attune.Disasm
