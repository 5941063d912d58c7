import Attune.CheckedMemory

namespace Attune.Sources
open Memory List

section Escape

/-- A `char` is signed. -/
def signedChar (b : UInt8) : Int := if b.toNat < 128 then b.toNat else b.toNat - 256

/-- What `sprintf(buf, "\\u%04x", c)` writes, with the zero at its end. -/
def sprintfUnicode (c : Int) : List Char :=
  ['\\', 'u'] ++ leftpad 4 '0' (Nat.toDigits 16 (c % 2 ^ 32).toNat) ++ ['\x00']

/-- What is appended for a character. The buffer of 8 bytes is filled for a low one and not used. -/
def escapeByte (b : UInt8) : Except Fault Bytes :=
  if signedChar b < 32 then
    if 8 < (sprintfUnicode (signedChar b)).length then .error .outOfBounds else .ok [b]
  else if b = 92 then .ok [92, 92]
  else if b = 34 then .ok [92, 34]
  else .ok [b]

def jsonEscapeLoop : Bytes → Except Fault Bytes
  | [] => .ok []
  | b :: rest => do return (← escapeByte b) ++ (← jsonEscapeLoop rest)

def jsonEscape (str : Bytes) (pos : Nat) : Except Fault Bytes := jsonEscapeLoop (str.drop pos)

end Escape

section Literals

def utf8 (cs : List Char) : Bytes := cs.flatMap String.utf8EncodeChar

def shortEscapes : List (UInt8 × Char) :=
  [(34, '"'), (92, '\\'), (47, '/'), (98, '\x08'), (102, '\x0c'), (110, '\n'), (114, '\r'),
    (116, '\t')]

def hexDigitValue (b : UInt8) : Option Nat :=
  if 48 ≤ b ∧ b ≤ 57 then some (b.toNat - 48)
  else if 65 ≤ b ∧ b ≤ 70 then some (b.toNat - 55)
  else if 97 ≤ b ∧ b ≤ 102 then some (b.toNat - 87)
  else none

inductive HexFour : Bytes → Nat → Prop
  | mk : hexDigitValue b₁ = some d₁ → hexDigitValue b₂ = some d₂ → hexDigitValue b₃ = some d₃ →
      hexDigitValue b₄ = some d₄ → HexFour [b₁, b₂, b₃, b₄] (((d₁ * 16 + d₂) * 16 + d₃) * 16 + d₄)

/-- What follows the opening quote of a string literal, and the characters that it stands for. -/
inductive JsonRest : Bytes → List Char → Prop
  | close : JsonRest [34] []
  | plain : 32 ≤ c.toNat → c ≠ '"' → c ≠ '\\' → JsonRest text cs →
      JsonRest (String.utf8EncodeChar c ++ text) (c :: cs)
  | short : (b, c) ∈ shortEscapes → JsonRest text cs → JsonRest (92 :: b :: text) (c :: cs)
  | unicode : HexFour ds c.toNat → JsonRest text cs → JsonRest (92 :: 117 :: (ds ++ text)) (c :: cs)
  | pair : HexFour ds (0xD800 + hi) → HexFour es (0xDC00 + lo) → hi < 0x400 → lo < 0x400 →
      c.toNat = 0x10000 + hi * 0x400 + lo → JsonRest text cs →
      JsonRest (92 :: 117 :: (ds ++ 92 :: 117 :: (es ++ text))) (c :: cs)

def JsonLiteral : Bytes → List Char → Prop
  | 34 :: text, cs => JsonRest text cs
  | _, _ => False

theorem utf8EncodeChar_ascii (h : c.toNat < 128) :
    String.utf8EncodeChar c = [UInt8.ofNat c.toNat] := by
  rw [String.utf8EncodeChar]
  exact if_pos (Nat.le_of_lt_succ h)

theorem utf8EncodeChar_high (h : 128 ≤ c.toNat) :
    ∀ b ∈ String.utf8EncodeChar c, 128 ≤ b.toNat := by
  have hl : ¬ c.val.toNat ≤ 127 := Nat.not_le.mpr h
  intro b hb
  rw [String.utf8EncodeChar] at hb
  simp only [hl, if_false] at hb
  split at hb
  all_goals first | split at hb | skip
  all_goals
    simp only [mem_cons, not_mem_nil, or_false] at hb
    rcases hb with rfl | rfl | rfl | rfl
  all_goals
    simp only [UInt8.toNat_ofNat']
    omega

theorem hexDigitValue_ge (h : hexDigitValue b = some d) : 32 ≤ b.toNat := by
  by_contra hb
  have hno (n : UInt8) (hn : 32 ≤ n.toNat) : ¬ n ≤ b := fun hle =>
    hb (Nat.le_trans hn (UInt8.le_iff_toNat_le.mp hle))
  rw [hexDigitValue, if_neg fun hd => hno 48 (by decide) hd.1,
    if_neg fun hd => hno 65 (by decide) hd.1, if_neg fun hd => hno 97 (by decide) hd.1] at h
  cases h

theorem HexFour.ge (h : HexFour ds n) : ∀ b ∈ ds, 32 ≤ b.toNat := by
  obtain ⟨h₁, h₂, h₃, h₄⟩ := h
  simp [hexDigitValue_ge h₁, hexDigitValue_ge h₂, hexDigitValue_ge h₃, hexDigitValue_ge h₄]

theorem JsonRest.ge (h : JsonRest text cs) : ∀ b ∈ text, 32 ≤ b.toNat := by
  induction h with
  | close => simp
  | @plain c _ _ hc _ _ _ ih =>
    intro b hb
    rcases mem_append.mp hb with hb | hb
    · by_cases hl : c.toNat < 128
      · rw [utf8EncodeChar_ascii hl, mem_singleton] at hb
        rw [hb, UInt8.toNat_ofNat']
        omega
      · exact Nat.le_trans (by decide) (utf8EncodeChar_high (Nat.not_lt.mp hl) b hb)
    · exact ih b hb
  | short hb _ ih =>
    have hs : ∀ e ∈ shortEscapes, 32 ≤ e.1.toNat := by decide
    simpa using ⟨hs _ hb, ih⟩
  | unicode hd _ ih => simpa [or_imp, forall_and] using ⟨hd.ge, ih⟩
  | pair hd he _ _ _ _ ih => simpa [or_imp, forall_and] using ⟨hd.ge, he.ge, ih⟩

end Literals

/-- A byte with its top bit set overruns the buffer. -/
theorem escapeByte_high (h : 128 ≤ b.toNat) : escapeByte b = .error .outOfBounds := by
  have hb := b.toNat_lt
  have hc : signedChar b = ((b.toNat - 128 : Nat) : Int) - 128 := by
    rw [signedChar, if_neg (Nat.not_lt.mpr h)]
    omega
  have hlen : ∀ n < 128, 8 < (sprintfUnicode ((n : Nat) - 128)).length := by decide +kernel
  rw [escapeByte, hc, if_pos (by omega), if_pos (hlen _ (by omega))]

theorem escapeByte_low (h : b.toNat < 32) : escapeByte b = .ok [b] := by
  have hc : signedChar b = b.toNat := if_pos (by omega)
  have hlen : ∀ n < 32, ¬ 8 < (sprintfUnicode (n : Nat)).length := by decide
  rw [escapeByte, hc, if_pos (by omega), if_neg (hlen _ h)]

theorem jsonEscapeLoop_spec (h : jsonEscapeLoop bytes = .ok out) :
    ∀ b ∈ bytes, b.toNat < 128 ∧ (b.toNat < 32 → b ∈ out) := by
  induction bytes generalizing out with
  | nil => nofun
  | cons a bytes ih =>
    obtain ⟨x, hx, h⟩ := bind_eq_ok.mp h
    obtain ⟨y, hy, h⟩ := bind_eq_ok.mp h
    cases h
    intro b hb
    rcases mem_cons.mp hb with rfl | hb
    · constructor
      · by_contra hl
        rw [escapeByte_high (Nat.not_lt.mp hl)] at hx
        cases hx
      · intro hl
        rw [escapeByte_low hl] at hx
        cases hx
        exact mem_cons_self
    · exact ⟨(ih hy b hb).1, fun hl => mem_append_right x ((ih hy b hb).2 hl)⟩

theorem jsonEscapeLoop_printable (h : ∀ c ∈ cs, 32 ≤ c.toNat ∧ c.toNat < 128) :
    ∃ out, jsonEscapeLoop (utf8 cs) = .ok out ∧ JsonRest (out ++ [34]) cs := by
  induction cs with
  | nil => exact ⟨[], rfl, .close⟩
  | cons c cs ih =>
    obtain ⟨hge, hlt⟩ := h c mem_cons_self
    obtain ⟨out, hout, hrest⟩ := ih fun d hd => h d (mem_cons_of_mem c hd)
    have hn : (UInt8.ofNat c.toNat).toNat = c.toNat := by
      rw [UInt8.toNat_ofNat']
      omega
    have hchar {d : Char} (heq : UInt8.ofNat c.toNat = UInt8.ofNat d.toNat) (hd : d.toNat < 128) :
        c = d := by
      have ht := congrArg UInt8.toNat heq
      rw [hn, UInt8.toNat_ofNat', Nat.mod_eq_of_lt (by omega)] at ht
      exact Char.ext (UInt32.toNat_inj.mp ht)
    have hc : signedChar (UInt8.ofNat c.toNat) = c.toNat := by
      rw [signedChar, hn, if_pos hlt]
    have hloop (x : Bytes) (hx : escapeByte (UInt8.ofNat c.toNat) = .ok x) :
        jsonEscapeLoop (utf8 (c :: cs)) = .ok (x ++ out) := by
      rw [utf8, flatMap_cons, utf8EncodeChar_ascii hlt, singleton_append, jsonEscapeLoop, hx, ok_bind]
      exact congrArg (· >>= fun y => pure (x ++ y)) hout
    rw [escapeByte, hc, if_neg (by omega)] at hloop
    split at hloop
    · next hb =>
      rw [hchar (d := '\\') hb (by decide)] at hloop ⊢
      exact ⟨_, hloop _ rfl, .short (by decide) hrest⟩
    · next hb =>
      split at hloop
      · next hq =>
        rw [hchar (d := '"') hq (by decide)] at hloop ⊢
        exact ⟨_, hloop _ rfl, .short (by decide) hrest⟩
      · next hq =>
        refine ⟨_, hloop _ rfl, ?_⟩
        rw [← utf8EncodeChar_ascii hlt, append_assoc]
        refine .plain hge ?_ ?_ hrest
        · rintro rfl
          exact hq rfl
        · rintro rfl
          exact hb rfl

/-- Every character is written as it is, so a literal comes out right for printable ones alone. -/
theorem json_escape_iff (before cs : List Char) :
    (∃ out, jsonEscape (utf8 (before ++ cs)) (utf8 before).length = .ok out ∧
        JsonLiteral (34 :: (out ++ [34])) cs) ↔
      ∀ c ∈ cs, 32 ≤ c.toNat ∧ c.toNat < 128 := by
  have hdrop : (utf8 (before ++ cs)).drop (utf8 before).length = utf8 cs := by
    simp only [utf8, flatMap_append, drop_left]
  rw [jsonEscape, hdrop]
  constructor
  · rintro ⟨out, hout, hlit⟩ c hc
    have hbytes {b : UInt8} (hb : b ∈ String.utf8EncodeChar c) :=
      jsonEscapeLoop_spec hout b (mem_flatMap.mpr ⟨c, hc, hb⟩)
    have hlt : c.toNat < 128 := by
      by_contra hl
      obtain ⟨b, hb⟩ := exists_mem_of_ne_nil _ String.utf8EncodeChar_ne_nil
      exact absurd (hbytes hb).1 (Nat.not_lt.mpr (utf8EncodeChar_high (Nat.not_lt.mp hl) b hb))
    have hb := @hbytes (UInt8.ofNat c.toNat)
    rw [utf8EncodeChar_ascii hlt, UInt8.toNat_ofNat', Nat.mod_eq_of_lt (by omega)] at hb
    refine ⟨?_, hlt⟩
    by_contra hl
    have hge := JsonRest.ge hlit _ (mem_append_left _ ((hb mem_cons_self).2 (Nat.not_le.mp hl)))
    rw [UInt8.toNat_ofNat', Nat.mod_eq_of_lt (by omega)] at hge
    exact hl hge
  · exact jsonEscapeLoop_printable

theorem json_escape_control :
    jsonEscape (utf8 ['\n']) 0 = .ok [10] ∧ ¬ JsonLiteral [34, 10, 34] ['\n'] ∧
      jsonEscape (utf8 ['é']) 0 = .error .outOfBounds :=
  ⟨by decide, fun h => absurd (JsonRest.ge h 10 mem_cons_self) (by decide), by decide⟩

end Attune.Sources
