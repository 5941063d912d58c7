import Attune.XSave

namespace Attune.XSave
open Attune.Memory List Option BitVec

section
variable {native layout : XSaveLayout} {data : Bytes}

theorem getLsbD_clear (features : BitVec 64) (i j : Nat) :
    (features &&& ~~~twoPow 64 j).getLsbD i = (features.getLsbD i && decide (i ≠ j)) := by
  by_cases hi : i < 64
  · by_cases hij : i = j
    · subst hij
      simp [hi]
    · simp [hi, hij, Ne.symm hij]
  · simp [getLsbD_of_ge _ _ (Nat.le_of_not_lt hi)]

theorem featuresUsed_eq (hlen : data.length = layout.fullSize) (hend : headerEnd ≤ layout.fullSize) :
    ∃ f, featuresUsed data layout = .ok f ∧ ∀ i, f.getLsbD i = true ↔ i < 32 ∧ Uses layout data i := by
  have hl : load data headerOffset 8 = .ok (peek data headerOffset 8) := by
    apply load_eq
    have : headerOffset + 8 ≤ headerEnd := by decide
    omega
  have hbit : ∀ i < 32, (BitVec.ofNat 64 (peek data headerOffset 8)).getLsbD i =
      (peek data headerOffset 8).testBit i := by
    intro i hi
    rw [getLsbD_ofNat, decide_eq_true (by omega), Bool.true_and]
  -- the result where the bit stays
  have hpl : (∀ i, i = featurePkru → (peek data headerOffset 8).testBit i = true →
      ¬ PkruZero layout data) → ∀ i,
      ((BitVec.ofNat 64 (peek data headerOffset 8)).setWidth 32).getLsbD i = true ↔
        i < 32 ∧ Uses layout data i := by
    intro hno i
    rw [getLsbD_setWidth, Bool.and_eq_true, decide_eq_true_eq]
    constructor
    · rintro ⟨hi, hb⟩
      rw [hbit i hi] at hb
      exact ⟨hi, hb, fun h => hno i h.1 hb h.2⟩
    · rintro ⟨hi, hb, _⟩
      exact ⟨hi, (hbit i hi).trans hb⟩
  rw [featuresUsed, hl]
  simp only [ok_bind]
  cases ha : layout.featureLayouts[featurePkru]? with
  | none =>
    refine ⟨_, rfl, hpl fun i _ _ => ?_⟩
    rintro ⟨fl, hfl, _⟩
    exact nomatch ha.symm.trans hfl
  | some fl =>
    have hu : PkruZero layout data → fl.offset + fl.size ≤ layout.fullSize ∧
        ∀ b ∈ slice data fl.offset fl.size, b = 0 := by
      rintro ⟨fl', hfl', hze⟩
      obtain rfl : fl = fl' := some.inj (ha.symm.trans hfl')
      exact hze
    by_cases hc : (BitVec.ofNat 64 (peek data headerOffset 8)).getLsbD featurePkru = true ∧
        fl.offset + fl.size ≤ layout.fullSize
    · have hco : copy data fl.offset fl.size = .ok (slice data fl.offset fl.size) :=
        copy_eq (.inr (hlen ▸ hc.2))
      simp only [if_pos hc, hco, ok_bind]
      by_cases hz : (slice data fl.offset fl.size).all (· == 0) = true
      · have hze : ∀ b ∈ slice data fl.offset fl.size, b = 0 := fun b hb =>
          eq_of_beq (all_eq_true.1 hz b hb)
        rw [if_pos hz]
        refine ⟨_, rfl, ?_⟩
        intro i
        rw [BitVec.getLsbD_setWidth, getLsbD_clear, Bool.and_eq_true, Bool.and_eq_true,
          decide_eq_true_eq, decide_eq_true_eq]
        constructor
        · rintro ⟨hi, hb, hne⟩
          exact ⟨hi, (hbit i hi).symm.trans hb, fun h => hne h.1⟩
        · rintro ⟨hi, hb, hno⟩
          exact ⟨hi, (hbit i hi).trans hb, fun h => hno ⟨h, fl, ha, hc.2, hze⟩⟩
      · rw [if_neg hz]
        refine ⟨_, rfl, hpl fun i _ _ hp => hz ?_⟩
        apply all_eq_true.2
        intro b hb
        exact beq_iff_eq.2 ((hu hp).2 b hb)
    · simp only [if_neg hc]
      refine ⟨_, rfl, hpl fun i hi hb hp => hc ?_⟩
      subst hi
      exact ⟨(hbit _ (by decide)).trans hb, (hu hp).1⟩

theorem copyFeatures_stop {features : BitVec 64} (hf : features.getLsbD i = true)
    (hn : native.Area i nfl) (hm : ¬ Movable native layout i) (is : List Nat) (out : Bytes) :
    copyFeatures native layout data features (i :: is) out = .ok (false, out) := by
  rw [copyFeatures, if_pos hf]
  cases hfl : layout.featureLayouts[i]? with
  | none => rfl
  | some fl =>
    by_cases hin : fl.offset + fl.size > layout.fullSize
    · exact if_pos hin
    · have hsi : fl.size ≠ nfl.size := fun h =>
        hm ⟨fl, nfl, hfl, hn, Nat.le_of_not_gt hin, h⟩
      have hnfl : native.featureLayouts[i]? = some nfl := hn
      simp only [if_neg hin, hnfl, if_pos hsi]

theorem copyFeatures_move {features : BitVec 64} (hf : features.getLsbD i = true)
    (hlen : data.length = layout.fullSize) (hfl : layout.Area i fl) (hn : native.Area i nfl)
    (hin : fl.offset + fl.size ≤ layout.fullSize) (hsi : fl.size = nfl.size) {out : Bytes}
    (hout : nfl.offset + nfl.size ≤ out.length) (is : List Nat) :
    copyFeatures native layout data features (i :: is) out =
      copyFeatures native layout data features is
        (overwrite out nfl.offset (slice data fl.offset fl.size)) := by
  have hsl : (slice data fl.offset fl.size).length = nfl.size :=
    (length_slice_eq (hlen ▸ hin)).trans hsi
  have hfl' : layout.featureLayouts[i]? = some fl := hfl
  have hnfl : native.featureLayouts[i]? = some nfl := hn
  have hc : copy data fl.offset fl.size = .ok (slice data fl.offset fl.size) :=
    copy_eq (.inr (hlen ▸ hin))
  have hin' : ¬ fl.offset + fl.size > layout.fullSize := Nat.not_lt.2 hin
  rw [copyFeatures, if_pos hf]
  simp only [hfl', hnfl, hsi, ne_eq, not_true, if_false]
  rw [← hsi, if_neg hin', hc, ok_bind, store_eq (hsl.symm ▸ hout), ok_bind]

/-- The loop moves the areas of the features and nothing else, or stops at one that cannot be moved.
-/
theorem copyFeatures_eq (hw : native.WellFormed) (hlen : data.length = layout.fullSize)
    {features : BitVec 64}
    (hsup : ∀ i, features.getLsbD i = true → native.supportedFeatureBits.getLsbD i = true)
    {is : List Nat} (his : ∀ i ∈ is, 2 ≤ i) (hno : is.Nodup) {out : Bytes}
    (hout : out.length = native.fullSize) :
    ∃ ok out', copyFeatures native layout data features is out = .ok (ok, out') ∧
      (ok = true ↔ ∀ i ∈ is, features.getLsbD i = true → Movable native layout i) ∧
      (ok = true → out'.length = native.fullSize ∧
        (∀ i ∈ is, features.getLsbD i = true → ∀ fl nfl, layout.Area i fl → native.Area i nfl →
          slice out' nfl.offset nfl.size = slice data fl.offset fl.size) ∧
        ∀ j, (∀ i ∈ is, features.getLsbD i = true → ∀ nfl, native.Area i nfl →
          ¬ (nfl.offset ≤ j ∧ j < nfl.offset + nfl.size)) → out'[j]? = out[j]?) := by
  induction is generalizing out with
  | nil =>
    refine ⟨true, out, rfl, by simp, fun _ => ⟨hout, ?_, fun _ _ => rfl⟩⟩
    intro i hi
    exact absurd hi not_mem_nil
  | cons i is ih =>
    rw [forall_mem_cons] at his
    rw [nodup_cons] at hno
    by_cases hf : features.getLsbD i = true
    · obtain ⟨nfl, hn, _, hnin⟩ := hw.entry i his.1 (hsup i hf)
      by_cases hm : Movable native layout i
      · obtain ⟨fl, nfl', hfl, hn', hin, hsi⟩ := hm
        obtain rfl : nfl = nfl' := some.inj (hn.symm.trans hn')
        have hsl : (slice data fl.offset fl.size).length = nfl.size :=
          (length_slice_eq (hlen ▸ hin)).trans hsi
        have hfit : nfl.offset + (slice data fl.offset fl.size).length ≤ out.length := by
          rw [hsl, hout]
          exact hnin
        obtain ⟨ok, out', hc, hok, hres⟩ :=
          ih his.2 hno.2 ((length_overwrite hfit).trans hout)
        refine ⟨ok, out', ?_, ?_, ?_⟩
        · rw [copyFeatures_move hf hlen hfl hn hin hsi (hout ▸ hnin), hc]
        · rw [hok, forall_mem_cons]
          exact ⟨fun h => ⟨fun _ => ⟨fl, nfl, hfl, hn, hin, hsi⟩, h⟩, fun h => h.2⟩
        · intro ht
          obtain ⟨hl', ha, hr⟩ := hres ht
          refine ⟨hl', ?_, ?_⟩
          · rw [forall_mem_cons]
            refine ⟨?_, ha⟩
            intro _ fl' nfl' hfl' hn'
            obtain rfl : fl = fl' := some.inj (hfl.symm.trans hfl')
            obtain rfl : nfl = nfl' := some.inj (hn.symm.trans hn')
            -- the areas that are moved later are apart from this one
            have hk : slice out' nfl.offset nfl.size =
                slice (overwrite out nfl.offset (slice data fl.offset fl.size)) nfl.offset
                  nfl.size := by
              apply slice_congr
              intro j hle hlt
              apply hr j
              intro i' hi' hf' nfl' hn' hj
              have hne : i ≠ i' := fun h => hno.1 (h ▸ hi')
              have hd := hw.disjoint i i' nfl nfl' his.1 (his.2 i' hi') hne (hsup i hf) (hsup i' hf')
                hn hn'
              omega
            rw [hk, ← hsl, slice_overwrite hfit]
          · intro j hj
            rw [forall_mem_cons] at hj
            rw [hr j hj.2, getElem?_overwrite hfit, hsl, if_neg (hj.1 hf nfl hn)]
      · refine ⟨false, out, copyFeatures_stop hf hn hm is out, ?_, fun h => (nomatch h)⟩
        constructor
        · intro h
          exact nomatch h
        · intro h
          exact absurd (h i mem_cons_self hf) hm
    · obtain ⟨ok, out', hc, hok, hres⟩ := ih his.2 hno.2 hout
      refine ⟨ok, out', ?_, ?_, ?_⟩
      · rw [copyFeatures, if_neg hf, hc]
      · rw [hok, forall_mem_cons]
        exact ⟨fun h => ⟨fun h' => absurd h' hf, h⟩, fun h => h.2⟩
      · intro ht
        obtain ⟨hl', ha, hr⟩ := hres ht
        refine ⟨hl', ?_, ?_⟩
        · rw [forall_mem_cons]
          exact ⟨fun h => absurd h hf, ha⟩
        · intro j hj
          exact hr j (forall_mem_cons.1 hj).2

def blank (native : XSaveLayout) (data : Bytes) : Bytes :=
  slice data 0 headerOffset ++ List.replicate (native.fullSize - headerOffset) 0

theorem length_resize (m : Bytes) (size : Nat) : (resize m size).length = size := by
  simp only [resize, length_append, length_take, length_replicate]
  omega

section
variable (hw : native.WellFormed) (hlen : data.length = layout.fullSize)
  (hlegacy : headerOffset ≤ layout.fullSize)
include hw hlen hlegacy

theorem length_legacy : (slice data 0 headerOffset).length = headerOffset :=
  length_slice_eq (by omega)

theorem length_blank : (blank native data).length = native.fullSize := by
  have hf := hw.legacy
  rw [blank, length_append, length_legacy hw hlen hlegacy, length_replicate]
  omega

theorem stores_blank (old : Bytes) : copy data 0 headerOffset = .ok (slice data 0 headerOffset) ∧
    ∃ first, store (resize old native.fullSize) 0 (slice data 0 headerOffset) = .ok first ∧
      store first headerOffset (replicate (native.fullSize - headerOffset) 0) =
        .ok (blank native data) := by
  have hfu := hw.legacy
  have hleg := length_legacy hw hlen hlegacy
  have hfit : 0 + (slice data 0 headerOffset).length ≤ (resize old native.fullSize).length := by
    rw [length_resize, hleg]
    omega
  have hf := length_overwrite hfit
  rw [length_resize] at hf
  refine ⟨copy_eq (.inr (by omega)), _, store_eq hfit, ?_⟩
  rw [store_eq]
  · have ht : (overwrite (resize old native.fullSize) 0 (slice data 0 headerOffset)).take
        headerOffset = slice data 0 headerOffset := by
      rw [overwrite, take_zero, nil_append, take_left' hleg]
    rw [overwrite, ht, blank, drop_eq_nil_iff.2, append_nil]
    rw [hf, length_replicate]
    omega
  · rw [hf, length_replicate]
    omega

end

def withHeader (native : XSaveLayout) (data : Bytes) (features : BitVec 64) : Bytes :=
  overwrite (overwrite (blank native data) headerOffset (encode 8 features.toNat)) (headerOffset + 8)
    (slice data (headerOffset + 8) (headerSize - 8))

theorem unsupported_iff {f : BitVec 32}
    (hf : ∀ i, f.getLsbD i = true ↔ i < 32 ∧ Uses layout data i) :
    (f.setWidth 64 &&& ~~~native.supportedFeatureBits != 0) = true ↔
      ∃ i < 32, Uses layout data i ∧ native.supportedFeatureBits.getLsbD i = false := by
  have hbit : ∀ i < 64, (f.setWidth 64 &&& ~~~native.supportedFeatureBits).getLsbD i = true ↔
      (i < 32 ∧ Uses layout data i) ∧ native.supportedFeatureBits.getLsbD i = false := by
    intro i hi
    simp only [getLsbD_and, getLsbD_not, getLsbD_setWidth, hi, decide_true,
      Bool.true_and, Bool.and_eq_true, hf, Bool.not_eq_true']
  have hz : ∀ i, (0 : BitVec 64).getLsbD i = false := fun i => getLsbD_zero
  rw [bne_iff_ne]
  constructor
  · intro hne
    by_contra hno
    apply hne
    apply eq_of_getLsbD_eq
    intro i hi
    rw [hz, ← Bool.not_eq_true]
    intro hb
    obtain ⟨⟨hi', hu⟩, hs⟩ := (hbit i hi).1 hb
    exact hno ⟨i, hi', hu, hs⟩
  · rintro ⟨i, hi, hu, hs⟩ hn
    have hb := (hbit i (by omega)).2 ⟨⟨hi, hu⟩, hs⟩
    rw [hn, hz] at hb
    exact nomatch hb

/-- Between layouts with a header: refused for a feature that is not supported, or the areas are
moved. -/
theorem setToRawData_full (hw : native.WellFormed) (hlen : data.length = layout.fullSize)
    (hnative : headerEnd ≤ native.fullSize) (hlayout : headerEnd ≤ layout.fullSize)
    {f : BitVec 32} (hf : featuresUsed data layout = .ok f) (old : Bytes) :
    setToRawData native layout data old =
      if f.setWidth 64 &&& ~~~native.supportedFeatureBits != 0 then .ok (false, blank native data)
      else copyFeatures native layout data (f.setWidth 64) (range' 2 62)
        (withHeader native data (f.setWidth 64)) := by
  have hoff : headerOffset + headerSize = headerEnd := rfl
  have hsi : headerSize = 64 := rfl
  have hlegacy : headerOffset ≤ layout.fullSize := by omega
  obtain ⟨hc, first, hfi, hse⟩ := stores_blank hw hlen hlegacy old
  have hu : usesUnsupported native layout data =
      .ok (f.setWidth 64 &&& ~~~native.supportedFeatureBits != 0) := by
    rw [usesUnsupported, if_pos hlayout, hf]
    rfl
  have hb := length_blank hw hlen hlegacy
  have hfit : headerOffset + (encode 8 (f.setWidth 64).toNat).length ≤
      (blank native data).length := by
    rw [length_encode, hb]
    omega
  have hc' : copy data (headerOffset + 8) (headerSize - 8) =
      .ok (slice data (headerOffset + 8) (headerSize - 8)) := copy_eq (.inr (by omega))
  have hf' : headerOffset + 8 + (slice data (headerOffset + 8) (headerSize - 8)).length ≤
      (overwrite (blank native data) headerOffset (encode 8 (f.setWidth 64).toNat)).length := by
    rw [length_overwrite hfit, hb, length_slice_eq (by omega)]
    omega
  rw [setToRawData, if_neg (not_not.2 hlen), if_neg (Nat.not_lt.2 hlegacy), hc, ok_bind, hfi,
    ok_bind, hse, ok_bind, hu, ok_bind]
  split
  · rfl
  · rw [if_neg (Nat.not_lt.2 hnative), if_neg (Nat.not_lt.2 hlayout), hf, ok_bind]
    dsimp only
    rw [store_eq hfit, ok_bind, hc', ok_bind, store_eq hf', ok_bind]
    rfl

theorem setToRawData_runs (hw : native.WellFormed) (hfu : ¬ (headerEnd ≤ native.fullSize ∧
    headerEnd ≤ layout.fullSize ∧ data.length = layout.fullSize)) (old : Bytes) :
    ∃ ok out, setToRawData native layout data old = .ok (ok, out) ∧
      (data.length ≠ layout.fullSize → ok = false) := by
  by_cases hlen : data.length = layout.fullSize
  · by_cases hlegacy : layout.fullSize < headerOffset
    · refine ⟨false, resize old native.fullSize, ?_, fun _ => rfl⟩
      rw [setToRawData, if_neg (not_not.2 hlen), if_pos hlegacy]
    · obtain ⟨hc, first, hfi, hse⟩ :=
        stores_blank hw hlen (Nat.le_of_not_lt hlegacy) old
      rw [setToRawData, if_neg (not_not.2 hlen), if_neg hlegacy, hc, ok_bind, hfi, ok_bind,
        hse, ok_bind]
      have hu : ∃ b, usesUnsupported native layout data = .ok b := by
        rw [usesUnsupported]
        split
        next hend =>
          obtain ⟨f, hf, _⟩ := featuresUsed_eq hlen hend
          rw [hf]
          exact ⟨_, rfl⟩
        next => exact ⟨false, rfl⟩
      obtain ⟨b, hb⟩ := hu
      rw [hb, ok_bind]
      cases b with
      | true => exact ⟨false, _, rfl, fun _ => rfl⟩
      | false =>
        by_cases hnative : native.fullSize < headerEnd
        · refine ⟨true, blank native data, ?_, fun h => absurd hlen h⟩
          rw [if_neg Bool.false_ne_true, if_pos hnative]
          rfl
        have hlayout : layout.fullSize < headerEnd := by
          apply Nat.lt_of_not_le
          intro hle
          exact hfu ⟨Nat.le_of_not_lt hnative, hle, hlen⟩
        have hfit : headerOffset + (encode 8 3).length ≤ (blank native data).length := by
          have hoff : headerOffset + 8 ≤ headerEnd := by decide
          rw [length_encode, length_blank hw hlen (Nat.le_of_not_lt hlegacy)]
          omega
        refine ⟨true, overwrite (blank native data) headerOffset (encode 8 3), ?_,
          fun h => absurd hlen h⟩
        rw [if_neg Bool.false_ne_true, if_neg hnative, if_pos hlayout, store_eq hfit]
        rfl
  · refine ⟨false, old, ?_, fun _ => rfl⟩
    rw [setToRawData, if_pos hlen]

section
variable (hw : native.WellFormed) (hlen : data.length = layout.fullSize)
  (hnative : headerEnd ≤ native.fullSize) (hlayout : headerEnd ≤ layout.fullSize)
include hw hlen hnative hlayout

theorem withHeader_eq (features : BitVec 64) :
    (withHeader native data features).length = native.fullSize ∧
    slice (withHeader native data features) 0 headerOffset = slice data 0 headerOffset ∧
    peek (withHeader native data features) headerOffset 8 = features.toNat ∧
    ∀ j, headerEnd ≤ j → j < native.fullSize → (withHeader native data features)[j]? = some 0 := by
  have hoff : headerOffset + headerSize = headerEnd := rfl
  have hsi : headerSize = 64 := rfl
  have hlegacy : headerOffset ≤ layout.fullSize := by omega
  have hb := length_blank hw hlen hlegacy
  have hleg := length_legacy hw hlen hlegacy
  have henc := length_encode 8 features.toNat
  have hfit : headerOffset + (encode 8 features.toNat).length ≤ (blank native data).length := by
    omega
  have hf := length_overwrite hfit
  have hsl : (slice data (headerOffset + 8) (headerSize - 8)).length = headerSize - 8 :=
    length_slice_eq (by omega)
  have hf' : headerOffset + 8 + (slice data (headerOffset + 8) (headerSize - 8)).length ≤
      (overwrite (blank native data) headerOffset (encode 8 features.toNat)).length := by
    omega
  have hget : ∀ j, ¬ (headerOffset ≤ j ∧ j < headerEnd) →
      (withHeader native data features)[j]? = (blank native data)[j]? := by
    intro j hj
    rw [withHeader, getElem?_overwrite hf', if_neg (by omega), getElem?_overwrite hfit,
      if_neg (by omega)]
  refine ⟨?_, ?_, ?_, ?_⟩
  · rw [withHeader, length_overwrite hf', hf, hb]
  · have hk : slice (withHeader native data features) 0 headerOffset =
        slice (blank native data) 0 headerOffset := by
      apply slice_congr
      intro j _ hj
      exact hget j (by omega)
    rw [hk, blank, slice, drop_zero, take_left' hleg]
  · have hk : slice (withHeader native data features) headerOffset 8 =
        slice (overwrite (blank native data) headerOffset (encode 8 features.toNat))
          headerOffset 8 := by
      apply slice_congr
      intro j _ hj
      rw [withHeader, getElem?_overwrite hf', if_neg (by omega)]
    have hse := slice_overwrite hfit
    rw [henc] at hse
    rw [peek, hk, hse, littleEndian_encode]
    exact Nat.mod_eq_of_lt features.isLt
  · intro j hle hlt
    rw [hget j (by omega), blank, getElem?_append_right (by omega), hleg,
      getElem?_replicate, if_pos (by omega)]

/-- By the features below 32: it succeeds when none is in the way, and then the result has just
these. -/
theorem setToRawData_low (old : Bytes) :
    ∃ ok out, setToRawData native layout data old = .ok (ok, out) ∧
      (ok = true ↔ ¬ LowRejected native layout data) ∧
      (ok = true → out.length = native.fullSize ∧
        (∀ i, 2 ≤ i → i < 32 → Uses layout data i → ∃ fl nfl, layout.Area i fl ∧
          native.Area i nfl ∧ slice out nfl.offset nfl.size = slice data fl.offset fl.size) ∧
        (∀ i < 64, (peek out headerOffset 8).testBit i = true ↔ i < 32 ∧ Uses layout data i) ∧
        slice out 0 headerOffset = slice data 0 headerOffset ∧
        ∀ j, headerEnd ≤ j → j < native.fullSize →
          (∀ i nfl, 2 ≤ i → i < 32 → Uses layout data i → native.Area i nfl →
            ¬ (nfl.offset ≤ j ∧ j < nfl.offset + nfl.size)) → out[j]? = some 0) := by
  obtain ⟨f, hf, hbi⟩ := featuresUsed_eq hlen hlayout
  have huns : _ ↔ ∃ i < 32, Uses layout data i ∧
      native.supportedFeatureBits.getLsbD i = false := unsupported_iff hbi
  rw [setToRawData_full hw hlen hnative hlayout hf]
  by_cases hun : (f.setWidth 64 &&& ~~~native.supportedFeatureBits != 0) = true
  · obtain ⟨i, hi, hu, hs⟩ := huns.1 hun
    refine ⟨false, blank native data, if_pos hun, ?_, fun h => (nomatch h)⟩
    constructor
    · intro h
      exact nomatch h
    · intro h
      exact absurd ⟨i, hi, hu, .inl hs⟩ h
  · have hbit : ∀ i, (f.setWidth 64).getLsbD i = true ↔ i < 32 ∧ Uses layout data i := by
      intro i
      rw [getLsbD_setWidth, Bool.and_eq_true, decide_eq_true_eq, hbi]
      exact ⟨fun h => h.2, fun h => ⟨by omega, h⟩⟩
    have hsup : ∀ i, (f.setWidth 64).getLsbD i = true →
        native.supportedFeatureBits.getLsbD i = true := by
      intro i hi
      obtain ⟨hlt, hu⟩ := (hbit i).1 hi
      rw [← Bool.not_eq_false]
      intro hs
      exact hun (huns.2 ⟨i, hlt, hu, hs⟩)
    obtain ⟨hl, hlegacy, hh, hz⟩ :=
      withHeader_eq hw hlen hnative hlayout (f.setWidth 64)
    have hr : ∀ i, i ∈ range' 2 62 ↔ 2 ≤ i ∧ i < 64 := fun i => mem_range'_1
    obtain ⟨ok, out, hc, hok, hres⟩ := copyFeatures_eq hw hlen hsup
      (fun i hi => ((hr i).1 hi).1) nodup_range' hl
    refine ⟨ok, out, (if_neg hun).trans hc, ?_, ?_⟩
    · rw [hok]
      constructor
      · rintro hall ⟨i, hi, hu, hs | ⟨h2, hm⟩⟩
        · exact nomatch (hsup i ((hbit i).2 ⟨hi, hu⟩)).symm.trans hs
        · exact hm (hall i ((hr i).2 ⟨h2, by omega⟩) ((hbit i).2 ⟨hi, hu⟩))
      · intro hno i hi hb
        by_contra hm
        obtain ⟨hlt, hu⟩ := (hbit i).1 hb
        exact hno ⟨i, hlt, hu, .inr ⟨((hr i).1 hi).1, hm⟩⟩
    · intro ht
      obtain ⟨hl', ha, hre⟩ := hres ht
      -- the areas are after the header
      have hfr : ∀ j < headerEnd, out[j]? = (withHeader native data (f.setWidth 64))[j]? := by
        intro j hj
        apply hre j
        intro i hi hb nfl hn hin
        obtain ⟨nfl', hn', hle, _⟩ := hw.entry i ((hr i).1 hi).1 (hsup i hb)
        obtain rfl : nfl = nfl' := some.inj (hn.symm.trans hn')
        omega
      have hoff : headerOffset + 8 ≤ headerEnd := by decide
      refine ⟨hl', ?_, ?_, ?_, ?_⟩
      · intro i h2 hi hu
        have hmem := (hr i).2 ⟨h2, by omega⟩
        have hb := (hbit i).2 ⟨hi, hu⟩
        obtain ⟨fl, nfl, hfl, hn, _⟩ := hok.1 ht i hmem hb
        exact ⟨fl, nfl, hfl, hn, ha i hmem hb fl nfl hfl hn⟩
      · intro i _
        have hp : peek out headerOffset 8 = (f.setWidth 64).toNat := by
          rw [← hh, peek, peek]
          congr 1
          apply slice_congr
          intro j _ hj
          exact hfr j (by omega)
        rw [hp, testBit_toNat, hbit]
      · rw [← hlegacy]
        apply slice_congr
        intro j _ hj
        exact hfr j (by omega)
      · intro j hle hlt hno
        rw [← hz j hle hlt]
        apply hre j
        intro i hi hb nfl hn
        obtain ⟨hlt, hu⟩ := (hbit i).1 hb
        exact hno i nfl ((hr i).1 hi).1 hlt hu hn

end

/-- The conversion is right just when no feature from 32 up is used, or it is refused anyway. -/
theorem converts_iff (native : XSaveLayout) (hw : native.WellFormed) (layout : XSaveLayout)
    (data old : Bytes) : Converts native layout data old ↔
      (headerEnd ≤ native.fullSize → headerEnd ≤ layout.fullSize → data.length = layout.fullSize →
        LowRejected native layout data ∨
          ∀ i, 32 ≤ i → i < 64 → (peek data headerOffset 8).testBit i = false) := by
  have hhi : ∀ i, 32 ≤ i → (peek data headerOffset 8).testBit i = true → Uses layout data i := by
    intro i hi hb
    refine ⟨hb, fun h => ?_⟩
    have hp : featurePkru = 9 := rfl
    omega
  constructor
  · rintro ⟨ok, out, hset, hc⟩ hnative hlayout hlen
    obtain ⟨ok', out', hs', hok, hres⟩ := setToRawData_low hw hlen hnative hlayout old
    obtain ⟨rfl, rfl⟩ := Prod.mk.inj (Except.ok.inj (hset.symm.trans hs'))
    by_cases hrej : LowRejected native layout data
    · exact .inl hrej
    right
    intro i hle hlt
    have ht := hok.2 hrej
    rw [← Bool.not_eq_true]
    intro hb
    have hh := ((hc hnative hlayout).2 ht).header i hlt
    have hlow := (hres ht).2.2.1 i hlt
    have := hlow.1 (hh.2 (hhi i hle hb))
    omega
  · intro h
    by_cases hfu : headerEnd ≤ native.fullSize ∧ headerEnd ≤ layout.fullSize ∧
        data.length = layout.fullSize
    · obtain ⟨hnative, hlayout, hlen⟩ := hfu
      obtain ⟨ok, out, hset, hok, hres⟩ := setToRawData_low hw hlen hnative hlayout old
      refine ⟨ok, out, hset, fun _ _ => ?_⟩
      rcases h hnative hlayout hlen with hrej | hn
      · have hf : ok = false := by
          rw [← Bool.not_eq_true, hok]
          exact fun hno => hno hrej
        exact ⟨fun _ => hf, fun ht => (nomatch ht.symm.trans hf)⟩
      · have hlow : ∀ i < 64, Uses layout data i → i < 32 := by
          intro i hi hu
          apply Nat.lt_of_not_le
          intro hle
          exact nomatch hu.1.symm.trans (hn i hle hi)
        constructor
        · rintro ⟨i, hi, hu, hs⟩
          rw [← Bool.not_eq_true, hok]
          exact fun hno => hno ⟨i, hlow i hi hu, hu, .inl hs⟩
        · intro ht
          obtain ⟨hsi, ha, hh, hlegacy, hz⟩ := hres ht
          refine ⟨hsi, ?_, ?_, hlegacy, ?_⟩
          · intro i h2 hi hu
            exact ha i h2 (hlow i hi hu) hu
          · intro i hi
            rw [hh i hi]
            exact ⟨fun hu => hu.2, fun hu => ⟨hlow i hi hu, hu⟩⟩
          · intro j hle hlt hno
            apply hz j hle hlt
            intro i nfl h2 hi
            exact hno i nfl h2 (by omega)
    · obtain ⟨ok, out, hset, hf⟩ := setToRawData_runs hw hfu old
      refine ⟨ok, out, hset, fun hnative hlayout => ?_⟩
      have hne : data.length ≠ layout.fullSize := fun hlen => hfu ⟨hnative, hlayout, hlen⟩
      exact ⟨fun _ => hf hne, fun ht => (nomatch ht.symm.trans (hf hne))⟩

end

def headerOnly : XSaveLayout := ⟨headerEnd, 3, []⟩

theorem headerOnly_wellFormed : headerOnly.WellFormed := by
  have hbi : ∀ i, 2 ≤ i → ¬ headerOnly.supportedFeatureBits.getLsbD i = true := by
    intro i hi hb
    have hlt : i < 64 := by
      apply Nat.lt_of_not_le
      intro hle
      exact nomatch (getLsbD_of_ge _ _ hle).symm.trans hb
    revert hb
    exact (by decide : ∀ i < 64, 2 ≤ i → ¬ headerOnly.supportedFeatureBits.getLsbD i = true) i hlt hi
  exact ⟨by decide, fun i hi hb => absurd hb (hbi i hi),
    fun i _ _ _ hi _ _ hb => absurd hb (hbi i hi)⟩

def headerData (position : Nat) (features : UInt8) : Bytes :=
  (List.replicate headerEnd 0).set (headerOffset + position) features

theorem converts_iff_header_only :
    headerOnly.WellFormed ∧ (Converts headerOnly headerOnly (headerData 0 1) [] ↔
      (headerEnd ≤ headerOnly.fullSize → headerEnd ≤ headerOnly.fullSize →
        (headerData 0 1).length = headerOnly.fullSize →
        LowRejected headerOnly headerOnly (headerData 0 1) ∨
          ∀ i, 32 ≤ i → i < 64 → (peek (headerData 0 1) headerOffset 8).testBit i = false)) :=
  ⟨headerOnly_wellFormed, converts_iff headerOnly headerOnly_wellFormed headerOnly _ _⟩

/-- Feature 40 is used and not supported, and the conversion succeeds. -/
theorem high_feature_accepted : headerOnly.WellFormed ∧ Uses headerOnly (headerData 5 1) 40 ∧
      headerOnly.supportedFeatureBits.getLsbD 40 = false ∧
      (setToRawData headerOnly headerOnly (headerData 5 1) []).toOption.map Prod.fst = some true := by
  refine ⟨headerOnly_wellFormed, ⟨by decide +kernel, ?_⟩, by decide, by decide +kernel⟩
  rintro ⟨h, _⟩
  exact nomatch h

end Attune.XSave
