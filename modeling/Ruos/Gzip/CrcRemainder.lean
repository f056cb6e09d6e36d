import Mathlib.Algebra.CharP.Two
import Mathlib.Algebra.Field.ZMod
import Mathlib.Algebra.Polynomial.OfFn
import Mathlib.RingTheory.AdjoinRoot
import Ruos.Gzip.Format

/-! Both CRC-32s compute a remainder of polynomials over the field of two elements. -/
namespace Ruos.Crc

open Polynomial

/-- The bits as coefficients, the lowest bit at the highest power. -/
noncomputable def bits {w : Nat} (c : BitVec w) : (ZMod 2)[X] := ofFn w fun i => if c.getMsbD i then 1 else 0

noncomputable def message : List UInt8 → (ZMod 2)[X]
  | [] => 0
  | b :: data => bits b.toBitVec * X ^ (8 * data.length) + message data

noncomputable def generator : (ZMod 2)[X] := X ^ 32 + bits 0xEDB88320#32

/-- The message after the initial register, with room for the checksum, divided by the generator. -/
noncomputable def remainder (data : List UInt8) : (ZMod 2)[X] :=
  (bits (0xFFFFFFFF : UInt32).toBitVec * X ^ (8 * data.length) + message data * X ^ 32) %ₘ generator

variable {w : Nat}

@[simp] theorem coeff_bits (c : BitVec w) (n : Nat) : (bits c).coeff n = if c.getMsbD n then 1 else 0 := by
  by_cases hn : n < w
  · exact ofFn_coeff_eq_val_of_lt _ hn
  · rw [bits, ofFn_coeff_eq_zero_of_ge _ (by omega)]
    simp [BitVec.getMsbD, hn]

theorem bits_xor (a b : BitVec w) : bits (a ^^^ b) = bits a + bits b := by
  ext n
  rw [coeff_add, coeff_bits, coeff_bits, coeff_bits, BitVec.getMsbD_xor]
  cases a.getMsbD n <;> cases b.getMsbD n <;> decide

theorem bits_injective : Function.Injective (bits (w := w)) := by
  intro a b h
  refine BitVec.eq_of_getMsbD_eq fun n hn => ?_
  have hc := congrArg (coeff · n) h
  simp only [coeff_bits] at hc
  revert hc
  cases a.getMsbD n <;> cases b.getMsbD n <;> decide

theorem bits_setWidth (b : BitVec 8) : bits (b.setWidth 32) = X ^ 24 * bits b := by
  ext n
  rw [coeff_X_pow_mul', coeff_bits, coeff_bits, BitVec.getMsbD_setWidth]
  by_cases hn : 24 ≤ n <;> simp [hn]

theorem shift_bits {m : BitVec 32} {k : Nat} (hm : ∀ j < 32, m.getMsbD j = decide (32 ≤ j + k)) (c : BitVec 32) :
    X ^ k * bits c = bits (c >>> k) + X ^ k * bits (c &&& m) := by
  ext n
  rw [coeff_add, coeff_X_pow_mul', coeff_X_pow_mul', coeff_bits, coeff_bits, coeff_bits, BitVec.getMsbD_ushiftRight,
    BitVec.getMsbD_and]
  by_cases hn : k ≤ n
  · by_cases hj : n - k < 32
    · have hmask : m.getMsbD (n - k) = decide (32 ≤ n) := by rw [hm _ hj, Nat.sub_add_cancel hn]
      by_cases h32 : 32 ≤ n <;> simp [hn, h32, hmask, Nat.not_lt.mpr, Nat.lt_of_not_le]
    · simp [hn, BitVec.getMsbD_of_ge _ _ (Nat.le_of_not_lt hj)]
  · simp [hn]

open AdjoinRoot (mk)

theorem degree_bits (c : UInt32) : (bits c.toBitVec).degree < generator.degree := by
  have hlt (c : BitVec 32) : (bits c).degree < (X ^ 32 : (ZMod 2)[X]).degree := by
    rw [degree_X_pow]
    exact ofFn_degree_lt _
  rw [generator, degree_add_eq_left_of_degree_lt (hlt _)]
  exact hlt _

theorem mk_crc32Bit (c : UInt32) : mk generator (bits (crc32Bit c).toBitVec) = mk generator (X * bits c.toBitVec) := by
  have hshift := shift_bits (m := 1#32) (k := 1) (by decide) c.toBitVec
  rw [← pow_one X, hshift, crc32Bit]
  split_ifs with hlow
  · have hone : c.toBitVec &&& 1#32 = 1#32 := by
      have heq := BitVec.and_one_eq_setWidth_ofBool_getLsbD (x := c.toBitVec)
      cases hbit : c.toBitVec.getLsbD 0 <;> rw [hbit] at heq
      · exact absurd (UInt32.toBitVec_inj.mp heq) hlow
      · exact heq
    have hgen : X ^ 1 * bits 1#32 = generator + bits 0xEDB88320#32 := by
      rw [generator, add_assoc, CharTwo.add_self_eq_zero, add_zero, show 32 = 1 + 31 from rfl, pow_add]
      refine congrArg (X ^ 1 * ·) ?_
      ext n
      simp [coeff_X_pow, BitVec.getMsbD_one]
    rw [hone, hgen, UInt32.toBitVec_xor, bits_xor, map_add, map_add, map_add, AdjoinRoot.mk_self, zero_add]
    rfl
  · have hzero : c.toBitVec &&& 1#32 = 0#32 := congrArg UInt32.toBitVec (not_not.mp hlow)
    have : bits 0#32 = 0 := by
      ext
      simp
    rw [hzero, this, mul_zero, add_zero]
    rfl

theorem mk_iterate (n : Nat) (c : UInt32) :
    mk generator (bits (crc32Bit^[n] c).toBitVec) = mk generator (X ^ n * bits c.toBitVec) := by
  induction n with
  | zero => simp
  | succ n ih =>
    rw [Function.iterate_succ_apply', mk_crc32Bit, map_mul, ih, ← map_mul, pow_succ', mul_assoc]

/-- What a step from a register over a byte does to the polynomials. -/
def StepsBy (f : UInt32 → UInt8 → UInt32) : Prop :=
  ∀ c b, mk generator (bits (f c b).toBitVec) = mk generator (X ^ 8 * (bits c.toBitVec + X ^ 24 * bits b.toBitVec))

theorem bits_start (c : UInt32) (b : UInt8) :
    bits (c ^^^ b.toUInt32).toBitVec = bits c.toBitVec + X ^ 24 * bits b.toBitVec := by
  rw [UInt32.toBitVec_xor, bits_xor, UInt8.toBitVec_toUInt32, bits_setWidth]

theorem stepsBy_crc32Byte : StepsBy crc32Byte := by
  intro c b
  rw [crc32Byte, mk_iterate, bits_start]

theorem crc32Step_eq (c : UInt32) (b : UInt8) :
    Gzip.crc32Step c b = crc32Bit^[8] ((c ^^^ b.toUInt32) &&& 0xFF) ^^^ ((c ^^^ b.toUInt32) >>> 8) := by
  have hbit : Gzip.tableBit = crc32Bit := by
    funext c
    rw [Gzip.tableBit, UInt32.xor_comm, crc32Bit]
  have hhigh : (c ^^^ b.toUInt32) >>> 8 = c >>> 8 := by
    have hb : b.toNat >>> 8 = 0 := Nat.shiftRight_eq_zero _ _ b.toNat_lt
    refine UInt32.toNat_inj.mp ?_
    simp [Nat.shiftRight_xor_distrib, hb]
  have hget (n : Fin 256) : Gzip.table.get n = crc32Bit^[8] (UInt32.ofNat n) := by
    rw [Gzip.table, hbit]
    exact Vector.getElem_ofFn _
  rw [hhigh, Gzip.crc32Step, hget, UInt32.ofNat_toNat]

theorem stepsBy_crc32Step : StepsBy Gzip.crc32Step := by
  intro c b
  have hshift := shift_bits (m := 0xFF#32) (k := 8) (by decide) (c ^^^ b.toUInt32).toBitVec
  rw [← bits_start, hshift, crc32Step_eq, UInt32.toBitVec_xor, bits_xor, map_add, mk_iterate, map_add, add_comm]
  rfl

theorem StepsBy.foldl {f : UInt32 → UInt8 → UInt32} (h : StepsBy f) (data : List UInt8) (c : UInt32) :
    mk generator (bits (data.foldl f c).toBitVec) =
      mk generator (bits c.toBitVec * X ^ (8 * data.length) + message data * X ^ 32) := by
  induction data generalizing c with
  | nil => simp [message]
  | cons b data ih =>
    rw [List.foldl_cons, ih, map_add, map_mul, h, List.length_cons, message, ← map_mul, ← map_add]
    exact congrArg _ (by ring)

theorem StepsBy.remainder_eq {f : UInt32 → UInt8 → UInt32} (h : StepsBy f) (data : List UInt8) :
    bits (data.foldl f 0xFFFFFFFF).toBitVec = remainder data := by
  have hmonic : generator.Monic := monic_X_pow_add (ofFn_degree_lt _)
  have hdvd := AdjoinRoot.mk_eq_mk.mp (h.foldl data 0xFFFFFFFF)
  rw [remainder, ← modByMonic_eq_of_dvd_sub hmonic hdvd, (modByMonic_eq_self_iff hmonic).mpr (degree_bits _)]

theorem crc32_eq_remainder (data : List UInt8) :
    crc32 data = Gzip.crc32 data ∧ bits (~~~ crc32 data).toBitVec = remainder data := by
  have hbit := stepsBy_crc32Byte.remainder_eq data
  have htable := stepsBy_crc32Step.remainder_eq data
  have heq := UInt32.toBitVec_inj.mp (bits_injective (hbit.trans htable.symm))
  rw [crc32, UInt32.not_not, Gzip.crc32, ← heq]
  exact ⟨UInt32.toBitVec_inj.mp BitVec.xor_allOnes.symm, hbit⟩

theorem coeff_message {data : List UInt8} {n : Nat} (hn : 8 * data.length ≤ n) : (message data).coeff n = 0 := by
  induction data with
  | nil => rfl
  | cons b data ih =>
    rw [List.length_cons] at hn
    rw [message, coeff_add, coeff_mul_X_pow', coeff_bits, ih (by omega), if_pos (by omega),
      BitVec.getMsbD_of_ge _ _ (by omega)]
    rfl

theorem message_inj {m m' : List UInt8} (hlen : m.length = m'.length) (h : message m = message m') : m = m' := by
  induction m generalizing m' with
  | nil => exact (List.length_eq_zero_iff.mp hlen.symm).symm
  | cons b m ih =>
    cases m' with
    | nil => cases hlen
    | cons b' m' =>
      have hlen' : m.length = m'.length := Nat.succ.inj hlen
      have hb : bits b.toBitVec = bits b'.toBitVec := by
        ext n
        have hn := congrArg (coeff · (n + 8 * m.length)) h
        rwa [message, message, coeff_add, coeff_add, coeff_message (by omega), coeff_message (by omega), ← hlen',
          coeff_mul_X_pow, coeff_mul_X_pow, add_zero, add_zero] at hn
      rw [message, message, hb, hlen'] at h
      rw [UInt8.toBitVec_inj.mp (bits_injective hb), ih hlen' (add_left_cancel h)]

/-- The generator has degree 32 and no factor `X`. -/
theorem eq_of_mk_mul_X_pow {p q : (ZMod 2)[X]} {k : Nat} (h : mk generator (p * X ^ k) = mk generator (q * X ^ k))
    (hpq : ∀ n, 32 ≤ n → p.coeff n = q.coeff n) : p = q := by
  have hcoprime : IsCoprime generator (X ^ k) := by
    refine (irreducible_X.coprime_iff_not_dvd.mpr fun hdvd => ?_).symm.pow_right
    have := X_dvd_iff.mp hdvd
    simp [generator, coeff_X_pow] at this
  have hdeg : (p - q).degree < generator.degree := by
    have hlow : (bits 0xEDB88320#32).degree < (X ^ 32 : (ZMod 2)[X]).degree :=
      (ofFn_degree_lt _).trans_eq (degree_X_pow 32).symm
    rw [generator, degree_add_eq_left_of_degree_lt hlow, degree_X_pow]
    exact (degree_lt_iff_coeff_zero _ _).mpr fun n hn => by rw [coeff_sub, hpq n hn, sub_self]
  rw [AdjoinRoot.mk_eq_mk, ← sub_mul] at h
  exact sub_eq_zero.mp (eq_zero_of_dvd_of_degree_lt (hcoprime.dvd_of_dvd_mul_right h) hdeg)

theorem StepsBy.burst {f : UInt32 → UInt8 → UInt32} (h : StepsBy f) {m m' : List UInt8} (hlen : m.length = m'.length)
    (hfour : m.length ≤ 4) {s : List UInt8} {c : UInt32} (heq : s.foldl f (m.foldl f c) = s.foldl f (m'.foldl f c)) :
    m = m' := by
  have hs := h.foldl s (m.foldl f c)
  rw [heq, h.foldl, map_add, map_add, add_left_inj] at hs
  have hm := h.foldl m c
  rw [← eq_of_mk_mul_X_pow hs fun n hn => by simp [BitVec.getMsbD_of_ge _ _ hn], h.foldl, ← hlen, map_add, map_add,
    add_right_inj] at hm
  refine (message_inj hlen.symm (eq_of_mk_mul_X_pow hm fun n hn => ?_)).symm
  rw [coeff_message (by omega), coeff_message (by omega)]

/-- Whatever stands around them, two bursts of at most four bytes are told apart. -/
theorem crc32_ne_of_burst {m m' : List UInt8} (hlen : m.length = m'.length) (hfour : m.length ≤ 4) (hne : m ≠ m')
    (p s : List UInt8) :
    crc32 (p ++ m ++ s) ≠ crc32 (p ++ m' ++ s) ∧ Gzip.crc32 (p ++ m ++ s) ≠ Gzip.crc32 (p ++ m' ++ s) := by
  rw [crc32, crc32, Gzip.crc32, Gzip.crc32]
  simp only [List.foldl_append]
  refine ⟨fun h => hne (stepsBy_crc32Byte.burst hlen hfour (UInt32.not_inj.mp h)), fun h => ?_⟩
  exact hne (stepsBy_crc32Step.burst hlen hfour ((UInt32.xor_left_inj _).mp h))

theorem crc32_ne_of_flip : crc32 ([0] ++ [1] ++ [2]) ≠ crc32 ([0] ++ [3] ++ [2]) :=
  (@crc32_ne_of_burst [1] [3] rfl (by decide) (by decide) [0] [2]).1

end Ruos.Crc
