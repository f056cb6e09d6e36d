import Mathlib.Tactic.Linarith

/-! Single-precision numbers. A number is held as its count of units of `2 ^ -149`, the smallest positive single, so
that every finite single is an integer; the infinities decode to `2 ^ 128` and its negative, beyond all finite ones. -/
namespace Ruos.Lib.Single

open Option Int

def one : Int := 2 ^ 149

def infinity : Int := 2 ^ 277

/-- The number with the given bits; `none` is not a number. -/
def value (bits : UInt32) : Option Int :=
  let e := bits.toNat / 2 ^ 23 % 2 ^ 8
  let m := bits.toNat % 2 ^ 23
  let n : Nat := if e = 0 then m else (2 ^ 23 + m) * 2 ^ (e - 1)
  if e = 255 ∧ m ≠ 0 then none else some (if bits.toNat / 2 ^ 31 = 0 then (n : Int) else -n)

def least : Option Int → Option Int → Option Int
  | none, b => b
  | a, none => a
  | some a, some b => some (min a b)

def most : Option Int → Option Int → Option Int
  | none, b => b
  | a, none => a
  | some a, some b => some (max a b)

def less : Option Int → Option Int → Bool
  | some a, some b => a < b
  | _, _ => false

def saturate (n : Int) : Int := max (-2 ^ 31) (min (2 ^ 31 - 1) n)

def floor : Option Int → Int
  | none => 0
  | some n => saturate (n / one)

def ceil : Option Int → Int
  | none => 0
  | some n => saturate (-(-n / one))

/-- Round half to even to a multiple of `q`. -/
def roundTo (q n : Nat) : Nat :=
  let k := n / q
  if 2 * (n % q) < q then k * q
  else if q < 2 * (n % q) then (k + 1) * q
  else (k + k % 2) * q

/-- The single next to `n` units of `2 ^ -298`. -/
def rounded (n : Nat) : Int :=
  min (roundTo (2 ^ max (n.log2 - 23) 149) n / 2 ^ 149 : Nat) infinity

def mul : Option Int → Option Int → Option Int
  | some a, some b =>
    if a.natAbs = infinity ∨ b.natAbs = infinity then
      if a = 0 ∨ b = 0 then none else some (a.sign * b.sign * infinity)
    else some (a.sign * b.sign * rounded (a * b).natAbs)
  | _, _ => none

def ofNat (n : Nat) : Option Int := some (rounded (n * 2 ^ 298))

example : mul (value 0x3FC00000) (ofNat 5) = some (15 * 2 ^ 148) ∧ floor (value 0xC0200000) = -3 := by decide +kernel

theorem saturate_mono {a b : Int} (h : a ≤ b) : saturate a ≤ saturate b := by
  unfold saturate
  omega

theorem floor_mono {a b : Int} (h : a ≤ b) : floor (some a) ≤ floor (some b) := by
  apply saturate_mono
  exact Int.ediv_le_ediv (by unfold one; positivity) h

theorem ceil_mono {a b : Int} (h : a ≤ b) : ceil (some a) ≤ ceil (some b) := by
  apply saturate_mono
  have hdiv : -b / one ≤ -a / one := Int.ediv_le_ediv (by unfold one; positivity) (by omega)
  omega

theorem least_eq (a b : Option Int) : least a b = a ∨ least a b = b := by
  cases a with
  | none => exact .inr rfl
  | some a =>
    cases b with
    | none => exact .inl rfl
    | some b =>
      rcases le_total a b with h | h
      · exact .inl (by rw [least, min_eq_left h])
      · exact .inr (by rw [least, min_eq_right h])

theorem most_eq (a b : Option Int) : most a b = a ∨ most a b = b := by
  cases a with
  | none => exact .inr rfl
  | some a =>
    cases b with
    | none => exact .inl rfl
    | some b =>
      rcases le_total a b with h | h
      · exact .inr (by rw [most, max_eq_right h])
      · exact .inl (by rw [most, max_eq_left h])

theorem least_mem {vs : List (Option Int)} {a b : Option Int} (ha : a ∈ vs) (hb : b ∈ vs) : least a b ∈ vs := by
  rcases least_eq a b with h | h <;> rw [h] <;> assumption

theorem most_mem {vs : List (Option Int)} {a b : Option Int} (ha : a ∈ vs) (hb : b ∈ vs) : most a b ∈ vs := by
  rcases most_eq a b with h | h <;> rw [h] <;> assumption

theorem least_eq_none_iff {a b : Option Int} : least a b = none ↔ a = none ∧ b = none := by
  cases a <;> cases b <;> simp [least]

theorem most_eq_none_iff {a b : Option Int} : most a b = none ↔ a = none ∧ b = none := by
  cases a <;> cases b <;> simp [most]

theorem foldl_choose {choose : Option Int → Option Int → Option Int} {le : Int → Int → Prop}
    (hrefl : ∀ a, le a a) (htrans : ∀ a b c, le a b → le b c → le a c) (hnone : ∀ a, choose (some a) none = some a)
    (hsome : ∀ a b, ∃ m, choose (some a) (some b) = some m ∧ le m a ∧ le m b) (start : Int) (vs : List (Option Int)) :
    ∃ m, vs.foldl choose (some start) = some m ∧ le m start ∧ ∀ n, some n ∈ vs → le m n := by
  induction vs generalizing start with
  | nil => exact ⟨start, rfl, hrefl start, fun n hn => (nomatch hn)⟩
  | cons v vs ih =>
    cases v with
    | none =>
      obtain ⟨m, hm, hle, hall⟩ := ih start
      refine ⟨m, by rw [List.foldl_cons, hnone, hm], hle, fun n hn => hall n ?_⟩
      exact List.mem_of_ne_of_mem (some_ne_none n) hn
    | some v =>
      obtain ⟨first, hfirst, hstart, hv⟩ := hsome start v
      obtain ⟨m, hm, hle, hall⟩ := ih first
      refine ⟨m, by rw [List.foldl_cons, hfirst, hm], htrans _ _ _ hle hstart, fun n hn => ?_⟩
      rcases List.mem_cons.mp hn with heq | hn
      · rw [some.inj heq]
        exact htrans _ _ _ hle hv
      · exact hall n hn

section

variable {vs : List (Option Int)} {a b c k : Option Int} {start x : Int}

/-- An integer between the least and the greatest of three numbers shows that there is a number among them. -/
theorem exists_number (hlo : floor (least (least a b) c) ≤ x) (hhi : x < ceil (most (most a b) c)) :
    (∃ n, least (least a b) c = some n) ∧ ∃ n, most (most a b) c = some n := by
  have hiff : least (least a b) c = none ↔ most (most a b) c = none := by
    rw [least_eq_none_iff, least_eq_none_iff, most_eq_none_iff, most_eq_none_iff]
  have hne : least (least a b) c ≠ none := by
    intro hnone
    rw [hnone] at hlo
    rw [hiff.mp hnone] at hhi
    exact absurd hlo (not_le.mpr hhi)
  exact ⟨ne_none_iff_exists'.mp hne, ne_none_iff_exists'.mp (hiff.not.mp hne)⟩

/-- Bounds on the least and the greatest of three numbers of a list, cut off, hold for the list too. -/
theorem within_foldl {k' : Option Int} {start' : Int} (ha : a ∈ vs) (hb : b ∈ vs) (hc : c ∈ vs)
    (hlo : floor (least (least a b) c) ≤ x) (hhi : x < ceil (most (most a b) c)) (hk : floor k ≤ x) (hk' : x < ceil k') :
    floor (most (vs.foldl least (some start)) k) ≤ x ∧ x < ceil (least (vs.foldl most (some start')) k') := by
  obtain ⟨⟨n, hn⟩, n', hn'⟩ := exists_number hlo hhi
  constructor
  · obtain ⟨m, hm, -, hall⟩ := @foldl_choose least (· ≤ ·) le_refl (fun _ _ _ => le_trans) (fun _ => rfl)
      (fun a b => ⟨min a b, rfl, min_le_left a b, min_le_right a b⟩) start vs
    have hmem := least_mem (least_mem ha hb) hc
    rw [hn] at hmem hlo
    have hnum := le_trans (floor_mono (hall n hmem)) hlo
    rw [hm]
    rcases most_eq (some m) k with h | h <;> rw [h] <;> assumption
  · obtain ⟨m, hm, -, hall⟩ := @foldl_choose most (· ≥ ·) le_refl (fun _ _ _ h h' => le_trans h' h) (fun _ => rfl)
      (fun a b => ⟨max a b, rfl, le_max_left a b, le_max_right a b⟩) start' vs
    have hmem := most_mem (most_mem ha hb) hc
    rw [hn'] at hmem hhi
    have hnum : x < ceil (some m) := lt_of_lt_of_le hhi (ceil_mono (hall n' hmem))
    rw [hm]
    rcases least_eq (some m) k' with h | h <;> rw [h] <;> assumption

end

end Ruos.Lib.Single
