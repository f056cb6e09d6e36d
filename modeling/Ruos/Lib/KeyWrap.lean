import Ruos.Lib.Bytes

/-! Byte strings of a fixed length, big-endian numbers, reading fields one after another, and the key wrap of RFC 3394
over any block cipher. -/
namespace Ruos.Lib

open List

abbrev Octets (n : Nat) := { bs : List UInt8 // bs.length = n }

namespace Octets

variable {n : Nat}

@[simp] theorem length_val (x : Octets n) : x.1.length = n := x.2

def zero (n : Nat) : Octets n := ⟨List.replicate n 0, List.length_replicate⟩

def copy (n : Nat) (bs : List UInt8) : Octets n := ⟨(bs ++ List.replicate n 0).take n, by simp⟩

theorem copy_of_length {bs : List UInt8} (h : bs.length = n) : copy n bs = ⟨bs, h⟩ := by
  subst h
  simp [copy]

@[simp] theorem copy_val (x : Octets n) : copy n x.1 = x := copy_of_length x.2

def xor (x y : Octets n) : Octets n := ⟨List.zipWith (· ^^^ ·) x.1 y.1, by simp [x.2, y.2]⟩

theorem zipWith_xor_cancel : ∀ xs ys : List UInt8, xs.length = ys.length →
    zipWith (· ^^^ ·) (zipWith (· ^^^ ·) xs ys) ys = xs
  | [], _, _ => by simp
  | x :: xs, [], h => by simp at h
  | x :: xs, y :: ys, h => by
    have hlen : xs.length = ys.length := by simpa using h
    simp [zipWith_xor_cancel xs ys hlen, UInt8.xor_assoc]

@[simp] theorem xor_xor_cancel (x y : Octets n) : (x.xor y).xor y = x :=
  Subtype.ext (zipWith_xor_cancel x.1 y.1 (x.2.trans y.2.symm))

def append {m : Nat} (x : Octets m) (y : Octets n) : Octets (m + n) := ⟨x.1 ++ y.1, by simp [x.2, y.2]⟩

def first (m n : Nat) (x : Octets (m + n)) : Octets m := ⟨x.1.take m, by simp [x.2]⟩

def last (m n : Nat) (x : Octets (m + n)) : Octets n := ⟨x.1.drop m, by simp [x.2]⟩

variable {m : Nat}

@[simp] theorem append_first_last (x : Octets (m + n)) : (first m n x).append (last m n x) = x :=
  Subtype.ext (take_append_drop m x.1)

@[simp] theorem first_append (x : Octets m) (y : Octets n) : first m n (x.append y) = x :=
  Subtype.ext (by simp [first, append, x.2])

@[simp] theorem last_append (x : Octets m) (y : Octets n) : last m n (x.append y) = y :=
  Subtype.ext (by simp [last, append, x.2])

theorem drop_append (x : Octets n) (rest : List UInt8) (h : n ≤ m) : (x.1 ++ rest).drop m = rest.drop (m - n) := by
  rw [List.drop_append, drop_of_length_le (by rwa [x.2]), nil_append, x.2]

theorem take_append (x : Octets n) (rest : List UInt8) : (x.1 ++ rest).take n = x.1 := by simp

def read (n : Nat) (bs : List UInt8) : Option (Octets n × List UInt8) :=
  if h : n ≤ bs.length then some (⟨bs.take n, by simp [h]⟩, bs.drop n) else none

@[simp] theorem read_append (x : Octets n) (rest : List UInt8) : read n (x.1 ++ rest) = some (x, rest) := by
  have hle : n ≤ (x.1 ++ rest).length := by simp [x.2]
  rw [read, dif_pos hle]
  congr 2
  · exact Subtype.ext (by simp [x.2])
  · simp [x.2]

theorem read_bind {α : Type*} (x : Octets n) (rest : List UInt8) (f : Octets n × List UInt8 → Option α) :
    (read n (x.1 ++ rest)).bind f = f (x, rest) := by rw [read_append, Option.bind_some]

end Octets

def beBytes (w n : Nat) : Octets w := ⟨(leBytes w n).reverse, by simp⟩

def beVal (bs : List UInt8) : Nat := leVal bs.reverse

theorem beVal_beBytes (w n : Nat) : beVal (beBytes w n).1 = n % 256 ^ w := by
  rw [beVal, beBytes, reverse_reverse, leVal_leBytes]

theorem beVal_beBytes_of_lt {w n : Nat} (h : n < 256 ^ w) : beVal (beBytes w n).1 = n := by
  rw [beVal_beBytes, Nat.mod_eq_of_lt h]

theorem leVal_append (bs : List UInt8) (b : UInt8) : leVal (bs ++ [b]) = leVal bs + 256 ^ bs.length * b.toNat := by
  induction bs with
  | nil => simp [leVal]
  | cons x bs ih =>
    rw [cons_append, leVal, leVal, ih, length_cons]
    ring

theorem beVal_cons (b : UInt8) (bs : List UInt8) : beVal (b :: bs) = beVal bs + 256 ^ bs.length * b.toNat := by
  rw [beVal, reverse_cons, leVal_append, length_reverse, beVal]

theorem beVal_lt (bs : List UInt8) : beVal bs < 256 ^ bs.length := by
  have h := leVal_lt bs.reverse
  rwa [length_reverse] at h

theorem lt_iff_beVal_lt : ∀ {xs ys : List UInt8}, xs.length = ys.length → (xs < ys ↔ beVal xs < beVal ys)
  | [], [], _ => by simp
  | x :: xs, y :: ys, h => by
    have hlen : xs.length = ys.length := by simpa using h
    have hx := beVal_lt xs
    have hy := beVal_lt ys
    rw [cons_lt_cons_iff, lt_iff_beVal_lt hlen, beVal_cons, beVal_cons, hlen]
    rw [hlen] at hx
    generalize 256 ^ ys.length = w at hx hy
    rcases Nat.lt_trichotomy x.toNat y.toNat with hlt | heq | hgt
    · have hstep : w * x.toNat + w ≤ w * y.toNat := Nat.mul_succ w x.toNat ▸ Nat.mul_le_mul_left w hlt
      exact ⟨fun _ => by omega, fun _ => .inl hlt⟩
    · obtain rfl := UInt8.toNat_inj.mp heq
      simp
    · have hstep : w * y.toNat + w ≤ w * x.toNat := Nat.mul_succ w y.toNat ▸ Nat.mul_le_mul_left w hgt
      refine ⟨fun h => ?_, fun h => by omega⟩
      rcases h with h | ⟨rfl, -⟩
      · exact absurd (UInt8.lt_iff_toNat_lt.mp h) (by omega)
      · exact absurd hgt (Nat.lt_irrefl _)

open Subtype

section

variable {σ α : Type*} {f g : σ → α → σ} {I : σ → Prop} {l : List α} {s : σ}

theorem foldl_undo (hI : ∀ s, ∀ x ∈ l, I s → I (f s x)) (hg : ∀ s, ∀ x ∈ l, I s → g (f s x) x = s) (hs : I s) :
    l.reverse.foldl g (l.foldl f s) = s := by
  induction l generalizing s with
  | nil => rfl
  | cons x l ih =>
    have hrest := ih (fun s y hy => hI s y (mem_cons_of_mem x hy))
      (fun s y hy => hg s y (mem_cons_of_mem x hy)) (hI s x mem_cons_self hs)
    rw [foldl_cons, reverse_cons, foldl_append, hrest]
    exact hg s x mem_cons_self hs

end

namespace KeyWrap

abbrev Registers := Octets 8 × List (Octets 8)

variable (enc : Octets 16 → Octets 16)

/-- A step with counter `t` on a data register. -/
def wrapStep (t : Nat) (s : Registers) (i : Nat) : Registers :=
  let b := enc (s.1.append (s.2.getD i (.zero 8)))
  ((Octets.first 8 8 b).xor (beBytes 8 t), s.2.set i (Octets.last 8 8 b))

/-- All the `n` data registers once. -/
def wrapRound (n : Nat) (s : Registers) (j : Nat) : Registers :=
  (List.range n).foldl (fun s i => wrapStep enc (n * j + (i + 1)) s i) s

def initial : Octets 8 := ⟨List.replicate 8 0xA6, List.length_replicate⟩

def wrap (blocks : List (Octets 8)) : Registers :=
  (List.range 6).foldl (wrapRound enc blocks.length) (initial, blocks)

/-- The data as registers. -/
def blocksOf (data : List UInt8) : List (Octets 8) := (pieces 8 data).map (.copy 8)

/-- The registers as one string, the first of them in front. -/
def bytes (s : Registers) : List UInt8 := s.1.1 ++ s.2.flatMap Subtype.val

theorem flatMap_blocksOf {data : List UInt8} (h : data.length % 8 = 0) :
    (blocksOf data).flatMap val = data := by
  have hval : (blocksOf data).map val = pieces 8 data := by
    rw [blocksOf, map_map]
    refine (map_congr_left fun x hx => ?_).trans (map_id _)
    exact congrArg val (Octets.copy_of_length (length_of_mem_pieces hx))
  rw [flatMap_def, hval, flatten_pieces (by decide) (Nat.div_mul_cancel (Nat.dvd_of_mod_eq_zero h)).symm]

theorem length_of_mem_vals (r : List (Octets 8)) : ∀ x ∈ r.map val, x.length = 8 := by
  intro x hx
  obtain ⟨y, -, rfl⟩ := mem_map.mp hx
  exact y.2

theorem length_bytes (s : Registers) : (bytes s).length = (s.2.length + 1) * 8 := by
  rw [bytes, flatMap_def, length_append, length_flatten_of_length (length_of_mem_vals s.2), length_map,
    Octets.length_val, Nat.add_comm, Nat.succ_mul]

theorem blocksOf_flatMap (r : List (Octets 8)) : blocksOf (r.flatMap val) = r := by
  rw [blocksOf, flatMap_def, pieces_flatten (length_of_mem_vals r) (by decide), map_map]
  exact map_id'' Octets.copy_val r

variable {enc} {dec : Nat → Registers → Nat → Registers} {n : Nat} {s : Registers}

theorem length_wrapStep (t : Nat) (s : Registers) (i : Nat) : (wrapStep enc t s i).2.length = s.2.length :=
  length_set ..

theorem length_wrapRound (n j : Nat) (s : Registers) : (wrapRound enc n s j).2.length = s.2.length :=
  foldlRecOn (motive := fun t => t.2.length = s.2.length) _ _ rfl fun t ht _ _ => (length_wrapStep _ t _).trans ht

theorem length_wrapRounds (n : Nat) (s : Registers) : ((range 6).foldl (wrapRound enc n) s).2.length = s.2.length :=
  foldlRecOn (motive := fun t => t.2.length = s.2.length) _ _ rfl fun t ht _ _ => (length_wrapRound _ _ t).trans ht

section

variable (hdec : ∀ t s i, i < s.2.length → dec t (wrapStep enc t s i) i = s)
include hdec

theorem undo_wrapRound (j : Nat) (hs : s.2.length = n) :
    (range n).reverse.foldl (fun s i => dec (n * j + (i + 1)) s i) (wrapRound enc n s j) = s :=
  foldl_undo (fun t _ _ ht => (length_wrapStep _ t _).trans ht)
    (fun t i hi ht => hdec _ t i (by rw [ht]; exact mem_range.mp hi)) hs

theorem undo_wrap (blocks : List (Octets 8)) : (range 6).reverse.foldl
      (fun s j => (range blocks.length).reverse.foldl (fun s i => dec (blocks.length * j + (i + 1)) s i) s)
      (wrap enc blocks) = (initial, blocks) :=
  foldl_undo (fun t _ _ ht => (length_wrapRound _ _ t).trans ht)
    (fun _ j _ ht => undo_wrapRound hdec j ht) rfl

end

/-- The other way round: what was undone is done again. -/
theorem redo_wrap (hlen : ∀ t s i, (dec t s i).2.length = s.2.length)
    (henc : ∀ t s i, i < s.2.length → wrapStep enc t (dec t s i) i = s) (hs : s.2.length = n) :
    (range 6).foldl (wrapRound enc n) ((range 6).reverse.foldl
      (fun s j => (range n).reverse.foldl (fun s i => dec (n * j + (i + 1)) s i) s) s) = s := by
  have hkeep : ∀ (t : Registers) j, t.2.length = n →
      ((range n).reverse.foldl (fun s i => dec (n * j + (i + 1)) s i) t).2.length = n :=
    fun t j ht => foldlRecOn (motive := fun t => t.2.length = n) _ _ ht fun t ht _ _ => (hlen _ t _).trans ht
  have hround : ∀ (t : Registers) j, t.2.length = n →
      wrapRound enc n ((range n).reverse.foldl (fun s i => dec (n * j + (i + 1)) s i) t) j = t := by
    intro t j ht
    have h := @foldl_undo _ _ (fun s i => dec (n * j + (i + 1)) s i) (fun s i => wrapStep enc (n * j + (i + 1)) s i)
      (fun t => t.2.length = n) (range n).reverse t (fun t _ _ ht => (hlen _ t _).trans ht)
      (fun t i hi ht => henc _ t i (by rw [ht]; simpa using hi)) ht
    rwa [reverse_reverse] at h
  have h := @foldl_undo _ _ _ (wrapRound enc n) (fun t => t.2.length = n) (range 6).reverse s
    (fun t j _ ht => hkeep t j ht) (fun t j _ ht => hround t j ht) hs
  rwa [reverse_reverse] at h

end KeyWrap
end Ruos.Lib
