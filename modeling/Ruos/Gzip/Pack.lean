import Ruos.Gzip.Plain

/-! The archives of `gzip-core/src/pack.rs`. `none` as the result of an access to a slice is a panic. -/
namespace Ruos.Gzip

open Lib

inductive PackError
  | badMagic | badVersion | truncated
deriving DecidableEq

/-- A slice has at most `isize::MAX` bytes. -/
structure Slice where
  bytes : List UInt8
  fits : bytes.length < 2 ^ 63

structure Piece where
  start : Nat
  bytes : List UInt8
deriving DecidableEq

def Piece.stop (x : Piece) : Nat := x.start + x.bytes.length

namespace Slice

def len (d : Slice) : Nat := d.bytes.length

def index (d : Slice) (i : Nat) : Option UInt8 := d.bytes[i]?

def range (d : Slice) (a b : Nat) : Option Piece :=
  if a ≤ b ∧ b ≤ d.len then some ⟨a, slice d.bytes a (b - a)⟩ else none

end Slice

def saturatingAdd (a b : Nat) : Nat := min (a + b) usizeMax

def magic : List UInt8 := [0x52, 0x42, 0x49, 0x4E]

def version : UInt8 := 1

def utf8 (name : String) : List UInt8 := name.toByteArray.data.toList

def fromUtf8 (bytes : List UInt8) : Option String := String.fromUTF8? bytes.toByteArray

/-- `MAGIC`, `VERSION` and the number of entries. -/
def archiveHeader (count : Nat) : List UInt8 := magic ++ [version] ++ leBytes 4 count

def entryBytes (M : Miniz) (level : UInt8) (e : String × List UInt8) : List UInt8 :=
  leBytes 2 (utf8 e.1).length ++ utf8 e.1 ++ leBytes 4 (compress M e.2 level).length ++ compress M e.2 level

def writeArchive (M : Miniz) (entries : List (String × List UInt8)) (level : UInt8) : List UInt8 :=
  archiveHeader entries.length ++ entries.flatMap (entryBytes M level)

structure ArchiveIter where
  data : Slice
  pos : Nat
  remaining : Nat

/-- A yielded pair: the name with the offset of its bytes, and the member. -/
structure Item where
  nameAt : Nat
  name : String
  member : Piece

def parse (data : Slice) : Option (Except PackError ArchiveIter) :=
  if data.len < 9 then some (.error .truncated)
  else do
    let head ← data.range 0 4
    if head.bytes ≠ magic then some (.error .badMagic)
    else do
      let ver ← data.index 4
      if ver ≠ version then some (.error .badVersion)
      else do
        let count ← data.range 5 9
        some (.ok ⟨data, 9, leVal count.bytes⟩)

namespace ArchiveIter

/-- An error, after which nothing is yielded. -/
def fail (it : ArchiveIter) : Option (Option (Except PackError Item) × ArchiveIter) :=
  some (some (.error .truncated), { it with remaining := 0 })

def next (it : ArchiveIter) : Option (Option (Except PackError Item) × ArchiveIter) :=
  let d := it.data
  let p := it.pos
  if it.remaining = 0 then some (none, it)
  else if saturatingAdd p 2 > d.len then it.fail
  else do
    let b₀ ← d.index p
    let b₁ ← d.index (p + 1)
    let p := p + 2
    let nlen := leVal [b₀, b₁]
    if saturatingAdd (saturatingAdd p nlen) 4 > d.len then it.fail
    else do
      let name ← d.range p (p + nlen)
      match fromUtf8 name.bytes with
      | none => it.fail
      | some s => do
        let p := p + nlen
        let size ← d.range p (p + 4)
        let glen := leVal size.bytes
        let p := p + 4
        if saturatingAdd p glen > d.len then it.fail
        else do
          let gz ← d.range p (p + glen)
          some (some (.ok ⟨name.start, s, gz⟩), ⟨d, p + glen, it.remaining - 1⟩)

/-- What the first calls of `next` return. -/
def nexts : Nat → ArchiveIter → Option (List (Option (Except PackError Item)))
  | 0, _ => some []
  | k + 1, it => do
    let (r, it') ← it.next
    let rs ← nexts k it'
    some (r :: rs)

end ArchiveIter

def decompressMember (M : Miniz) (fuel : Nat) (gz : List UInt8) : Option (Except GzError (List UInt8)) :=
  decompress M fuel gz

open List Option Slice ArchiveIter Nat

theorem fromUtf8_utf8 (s : String) : fromUtf8 (utf8 s) = some s := by
  have hbytes : (utf8 s).toByteArray = s.toByteArray := by
    apply ByteArray.ext
    rw [data_toByteArray, utf8]
  rw [fromUtf8, hbytes, String.fromUTF8?, dif_pos s.isValidUTF8]
  rfl

theorem utf8_of_fromUtf8 {bytes : List UInt8} {s : String} (h : fromUtf8 bytes = some s) : utf8 s = bytes := by
  rw [fromUtf8, String.fromUTF8?] at h
  split_ifs at h with hvalid
  rw [← some.inj h]
  change bytes.toByteArray.data.toList = bytes
  rw [data_toByteArray]

namespace Slice

variable {d : Slice} {a b p : Nat}

theorem range_eq (hab : a ≤ b) (hb : b ≤ d.len) : d.range a b = some ⟨a, slice d.bytes a (b - a)⟩ := if_pos ⟨hab, hb⟩

theorem saturatingAdd_gt_iff : saturatingAdd a b > d.len ↔ d.len < a + b := by
  have hfits : d.len < 2 ^ 63 := d.fits
  simp only [saturatingAdd, usizeMax, gt_iff_lt, lt_min_iff]
  omega

theorem saturatingAdd_saturatingAdd_gt_iff {c : Nat} :
    saturatingAdd (saturatingAdd a b) c > d.len ↔ d.len < a + b + c := by
  have hfits : d.len < 2 ^ 63 := d.fits
  simp only [saturatingAdd, usizeMax, gt_iff_lt]
  omega

theorem index_pair (h : p + 2 ≤ d.len) :
    ∃ b₀ b₁, d.index p = some b₀ ∧ d.index (p + 1) = some b₁ ∧ slice d.bytes p 2 = [b₀, b₁] := by
  have h₀ : p < d.bytes.length := by unfold len at h; omega
  have h₁ : p + 1 < d.bytes.length := by unfold len at h; omega
  refine ⟨d.bytes[p], d.bytes[p + 1], getElem?_eq_getElem h₀, getElem?_eq_getElem h₁, ?_⟩
  rw [slice, drop_eq_getElem_cons h₀, drop_eq_getElem_cons h₁]
  rfl

end Slice

/-- The name and the member of an item are parts of the slice, the name before the member. -/
structure Item.Placed (x : Item) (d : Slice) : Prop where
  name : slice d.bytes x.nameAt (utf8 x.name).length = utf8 x.name
  before : x.nameAt + (utf8 x.name).length ≤ x.member.start
  inside : x.member.stop ≤ d.len
  member : slice d.bytes x.member.start x.member.bytes.length = x.member.bytes

namespace ArchiveIter

variable {it : ArchiveIter}

/-- A call of `next`: nothing is left, or it fails and leaves nothing, or it yields an item after the position and goes
behind it. -/
inductive Outcome (it : ArchiveIter) : Option (Except PackError Item) → ArchiveIter → Prop
  | finished (h : it.remaining = 0) : Outcome it none it
  | failed (h : it.remaining ≠ 0) : Outcome it (some (.error .truncated)) { it with remaining := 0 }
  | yielded {x : Item} (h : it.remaining ≠ 0) (hx : x.Placed it.data) (hpos : it.pos ≤ x.nameAt) :
    Outcome it (some (.ok x)) ⟨it.data, x.member.stop, it.remaining - 1⟩

theorem next_eq {nlen glen : Nat} {s : String} (hrem : it.remaining ≠ 0)
    (hnlen : leVal (slice it.data.bytes it.pos 2) = nlen) (hname : it.pos + 2 + nlen + 4 ≤ it.data.len)
    (hutf : fromUtf8 (slice it.data.bytes (it.pos + 2) nlen) = some s)
    (hglen : leVal (slice it.data.bytes (it.pos + 2 + nlen) 4) = glen)
    (hgz : it.pos + 2 + nlen + 4 + glen ≤ it.data.len) : it.next = some (some (.ok ⟨it.pos + 2, s,
      ⟨it.pos + 2 + nlen + 4, slice it.data.bytes (it.pos + 2 + nlen + 4) glen⟩⟩),
      ⟨it.data, it.pos + 2 + nlen + 4 + glen, it.remaining - 1⟩) := by
  obtain ⟨b₀, b₁, h₀, h₁, hpair⟩ := index_pair (d := it.data) (p := it.pos) (by omega)
  rw [hpair] at hnlen
  have hc₁ : ¬ saturatingAdd it.pos 2 > it.data.len := fun h => by
    have := saturatingAdd_gt_iff.mp h
    omega
  have hc₂ : ¬ saturatingAdd (saturatingAdd (it.pos + 2) nlen) 4 > it.data.len := fun h => by
    have := saturatingAdd_saturatingAdd_gt_iff.mp h
    omega
  have hc₃ : ¬ saturatingAdd (it.pos + 2 + nlen + 4) glen > it.data.len := fun h => by
    have := saturatingAdd_gt_iff.mp h
    omega
  have hr₁ := range_eq (d := it.data) (le_add_right (it.pos + 2) nlen) (by omega)
  have hr₂ := range_eq (le_add_right (it.pos + 2 + nlen) 4) (by omega)
  have hr₃ := range_eq (le_add_right (it.pos + 2 + nlen + 4) glen) hgz
  simp [next, if_neg hrem, if_neg hc₁, h₀, h₁, hnlen, if_neg hc₂, hr₁, hutf, hr₂, hglen, if_neg hc₃, hr₃]

theorem next_of_remaining (h : it.remaining = 0) : it.next = some (none, it) := if_pos h

theorem next_outcome (it : ArchiveIter) : ∃ r it', it.next = some (r, it') ∧ Outcome it r it' := by
  by_cases hrem : it.remaining = 0
  · exact ⟨none, it, next_of_remaining hrem, .finished hrem⟩
  by_cases hc₁ : saturatingAdd it.pos 2 > it.data.len
  · exact ⟨_, _, by simp only [next, if_neg hrem, if_pos hc₁, fail], .failed hrem⟩
  have hlen₁ : it.pos + 2 ≤ it.data.len := Nat.not_lt.mp fun h => hc₁ (saturatingAdd_gt_iff.mpr h)
  obtain ⟨b₀, b₁, h₀, h₁, hpair⟩ := index_pair hlen₁
  generalize hnlen : leVal [b₀, b₁] = nlen
  by_cases hc₂ : saturatingAdd (saturatingAdd (it.pos + 2) nlen) 4 > it.data.len
  · refine ⟨_, _, ?_, .failed hrem⟩
    simp [next, if_neg hrem, h₀, h₁, hnlen, if_pos hc₂, fail]
  have hlen₂ : it.pos + 2 + nlen + 4 ≤ it.data.len :=
    Nat.not_lt.mp fun h => hc₂ (saturatingAdd_saturatingAdd_gt_iff.mpr h)
  have hname := range_eq (d := it.data) (show it.pos + 2 ≤ it.pos + 2 + nlen by omega) (by omega)
  cases hutf : fromUtf8 (slice it.data.bytes (it.pos + 2) nlen) with
  | none =>
    refine ⟨_, _, ?_, .failed hrem⟩
    simp [next, if_neg hrem, h₀, h₁, hnlen, hname, hutf, fail]
  | some s =>
    have hsize := range_eq (show it.pos + 2 + nlen ≤ it.pos + 2 + nlen + 4 by omega) hlen₂
    generalize hglen : leVal (slice it.data.bytes (it.pos + 2 + nlen) 4) = glen
    by_cases hc₃ : saturatingAdd (it.pos + 2 + nlen + 4) glen > it.data.len
    · refine ⟨_, _, ?_, .failed hrem⟩
      simp [next, if_neg hrem, h₀, h₁, hnlen, hname, hutf, hsize, hglen, if_pos hc₃, fail]
    have hlen₃ : it.pos + 2 + nlen + 4 + glen ≤ it.data.len :=
      Nat.not_lt.mp fun h => hc₃ (saturatingAdd_gt_iff.mpr h)
    have hnameLen : (utf8 s).length = nlen := by
      rw [utf8_of_fromUtf8 hutf, length_slice (by unfold len at hlen₂; omega)]
    have hgzLen := length_slice hlen₃
    refine ⟨_, _, next_eq hrem (by rw [hpair, hnlen]) hlen₂ hutf hglen hlen₃, ?_⟩
    have hplaced : Item.Placed ⟨it.pos + 2, s, ⟨it.pos + 2 + nlen + 4,
        slice it.data.bytes (it.pos + 2 + nlen + 4) glen⟩⟩ it.data := by
      refine ⟨?_, ?_, ?_, ?_⟩
      · rw [hnameLen, utf8_of_fromUtf8 hutf]
      · simp only [hnameLen]
        omega
      · simpa only [Piece.stop, hgzLen] using hlen₃
      · simp only [hgzLen]
    have houtcome := Outcome.yielded hrem hplaced (Nat.le_add_right _ _)
    simpa only [Piece.stop, hgzLen] using houtcome

theorem nexts_of_remaining (h : it.remaining = 0) (k : Nat) : it.nexts k = some (List.replicate k none) := by
  induction k with
  | zero => rfl
  | succ k ih => simp [nexts, next_of_remaining h, ih, replicate_succ]

def yielded (r : Option (Except PackError Item)) : Option Item := r.bind Except.toOption

/-- What any number of calls of `next` return: not more results than are declared, none after an error, and items one
behind the other in the data. -/
structure Orderly (it : ArchiveIter) (rs : List (Option (Except PackError Item))) : Prop where
  count : rs.countP Option.isSome ≤ it.remaining
  stops : rs.Pairwise fun r r' => (∃ e, r = some (.error e)) → r' = none
  placed : ∀ x ∈ rs.filterMap yielded, x.Placed it.data ∧ it.pos ≤ x.nameAt
  ordered : (rs.filterMap yielded).Pairwise fun x y => x.member.stop ≤ y.nameAt

theorem nexts_orderly (k : Nat) (it : ArchiveIter) : ∃ rs, it.nexts k = some rs ∧ Orderly it rs := by
  induction k generalizing it with
  | zero => exact ⟨[], rfl, by simp, by simp, by simp, by simp⟩
  | succ k ih =>
    obtain ⟨r, it', hnext, houtcome⟩ := next_outcome it
    obtain ⟨rs, hrs, h⟩ := ih it'
    refine ⟨r :: rs, by simp [nexts, hnext, hrs], ?_⟩
    cases houtcome with
    | finished hrem =>
      refine ⟨h.count, pairwise_cons.mpr ⟨by simp, h.stops⟩, ?_, ?_⟩
      · exact h.placed
      · exact h.ordered
    | failed hrem =>
      rw [@nexts_of_remaining { it with remaining := 0 } rfl k] at hrs
      cases hrs
      have hno : (replicate k none).filterMap yielded = [] := by
        simp [filterMap_eq_nil_iff, yielded]
      refine ⟨?_, pairwise_cons.mpr ⟨fun r hr _ => eq_of_mem_replicate hr, h.stops⟩, ?_, ?_⟩
      · simp [countP_replicate]
        omega
      · rw [filterMap_cons_none rfl, hno]
        simp
      · rw [filterMap_cons_none rfl, hno]
        exact .nil
    | @yielded x hrem hx hpos =>
      have hcount : rs.countP isSome ≤ it.remaining - 1 := h.count
      have hplaced : ∀ y ∈ rs.filterMap yielded, y.Placed it.data ∧ x.member.stop ≤ y.nameAt := h.placed
      refine ⟨?_, pairwise_cons.mpr ⟨?_, h.stops⟩, ?_, ?_⟩
      · rw [countP_cons_of_pos rfl]
        omega
      · rintro r - ⟨e, he⟩
        cases he
      · intro y hy
        rcases mem_cons.mp hy with rfl | hy
        · exact ⟨hx, hpos⟩
        · have hstop : x.member.start ≤ x.member.stop := le_add_right _ _
          have hbefore := hx.before
          exact ⟨(hplaced y hy).1, by have := (hplaced y hy).2; omega⟩
      · exact pairwise_cons.mpr ⟨fun y hy => (hplaced y hy).2, h.ordered⟩

end ArchiveIter

theorem parse_of_header {d : Slice} {count : Nat} {rest : List UInt8} (h : d.bytes = archiveHeader count ++ rest) :
    parse d = some (.ok ⟨d, 9, count % 2 ^ 32⟩) := by
  have hlen : 9 ≤ d.len := by
    rw [len, h]
    simp [archiveHeader, magic]
  have hmagic : slice d.bytes 0 4 = magic := by rw [h]; rfl
  have hversion : d.index 4 = some version := by rw [index, h]; rfl
  have hcount : slice d.bytes 5 4 = leBytes 4 count := by rw [h]; rfl
  have hval := leVal_leBytes 4 count
  simp [parse, not_lt.mpr hlen, range_eq (zero_le 4) (show 4 ≤ d.len by omega), hmagic, hversion,
    range_eq (show 5 ≤ 9 by decide) hlen, hcount, hval]

section

variable (M : Miniz) (level : UInt8)

theorem length_entryBytes (e : String × List UInt8) :
    (entryBytes M level e).length = 2 + (utf8 e.1).length + 4 + (compress M e.2 level).length := by
  simp only [entryBytes, length_append, length_leBytes]

def itemAt (offset : Nat) (e : String × List UInt8) : Item :=
  ⟨offset + 2, e.1, ⟨offset + 2 + (utf8 e.1).length + 4, compress M e.2 level⟩⟩

theorem next_entry {d : Slice} {pre post : List UInt8} {e : String × List UInt8} (n : Nat)
    (hd : d.bytes = pre ++ (entryBytes M level e ++ post)) (hname : (utf8 e.1).length ≤ 65535)
    (hmember : (compress M e.2 level).length < 2 ^ 32) : next ⟨d, pre.length, n + 1⟩ =
      some (some (.ok (itemAt M level pre.length e)), ⟨d, (pre ++ entryBytes M level e).length, n⟩) := by
  have hlen : pre.length + 2 + (utf8 e.1).length + 4 + (compress M e.2 level).length ≤ d.len := by
    rw [len, hd, length_append, length_append, length_entryBytes]
    omega
  simp only [entryBytes, append_assoc] at hd
  have hnlen : slice d.bytes pre.length 2 = leBytes 2 (utf8 e.1).length := slice_of_eq_append pre _ hd rfl rfl
  have hutf : slice d.bytes (pre.length + 2) (utf8 e.1).length = utf8 e.1 :=
    slice_of_eq_append (pre ++ leBytes 2 (utf8 e.1).length) _ (hd.trans (append_assoc pre _ _).symm) (by simp) rfl
  have hglen : slice d.bytes (pre.length + 2 + (utf8 e.1).length) 4 = leBytes 4 (compress M e.2 level).length :=
    slice_of_eq_append (pre ++ (leBytes 2 (utf8 e.1).length ++ utf8 e.1)) (compress M e.2 level ++ post)
      (by simpa only [append_assoc] using hd)
      (by simp only [length_append, length_leBytes, add_assoc]) rfl
  have hgz : slice d.bytes (pre.length + 2 + (utf8 e.1).length + 4) (compress M e.2 level).length =
      compress M e.2 level :=
    slice_of_eq_append
      (pre ++ (leBytes 2 (utf8 e.1).length ++ (utf8 e.1 ++ leBytes 4 (compress M e.2 level).length))) post
      (by simpa only [append_assoc] using hd)
      (by simp only [length_append, length_leBytes, add_assoc]) rfl
  have hnext := @next_eq ⟨d, pre.length, n + 1⟩ (utf8 e.1).length (compress M e.2 level).length e.1
    (succ_ne_zero n) (by simp only [hnlen]; exact leVal_leBytes_of_lt (by omega)) (by simp only; omega)
    (by simp only [hutf]; exact fromUtf8_utf8 e.1) (by simp only [hglen]; exact leVal_leBytes_of_lt hmember)
    hlen
  rw [hnext, hgz]
  simp [itemAt, length_entryBytes, add_assoc]

/-- The items of entries that were written one behind the other. -/
def itemsAt : Nat → List (String × List UInt8) → List Item
  | _, [] => []
  | offset, e :: es => itemAt M level offset e :: itemsAt (offset + (entryBytes M level e).length) es

theorem map_name_itemsAt (offset : Nat) (es : List (String × List UInt8)) :
    (itemsAt M level offset es).map (·.name) = es.map (·.1) := by
  induction es generalizing offset with
  | nil => rfl
  | cons e es ih => simp [itemsAt, itemAt, ih]

theorem map_member_itemsAt (offset : Nat) (es : List (String × List UInt8)) :
    (itemsAt M level offset es).map (·.member.bytes) = es.map fun e => compress M e.2 level := by
  induction es generalizing offset with
  | nil => rfl
  | cons e es ih => simp [itemsAt, itemAt, ih]

theorem nexts_entries {d : Slice} {pre : List UInt8} {es : List (String × List UInt8)}
    (hd : d.bytes = pre ++ es.flatMap (entryBytes M level)) (hnames : ∀ e ∈ es, (utf8 e.1).length ≤ 65535)
    (hmembers : ∀ e ∈ es, (compress M e.2 level).length < 2 ^ 32) :
    nexts (es.length + 1) ⟨d, pre.length, es.length⟩ =
      some ((itemsAt M level pre.length es).map (fun x => some (.ok x)) ++ [none]) := by
  induction es generalizing pre with
  | nil => rfl
  | cons e es ih =>
    have hfirst := next_entry M level es.length hd (hnames e mem_cons_self)
      (hmembers e mem_cons_self)
    have hrest := @ih (pre ++ entryBytes M level e) (by simpa using hd)
      (fun x hx => hnames x (mem_cons_of_mem e hx)) fun x hx => hmembers x (mem_cons_of_mem e hx)
    rw [length_append] at hfirst hrest
    rw [length_cons, nexts, hfirst]
    simp [hrest, itemsAt]

end

/-- `parse` does not panic, and the iterator it returns is at the first entry with the declared count. -/
theorem parse_outcome (d : Slice) :
    ∃ r, parse d = some r ∧ ∀ it, r = .ok it → it = ⟨d, 9, leVal (slice d.bytes 5 4)⟩ := by
  unfold parse
  by_cases hlen : d.len < 9
  · exact ⟨_, if_pos hlen, fun it h => by cases h⟩
  have h₄ : d.range 0 4 = some ⟨0, slice d.bytes 0 4⟩ := range_eq (zero_le 4) (by omega)
  have h₉ : d.range 5 9 = some ⟨5, slice d.bytes 5 4⟩ := range_eq (by decide) (by omega)
  have hindex : 4 < d.bytes.length := by
    unfold len at hlen
    omega
  have hver : d.index 4 = some d.bytes[4] := getElem?_eq_getElem hindex
  simp only [if_neg hlen, h₄, h₉, hver, bind_eq_bind, bind_some]
  by_cases hmagic : slice d.bytes 0 4 ≠ magic
  · exact ⟨_, if_pos hmagic, fun it h => by cases h⟩
  rw [if_neg hmagic]
  by_cases hversion : d.bytes[4] ≠ version
  · exact ⟨_, if_pos hversion, fun it h => by cases h⟩
  · exact ⟨_, if_neg hversion, fun it h => by cases h; rfl⟩

/-- What is written is read back, name for name and member for member; and whatever is read, nothing panics, not more
results than declared are yielded and none after an error, and the items are parts of the input one behind the other. -/
theorem archive_reads_back (M : Miniz) :
    (∀ (entries : List (String × List UInt8)) (level : UInt8) (d : Slice), d.bytes = writeArchive M entries level →
      entries.length < 2 ^ 32 → (∀ e ∈ entries, (utf8 e.1).length ≤ 65535) →
      (∀ e ∈ entries, (compress M e.2 level).length < 2 ^ 32) →
      ∃ (it : ArchiveIter) (items : List Item), parse d = some (.ok it) ∧
        it.nexts (entries.length + 1) = some (items.map (fun x => some (.ok x)) ++ [none]) ∧
        items.map (·.name) = entries.map (·.1) ∧ ∀ fuel, (∀ e ∈ entries, e.2.length < fuel) →
          items.map (fun x => decompressMember M fuel x.member.bytes) = entries.map fun e => some (.ok e.2)) ∧
    ∀ d : Slice, ∃ r, parse d = some r ∧ ∀ it, r = .ok it →
      it.data = d ∧ it.remaining = leVal (slice d.bytes 5 4) ∧ ∀ k, ∃ rs, it.nexts k = some rs ∧ it.Orderly rs := by
  refine ⟨fun entries level d hd hcount hnames hmembers => ?_, fun d => ?_⟩
  · have hparse := parse_of_header hd
    rw [mod_eq_of_lt hcount] at hparse
    have hnexts := @nexts_entries M level d (archiveHeader entries.length) entries hd hnames hmembers
    refine ⟨_, itemsAt M level 9 entries, hparse, hnexts, map_name_itemsAt M level 9 entries, fun fuel hfuel => ?_⟩
    have hmap := congrArg (List.map (decompressMember M fuel)) (map_member_itemsAt M level 9 entries)
    rw [List.map_map, List.map_map] at hmap
    refine hmap.trans (map_congr_left fun e he => ?_)
    exact decompress_compress M e.2 level (hfuel e he)
  · obtain ⟨r, hr, hit⟩ := parse_outcome d
    refine ⟨r, hr, fun it h => ?_⟩
    obtain rfl := hit it h
    exact ⟨rfl, rfl, fun k => nexts_orderly k _⟩

def twoFiles : List (String × List UInt8) := [("ls", [7, 8, 9]), ("", [])]

theorem two_files_read_back :
    ∃ d : Slice, d.bytes = writeArchive plain twoFiles 6 ∧ ∃ (it : ArchiveIter) (items : List Item),
      parse d = some (.ok it) ∧ it.nexts 3 = some (items.map (fun x => some (.ok x)) ++ [none]) ∧
      items.map (·.name) = ["ls", ""] := by
  refine ⟨⟨writeArchive plain twoFiles 6, by decide⟩, rfl, ?_⟩
  obtain ⟨it, items, hparse, hnexts, hnames, -⟩ := (archive_reads_back plain).1 twoFiles 6
    ⟨writeArchive plain twoFiles 6, by decide⟩ rfl (by decide) (by decide) (by decide)
  exact ⟨it, items, hparse, hnexts, hnames⟩

theorem writeArchive_read_as_none {M : Miniz} {entries : List (String × List UInt8)} {level : UInt8} {d : Slice}
    (hd : d.bytes = writeArchive M entries level) (hcount : entries.length % 2 ^ 32 = 0) :
    ∃ it : ArchiveIter, parse d = some (.ok it) ∧ it.next = some (none, it) :=
  ⟨_, parse_of_header hd, next_of_remaining hcount⟩

/-- So many empty files that their number does not fit into the header. -/
@[irreducible] def manyFiles : List (String × List UInt8) := List.replicate (2 ^ 32) ("", [])

theorem length_manyFiles : manyFiles.length = 2 ^ 32 := by
  rw [manyFiles, length_replicate]

theorem eq_of_mem_manyFiles {e : String × List UInt8} (h : e ∈ manyFiles) : e = ("", []) := by
  rw [manyFiles] at h
  exact eq_of_mem_replicate h

theorem length_writeArchive_manyFiles : (writeArchive plain manyFiles 6).length = 9 + 2 ^ 32 * 25 := by
  have hentry : (entryBytes plain 6 ("", [])).length = 25 := rfl
  have hheader : (archiveHeader manyFiles.length).length = 9 := by
    simp [archiveHeader, magic]
  rw [writeArchive, length_append, hheader, length_flatMap, manyFiles, map_replicate,
    sum_replicate_nat, hentry]

theorem many_files_read_as_none : ∃ d : Slice, d.bytes = writeArchive plain manyFiles 6 ∧ manyFiles.length = 2 ^ 32 ∧
      (∀ e ∈ manyFiles, (utf8 e.1).length ≤ 65535) ∧ (∀ e ∈ manyFiles, (compress plain e.2 6).length < 2 ^ 32) ∧
      ∃ it : ArchiveIter, parse d = some (.ok it) ∧ it.next = some (none, it) := by
  have hfits : (writeArchive plain manyFiles 6).length < 2 ^ 63 := by
    rw [length_writeArchive_manyFiles]
    decide
  have hcount : manyFiles.length % 2 ^ 32 = 0 := by rw [length_manyFiles, mod_self]
  refine ⟨⟨writeArchive plain manyFiles 6, hfits⟩, rfl, length_manyFiles, fun e he => ?_, fun e he => ?_,
    writeArchive_read_as_none rfl hcount⟩
  · rw [eq_of_mem_manyFiles he]
    decide
  · rw [eq_of_mem_manyFiles he]
    decide

end Ruos.Gzip
