import Ruos.Lib.Bytes
import Ruos.Vfs.Basic

/-! `fd_readdir`: a guest pages through a directory with the cookie of the last whole record of each page. -/
namespace Ruos.Wasm

open Lib Vfs List

/-- `MAX_LINEAR_MEM`: no buffer of a guest is larger. -/
def maxLinearMem : Nat := 64 * 1024 * 1024

structure DirItem where
  name : Buf
  dtype : UInt8

def VfsKind.dtype : VfsKind → UInt8
  | .dir => 3
  | .reg => 4
  | .device => 2

/-- `.` and `..`, and then what the file system lists. -/
def allEntries (listing : List (Buf × VfsKind)) : List DirItem :=
  [⟨⟨[46], by decide⟩, 3⟩, ⟨⟨[46, 46], by decide⟩, 3⟩] ++ listing.map fun e => ⟨e.1, VfsKind.dtype e.2⟩

def direntFields (i : Nat) (e : DirItem) : List (Nat × List UInt8) :=
  [(0, leBytes 8 (i + 1)), (16, leBytes 4 e.name.1.length), (20, [e.dtype])]

/-- `__wasi_dirent_t`: the cookie of the next record, no inode, the length of the name and the type. -/
def dirent (i : Nat) (e : DirItem) : List UInt8 := fill (List.replicate 24 0) (direntFields i e)

/-- The loop over the chunks: one that does not fit is cut off, and ends it. -/
def pack (bufLen : Nat) : (chunks : List (List UInt8)) → (out : List UInt8) → List UInt8
  | [], out => out
  | c :: cs, out =>
    if bufLen ≤ out.length then out
    else if c.length ≤ bufLen - out.length then pack bufLen cs (out ++ c)
    else out ++ c.take (bufLen - out.length)

def chunksFrom : (i : Nat) → List DirItem → List (List UInt8)
  | _, [] => []
  | i, e :: es => (if e.name.1.length ≥ 2 ^ 32 then [] else [dirent i e, e.name.1]) ++ chunksFrom (i + 1) es

def fdReaddir (all : List DirItem) (cookie bufLen : Nat) : List UInt8 :=
  pack bufLen (chunksFrom cookie (all.drop cookie)) []

/-- A record as the guest takes it out of the buffer. -/
structure Dirent where
  next : Nat
  name : List UInt8
  dtype : UInt8
  deriving DecidableEq

/-- The complete records at the front of a buffer. -/
def complete : (fuel : Nat) → List UInt8 → List Dirent
  | 0, _ => []
  | fuel + 1, bs =>
    let len := leVal (slice bs 16 4)
    if bs.length < 24 + len then [] else
      ⟨leVal (slice bs 0 8), slice bs 24 len, (slice bs 20 1).headD 0⟩ :: complete fuel (bs.drop (24 + len))

/-- What the guest collects in at most so many calls, and whether the last one returned no entry. -/
def readAll (all : List DirItem) (bufLen : Nat) : (calls cookie : Nat) → List Dirent × Bool
  | 0, _ => ([], false)
  | calls + 1, cookie =>
    let page := fdReaddir all cookie bufLen
    match (complete page.length page).getLast? with
    | none => ([], true)
    | some last =>
      let rest := readAll all bufLen calls last.next
      (complete page.length page ++ rest.1, rest.2)

theorem pack_eq {bufLen : Nat} (cs : List (List UInt8)) {out : List UInt8} (h : out.length ≤ bufLen) :
    pack bufLen cs out = (out ++ cs.flatten).take bufLen := by
  induction cs generalizing out with
  | nil => rw [pack, flatten_nil, append_nil, take_of_length_le h]
  | cons c cs ih =>
    rw [pack, flatten_cons]
    split_ifs with hfull hfits
    · rw [take_append_of_le_length hfull, take_of_length_le h]
    · rw [ih (by rw [length_append]; omega), append_assoc]
    · rw [take_append, take_of_length_le h, take_append_of_le_length (by omega)]

/-- The records as they should arrive. -/
def decoded (i : Nat) (es : List DirItem) : List Dirent :=
  (es.zipIdx i).map fun x => ⟨x.2 + 1, x.1.name.1, x.1.dtype⟩

theorem decoded_append (i : Nat) (a b : List DirItem) :
    decoded i (a ++ b) = decoded i a ++ decoded (i + a.length) b := by
  rw [decoded, zipIdx_append, map_append]
  rfl

theorem map_decoded (i : Nat) (es : List DirItem) :
    (decoded i es).map (fun d => (d.name, d.dtype)) = es.map fun e => (e.name.1, e.dtype) := by
  conv_rhs => rw [← zipIdx_map_fst i es]
  rw [decoded, map_map, map_map]
  rfl

section

variable {i : Nat} {e : DirItem} (hi : i + 1 < 2 ^ 64) (he : e.name.1.length < 2 ^ 32)

theorem direntFields_ordered (i : Nat) (e : DirItem) {n : Nat} (h : 24 ≤ n) : Ordered n (direntFields i e) := by
  refine (ordered_of_inOrder (a := 0) ?_).1
  simp only [direntFields, map_cons, map_nil, length_leBytes, inOrder, length_singleton]
  simp
  omega

theorem length_dirent (i : Nat) (e : DirItem) : (dirent i e).length = 24 := by
  rw [dirent, length_fill (by simpa using (direntFields_ordered i e (Nat.le_refl 24)).1), length_replicate]

theorem slice_dirent (i : Nat) (e : DirItem) (off : Nat) {bs : List UInt8} (hm : (off, bs) ∈ direntFields i e)
    (rest : List UInt8) : slice (dirent i e ++ rest) off bs.length = bs := by
  rw [dirent, ← fill_append (by simpa using (direntFields_ordered i e (Nat.le_refl 24)).1)]
  exact slice_fill_mem (direntFields_ordered i e (by simp)) hm rfl

include he in
theorem namlen (rest : List UInt8) : leVal (slice (dirent i e ++ rest) 16 4) = e.name.1.length := by
  have hslice := slice_dirent i e 16 (by simp [direntFields]; rfl) rest
  rw [length_leBytes] at hslice
  rw [hslice, leVal_leBytes_of_lt he]

include hi he in
theorem complete_cons (fuel : Nat) (rest : List UInt8) :
    complete (fuel + 1) (dirent i e ++ (e.name.1 ++ rest)) = ⟨i + 1, e.name.1, e.dtype⟩ :: complete fuel rest := by
  have hlen := length_dirent i e
  have hnext := slice_dirent i e 0 (by simp [direntFields]; rfl) (e.name.1 ++ rest)
  have htype := slice_dirent i e 20 (by simp [direntFields]; rfl) (e.name.1 ++ rest)
  have hname : slice (dirent i e ++ (e.name.1 ++ rest)) 24 e.name.1.length = e.name.1 :=
    slice_of_eq_append (dirent i e) rest rfl hlen.symm rfl
  have hrest : (dirent i e ++ (e.name.1 ++ rest)).drop (24 + e.name.1.length) = rest := by
    rw [← append_assoc]
    exact drop_left' (by rw [length_append, hlen])
  rw [length_leBytes] at hnext
  rw [length_singleton] at htype
  simp only [complete, namlen he, hnext, hname, htype, hrest, leVal_leBytes_of_lt (w := 8) hi, headD_cons]
  rw [if_neg (by simp [hlen])]

include he in
theorem complete_cut (fuel : Nat) (rest : List UInt8) {k : Nat} (hk : k < 24 + e.name.1.length) :
    complete fuel ((dirent i e ++ rest).take k) = [] := by
  cases fuel with
  | zero => rfl
  | succ fuel =>
    rw [complete]
    refine if_pos ?_
    by_cases hshort : k < 24
    · rw [length_take]
      omega
    · have hlen := length_dirent i e
      rw [take_append, take_of_length_le (by omega), namlen he, length_append, length_take]
      omega

end

/-- The complete records of a page are those of the first entries, and of at least one if it fits. -/
theorem complete_page (es : List DirItem) (hes : ∀ e ∈ es, e.name.1.length < 2 ^ 32) {i fuel bufLen : Nat}
    (hi : i + es.length < 2 ^ 64) (hfuel : ((chunksFrom i es).flatten.take bufLen).length ≤ fuel) :
    ∃ a b, es = a ++ b ∧ complete fuel ((chunksFrom i es).flatten.take bufLen) = decoded i a ∧
      ∀ e ∈ es.head?, 24 + e.name.1.length ≤ bufLen → a ≠ [] := by
  induction es generalizing i fuel bufLen with
  | nil => exact ⟨[], [], rfl, by cases fuel <;> simp [chunksFrom, complete, decoded], by simp⟩
  | cons e es ih =>
    rw [length_cons] at hi
    have he := hes e mem_cons_self
    have hchunks : (chunksFrom i (e :: es)).flatten = dirent i e ++ e.name.1 ++ (chunksFrom (i + 1) es).flatten := by
      rw [chunksFrom, if_neg (Nat.not_le.mpr he)]
      simp
    have hlen : (dirent i e ++ e.name.1).length = 24 + e.name.1.length := by rw [length_append, length_dirent]
    rw [hchunks] at hfuel ⊢
    by_cases hfits : 24 + e.name.1.length ≤ bufLen
    · rw [take_append, take_of_length_le (by omega), hlen] at hfuel ⊢
      obtain ⟨fuel, rfl⟩ : ∃ k, fuel = k + 1 := ⟨fuel - 1, by rw [length_append, hlen] at hfuel; omega⟩
      have hleft : ((chunksFrom (i + 1) es).flatten.take (bufLen - (24 + e.name.1.length))).length ≤ fuel := by
        rw [length_append, hlen] at hfuel
        omega
      obtain ⟨a, b, rfl, hpage, -⟩ := ih (fun x hx => hes x (mem_cons_of_mem e hx)) (by omega) hleft
      exact ⟨e :: a, b, rfl, by rw [append_assoc, complete_cons (by omega) he, hpage]; rfl, by simp⟩
    · refine ⟨[], e :: es, rfl, ?_, fun x hx hle => ?_⟩
      · rw [append_assoc, complete_cut he _ _ (by omega)]
        rfl
      · cases hx
        exact absurd hle hfits

theorem readAll_eq {all : List DirItem} {bufLen : Nat} (hbuf : ∀ e ∈ all, 24 + e.name.1.length ≤ bufLen)
    (hsmall : bufLen ≤ maxLinearMem) (hvec : all.length ≤ vecMax) (calls : Nat) (done rest : List DirItem)
    (hall : all = done ++ rest) (hcalls : rest.length < calls) :
    readAll all bufLen calls done.length = (decoded done.length rest, true) := by
  have hnames : ∀ e ∈ all, e.name.1.length < 2 ^ 32 := fun e he => by
    have := hbuf e he
    unfold maxLinearMem at hsmall
    omega
  induction calls generalizing done rest with
  | zero => omega
  | succ calls ih =>
    have hpage : fdReaddir all done.length bufLen = (chunksFrom done.length rest).flatten.take bufLen := by
      rw [fdReaddir, pack_eq _ (Nat.zero_le _), nil_append, hall, drop_left]
    have hlen : done.length + rest.length < 2 ^ 64 := by
      rw [← length_append, ← hall]
      unfold vecMax at hvec
      omega
    obtain ⟨a, b, rfl, hcomplete, hfirst⟩ := complete_page rest (fun e he => hnames e (by simp [hall, he])) hlen
      (le_refl ((chunksFrom done.length rest).flatten.take bufLen).length)
    simp only [readAll, hpage, hcomplete]
    rcases eq_nil_or_concat a with rfl | ⟨a, e, rfl⟩
    · have hnone : b = [] := by
        cases b with
        | nil => rfl
        | cons e b => exact absurd rfl (hfirst e rfl (hbuf e (by simp [hall])))
      subst hnone
      rfl
    · have hlast : (decoded done.length (a ++ [e])).getLast? =
          some ⟨(done ++ (a ++ [e])).length, e.name.1, e.dtype⟩ := by
        simp [decoded, Nat.add_assoc]
      have hrest := ih (done ++ (a ++ [e])) b (by simp [hall]) (by simp at hcalls; omega)
      simp only [concat_eq_append, hlast, hrest]
      rw [decoded_append _ (a ++ [e]), length_append]

/-- A guest that pages through a directory gets every entry once and in order, and then a call without entries. -/
theorem readdir_pages_everything (listing : List (Buf × VfsKind)) (hvec : (allEntries listing).length ≤ vecMax)
    (bufLen : Nat) (hsmall : bufLen ≤ maxLinearMem) (hbuf : ∀ e ∈ allEntries listing, 24 + e.name.1.length ≤ bufLen) :
    ((readAll (allEntries listing) bufLen ((allEntries listing).length + 1) 0).1.map fun d => (d.name, d.dtype)) =
        (allEntries listing).map (fun e => (e.name.1, e.dtype)) ∧
      (readAll (allEntries listing) bufLen ((allEntries listing).length + 1) 0).2 = true := by
  have hall := readAll_eq hbuf hsmall hvec _ [] (allEntries listing) rfl (Nat.lt_succ_self _)
  rw [length_nil] at hall
  rw [hall]
  exact ⟨map_decoded 0 _, rfl⟩

theorem readdir_pages_two :
    ((readAll (allEntries [(⟨[97, 98, 99], by decide⟩, .reg), (⟨[98], by decide⟩, .dir)]) 60 5 0).1.map
      fun d => (d.name, d.dtype)) = [([46], 3), ([46, 46], 3), ([97, 98, 99], 4), ([98], 3)] :=
  (readdir_pages_everything [(⟨[97, 98, 99], by decide⟩, .reg), (⟨[98], by decide⟩, .dir)] (by decide) 60 (by decide)
    (by decide)).1

end Ruos.Wasm
