import Ruos.Crc32
import Ruos.Lib.Bytes

/-! The table-driven CRC-32 of `gzip-core/src/crc32.rs`, and the gzip members of `gzip-core/src/format.rs`, over any
compressor and decompressor that invert each other. -/
namespace Ruos.Gzip

def tableBit (c : UInt32) : UInt32 := if c &&& 1 ≠ 0 then (0xEDB88320 : UInt32) ^^^ (c >>> 1) else c >>> 1

def table : Vector UInt32 256 := Vector.ofFn fun i => tableBit^[8] (UInt32.ofNat i)

theorem low_byte_lt (c : UInt32) : (c &&& 0xFF).toNat < 256 := by
  exact Nat.lt_succ_of_le Nat.and_le_right

def crc32Step (c : UInt32) (b : UInt8) : UInt32 :=
  table.get ⟨((c ^^^ b.toUInt32) &&& 0xFF).toNat, low_byte_lt _⟩ ^^^ (c >>> 8)

def crc32 (data : List UInt8) : UInt32 := data.foldl crc32Step 0xFFFFFFFF ^^^ 0xFFFFFFFF

open Lib List

inductive GzError
  | notGzip | truncatedHeader | truncatedTrailer | badDeflate | crcMismatch | sizeMismatch | trailingGarbage
deriving DecidableEq

/-- `TINFLStatus`; the last one stands for all others. -/
inductive Status
  | done | hasMoreOutput | failed
deriving DecidableEq

/-- What a call of the decompressor returns, with the decompressor and the output buffer after it. -/
structure Inflated (σ : Type) where
  status : Status
  consumed : Nat
  produced : Nat
  state : σ
  out : List UInt8

/-- `miniz_oxide`: `deflate::compress_to_vec` and `inflate::core::decompress` with a buffer that does not wrap around.
On what the first has written, the second ends with the data, or it has filled the buffer with the next part of the
data and can go on. -/
structure Miniz where
  State : Type
  new : State
  decompress : State → (input out : List UInt8) → (outPos : Nat) → Inflated State
  compressToVec : List UInt8 → Nat → List UInt8
  /-- The decompressor has consumed and produced so many bytes of the data. -/
  Decoding : (data : List UInt8) → (level : Nat) → State → (consumed produced : Nat) → Prop
  decoding_new : ∀ data level, 1 ≤ level → level ≤ 9 → Decoding data level new 0 0
  decoding_next : ∀ data level st i o out rest, Decoding data level st i o → o ≤ out.length →
    out.take o = data.take o →
    let r := decompress st ((compressToVec data level ++ rest).drop i) out o
    (r.status = .done ∧ i + r.consumed = (compressToVec data level).length ∧ o + r.produced = data.length ∧
        r.out.take data.length = data) ∨
      (r.status = .hasMoreOutput ∧ o + r.produced = out.length ∧ out.length ≤ data.length ∧
        r.out = data.take out.length ∧ Decoding data level r.state (i + r.consumed) (o + r.produced))

def gzipMagic : List UInt8 := [0x1f, 0x8b]

def cmDeflate : UInt8 := 8

def fhcrc : UInt8 := 2
def fextra : UInt8 := 4
def fname : UInt8 := 8
def fcomment : UInt8 := 16

def skipZstr (data : List UInt8) (pos : Nat) : Except GzError Nat :=
  match (data.drop pos).findIdx? (· == 0) with
  | some k => .ok (pos + k + 1)
  | none => .error .truncatedHeader

def skipExtra (data : List UInt8) (flg : UInt8) (pos : Nat) : Except GzError Nat :=
  if flg &&& fextra ≠ 0 then
    if data.length < pos + 2 then .error .truncatedHeader else .ok (pos + 2 + leVal (slice data pos 2))
  else .ok pos

def headerLen (data : List UInt8) : Except GzError Nat :=
  if data.length < 2 ∨ data.take 2 ≠ gzipMagic then .error .notGzip
  else if data.length < 10 then .error .truncatedHeader
  else if data.getD 2 0 ≠ cmDeflate then .error .notGzip
  else do
    let flg := data.getD 3 0
    let pos ← skipExtra data flg 10
    let pos ← if flg &&& fname ≠ 0 then skipZstr data pos else .ok pos
    let pos ← if flg &&& fcomment ≠ 0 then skipZstr data pos else .ok pos
    let pos := if flg &&& fhcrc ≠ 0 then pos + 2 else pos
    if data.length < pos then .error .truncatedHeader else .ok pos

def grow : Nat := 256 * 1024

def usizeMax : Nat := 2 ^ 64 - 1

/-- The loop of `inflate_raw`; `none` when the fuel runs out. -/
def inflateLoop (M : Miniz) (input : List UInt8) :
    Nat → M.State → (out : List UInt8) → (totalIn outLen : Nat) → Option (Except GzError (List UInt8 × Nat))
  | 0, _, _, _, _ => none
  | fuel + 1, st, out, totalIn, outLen =>
    let r := M.decompress st (input.drop totalIn) out outLen
    match r.status with
    | .done => some (.ok (r.out.take (outLen + r.produced), totalIn + r.consumed))
    | .hasMoreOutput =>
      inflateLoop M input fuel r.state (r.out ++ List.replicate grow 0) (totalIn + r.consumed) (outLen + r.produced)
    | .failed => some (.error .badDeflate)

def inflateRaw (M : Miniz) (fuel : Nat) (input : List UInt8) (sizeHint : Nat) :
    Option (Except GzError (List UInt8 × Nat)) :=
  inflateLoop M input fuel M.new (List.replicate (max (min sizeHint (min (input.length * 64) usizeMax)) 256) 0) 0 0

/-- The checks of `decompress` on the trailer. -/
def checkTrailer (out trailer : List UInt8) : Except GzError (List UInt8) :=
  if trailer.length < 8 then .error .truncatedTrailer
  else if trailer.length > 8 then .error .trailingGarbage
  else if (crc32 out).toNat ≠ leVal (trailer.take 4) then .error .crcMismatch
  else if out.length % 2 ^ 32 ≠ leVal (trailer.drop 4) then .error .sizeMismatch
  else .ok out

def decompress (M : Miniz) (fuel : Nat) (data : List UInt8) : Option (Except GzError (List UInt8)) :=
  match headerLen data with
  | .error e => some (.error e)
  | .ok hlen =>
    if data.length < hlen + 8 then some (.error .truncatedTrailer)
    else
      (inflateRaw M fuel (data.drop hlen) (leVal (data.drop (data.length - 4)))).map fun r =>
        r.bind fun x => checkTrailer x.1 (data.drop (hlen + x.2))

def extraFlags (level : Nat) : UInt8 :=
  match level with
  | 9 => 2
  | 1 => 4
  | _ => 0

def gzipHeader (level : Nat) : List UInt8 := gzipMagic ++ [cmDeflate, 0, 0, 0, 0, 0, extraFlags level, 255]

def clampLevel (level : UInt8) : Nat := max 1 (min level.toNat 9)

def compress (M : Miniz) (data : List UInt8) (level : UInt8) : List UInt8 :=
  gzipHeader (clampLevel level) ++ M.compressToVec data (clampLevel level) ++ leBytes 4 (crc32 data).toNat ++
    leBytes 4 data.length

section

variable (M : Miniz)

/-- From a state of the decompressor that has got so far, with enough fuel the loop ends with the data. -/
theorem inflateLoop_eq {data : List UInt8} {level : Nat} (rest : List UInt8) {fuel : Nat} {st : M.State}
    {out : List UInt8} {i o : Nat} (hd : M.Decoding data level st i o) (ho : o ≤ out.length)
    (hout : out.take o = data.take o) (hfuel : data.length + 1 - out.length < fuel) :
    inflateLoop M (M.compressToVec data level ++ rest) fuel st out i o =
      some (.ok (data, (M.compressToVec data level).length)) := by
  induction fuel generalizing st out i o with
  | zero => exact absurd hfuel (Nat.not_lt_zero _)
  | succ fuel ih =>
    rcases M.decoding_next data level st i o out rest hd ho hout with
      ⟨hstatus, hin, hproduced, hbuf⟩ | ⟨hstatus, hproduced, hle, hbuf, hnext⟩
    · simp only [inflateLoop, hstatus, hin, hproduced, hbuf]
    · have hlen := length_take_of_le hle
      simp only [inflateLoop, hstatus]
      refine ih hnext ?_ ?_ ?_
      · rw [hproduced, hbuf, length_append, hlen]
        exact Nat.le_add_right _ _
      · rw [hproduced, hbuf, take_append_of_le_length hlen.ge, take_take, Nat.min_self]
      · rw [hbuf, length_append, length_replicate, grow]
        omega

theorem inflateRaw_eq {data : List UInt8} {level : Nat} (rest : List UInt8) (hint : Nat) {fuel : Nat} (hlo : 1 ≤ level)
    (hhi : level ≤ 9) (hfuel : data.length < fuel) : inflateRaw M fuel (M.compressToVec data level ++ rest) hint =
      some (.ok (data, (M.compressToVec data level).length)) := by
  refine inflateLoop_eq M rest (M.decoding_new data level hlo hhi) (Nat.zero_le _) rfl ?_
  rw [length_replicate]
  omega

theorem headerLen_gzipHeader (level : Nat) (rest : List UInt8) : headerLen (gzipHeader level ++ rest) = .ok 10 := by
  have hlen : 10 ≤ (gzipHeader level ++ rest).length := by
    simp [gzipHeader, gzipMagic]
  have hflags : (gzipHeader level ++ rest).getD 3 0 = 0 := rfl
  rw [headerLen, hflags]
  change (if (gzipHeader level ++ rest).length < 10 then Except.error GzError.truncatedHeader else Except.ok 10) = _
  rw [if_neg (Nat.not_lt.mpr hlen)]

theorem clampLevel_pos (level : UInt8) : 1 ≤ clampLevel level := Nat.le_max_left _ _

theorem clampLevel_le (level : UInt8) : clampLevel level ≤ 9 := Nat.max_le.mpr ⟨by decide, Nat.min_le_right _ _⟩

theorem checkTrailer_eq (data : List UInt8) :
    checkTrailer data (leBytes 4 (crc32 data).toNat ++ leBytes 4 data.length) = .ok data := by
  have hcrc : leVal (leBytes 4 (crc32 data).toNat) = (crc32 data).toNat :=
    leVal_leBytes_of_lt (crc32 data).toNat_lt
  have hlen := leVal_leBytes 4 data.length
  simp [checkTrailer, hcrc, hlen]

theorem length_gzipHeader (level : Nat) : (gzipHeader level).length = 10 := rfl

theorem decompress_compress (data : List UInt8) (level : UInt8) {fuel : Nat} (hfuel : data.length < fuel) :
    decompress M fuel (compress M data level) = some (.ok data) := by
  have hsplit : compress M data level = gzipHeader (clampLevel level) ++
      (M.compressToVec data (clampLevel level) ++ (leBytes 4 (crc32 data).toNat ++ leBytes 4 data.length)) := by
    simp [compress]
  have hbody : (compress M data level).drop 10 =
      M.compressToVec data (clampLevel level) ++ (leBytes 4 (crc32 data).toNat ++ leBytes 4 data.length) := by
    rw [hsplit, drop_left' (length_gzipHeader _)]
  have hlong : ¬ (compress M data level).length < 10 + 8 := by
    simp only [hsplit, length_gzipHeader, length_append, length_leBytes]
    omega
  have hraw := inflateRaw_eq M (leBytes 4 (crc32 data).toNat ++ leBytes 4 data.length)
    (leVal ((compress M data level).drop ((compress M data level).length - 4))) (clampLevel_pos level)
    (clampLevel_le level) hfuel
  have htrailer : (compress M data level).drop (10 + (M.compressToVec data (clampLevel level)).length) =
      leBytes 4 (crc32 data).toNat ++ leBytes 4 data.length := by
    rw [← drop_drop, hbody, drop_left]
  have hheader : headerLen (compress M data level) = .ok 10 := by
    exact headerLen_gzipHeader _ _
  unfold decompress
  rw [hheader]
  dsimp only
  rw [if_neg hlong, hbody, hraw]
  change some (checkTrailer data _) = _
  rw [htrailer, checkTrailer_eq]

end

end Ruos.Gzip
