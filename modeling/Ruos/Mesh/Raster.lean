import Mathlib.Data.List.ReduceOption
import Ruos.Lib.Single
import Ruos.Lib.Repaint

/-! The mesh rasterizer of `ruos-raster`: textures, the damage of a frame, and drawing inside the damage. What drawing
one triangle does to one pixel is a parameter. A primitive draws inside its bounding box only, and the damage holds the
boxes of all primitives that count as changed. -/
namespace Ruos.Mesh

open Lib

structure Vertex where
  x : UInt32
  y : UInt32
  u : UInt32
  v : UInt32
  color : UInt32
  deriving DecidableEq, Repr

structure Clip where
  minX : UInt32
  minY : UInt32
  maxX : UInt32
  maxY : UInt32
  deriving DecidableEq, Repr

structure Prim where
  clip : Clip
  texId : UInt64
  idx0 : UInt32
  idx1 : UInt32
  deriving DecidableEq, Repr

structure Atlas where
  w : Nat
  h : Nat
  px : List UInt8
  deriving DecidableEq, Repr

structure IRect where
  x0 : Int
  y0 : Int
  x1 : Int
  y1 : Int
  deriving DecidableEq, Repr

namespace IRect

def empty : IRect := ⟨0, 0, 0, 0⟩

def isEmpty (r : IRect) : Bool := r.x1 ≤ r.x0 ∨ r.y1 ≤ r.y0

def union (r o : IRect) : IRect :=
  if r.isEmpty then o
  else if o.isEmpty then r
  else ⟨min r.x0 o.x0, min r.y0 o.y0, max r.x1 o.x1, max r.y1 o.y1⟩

/-- `i32::clamp` from 0 on. -/
def between (x hi : Int) : Int := if x < 0 then 0 else if hi < x then hi else x

def clamp (r : IRect) (w h : Int) : IRect := ⟨between r.x0 w, between r.y0 h, between r.x1 w, between r.y1 h⟩

def has (r : IRect) (x y : Int) : Bool := r.x0 ≤ x ∧ x < r.x1 ∧ r.y0 ≤ y ∧ y < r.y1

end IRect

structure PrimMeta where
  hash : UInt64
  bbox : IRect
  texId : UInt64
  uvX0 : Option Int
  uvY0 : Option Int
  uvX1 : Option Int
  uvY1 : Option Int
  deriving DecidableEq, Repr

/-- The arguments of a call of `render`. -/
structure Frame where
  verts : List Vertex
  idx : List UInt32
  prims : List Prim
  width : Nat
  height : Nat
  deriving DecidableEq, Repr

abbrev Textures := UInt64 → Option Atlas

variable {Px : Type}

structure Raster (Px : Type) where
  textures : Textures := fun _ => none
  canvas : List Px := []
  cw : Nat := 0
  ch : Nat := 0
  prev : List PrimMeta := []
  clear : Px
  texDirty : List (UInt64 × IRect) := []

def Raster.new (clear : Px) : Raster Px := { clear := clear }

def toI32 (n : Nat) : Int := (n : Int).bmod (2 ^ 32)

def patched (atlas : Atlas) (ox oy w h : Nat) (px : List UInt8) : Atlas :=
  { atlas with
    px := (List.range (w * h * 4)).foldl
      (fun out k => out.set (((oy + k / 4 / w) * atlas.w + (ox + k / 4 % w)) * 4 + k % 4) (px.getD k 0)) atlas.px }

def setTexture (r : Raster Px) (id : UInt64) (pos : Option (Nat × Nat)) (w h : Nat) (px : List UInt8) : Raster Px :=
  let need := w * h * 4
  if 2 ^ 64 ≤ need ∨ w = 0 ∨ h = 0 ∨ px.length < need then r
  else
    match pos with
    | some (ox, oy) =>
      match r.textures id with
      | none => r
      | some atlas =>
        if atlas.w < ox + w ∨ atlas.h < oy + h then r
        else
          { r with
            textures := fun i => if i = id then some (patched atlas ox oy w h px) else r.textures i
            texDirty := r.texDirty ++ [(id, ⟨toI32 ox, toI32 oy, toI32 (ox + w), toI32 (oy + h)⟩)] }
    | none =>
      { r with
        textures := fun i => if i = id then some ⟨w, h, px.take need⟩ else r.textures i
        texDirty := r.texDirty ++ [(id, ⟨0, 0, toI32 w, toI32 h⟩)] }

def setClear (r : Raster Px) (c : Px) : Raster Px :=
  { r with clear := c, cw := 0, ch := 0, canvas := [], prev := [], texDirty := [] }

def triIdx (fr : Frame) (p : Prim) : List UInt32 :=
  (fr.idx.take p.idx1.toNat).drop p.idx0.toNat

/-- The vertices that the indices name; `none` for an index out of range. -/
def corners (fr : Frame) (p : Prim) : List (Option Vertex) := (triIdx fr p).map fun i => fr.verts[i.toNat]?

def mix (hsh : UInt64) (v : UInt32) : UInt64 := (hsh ^^^ v.toUInt64) * 0x00000100000001b3

def primHash (fr : Frame) (p : Prim) : UInt64 :=
  let head := [p.clip.minX, p.clip.minY, p.clip.maxX, p.clip.maxY, p.texId.toUInt32, (p.texId >>> 32).toUInt32]
  let body := (corners fr p).reduceOption.flatMap fun v => [v.x, v.y, v.u, v.v, v.color]
  (head ++ body ++ triIdx fr p).foldl mix 0xcbf29ce484222325

def lowest (xs : List UInt32) : Option Int := xs.foldl (fun m x => Single.least m (Single.value x)) (some Single.infinity)

def highest (xs : List UInt32) : Option Int :=
  xs.foldl (fun m x => Single.most m (Single.value x)) (some (-Single.infinity))

def primMeta (fr : Frame) (p : Prim) (iw ih : Int) : PrimMeta :=
  let vs := (corners fr p).reduceOption
  let bx0 := Single.floor (Single.most (lowest (vs.map (·.x))) (Single.value p.clip.minX))
  let by0 := Single.floor (Single.most (lowest (vs.map (·.y))) (Single.value p.clip.minY))
  let bx1 := Single.ceil (Single.least (highest (vs.map (·.x))) (Single.value p.clip.maxX))
  let by1 := Single.ceil (Single.least (highest (vs.map (·.y))) (Single.value p.clip.maxY))
  { hash := primHash fr p
    bbox := if bx1 ≤ bx0 ∨ by1 ≤ by0 then .empty else IRect.clamp ⟨bx0, by0, bx1, by1⟩ iw ih
    texId := p.texId
    uvX0 := lowest (vs.map (·.u))
    uvY0 := lowest (vs.map (·.v))
    uvX1 := highest (vs.map (·.u))
    uvY1 := highest (vs.map (·.v)) }

/-- The primitive samples the changed rectangle of a texture, as far as its box of texture coordinates tells. -/
def samples (textures : Textures) (d : UInt64 × IRect) (m : PrimMeta) : Bool :=
  match textures d.1 with
  | none => m.texId = d.1
  | some atlas =>
    m.texId = d.1 ∧ ¬ Single.less m.uvX1 m.uvX0 ∧
      Single.floor (Single.mul m.uvX0 (Single.ofNat atlas.w)) < d.2.x1 ∧
      d.2.x0 < Single.ceil (Single.mul m.uvX1 (Single.ofNat atlas.w)) ∧
      Single.floor (Single.mul m.uvY0 (Single.ofNat atlas.h)) < d.2.y1 ∧
      d.2.y0 < Single.ceil (Single.mul m.uvY1 (Single.ofNat atlas.h))

/-- The primitives that are gone, the new ones and those that sample a changed part of a texture. -/
def changed (textures : Textures) (texDirty : List (UInt64 × IRect)) (prev new : List PrimMeta) : List PrimMeta :=
  prev.filter (fun m => m.hash ∉ new.map (·.hash)) ++ new.filter (fun m => m.hash ∉ prev.map (·.hash)) ++
    texDirty.flatMap fun d => new.filter (samples textures d)

def margin (damage : IRect) (iw ih : Int) : IRect :=
  let isFull := damage.x0 = 0 ∧ damage.y0 = 0 ∧ damage.x1 = iw ∧ damage.y1 = ih
  if damage.isEmpty = false ∧ ¬ isFull then
    IRect.clamp ⟨damage.x0 - 1, damage.y0 - 1, damage.x1 + 1, damage.y1 + 1⟩ iw ih
  else damage

def Raster.reallocs (r : Raster Px) (fr : Frame) : Bool :=
  r.cw ≠ max fr.width 1 ∨ r.ch ≠ max fr.height 1 ∨ r.canvas.isEmpty

def metas (fr : Frame) : List PrimMeta :=
  fr.prims.map fun p => primMeta fr p (toI32 (max fr.width 1)) (toI32 (max fr.height 1))

def damageOf (r : Raster Px) (fr : Frame) : IRect :=
  let iw := toI32 (max fr.width 1)
  let ih := toI32 (max fr.height 1)
  let damage :=
    if r.reallocs fr then ⟨0, 0, iw, ih⟩
    else (changed r.textures r.texDirty r.prev (metas fr)).foldl (fun d m => d.union m.bbox) .empty
  margin damage iw ih

def planDamage (blank : Px) (r : Raster Px) (fr : Frame) : Option IRect × Raster Px :=
  let w := max fr.width 1
  let h := max fr.height 1
  let damage := damageOf r fr
  (if damage.isEmpty then none else some damage,
    { r with
      cw := w
      ch := h
      canvas := if r.reallocs fr then List.replicate (w * h * 4 % 2 ^ 32 / 4) blank else r.canvas
      prev := metas fr
      texDirty := [] })

abbrev Tri := Vertex × Vertex × Vertex

/-- The triangles of a primitive; one with an index out of range is skipped. -/
def triangles : List (Option Vertex) → List Tri
  | a :: b :: c :: rest =>
    match a, b, c with
    | some a, some b, some c => (a, b, c) :: triangles rest
    | _, _, _ => triangles rest
  | _ => []

/-- What drawing a triangle makes of a pixel, given its texture and where the pixel is. -/
abbrev Shade (Px : Type) := Px → Tri → Option Atlas → Nat × Nat → Px

def inside (w : Nat) (rect : IRect) (f : Nat × Nat → Px → Px) (canvas : List Px) : List Px :=
  canvas.mapIdx fun i c => if rect.has (i % w : Nat) (i / w : Nat) then f (i % w, i / w) c else c

def triRect (clip : IRect) (t : Tri) : IRect where
  x0 := max (Single.floor (Single.least (Single.least (Single.value t.1.x) (Single.value t.2.1.x))
    (Single.value t.2.2.x))) clip.x0
  y0 := max (Single.floor (Single.least (Single.least (Single.value t.1.y) (Single.value t.2.1.y))
    (Single.value t.2.2.y))) clip.y0
  x1 := min (Single.ceil (Single.most (Single.most (Single.value t.1.x) (Single.value t.2.1.x))
    (Single.value t.2.2.x))) clip.x1
  y1 := min (Single.ceil (Single.most (Single.most (Single.value t.1.y) (Single.value t.2.1.y))
    (Single.value t.2.2.y))) clip.y1

def clipRect (damage : IRect) (c : Clip) : IRect where
  x0 := max (Single.floor (Single.value c.minX)) damage.x0
  y0 := max (Single.floor (Single.value c.minY)) damage.y0
  x1 := min (Single.ceil (Single.value c.maxX)) damage.x1
  y1 := min (Single.ceil (Single.value c.maxY)) damage.y1

def rasterPrim (shade : Shade Px) (w : Nat) (damage : IRect) (textures : Textures) (fr : Frame) (canvas : List Px)
    (p : Prim) : List Px :=
  if (clipRect damage p.clip).isEmpty then canvas
  else (triangles (corners fr p)).foldl
    (fun canvas t => inside w (triRect (clipRect damage p.clip) t) (fun pos c => shade c t (textures p.texId) pos) canvas)
    canvas

def rasterBand (shade : Shade Px) (w : Nat) (damage : IRect) (clear : Px) (textures : Textures) (fr : Frame)
    (canvas : List Px) : List Px :=
  fr.prims.foldl (rasterPrim shade w damage textures fr) (inside w damage (fun _ _ => clear) canvas)

def render (shade : Shade Px) (blank : Px) (r : Raster Px) (fr : Frame) : Raster Px :=
  match planDamage blank r fr with
  | (none, r') => r'
  | (some damage, r') => { r' with canvas := rasterBand shade r'.cw damage r'.clear r'.textures fr r'.canvas }

open IRect

variable {shade : Shade Px} {fr : Frame} {p : Prim} {t : Tri} {textures : Textures} {damage : IRect} {x y : Int}

theorem IRect.has_iff {r : IRect} : r.has x y = true ↔ r.x0 ≤ x ∧ x < r.x1 ∧ r.y0 ≤ y ∧ y < r.y1 := decide_eq_true_iff

theorem IRect.isEmpty_iff {r : IRect} : r.isEmpty = true ↔ r.x1 ≤ r.x0 ∨ r.y1 ≤ r.y0 := decide_eq_true_iff

def covers (c : Clip) (t : Tri) (x y : Int) : Bool :=
  (triRect ⟨Single.floor (Single.value c.minX), Single.floor (Single.value c.minY), Single.ceil (Single.value c.maxX),
    Single.ceil (Single.value c.maxY)⟩ t).has x y

def triMark (shade : Shade Px) (textures : Textures) (p : Prim) (t : Tri) (pos : Nat × Nat) (c : Px) : Px :=
  if covers p.clip t pos.1 pos.2 then shade c t (textures p.texId) pos else c

def primMark (shade : Shade Px) (textures : Textures) (fr : Frame) (p : Prim) (pos : Nat × Nat) (c : Px) : Px :=
  paint (triMark shade textures p) (triangles (corners fr p)) pos c

theorem has_triRect (damage : IRect) (c : Clip) (t : Tri) (x y : Int) :
    (triRect (clipRect damage c) t).has x y = true ↔ damage.has x y = true ∧ covers c t x y = true := by
  unfold covers
  rw [has_iff, has_iff, has_iff]
  simp only [triRect, clipRect, max_le_iff, lt_min_iff]
  tauto

theorem covers_of_isEmpty (h : (clipRect damage p.clip).isEmpty = true) (hdamage : damage.has x y = true) :
    covers p.clip t x y = false := by
  rw [← Bool.not_eq_true]
  intro hcov
  have hin := has_iff.mp ((has_triRect damage p.clip t x y).mpr ⟨hdamage, hcov⟩)
  have hempty := isEmpty_iff.mp h
  simp only [triRect] at hin
  omega

theorem primMark_of_isEmpty (h : (clipRect damage p.clip).isEmpty = true) {pos : Nat × Nat}
    (hdamage : damage.has pos.1 pos.2 = true) (c : Px) : primMark shade textures fr p pos c = c := by
  unfold primMark
  rw [← paint_filter]
  · rw [List.filter_false]
    rfl
  · intro t _ _ c
    rw [triMark, covers_of_isEmpty h hdamage]
    rfl

theorem foldl_inside {ι : Type} (w : Nat) (rect : IRect) (mark : ι → Nat × Nat → Px → Px) (xs : List ι)
    (canvas : List Px) :
    xs.foldl (fun canvas x => inside w rect (mark x) canvas) canvas = inside w rect (paint mark xs) canvas := by
  unfold inside
  rw [foldl_mapIdx]
  congr 1
  funext i c
  cases hin : rect.has (i % w : Nat) (i / w : Nat) with
  | true =>
    unfold paint
    simp only [hin, if_true]
  | false =>
    rw [← paint_filter]
    · rw [List.filter_false]
      rfl
    · intro x _ _ c
      rw [hin]
      rfl

theorem inside_triRect (w : Nat) (damage : IRect) (canvas : List Px) (p : Prim) (t : Tri) :
    inside w (triRect (clipRect damage p.clip) t) (fun pos c => shade c t (textures p.texId) pos) canvas =
      inside w damage (triMark shade textures p t) canvas := by
  unfold inside triMark
  congr 1
  funext i c
  simp only [has_triRect]
  rw [ite_and]

theorem rasterPrim_eq (shade : Shade Px) (w : Nat) (damage : IRect) (textures : Textures) (fr : Frame)
    (canvas : List Px) (p : Prim) :
    rasterPrim shade w damage textures fr canvas p = inside w damage (primMark shade textures fr p) canvas := by
  unfold rasterPrim
  split_ifs with hempty
  · apply (mapIdx_eq_self _).symm
    intro i c
    split_ifs with hin
    · exact primMark_of_isEmpty hempty hin c
    · rfl
  · simp only [inside_triRect]
    exact foldl_inside w damage _ _ canvas

def pixel (shade : Shade Px) (textures : Textures) (fr : Frame) (clear : Px) (pos : Nat × Nat) : Px :=
  paint (primMark shade textures fr) fr.prims pos clear

theorem rasterBand_eq (shade : Shade Px) (w : Nat) (damage : IRect) (clear : Px) (textures : Textures) (fr : Frame)
    (canvas : List Px) : rasterBand shade w damage clear textures fr canvas =
      inside w damage (fun pos _ => pixel shade textures fr clear pos) canvas := by
  have hprim : rasterPrim shade w damage textures fr =
      fun canvas p => inside w damage (primMark shade textures fr p) canvas := by
    funext canvas p
    exact rasterPrim_eq shade w damage textures fr canvas p
  rw [rasterBand, hprim, foldl_inside, inside, inside, List.mapIdx_mapIdx]
  congr 1
  funext i c
  split_ifs <;> rfl

open Single List

variable {r o : IRect} {iw ih : Int}

theorem mem_of_mem_triangles {cs : List (Option Vertex)} (h : t ∈ triangles cs) :
    some t.1 ∈ cs ∧ some t.2.1 ∈ cs ∧ some t.2.2 ∈ cs := by
  fun_induction triangles cs with
  | case1 rest a b c ih =>
    rcases mem_cons.mp h with rfl | h
    · simp
    · obtain ⟨ha, hb, hc⟩ := ih h
      simp [ha, hb, hc]
  | case2 a b c rest hnot ih =>
    obtain ⟨ha, hb, hc⟩ := ih h
    simp [ha, hb, hc]
  | case3 => cases h

/-- Along one axis: a coordinate of three vertices of a list that is within a clip is within their bounds. -/
theorem axis_bounds {vs : List Vertex} {coord : Vertex → UInt32} {lo hi : UInt32} (h₀ : t.1 ∈ vs) (h₁ : t.2.1 ∈ vs)
    (h₂ : t.2.2 ∈ vs)
    (hlo : Single.floor (Single.least (Single.least (Single.value (coord t.1)) (Single.value (coord t.2.1)))
      (Single.value (coord t.2.2))) ≤ x)
    (hhi : x < Single.ceil (Single.most (Single.most (Single.value (coord t.1)) (Single.value (coord t.2.1)))
      (Single.value (coord t.2.2))))
    (hmin : Single.floor (Single.value lo) ≤ x) (hmax : x < Single.ceil (Single.value hi)) :
    Single.floor (Single.most (lowest (vs.map coord)) (Single.value lo)) ≤ x ∧
      x < Single.ceil (Single.least (highest (vs.map coord)) (Single.value hi)) := by
  have hmem : ∀ v ∈ vs, value (coord v) ∈ (vs.map coord).map value := fun v hv =>
    mem_map_of_mem (mem_map_of_mem hv)
  have hlowest : lowest (vs.map coord) =
      ((vs.map coord).map value).foldl least (some infinity) := foldl_map.symm
  have hhighest : highest (vs.map coord) =
      ((vs.map coord).map value).foldl most (some (-infinity)) := foldl_map.symm
  rw [hlowest, hhighest]
  exact within_foldl (hmem _ h₀) (hmem _ h₁) (hmem _ h₂) hlo hhi hmin hmax

theorem has_clamp (h : r.has x y = true) (hx : 0 ≤ x ∧ x < iw) (hy : 0 ≤ y ∧ y < ih) :
    (r.clamp iw ih).has x y = true := by
  rw [has_iff] at h ⊢
  simp only [clamp, between]
  split_ifs <;> omega

theorem has_bbox (ht : t ∈ triangles (corners fr p)) (hcov : covers p.clip t x y = true) (hx : 0 ≤ x ∧ x < iw)
    (hy : 0 ≤ y ∧ y < ih) : (primMeta fr p iw ih).bbox.has x y = true := by
  obtain ⟨h₀, h₁, h₂⟩ := mem_of_mem_triangles ht
  have hmem : ∀ v, some v ∈ corners fr p → v ∈ (corners fr p).reduceOption := fun v hv =>
    reduceOption_mem_iff.mpr hv
  have hrect := has_iff.mp hcov
  simp only [triRect] at hrect
  have hxb := @axis_bounds t x _ (·.x) p.clip.minX p.clip.maxX (hmem _ h₀) (hmem _ h₁) (hmem _ h₂) (by omega) (by omega)
    (by omega) (by omega)
  have hyb := @axis_bounds t y _ (·.y) p.clip.minY p.clip.maxY (hmem _ h₀) (hmem _ h₁) (hmem _ h₂) (by omega) (by omega)
    (by omega) (by omega)
  unfold primMeta
  simp only
  rw [if_neg (by omega)]
  exact has_clamp (has_iff.mpr ⟨hxb.1, hxb.2, hyb.1, hyb.2⟩) hx hy

theorem primMark_of_not_has {pos : Nat × Nat} (hx : (pos.1 : Int) < iw) (hy : (pos.2 : Int) < ih)
    (hbox : (primMeta fr p iw ih).bbox.has pos.1 pos.2 = false) (c : Px) :
    primMark shade textures fr p pos c = c := by
  unfold primMark
  rw [← paint_filter]
  · rw [filter_false]
    rfl
  · intro t ht _ c
    rw [triMark, if_neg]
    intro hcov
    rw [has_bbox ht hcov ⟨by omega, hx⟩ ⟨by omega, hy⟩] at hbox
    cases hbox

theorem mem_changed {texDirty : List (UInt64 × IRect)} {prev new : List PrimMeta} {m : PrimMeta} :
    m ∈ changed textures texDirty prev new ↔ (m ∈ prev ∧ m.hash ∉ new.map (·.hash)) ∨
      (m ∈ new ∧ m.hash ∉ prev.map (·.hash)) ∨ ∃ d ∈ texDirty, m ∈ new ∧ samples textures d m = true := by
  simp [changed]

theorem not_has_of_isEmpty (h : r.isEmpty = true) : r.has x y = false := by
  rw [← Bool.not_eq_true, IRect.has_iff]
  rw [IRect.isEmpty_iff] at h
  omega

theorem has_union_left (h : r.has x y = true) : (r.union o).has x y = true := by
  unfold union
  split_ifs with hr ho
  · rw [not_has_of_isEmpty hr] at h
    cases h
  · exact h
  · rw [has_iff] at h ⊢
    simp only
    omega

theorem has_union_right (h : o.has x y = true) : (r.union o).has x y = true := by
  unfold union
  split_ifs with hr ho
  · exact h
  · rw [not_has_of_isEmpty ho] at h
    cases h
  · rw [has_iff] at h ⊢
    simp only
    omega

theorem has_foldl_union {ms : List PrimMeta} (h : r.has x y = true ∨ ∃ m ∈ ms, m.bbox.has x y = true) :
    (ms.foldl (fun d m => d.union m.bbox) r).has x y = true := by
  induction ms generalizing r with
  | nil =>
    rcases h with h | ⟨m, hm, -⟩
    · exact h
    · cases hm
  | cons m ms ih =>
    apply ih
    rcases h with h | ⟨m', hm, h⟩
    · exact .inl (has_union_left h)
    · rcases mem_cons.mp hm with rfl | hm
      · exact .inl (has_union_right h)
      · exact .inr ⟨m', hm, h⟩

theorem has_margin (h : r.has x y = true) (hx : 0 ≤ x ∧ x < iw) (hy : 0 ≤ y ∧ y < ih) :
    (margin r iw ih).has x y = true := by
  unfold margin
  simp only
  split_ifs
  · apply has_clamp _ hx hy
    rw [has_iff] at h ⊢
    simp only
    omega
  · exact h

end Ruos.Mesh
