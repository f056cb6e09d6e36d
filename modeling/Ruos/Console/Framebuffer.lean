import Ruos.Console.Grid
import Ruos.Lib.Run

/-! From cells to pixels: the back buffer of `console/surface.rs`, `console/render.rs` and `console/glyphcache.rs`, and
the console of `console/fb.rs` with the callbacks of its escape-sequence parser. -/
namespace Ruos.Console

open Lib List

inductive PixelLayout
  | rgb | bgr
deriving DecidableEq

/-- A framebuffer of the boot loader that `fb_init` accepts: the pixels of a line fit into it. The address is left out,
the copy to the device being no part of the back buffer. -/
structure FbInfo where
  width : Nat
  height : Nat
  pitch : Nat
  bpp : Nat
  pixel : PixelLayout
  bpp_eq : bpp = 24 ∨ bpp = 32
  line_fits : width * (bpp / 8) ≤ pitch

structure Surface where
  info : FbInfo
  back : List UInt8

namespace Surface

def new (info : FbInfo) : Surface := ⟨info, List.replicate (info.pitch * info.height) 0⟩

def bppBytes (s : Surface) : Nat := s.info.bpp / 8

def offset (s : Surface) (x y : Nat) : Nat := y * s.info.pitch + x * s.bppBytes

def pack (s : Surface) (c : Rgb) : List UInt8 :=
  (match s.info.pixel with
    | .bgr => [c.b, c.g, c.r]
    | .rgb => [c.r, c.g, c.b]) ++ if s.bppBytes = 4 then [0] else []

def putPx (s : Surface) (x y : Nat) (c : Rgb) : Surface :=
  if x ≥ s.info.width ∨ y ≥ s.info.height then s
  else { s with back := splice s.back (s.offset x y) (s.pack c) }

def unpack (layout : PixelLayout) (b₀ b₁ b₂ : UInt8) : Rgb :=
  match layout with
  | .bgr => ⟨b₂, b₁, b₀⟩
  | .rgb => ⟨b₀, b₁, b₂⟩

def readPx (s : Surface) (x y : Nat) : Rgb :=
  unpack s.info.pixel (s.back.getD (s.offset x y) 0) (s.back.getD (s.offset x y + 1) 0)
    (s.back.getD (s.offset x y + 2) 0)

def paint (s : Surface) (color : Nat → Nat → Rgb) : List (Nat × Nat) → Surface
  | [] => s
  | p :: ps => paint (s.putPx p.1 p.2 (color p.1 p.2)) color ps

def Sized (s : Surface) : Prop := s.back.length = s.info.pitch * s.info.height

variable {s : Surface} {x y : Nat}

theorem bppBytes_eq (s : Surface) : s.bppBytes = 3 ∨ s.bppBytes = 4 := by
  unfold bppBytes
  rcases s.info.bpp_eq with h | h <;> simp [h]

theorem length_pack (s : Surface) (c : Rgb) : (s.pack c).length = s.bppBytes := by
  unfold pack
  rcases s.bppBytes_eq with h | h <;> cases s.info.pixel <;> simp [h]

theorem sized_new (info : FbInfo) : (new info).Sized := length_replicate

variable {x' y' : Nat}

theorem offset_lt_of_line (hx : x < s.info.width) (hy : y < y') : s.offset x y + s.bppBytes ≤ s.offset x' y' := by
  have hline := mul_add_le_mul s.info.pitch hy
  have hpixel : x * s.bppBytes + s.bppBytes ≤ s.info.pitch := (mul_add_le_mul s.bppBytes hx).trans s.info.line_fits
  unfold offset
  omega

theorem offset_in_buffer (hs : s.Sized) (hx : x < s.info.width) (hy : y < s.info.height) :
    s.offset x y + s.bppBytes ≤ s.back.length := by
  have hline := @offset_lt_of_line s x y 0 s.info.height hx hy
  simp only [offset, Nat.zero_mul, Nat.add_zero] at hline
  rw [hs, Nat.mul_comm s.info.pitch]
  exact hline

theorem offset_disjoint (hx : x < s.info.width) (hx' : x' < s.info.width) (hne : ¬ (x' = x ∧ y' = y)) :
    s.offset x y + s.bppBytes ≤ s.offset x' y' ∨ s.offset x' y' + s.bppBytes ≤ s.offset x y := by
  rcases Nat.lt_trichotomy y y' with hy | rfl | hy
  · exact .inl (offset_lt_of_line hx hy)
  · have hpixel := mul_apart x x' s.bppBytes
    unfold offset
    omega
  · exact .inr (offset_lt_of_line hx' hy)

theorem info_putPx (s : Surface) (x y : Nat) (c : Rgb) : (s.putPx x y c).info = s.info := by
  unfold putPx
  split_ifs <;> rfl

theorem Sized.putPx (hs : s.Sized) (x y : Nat) (c : Rgb) : (s.putPx x y c).Sized := by
  unfold Surface.putPx
  split_ifs with hout
  · exact hs
  · have hin := offset_in_buffer hs (x := x) (y := y) (by omega) (by omega)
    exact (length_splice (by rw [length_pack]; exact hin)).trans hs

theorem unpack_pack (s : Surface) (c : Rgb) :
    unpack s.info.pixel ((s.pack c).getD 0 0) ((s.pack c).getD 1 0) ((s.pack c).getD 2 0) = c := by
  unfold pack
  cases s.info.pixel <;> rfl

theorem readPx_eq {b : Nat → UInt8} (hget : ∀ k < 3, s.back.getD (s.offset x y + k) 0 = b k) :
    s.readPx x y = unpack s.info.pixel (b 0) (b 1) (b 2) := by
  rw [← hget 0 (by decide), ← hget 1 (by decide), ← hget 2 (by decide)]
  rfl

theorem readPx_putPx_self (hs : s.Sized) (hx : x < s.info.width) (hy : y < s.info.height) (c : Rgb) :
    (s.putPx x y c).readPx x y = c := by
  have hin := offset_in_buffer hs hx hy
  have hget : ∀ k < 3, (splice s.back (s.offset x y) (s.pack c)).getD (s.offset x y + k) 0 = (s.pack c).getD k 0 := by
    intro k hk
    have hn : k < (s.pack c).length := by
      rw [length_pack]
      rcases s.bppBytes_eq with h | h <;> omega
    rw [getD_eq_getElem?_getD, getElem?_splice (by omega), if_pos ⟨by omega, by omega⟩, Nat.add_sub_cancel_left,
      getD_eq_getElem?_getD]
  rw [putPx, if_neg (by omega)]
  exact (readPx_eq hget).trans (unpack_pack s c)

theorem readPx_putPx_of_ne (hs : s.Sized) (hx : x < s.info.width) (hne : ¬ (x' = x ∧ y' = y)) (c : Rgb) :
    (s.putPx x' y' c).readPx x y = s.readPx x y := by
  unfold putPx
  split_ifs with hout
  · rfl
  · have hin := @offset_in_buffer s x' y' hs (by omega) (by omega)
    have hdisjoint := @offset_disjoint s x y x' y' hx (by omega) hne
    have hget : ∀ k < 3,
        (splice s.back (s.offset x' y') (s.pack c)).getD (s.offset x y + k) 0 = s.back.getD (s.offset x y + k) 0 := by
      intro k hk
      have hn : k < s.bppBytes := by rcases s.bppBytes_eq with h | h <;> omega
      rw [getD_eq_getElem?_getD, getElem?_splice (by omega), if_neg (by rw [length_pack]; omega),
        getD_eq_getElem?_getD]
    exact readPx_eq (b := fun k => s.back.getD (s.offset x y + k) 0) hget

theorem info_paint (s : Surface) (color : Nat → Nat → Rgb) (ps : List (Nat × Nat)) : (s.paint color ps).info = s.info := by
  induction ps generalizing s with
  | nil => rfl
  | cons p ps ih => rw [paint, ih, info_putPx]

theorem Sized.paint (hs : s.Sized) (color : Nat → Nat → Rgb) (ps : List (Nat × Nat)) : (s.paint color ps).Sized := by
  induction ps generalizing s with
  | nil => exact hs
  | cons p ps ih => exact ih (hs.putPx _ _ _)

theorem readPx_paint (hs : s.Sized) (hx : x < s.info.width) (hy : y < s.info.height) (color : Nat → Nat → Rgb)
    (ps : List (Nat × Nat)) : (s.paint color ps).readPx x y = if (x, y) ∈ ps then color x y else s.readPx x y := by
  induction ps generalizing s with
  | nil => simp [paint]
  | cons p ps ih =>
    have hinfo := info_putPx s p.1 p.2 (color p.1 p.2)
    rw [paint, ih (hs.putPx _ _ _) (by rw [hinfo]; exact hx) (by rw [hinfo]; exact hy)]
    by_cases hp : p.1 = x ∧ p.2 = y
    · obtain ⟨rfl, rfl⟩ := hp
      simp [readPx_putPx_self hs hx hy]
    · have hne : (x, y) ≠ p := by
        rintro rfl
        exact hp ⟨rfl, rfl⟩
      rw [readPx_putPx_of_ne hs hx hp]
      simp [hne]
end Surface

open Surface

structure GlyphMask where
  w : Nat
  h : Nat
  alpha : List UInt8
  length_alpha : alpha.length = w * h

/-- The font: the size of a glyph and `rasterize`. -/
structure Font where
  gw : Nat
  gh : Nat
  rasterize : Char → Bool → GlyphMask
  gw_pos : 0 < gw
  gh_ge : 2 ≤ gh

abbrev GlyphCache := List ((Char × Bool) × GlyphMask)

/-- `mask` of the cache, with the cache after it. -/
def GlyphCache.mask (font : Font) (cache : GlyphCache) (ch : Char) (bold : Bool) : GlyphMask × GlyphCache :=
  match cache.lookup (ch, bold) with
  | some m => (m, cache)
  | none => (font.rasterize ch bold, ((ch, bold), font.rasterize ch bold) :: cache)

def GlyphCache.prewarmAscii (font : Font) (cache : GlyphCache) : GlyphCache :=
  (List.range' 0x20 (0x7E + 1 - 0x20)).foldl (fun cache c => (cache.mask font (Char.ofNat c) false).2) cache

def mix (f b intensity : UInt8) : UInt8 :=
  UInt8.ofNat ((f.toNat * intensity.toNat + b.toNat * (255 - intensity.toNat)) / 255)

def blend (fg bg : Rgb) (intensity : UInt8) : Rgb :=
  ⟨mix fg.r bg.r intensity, mix fg.g bg.g intensity, mix fg.b bg.b intensity⟩

def dim (fg bg : Rgb) : Rgb := blend fg bg 160

namespace Cell

/-- The background after `REVERSE`. -/
def paper (cell : Cell) : Rgb := if cell.attr.reverse then cell.fg else cell.bg

/-- The foreground after `REVERSE` and `DIM`. -/
def ink (cell : Cell) : Rgb :=
  let fg := if cell.attr.reverse then cell.bg else cell.fg
  if cell.attr.dim then Console.dim fg cell.paper else fg

end Cell

def GlyphMask.alphaAt (m : GlyphMask) (rx ry : Nat) : UInt8 :=
  if rx < m.w ∧ ry < m.h then m.alpha.getD (ry * m.w + rx) 0 else 0

def glyphColor (cell : Cell) (m : GlyphMask) (rx ry : Nat) : Rgb :=
  if m.alphaAt rx ry = 0 then cell.paper else blend cell.ink cell.paper (m.alphaAt rx ry)

def cellBox (font : Font) (col row : Nat) : List (Nat × Nat) :=
  (List.range font.gh).flatMap fun ry => (List.range font.gw).map fun rx => (col * font.gw + rx, row * font.gh + ry)

def underlineBox (font : Font) (col row : Nat) : List (Nat × Nat) :=
  (List.range font.gw).map fun rx => (col * font.gw + rx, row * font.gh + font.gh - 2)

structure Canvas where
  cache : GlyphCache
  surf : Surface

def composeCell (font : Font) (cell : Cell) (col row : Nat) (v : Canvas) : Canvas :=
  let m := v.cache.mask font cell.ch cell.attr.bold
  let glyph := v.surf.paint
    (fun x y => glyphColor cell m.1 (x - col * font.gw) (y - row * font.gh)) (cellBox font col row)
  ⟨m.2, if cell.attr.underline then glyph.paint (fun _ _ => cell.ink) (underlineBox font col row) else glyph⟩

def composeCols (font : Font) (g : Grid) (row : Nat) : List Nat → Canvas → Option Canvas
  | [], v => some v
  | col :: cols, v => (g.cell col row).bind fun cell => composeCols font g row cols (composeCell font cell col row v)

def composeRows (font : Font) (g : Grid) : List Nat → Canvas → Option Canvas
  | [], v => some v
  | row :: rows, v =>
    match g.dirtySpan row with
    | none => none
    | some none => composeRows font g rows v
    | some (some (lo, hi)) =>
      (composeCols font g row (List.range' lo (hi + 1 - lo)) v).bind (composeRows font g rows)

/-- `flush`, without the copy to the device. -/
def flush (font : Font) (g : Grid) (v : Canvas) : Option (Grid × Canvas) :=
  (composeRows font g (List.range g.rows) v).map fun v => (g.clearDirty, v)

/-- The colour that composing a cell gives to one of its pixels. -/
def cellPixel (font : Font) (cell : Cell) (rx ry : Nat) : Rgb :=
  if cell.attr.underline ∧ ry = font.gh - 2 then cell.ink
  else glyphColor cell (font.rasterize cell.ch cell.attr.bold) rx ry

/-- The cache holds nothing but glyphs of the font. -/
def CacheOk (font : Font) (cache : GlyphCache) : Prop :=
  ∀ ch bold m, cache.lookup (ch, bold) = some m → m = font.rasterize ch bold

structure Canvas.Ok (font : Font) (info : FbInfo) (v : Canvas) : Prop where
  cache : CacheOk font v.cache
  sized : v.surf.Sized
  info : v.surf.info = info

variable {font : Font} {info : FbInfo} {cache : GlyphCache} {v : Canvas} {x y col row : Nat}

theorem CacheOk.mask (h : CacheOk font cache) (ch : Char) (bold : Bool) :
    (cache.mask font ch bold).1 = font.rasterize ch bold ∧ CacheOk font (cache.mask font ch bold).2 := by
  unfold GlyphCache.mask
  cases hm : cache.lookup (ch, bold) with
  | some m => exact ⟨h ch bold m hm, h⟩
  | none =>
    refine ⟨rfl, fun ch' bold' m hm' => ?_⟩
    rw [lookup_cons] at hm'
    split at hm'
    · rename_i heq
      obtain ⟨rfl, rfl⟩ := Prod.mk.inj (eq_of_beq heq)
      exact (Option.some.inj hm').symm
    · exact h ch' bold' m hm'

theorem CacheOk.prewarmAscii (h : CacheOk font cache) : CacheOk font (cache.prewarmAscii font) := by
  unfold GlyphCache.prewarmAscii
  generalize range' 0x20 (0x7E + 1 - 0x20) = chars
  induction chars generalizing cache with
  | nil => exact h
  | cons c cs ih => exact ih (h.mask _ _).2

theorem exists_offset_iff {n a k : Nat} (hn : 0 < n) : (∃ r < n, a * n + r = k) ↔ k / n = a := by
  constructor
  · rintro ⟨r, hr, rfl⟩
    rw [Nat.mul_comm, Nat.mul_add_div hn, Nat.div_eq_of_lt hr, Nat.add_zero]
  · rintro rfl
    exact ⟨k % n, Nat.mod_lt k hn, Nat.div_add_mod' k n⟩

theorem sub_offset {n a k : Nat} (h : k / n = a) : k - a * n = k % n := by
  subst h
  have := Nat.div_add_mod' k n
  omega

theorem mem_cellBox : (x, y) ∈ cellBox font col row ↔ x / font.gw = col ∧ y / font.gh = row := by
  have hgh : 0 < font.gh := Nat.lt_of_lt_of_le (by decide) font.gh_ge
  rw [← exists_offset_iff font.gw_pos, ← exists_offset_iff hgh]
  simp only [cellBox, mem_flatMap, mem_range, mem_map, Prod.mk.injEq]
  constructor
  · rintro ⟨ry, hry, rx, hrx, hx, hy⟩
    exact ⟨⟨rx, hrx, hx⟩, ry, hry, hy⟩
  · rintro ⟨⟨rx, hrx, hx⟩, ry, hry, hy⟩
    exact ⟨ry, hry, rx, hrx, hx, hy⟩

theorem mem_underlineBox :
    (x, y) ∈ underlineBox font col row ↔ x / font.gw = col ∧ y / font.gh = row ∧ y % font.gh = font.gh - 2 := by
  have hgh := font.gh_ge
  have hline : row * font.gh + font.gh - 2 = y ↔ y / font.gh = row ∧ y % font.gh = font.gh - 2 := by
    constructor
    · intro h
      have hrow : y / font.gh = row := (exists_offset_iff (by omega)).mp ⟨font.gh - 2, by omega, by omega⟩
      exact ⟨hrow, by rw [← sub_offset hrow]; omega⟩
    · rintro ⟨rfl, hmod⟩
      have := Nat.div_add_mod' y font.gh
      omega
  rw [← exists_offset_iff font.gw_pos, ← hline]
  simp only [underlineBox, mem_map, mem_range, Prod.mk.injEq]
  constructor
  · rintro ⟨rx, hrx, hx, hy⟩
    exact ⟨⟨rx, hrx, hx⟩, hy⟩
  · rintro ⟨⟨rx, hrx, hx⟩, hy⟩
    exact ⟨rx, hrx, hx, hy⟩

theorem composeCell_spec (hv : v.Ok font info) (cell : Cell) (col row : Nat) :
    (composeCell font cell col row v).Ok font info ∧ ∀ x y, x < info.width → y < info.height →
        (composeCell font cell col row v).surf.readPx x y =
          if x / font.gw = col ∧ y / font.gh = row then cellPixel font cell (x % font.gw) (y % font.gh)
          else v.surf.readPx x y := by
  obtain ⟨hcache, hsized, rfl⟩ := hv
  obtain ⟨hmask, hcache'⟩ := hcache.mask cell.ch cell.attr.bold
  have hglyph : ∀ x y, x < v.surf.info.width → y < v.surf.info.height →
      (v.surf.paint (fun x y => glyphColor cell (v.cache.mask font cell.ch cell.attr.bold).1 (x - col * font.gw)
        (y - row * font.gh)) (cellBox font col row)).readPx x y =
      if x / font.gw = col ∧ y / font.gh = row then
        glyphColor cell (font.rasterize cell.ch cell.attr.bold) (x % font.gw) (y % font.gh)
      else v.surf.readPx x y := by
    intro x y hx hy
    rw [readPx_paint hsized hx hy, hmask]
    simp only [mem_cellBox]
    split_ifs with h
    · rw [sub_offset h.1, sub_offset h.2]
    · rfl
  unfold composeCell
  by_cases hunder : cell.attr.underline = true
  · simp only [hunder, if_true]
    refine ⟨⟨hcache', (hsized.paint _ _).paint _ _, by rw [info_paint, info_paint]⟩, fun x y hx hy => ?_⟩
    rw [readPx_paint (hsized.paint _ _) (by rwa [info_paint]) (by rwa [info_paint]), hglyph x y hx hy]
    simp only [mem_underlineBox, cellPixel, hunder, true_and]
    by_cases hin : x / font.gw = col ∧ y / font.gh = row
    · simp [hin.1, hin.2]
    · rw [if_neg fun h => hin ⟨h.1, h.2.1⟩]
      simp [hin]
  · simp only [hunder, Bool.false_eq_true, if_false]
    refine ⟨⟨hcache', hsized.paint _ _, info_paint _ _ _⟩, fun x y hx hy => ?_⟩
    rw [hglyph x y hx hy]
    simp [cellPixel, hunder]

/-- `FramebufferConsole` without its parser, with the cursor that it publishes for the timer interrupt. -/
structure FramebufferConsole where
  info : FbInfo
  grid : Grid
  canvas : Canvas
  saved : Option Grid
  lastCur : Nat × Nat
  cursorPos : Nat
  cursorVisible : Bool
  cursorStyle : Nat

/-- What the parser delivers. The first value of a parameter is its number, the others come after colons. -/
inductive Callback
  | print (ch : Char)
  | execute (byte : UInt8)
  | csiDispatch (params : List (List UInt16)) (intermediates : List UInt8) (c : Char)
  /-- `esc_dispatch`, `hook`, `put`, `unhook` and `osc_dispatch`, which do nothing. -/
  | ignored

def param (params : List (List UInt16)) (i default : Nat) : Nat := ((params[i]?).bind List.head?).elim default UInt16.toNat

namespace FramebufferConsole

def setGrid (s : FramebufferConsole) (g : Grid) : FramebufferConsole := { s with grid := g }

def publishCursor (s : FramebufferConsole) : FramebufferConsole :=
  { s with cursorPos := s.grid.curCol <<< 32 ||| s.grid.curRow }

def refresh (font : Font) (s : FramebufferConsole) : Option FramebufferConsole :=
  (flush font s.grid s.canvas).map fun r =>
    publishCursor { s with grid := r.1, canvas := r.2, lastCur := r.1.cursor }

def clear (font : Font) (s : FramebufferConsole) : Option FramebufferConsole := (s.setGrid s.grid.clear).refresh font

def new (font : Font) (info : FbInfo) (fg bg : Rgb) : Option FramebufferConsole :=
  let cols := u16 (max (info.width / font.gw) 1)
  let rows := u16 (max (info.height / font.gh) 1)
  clear font
    { info := info
      grid := .new cols rows fg bg
      canvas := ⟨GlyphCache.prewarmAscii font [], .new info⟩
      saved := none
      lastCur := (0, 0)
      cursorPos := 0
      cursorVisible := true
      cursorStyle := 1 }

def enterAlt (s : FramebufferConsole) : FramebufferConsole :=
  match s.saved with
  | some _ => { s with lastCur := s.grid.cursor }
  | none =>
    let alt := (Grid.new s.grid.cols s.grid.rows s.grid.pen.fg s.grid.pen.bg).markAllDirty
    { s with grid := alt, saved := some s.grid, lastCur := alt.cursor }

def leaveAlt (s : FramebufferConsole) : FramebufferConsole :=
  match s.saved with
  | some primary => { s with grid := primary.markAllDirty, saved := none, lastCur := primary.cursor }
  | none => { s with lastCur := s.grid.cursor }

def setMode (set : Bool) (s : FramebufferConsole) (p : UInt16) : FramebufferConsole :=
  match p.toNat with
  | 1049 | 1047 | 47 => if set then s.enterAlt else s.leaveAlt
  | 25 => { s with cursorVisible := set }
  | _ => s

def setStyle (s : FramebufferConsole) (n : Nat) : FramebufferConsole :=
  { s with cursorStyle :=
      match n with
      | 0 | 1 | 2 => 0
      | 3 | 4 => 1
      | 5 | 6 => 2
      | _ => 1 }

def print (s : FramebufferConsole) (ch : Char) : Option FramebufferConsole := (s.grid.put ch).map s.setGrid

def execute (s : FramebufferConsole) (byte : UInt8) : Option FramebufferConsole :=
  if byte = 0x0A then s.grid.newline.map s.setGrid
  else if byte = 0x0D then some (s.setGrid s.grid.cr)
  else if byte = 0x08 then some (s.setGrid s.grid.bs)
  else if byte = 0x09 then s.grid.tab.map s.setGrid
  else some s

def csiDispatch (s : FramebufferConsole) (params : List (List UInt16)) (i : List UInt8) (c : Char) :
    Option FramebufferConsole :=
  let g := s.grid
  let p1 := param params 0 1
  match c with
  | 'm' => some (s.setGrid { g with pen := applySgr params.flatten g.pen })
  | 'J' => some (if param params 0 0 = 2 then s.setGrid g.clear else s)
  | 'A' => some (s.setGrid (g.moveUp (max p1 1)))
  | 'B' => some (s.setGrid (g.moveDown (max p1 1)))
  | 'C' => some (s.setGrid (g.moveRight (max p1 1)))
  | 'D' => some (s.setGrid (g.moveLeft (max p1 1)))
  | 'H' => some (s.setGrid (g.goto (param params 1 1 - 1) (p1 - 1)))
  | 'K' => g.eraseToEol.map s.setGrid
  | 'h' => some (if 0x3F ∈ i then params.flatten.foldl (setMode true) s else s)
  | 'l' => some (if 0x3F ∈ i then params.flatten.foldl (setMode false) s else s)
  | 'q' => some (if 0x20 ∈ i then s.setStyle p1 else s)
  | 'r' => some (s.setGrid (g.setScrollRegion (p1 - 1) (param params 1 g.rows - 1)))
  | _ => some s

def callback (s : FramebufferConsole) : Callback → Option FramebufferConsole
  | .print ch => s.print ch
  | .execute byte => s.execute byte
  | .csiDispatch params i c => s.csiDispatch params i c
  | .ignored => some s

/-- The end of `write_str`, after the callbacks: nothing is painted while the GUI owns the framebuffer. -/
def finish (font : Font) (gui : Bool) (s : FramebufferConsole) : Option FramebufferConsole :=
  if gui then some s
  else (s.grid.markCell s.lastCur.1 s.lastCur.2).bind fun g => (s.setGrid g).refresh font

/-- `write_str` of a text for which the parser delivers these callbacks. -/
def writeStr (font : Font) (s : FramebufferConsole) (callbacks : List Callback) (gui : Bool) :
    Option FramebufferConsole :=
  (exec callback s callbacks).bind (finish font gui)

inductive Call
  | writeStr (callbacks : List Callback) (gui : Bool)
  | clear

def call (font : Font) (s : FramebufferConsole) : Call → Option FramebufferConsole
  | .writeStr callbacks gui => s.writeStr font callbacks gui
  | .clear => s.clear font

end FramebufferConsole
end Ruos.Console
