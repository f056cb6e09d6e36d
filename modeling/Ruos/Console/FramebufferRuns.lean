import Ruos.Console.GridSteps
import Ruos.Console.Framebuffer

/-! What `flush` paints, and the back buffer over whole runs of the console: what is not dirty is shown as it is. -/
namespace Ruos.Console

open Lib List Grid

variable {font : Font} {info : FbInfo} {cols rows : Nat} {g : Grid} {v : Canvas}

def Grid.pixel (font : Font) (g : Grid) (x y : Nat) : Rgb :=
  ((g.cell (x / font.gw) (y / font.gh)).map fun cell => cellPixel font cell (x % font.gw) (y % font.gh)).getD black

section

variable (h : g.Ok cols rows)
include h

theorem Grid.Ok.cell_isSome {c r : Nat} (hc : c < cols) (hr : r < rows) : ∃ x, g.cell c r = some x := by
  have hlt : r * cols + c < g.cells.length := h.cells.symm ▸ idx_lt hc hr
  exact ⟨g.cells[r * cols + c], by rw [cell, idx, h.cols_eq, getElem?_eq_getElem hlt]⟩

theorem composeCols_spec {row : Nat} (hrow : row < rows) (cs : List Nat) (hcs : ∀ c ∈ cs, c < cols)
    (hv : v.Ok font info) : ∃ v', composeCols font g row cs v = some v' ∧ v'.Ok font info ∧
      ∀ x y, x < info.width → y < info.height →
        v'.surf.readPx x y = if y / font.gh = row ∧ x / font.gw ∈ cs then g.pixel font x y else v.surf.readPx x y := by
  induction cs generalizing v with
  | nil => exact ⟨v, rfl, hv, by simp⟩
  | cons c cs ih =>
    obtain ⟨cell, hcell⟩ := h.cell_isSome (hcs c mem_cons_self) hrow
    obtain ⟨hok, hpaint⟩ := composeCell_spec hv cell c row
    obtain ⟨v', hv', hok', hpaint'⟩ := ih (fun c' hc' => hcs c' (mem_cons_of_mem c hc')) hok
    refine ⟨v', by rw [composeCols, hcell]; exact hv', hok', fun x y hx hy => ?_⟩
    rw [hpaint' x y hx hy, hpaint x y hx hy]
    by_cases hr : y / font.gh = row
    · by_cases hc : x / font.gw = c
      · have hpixel : g.pixel font x y = cellPixel font cell (x % font.gw) (y % font.gh) := by
          rw [pixel, hc, hr, hcell]
          rfl
        simp [hr, hc, hpixel]
      · simp [hr, hc]
    · simp [hr]

theorem composeRows_spec (rs : List Nat) (hrs : ∀ r ∈ rs, r < rows) (hv : v.Ok font info) :
    ∃ v', composeRows font g rs v = some v' ∧ v'.Ok font info ∧ ∀ x y, x < info.width → y < info.height →
        (y / font.gh ∈ rs ∧ g.DirtyAt (x / font.gw) (y / font.gh) → v'.surf.readPx x y = g.pixel font x y) ∧
        (¬ (y / font.gh ∈ rs ∧ g.DirtyAt (x / font.gw) (y / font.gh)) → v'.surf.readPx x y = v.surf.readPx x y) := by
  induction rs generalizing v with
  | nil => exact ⟨v, rfl, hv, by simp⟩
  | cons r rs ih =>
    have hr : r < g.dirty.length := h.dirty.symm ▸ hrs r mem_cons_self
    have hget := getElem?_eq_getElem hr
    have hhi := h.span _ (getElem_mem hr)
    have hrest : ∀ r' ∈ rs, r' < rows := fun r' hr' => hrs r' (mem_cons_of_mem r hr')
    generalize g.dirty[r] = d at hget hhi
    have hdirty : ∀ c, g.DirtyAt c r ↔ d.1 ≤ c ∧ c ≤ d.2 := by
      simp [Grid.DirtyAt, hget]
    by_cases hspan : d.1 > d.2
    · -- A clean row is skipped.
      have hskip : g.dirtySpan r = some none := by simp [dirtySpan, hget, hspan]
      obtain ⟨v', hv', hok, hpaint⟩ := ih hrest hv
      refine ⟨v', by rw [composeRows, hskip]; exact hv', hok, fun x y hx hy => ⟨fun hin => ?_, fun hout => ?_⟩⟩
      · refine (hpaint x y hx hy).1 ⟨(mem_cons.mp hin.1).resolve_left fun heq => ?_, hin.2⟩
        have hd := (hdirty _).mp (heq ▸ hin.2)
        omega
      · exact (hpaint x y hx hy).2 fun hin => hout ⟨mem_cons_of_mem r hin.1, hin.2⟩
    · have hrow : g.dirtySpan r = some (some d) := by simp [dirtySpan, hget, hspan]
      obtain ⟨v₁, hv₁, hok₁, hpaint₁⟩ := composeCols_spec h (hrs r mem_cons_self)
        (range' d.1 (d.2 + 1 - d.1)) (fun c hc => by rw [mem_range'_1] at hc; omega) hv
      obtain ⟨v', hv', hok, hpaint⟩ := ih hrest hok₁
      have hrun : composeRows font g (r :: rs) v = some v' := by
        rw [composeRows, hrow]
        exact (congrArg (Option.bind · _) hv₁).trans hv'
      refine ⟨v', hrun, hok, fun x y hx hy => ?_⟩
      have hcol : x / font.gw ∈ range' d.1 (d.2 + 1 - d.1) ↔ g.DirtyAt (x / font.gw) r := by
        rw [hdirty, mem_range'_1]
        omega
      refine ⟨fun hin => ?_, fun hout => ?_⟩
      · by_cases hlater : y / font.gh ∈ rs
        · exact (hpaint x y hx hy).1 ⟨hlater, hin.2⟩
        · have heq : y / font.gh = r := (mem_cons.mp hin.1).resolve_right hlater
          rw [(hpaint x y hx hy).2 fun h => hlater h.1, hpaint₁ x y hx hy, if_pos ⟨heq, hcol.mpr (heq ▸ hin.2)⟩]
      · rw [(hpaint x y hx hy).2 fun hin => hout ⟨mem_cons_of_mem r hin.1, hin.2⟩, hpaint₁ x y hx hy, if_neg]
        exact fun hin => hout ⟨hin.1 ▸ mem_cons_self, hin.1.symm ▸ hcol.mp hin.2⟩

theorem flush_spec (hv : v.Ok font info) : ∃ v', flush font g v = some (g.clearDirty, v') ∧ v'.Ok font info ∧
      ∀ x y, x < info.width → y < info.height → y / font.gh < rows →
        (g.DirtyAt (x / font.gw) (y / font.gh) → v'.surf.readPx x y = g.pixel font x y) ∧
        (¬ g.DirtyAt (x / font.gw) (y / font.gh) → v'.surf.readPx x y = v.surf.readPx x y) := by
  have hrange : ∀ r ∈ range g.rows, r < rows := fun r hr => h.rows_eq ▸ mem_range.mp hr
  obtain ⟨v', hv', hok, hpaint⟩ := composeRows_spec h (range g.rows) hrange hv
  refine ⟨v', by rw [flush, hv']; rfl, hok, fun x y hx hy hrow => ⟨fun hd => ?_, fun hd => ?_⟩⟩
  · exact (hpaint x y hx hy).1 ⟨mem_range.mpr (h.rows_eq.symm ▸ hrow), hd⟩
  · exact (hpaint x y hx hy).2 fun hin => hd hin.2
end

open GlyphCache

structure Pixel (font : Font) (info : FbInfo) (cols rows : Nat) where
  x : Nat
  y : Nat
  x_lt : x < info.width
  y_lt : y < info.height
  col_lt : x / font.gw < cols
  row_lt : y / font.gh < rows

namespace Pixel

def place (q : Pixel font info cols rows) : Fin cols × Fin rows := (⟨_, q.col_lt⟩, ⟨_, q.row_lt⟩)

/-- The colour of a pixel, its cell being composed from scratch. -/
def render (cell : Option Cell) (q : Pixel font info cols rows) : Rgb :=
  (cell.map fun cell => cellPixel font cell (q.x % font.gw) (q.y % font.gh)).getD black

end Pixel

namespace FramebufferConsole

variable {s : FramebufferConsole} {g : Grid}

structure Ok (font : Font) (info : FbInfo) (cols rows : Nat) (s : FramebufferConsole) : Prop where
  grid : s.grid.Ok cols rows
  saved : ∀ g ∈ s.saved, g.Ok cols rows
  canvas : s.canvas.Ok font info
  image : UpToDate Pixel.render (fun q : Pixel font info cols rows => s.grid.view cols rows q.place)
    (fun q => s.grid.IsDirty cols rows q.place) fun q => s.canvas.surf.readPx q.x q.y

def Shown (font : Font) (info : FbInfo) (cols rows : Nat) (s : FramebufferConsole) : Prop :=
  ∀ q : Pixel font info cols rows, s.canvas.surf.readPx q.x q.y = s.grid.pixel font q.x q.y

theorem Ok.setGrid (h : s.Ok font info cols rows) (hnext : Grid.Next cols rows s.grid g) :
    (s.setGrid g).Ok font info cols rows :=
  ⟨hnext.ok, h.saved, h.canvas, h.image.of_covers (hnext.covers.comp Pixel.place)⟩

theorem ok_of_all_dirty (hgrid : s.grid.Ok cols rows) (hsaved : ∀ g ∈ s.saved, g.Ok cols rows)
    (hcanvas : s.canvas.Ok font info) (hall : ∀ p, s.grid.IsDirty cols rows p) : s.Ok font info cols rows :=
  ⟨hgrid, hsaved, hcanvas, fun q hq => absurd (hall q.place) hq⟩

section

variable (hdims : Dims cols rows)
include hdims

section

variable (h : s.Ok font info cols rows)
include h

theorem Ok.refresh : ∃ s', s.refresh font = some s' ∧ s'.Ok font info cols rows ∧ s'.Shown font info cols rows := by
  obtain ⟨v, hflush, hcanvas, hpaint⟩ := flush_spec h.grid h.canvas
  obtain ⟨hgrid, -⟩ := h.grid.clearDirty hdims
  have hshown : ∀ q : Pixel font info cols rows, v.surf.readPx q.x q.y = s.grid.pixel font q.x q.y :=
    fun q => h.image.repaint (fun q hq => (hpaint q.x q.y q.x_lt q.y_lt q.row_lt).1 hq)
      (fun q hq => (hpaint q.x q.y q.x_lt q.y_lt q.row_lt).2 hq) q
  exact ⟨_, congrArg (Option.map _) hflush, ⟨hgrid, h.saved, hcanvas, fun q _ => hshown q⟩, hshown⟩

theorem Ok.clear : ∃ s', s.clear font = some s' ∧ s'.Ok font info cols rows ∧ s'.Shown font info cols rows :=
  (h.setGrid (h.grid.clear hdims)).refresh hdims

theorem Ok.enterAlt : s.enterAlt.Ok font info cols rows := by
  unfold FramebufferConsole.enterAlt
  cases hsaved : s.saved with
  | some primary => exact { h with saved := fun g hg => h.saved g (hsaved ▸ hg) }
  | none =>
    have hnew := Grid.ok_new hdims s.grid.pen.fg s.grid.pen.bg
    rw [← h.grid.cols_eq, ← h.grid.rows_eq] at hnew hdims ⊢
    obtain ⟨halt, hall⟩ := hnew.markAllDirty hdims
    refine ok_of_all_dirty halt (fun g hg => ?_) h.canvas hall
    cases hg
    rw [h.grid.cols_eq, h.grid.rows_eq]
    exact h.grid

theorem Ok.leaveAlt : s.leaveAlt.Ok font info cols rows := by
  unfold FramebufferConsole.leaveAlt
  cases hsaved : s.saved with
  | some primary =>
    obtain ⟨hgrid, hall⟩ := (h.saved primary hsaved).markAllDirty hdims
    exact ok_of_all_dirty hgrid (fun g hg => nomatch hg) h.canvas hall
  | none => exact { h with saved := fun g hg => h.saved g (hsaved ▸ hg) }

end

theorem Ok.setMode (set : Bool) (h : s.Ok font info cols rows) (p : UInt16) :
    (s.setMode set p).Ok font info cols rows := by
  have halt : (if set then s.enterAlt else s.leaveAlt).Ok font info cols rows := by
    cases set
    · exact h.leaveAlt hdims
    · exact h.enterAlt hdims
  unfold FramebufferConsole.setMode
  split
  · exact halt
  · exact halt
  · exact halt
  · exact { h with }
  · exact h

theorem Ok.setModes (set : Bool) (h : s.Ok font info cols rows) (ps : List UInt16) :
    (ps.foldl (FramebufferConsole.setMode set) s).Ok font info cols rows := by
  induction ps generalizing s with
  | nil => exact h
  | cons p ps ih => exact ih (h.setMode hdims set p)

end

theorem Ok.mapGrid (h : s.Ok font info cols rows) {o : Option Grid}
    (ho : ∃ g, o = some g ∧ Grid.Next cols rows s.grid g) :
    ∃ s', o.map s.setGrid = some s' ∧ s'.Ok font info cols rows := by
  obtain ⟨g, rfl, hnext⟩ := ho
  exact ⟨_, rfl, h.setGrid hnext⟩

section

variable (hdims : Dims cols rows) (h : s.Ok font info cols rows)
include hdims h

theorem Ok.execute (byte : UInt8) : ∃ s', s.execute byte = some s' ∧ s'.Ok font info cols rows := by
  unfold FramebufferConsole.execute
  split_ifs
  · obtain ⟨g, hg, hnext, -⟩ := h.grid.newline hdims
    exact h.mapGrid ⟨g, hg, hnext⟩
  · exact ⟨_, rfl, h.setGrid (h.grid.setCursor (Nat.zero_le _) h.grid.row)⟩
  · exact ⟨_, rfl, h.setGrid h.grid.bs⟩
  · exact h.mapGrid (h.grid.tab hdims)
  · exact ⟨s, rfl, h⟩

theorem Ok.csiDispatch (params : List (List UInt16)) (i : List UInt8) (c : Char) :
    ∃ s', s.csiDispatch params i c = some s' ∧ s'.Ok font info cols rows := by
  have hgrid := h.grid
  unfold FramebufferConsole.csiDispatch
  split
  · exact ⟨_, rfl, h.setGrid (hgrid.setPen _)⟩
  · refine ⟨_, rfl, ?_⟩
    split_ifs
    · exact h.setGrid (hgrid.clear hdims)
    · exact h
  · exact ⟨_, rfl, h.setGrid (hgrid.moveUp _)⟩
  · exact ⟨_, rfl, h.setGrid (hgrid.moveDown hdims _)⟩
  · exact ⟨_, rfl, h.setGrid (hgrid.moveRight hdims _)⟩
  · exact ⟨_, rfl, h.setGrid (hgrid.moveLeft _)⟩
  · exact ⟨_, rfl, h.setGrid (hgrid.goto hdims _ _)⟩
  · exact h.mapGrid (hgrid.eraseToEol hdims)
  · refine ⟨_, rfl, ?_⟩
    split_ifs
    · exact h.setModes hdims true _
    · exact h
  · refine ⟨_, rfl, ?_⟩
    split_ifs
    · exact h.setModes hdims false _
    · exact h
  · refine ⟨_, rfl, ?_⟩
    split_ifs
    · exact { h with }
    · exact h
  · exact ⟨_, rfl, h.setGrid (hgrid.setScrollRegion hdims _ _)⟩
  · exact ⟨s, rfl, h⟩

theorem Ok.callback (cb : Callback) : ∃ s', s.callback cb = some s' ∧ s'.Ok font info cols rows := by
  cases cb with
  | print ch => exact h.mapGrid (h.grid.put hdims ch)
  | execute byte => exact h.execute hdims byte
  | csiDispatch params i c => exact h.csiDispatch hdims params i c
  | ignored => exact ⟨s, rfl, h⟩

theorem Ok.callbacks (cbs : List Callback) :
    ∃ s', exec FramebufferConsole.callback s cbs = some s' ∧ s'.Ok font info cols rows :=
  exec_total (fun _ cb h => h.callback hdims cb) h cbs

theorem Ok.finish :
    ∃ s', s.finish font false = some s' ∧ s'.Ok font info cols rows ∧ s'.Shown font info cols rows := by
  obtain ⟨g, hg, hnext⟩ := h.grid.markCell s.lastCur.1 s.lastCur.2
  obtain ⟨s', hs', hok⟩ := (h.setGrid hnext).refresh hdims
  refine ⟨s', ?_, hok⟩
  rw [FramebufferConsole.finish, hg]
  exact hs'

theorem Ok.call (c : Call) : ∃ s', s.call font c = some s' ∧ s'.Ok font info cols rows := by
  cases c with
  | clear =>
    obtain ⟨s', hs', hok, -⟩ := h.clear hdims
    exact ⟨s', hs', hok⟩
  | writeStr cbs gui =>
    obtain ⟨t, ht, hok⟩ := h.callbacks hdims cbs
    cases gui with
    | true => exact ⟨t, by rw [FramebufferConsole.call, writeStr, ht]; rfl, hok⟩
    | false =>
      obtain ⟨s', hs', hok', -⟩ := hok.finish hdims
      exact ⟨s', by rw [FramebufferConsole.call, writeStr, ht]; exact hs', hok'⟩

end

theorem cacheOk_nil : CacheOk font [] := fun _ _ _ hm => nomatch hm

theorem canvas_new {cache : GlyphCache} (hcache : CacheOk font cache) : Canvas.Ok font info ⟨cache, .new info⟩ :=
  ⟨hcache, Surface.sized_new info, rfl⟩

/-- A framebuffer with fewer than 65536 columns and rows of cells: the numbers fit into `u16`. -/
theorem new_spec (fg bg : Rgb) (hcols : info.width / font.gw < 2 ^ 16) (hrows : info.height / font.gh < 2 ^ 16) :
    Dims (max (info.width / font.gw) 1) (max (info.height / font.gh) 1) ∧ ∃ s, new font info fg bg = some s ∧
        s.Ok font info (max (info.width / font.gw) 1) (max (info.height / font.gh) 1) := by
  have hdims : Dims (max (info.width / font.gw) 1) (max (info.height / font.gh) 1) := by constructor <;> omega
  unfold new
  rw [u16_of_lt hdims.cols_lt, u16_of_lt hdims.rows_lt]
  generalize max (info.width / font.gw) 1 = cols at hdims
  generalize max (info.height / font.gh) 1 = rows at hdims
  have hnew := Grid.ok_new hdims fg bg
  have hclear := hnew.clear hdims
  have hdirty : ∀ p, (Grid.new cols rows fg bg).clear.IsDirty cols rows p := Grid.dirtyAt_of_full hdims hnew rfl
  have hcache : CacheOk font (prewarmAscii font []) := cacheOk_nil.prewarmAscii
  generalize prewarmAscii font [] = cache at hcache
  have hinit : (setGrid ⟨info, .new cols rows fg bg, ⟨cache, .new info⟩, none, (0, 0), 0, true, 1⟩
      (Grid.new cols rows fg bg).clear).Ok font info cols rows :=
    ok_of_all_dirty hclear.ok (fun g hg => nomatch hg) (canvas_new hcache) hdirty
  obtain ⟨s, hs, hok, -⟩ := hinit.refresh hdims
  exact ⟨hdims, s, hs, hok⟩

theorem redraw_spec (hdims : Dims cols rows) (h : g.Ok cols rows) :
    ∃ g' v, flush font g.markAllDirty ⟨[], .new info⟩ = some (g', v) ∧
      ∀ q : Pixel font info cols rows, v.surf.readPx q.x q.y = g.pixel font q.x q.y := by
  obtain ⟨hall, hdirty⟩ := h.markAllDirty hdims
  obtain ⟨v, hflush, -, hpaint⟩ := flush_spec hall (canvas_new cacheOk_nil)
  exact ⟨_, v, hflush, fun q => (hpaint q.x q.y q.x_lt q.y_lt q.row_lt).1 (hdirty q.place)⟩

/-- The cursor is in a row of the grid, and at most one column past the last. -/
def CursorInside (s : FramebufferConsole) : Prop := s.grid.curRow < s.grid.rows ∧ s.grid.curCol ≤ s.grid.cols

theorem Ok.cursorInside (h : s.Ok font info cols rows) : s.CursorInside :=
  ⟨h.grid.rows_eq.symm ▸ h.grid.row, h.grid.cols_eq.symm ▸ h.grid.col⟩

/-- After any calls, any `write_str` without the GUI returns; the cursor stays inside through all its callbacks; and
the text area then shows the cells of the grid, as a redraw of the whole grid would. -/
theorem text_area_shows_grid (font : Font) (info : FbInfo) (fg bg : Rgb) (hcols : info.width / font.gw < 2 ^ 16)
    (hrows : info.height / font.gh < 2 ^ 16) (calls : List Call) (callbacks : List Callback) :
    ∃ s t u, (new font info fg bg).bind (fun s => exec (call font) s calls) = some s ∧
      exec callback s callbacks = some t ∧ s.writeStr font callbacks false = some u ∧
      s.CursorInside ∧ t.CursorInside ∧ u.CursorInside ∧
      u.grid.cols = max (info.width / font.gw) 1 ∧ u.grid.rows = max (info.height / font.gh) 1 ∧
      ∃ g v, flush font u.grid.markAllDirty ⟨[], .new info⟩ = some (g, v) ∧
        ∀ x y, x < info.width → y < info.height → x / font.gw < u.grid.cols → y / font.gh < u.grid.rows →
          u.canvas.surf.readPx x y = u.grid.pixel font x y ∧ u.canvas.surf.readPx x y = v.surf.readPx x y := by
  obtain ⟨hdims, s₀, hnew, hok₀⟩ := @new_spec font info fg bg hcols hrows
  obtain ⟨s, hs, hok⟩ := exec_total (fun _ c h => Ok.call hdims h c) hok₀ calls
  obtain ⟨t, ht, hok'⟩ := hok.callbacks hdims callbacks
  obtain ⟨u, hu, hok'', hshown⟩ := hok'.finish hdims
  obtain ⟨g, v, hflush, hredraw⟩ := @redraw_spec font info _ _ _ hdims hok''.grid
  refine ⟨s, t, u, by rw [hnew]; exact hs, ht, by rw [writeStr, ht]; exact hu, hok.cursorInside, hok'.cursorInside,
    hok''.cursorInside, hok''.grid.cols_eq, hok''.grid.rows_eq, g, v, hflush, fun x y hx hy hc hr => ?_⟩
  have hq := hshown ⟨x, y, hx, hy, hok''.grid.cols_eq ▸ hc, hok''.grid.rows_eq ▸ hr⟩
  exact ⟨hq, hq.trans (hredraw ⟨x, y, hx, hy, hok''.grid.cols_eq ▸ hc, hok''.grid.rows_eq ▸ hr⟩).symm⟩

def blankFont : Font where
  gw := 12
  gh := 24
  rasterize := fun _ _ => ⟨0, 0, [], rfl⟩
  gw_pos := by decide
  gh_ge := by decide

def vgaInfo : FbInfo where
  width := 640
  height := 480
  pitch := 2560
  bpp := 32
  pixel := .bgr
  bpp_eq := .inr rfl
  line_fits := by decide

/-- A screen of 640 by 480 pixels that is written to, cleared and switched to the alternate screen. -/
theorem text_area_shows_alternate_screen : ∃ s t u, (new blankFont vgaInfo white black).bind (fun s =>
        exec (call blankFont) s [.writeStr [.print 'a', .execute 0x0A] false, .clear]) = some s ∧
      exec callback s [.csiDispatch [[1049]] [0x3F] 'h', .print 'b'] = some t ∧
      s.writeStr blankFont [.csiDispatch [[1049]] [0x3F] 'h', .print 'b'] false = some u ∧
      s.CursorInside ∧ t.CursorInside ∧ u.CursorInside ∧ u.grid.cols = 53 ∧ u.grid.rows = 20 ∧
      ∃ g v, flush blankFont u.grid.markAllDirty ⟨[], .new vgaInfo⟩ = some (g, v) ∧
        ∀ x y, x < 640 → y < 480 → x / 12 < u.grid.cols → y / 24 < u.grid.rows →
          u.canvas.surf.readPx x y = u.grid.pixel blankFont x y ∧ u.canvas.surf.readPx x y = v.surf.readPx x y :=
  text_area_shows_grid blankFont vgaInfo white black (by decide) (by decide)
    [.writeStr [.print 'a', .execute 0x0A] false, .clear] [.csiDispatch [[1049]] [0x3F] 'h', .print 'b']

/-- Where the number of rows wraps around to zero there is no row for the cursor, and no cell for a character. -/
theorem new_of_rows_zero (fg bg : Rgb) (ch : Char) (hrows : u16 (max (info.height / font.gh) 1) = 0)
    (hcols : 0 < u16 (max (info.width / font.gw) 1)) :
    ∃ s, new font info fg bg = some s ∧ s.grid.rows = 0 ∧ s.callback (.print ch) = none := by
  unfold new
  rw [hrows]
  generalize u16 (max (info.width / font.gw) 1) = cols at hcols
  refine ⟨_, rfl, rfl, ?_⟩
  have hput : (Grid.new cols 0 fg bg).clear.clearDirty.put ch = none := by
    have hwrap : ¬ (Grid.new cols 0 fg bg).clear.clearDirty.curCol ≥ (Grid.new cols 0 fg bg).clear.clearDirty.cols :=
      Nat.not_le_of_gt hcols
    have hcells : (Grid.new cols 0 fg bg).clear.clearDirty.cells.length = 0 := by
      simp [Grid.clearDirty, Grid.clear, Grid.new]
    rw [Grid.put, if_neg hwrap]
    simp [Grid.write, hcells]
  exact congrArg (Option.map _) hput

def tallInfo : FbInfo where
  width := 12
  height := 24 * 65536
  pitch := 48
  bpp := 32
  pixel := .bgr
  bpp_eq := .inr rfl
  line_fits := by decide

theorem tall_screen_has_no_row :
    ∃ s, new blankFont tallInfo white black = some s ∧ ¬ s.CursorInside ∧ s.callback (.print 'a') = none := by
  obtain ⟨s, hs, hrows, hprint⟩ := @new_of_rows_zero blankFont tallInfo white black 'a' (by decide) (by decide)
  exact ⟨s, hs, fun h => Nat.not_lt_zero _ (hrows ▸ h.1), hprint⟩

end FramebufferConsole
end Ruos.Console
