import Ruos.Console.Grid
import Ruos.Lib.Repaint

/-! What the operations of the grid keep: the cursor stays inside, and the dirty spans cover what has changed. -/
namespace Ruos.Console

open Lib List Nat

theorem u16_of_lt {n : Nat} (h : n < 2 ^ 16) : u16 n = n := mod_eq_of_lt h

theorem pred16_eq {n : Nat} (hpos : 0 < n) (h : n < 2 ^ 16) : pred16 n = n - 1 := by
  unfold pred16 u16
  omega

structure Dims (cols rows : Nat) : Prop where
  cols_pos : 0 < cols
  cols_lt : cols < 2 ^ 16
  rows_pos : 0 < rows
  rows_lt : rows < 2 ^ 16

namespace Grid

variable {cols rows : Nat} {g g' g'' : Grid}

structure Ok (cols rows : Nat) (g : Grid) : Prop where
  cols_eq : g.cols = cols
  rows_eq : g.rows = rows
  cells : g.cells.length = cols * rows
  dirty : g.dirty.length = rows
  col : g.curCol ≤ cols
  row : g.curRow < rows
  top : g.scrollTop ≤ g.scrollBot
  bot : g.scrollBot < rows
  span : ∀ d ∈ g.dirty, d.2 < cols

def DirtyAt (g : Grid) (col row : Nat) : Prop := ∃ d ∈ g.dirty[row]?, d.1 ≤ col ∧ col ≤ d.2

def view (cols rows : Nat) (g : Grid) (p : Fin cols × Fin rows) : Option Cell := g.cell p.1 p.2

def IsDirty (cols rows : Nat) (g : Grid) (p : Fin cols × Fin rows) : Prop := g.DirtyAt p.1 p.2

structure Next (cols rows : Nat) (g g' : Grid) : Prop where
  ok : g'.Ok cols rows
  covers : Covers (g.view cols rows) (g'.view cols rows) (g.IsDirty cols rows) (g'.IsDirty cols rows)

theorem Next.refl (h : g.Ok cols rows) : Next cols rows g g := ⟨h, .refl _ _⟩

theorem Next.trans (h : Next cols rows g g') (h' : Next cols rows g' g'') : Next cols rows g g'' :=
  ⟨h'.ok, h.covers.trans h'.covers⟩

theorem covers_of_eq (hcols : g'.cols = g.cols) (hcells : g'.cells = g.cells) (hdirty : g'.dirty = g.dirty) :
    Covers (g.view cols rows) (g'.view cols rows) (g.IsDirty cols rows) (g'.IsDirty cols rows) := by
  refine fun p hp => ⟨fun hd => hp ?_, ?_⟩
  · unfold IsDirty DirtyAt at *
    rwa [hdirty]
  · unfold view cell idx
    rw [hcols, hcells]

theorem Ok.setCursor (h : g.Ok cols rows) {col row : Nat} (hcol : col ≤ cols) (hrow : row < rows) :
    Next cols rows g (g.setCursor col row) :=
  ⟨{ h with col := hcol, row := hrow }, covers_of_eq rfl rfl rfl⟩

theorem Ok.setPen (h : g.Ok cols rows) (pen : Pen) : Next cols rows g { g with pen := pen } :=
  ⟨{ h with }, covers_of_eq rfl rfl rfl⟩

theorem Ok.setScrollRegion (hdims : Dims cols rows) (h : g.Ok cols rows) (top bot : Nat) :
    Next cols rows g (g.setScrollRegion top bot) := by
  have hpred := pred16_eq hdims.rows_pos hdims.rows_lt
  have hpos := hdims.rows_pos
  unfold Grid.setScrollRegion
  rw [h.rows_eq]
  split_ifs with hregion
  · exact ⟨⟨h.cols_eq, rfl, h.cells, h.dirty, zero_le _, hregion.1.trans hregion.2, hregion.1.le, hregion.2, h.span⟩,
      covers_of_eq rfl rfl rfl⟩
  · exact ⟨⟨h.cols_eq, rfl, h.cells, h.dirty, zero_le _, hpos, zero_le _, by simp only [hpred]; omega, h.span⟩,
      covers_of_eq rfl rfl rfl⟩

theorem idx_lt {c r : Nat} (hc : c < cols) (hr : r < rows) : r * cols + c < cols * rows :=
  calc r * cols + c < r * cols + cols := Nat.add_lt_add_left hc _
    _ ≤ rows * cols := mul_add_le_mul cols hr
    _ = cols * rows := Nat.mul_comm _ _

theorem Ok.row_end (h : g.Ok cols rows) {r : Nat} (hr : r < rows) : r * cols + cols ≤ g.cells.length := by
  rw [h.cells, mul_comm cols]
  exact mul_add_le_mul cols hr

theorem idx_inj {c c' r r' : Nat} (hc : c < cols) (hc' : c' < cols) (h : r * cols + c = r' * cols + c') :
    c = c' ∧ r = r' := by
  rcases mul_apart r r' cols with hr | rfl | hr
  · omega
  · exact ⟨by omega, rfl⟩
  · omega

theorem Ok.change (h : g.Ok cols rows) {cells : List Cell} {row : Nat} {f : Nat × Nat → Nat × Nat} (hrow : row < rows)
    (hlen : cells.length = cols * rows) (hspan : ∀ d, d.2 < cols → (f d).2 < cols)
    (hgrow : ∀ d c, d.1 ≤ c → c ≤ d.2 → d.2 < cols → (f d).1 ≤ c ∧ c ≤ (f d).2)
    (hkeep : ∀ c < cols, ∀ r, (r = row → ∃ d : Nat × Nat, d.2 < cols ∧ ¬ ((f d).1 ≤ c ∧ c ≤ (f d).2)) →
      cells[r * cols + c]? = g.cells[r * cols + c]?) :
    ∃ g', (g.setCells cells).setSpan row f = some g' ∧ Next cols rows g g' ∧ g'.curCol = g.curCol ∧
      g'.curRow = g.curRow := by
  have hrow' : row < g.dirty.length := h.dirty.symm ▸ hrow
  have hget := getElem?_eq_getElem hrow'
  have hd := h.span _ (getElem_mem hrow')
  generalize g.dirty[row] = d at hget hd
  refine ⟨{ g.setCells cells with dirty := g.dirty.set row (f d) }, ?_, ⟨?_, ?_⟩, rfl, rfl⟩
  · exact congrArg (Option.map _) hget
  · refine { h with cells := hlen, dirty := (length_set ..).trans h.dirty, span := fun e he => ?_ }
    rcases mem_or_eq_of_mem_set he with he | rfl
    · exact h.span e he
    · exact hspan d hd
  · rintro ⟨c, r⟩ hp
    have hclean : ∀ e ∈ (g.dirty.set row (f d))[r.val]?, ¬ (e.1 ≤ c.val ∧ c.val ≤ e.2) :=
      fun e he hin => hp ⟨e, he, hin⟩
    by_cases hr : r.val = row
    · rw [hr, getElem?_set_self hrow'] at hclean
      have hout := hclean (f d) rfl
      refine ⟨fun hdirty => ?_, ?_⟩
      · obtain ⟨e, he, hlo, hhi⟩ := hdirty
        rw [hr, hget] at he
        cases he
        exact hout (hgrow d c.val hlo hhi hd)
      · have := hkeep c.val c.isLt r.val fun _ => ⟨d, hd, hout⟩
        simpa only [view, cell, idx, setCells, h.cols_eq] using this
    · rw [getElem?_set_ne (Ne.symm hr)] at hclean
      refine ⟨fun hdirty => ?_, ?_⟩
      · obtain ⟨e, he, hin⟩ := hdirty
        exact hclean e he hin
      · have := hkeep c.val c.isLt r.val fun heq => absurd heq hr
        simpa only [view, cell, idx, setCells, h.cols_eq] using this

theorem Ok.mark (h : g.Ok cols rows) {cells : List Cell} {col row : Nat} (hcol : col < cols) (hrow : row < rows)
    (hlen : cells.length = cols * rows)
    (hkeep : ∀ c < cols, ∀ r, ¬ (c = col ∧ r = row) → cells[r * cols + c]? = g.cells[r * cols + c]?) :
    ∃ g', (g.setCells cells).mark col row = some g' ∧ Next cols rows g g' ∧ g'.curCol = g.curCol ∧
      g'.curRow = g.curRow := by
  refine h.change hrow hlen (fun d hd => max_lt hd hcol) (fun d c hlo hhi _ => ⟨?_, ?_⟩) fun c hc r hr => ?_
  · exact (min_le_left _ _).trans hlo
  · exact hhi.trans (le_max_left _ _)
  · refine hkeep c hc r fun heq => ?_
    obtain ⟨d, -, hout⟩ := hr heq.2
    exact hout ⟨heq.1 ▸ min_le_right _ _, heq.1 ▸ le_max_right _ _⟩

theorem Ok.markCell (h : g.Ok cols rows) (col row : Nat) :
    ∃ g', g.markCell col row = some g' ∧ Next cols rows g g' := by
  unfold Grid.markCell
  rw [h.cols_eq, h.rows_eq]
  split_ifs with hin
  · obtain ⟨g', hg', hnext, -⟩ := h.mark hin.2 hin.1 h.cells fun c hc r _ => rfl
    exact ⟨g', hg', hnext⟩
  · exact ⟨g, rfl, .refl h⟩

section

variable (hdims : Dims cols rows) (h : g.Ok cols rows)
include hdims h

theorem Ok.write (hcol : g.curCol < cols) (ch : Char) : ∃ g', g.write ch = some g' ∧ Next cols rows g g' := by
  have hi : g.idx g.curCol g.curRow = g.curRow * cols + g.curCol := by rw [idx, h.cols_eq]
  have hlt : g.curRow * cols + g.curCol < g.cells.length := h.cells.symm ▸ idx_lt hcol h.row
  obtain ⟨g', hg', hnext, hcur⟩ := @Ok.mark cols rows g h
    (g.cells.set (g.curRow * cols + g.curCol) ⟨ch, g.pen.fg, g.pen.bg, g.pen.attr⟩) _ _ hcol h.row
    ((length_set ..).trans h.cells) fun c hc r hne =>
      getElem?_set_ne fun heq => hne (idx_inj hc hcol heq.symm)
  refine ⟨g'.setCursor (u16 (g'.curCol + 1)) g'.curRow, ?_, hnext.trans (hnext.ok.setCursor ?_ hnext.ok.row)⟩
  · rw [Grid.write, hi, if_pos hlt, hg']
    rfl
  · have := hdims.cols_lt
    rw [hcur.1, u16_of_lt (by omega)]
    exact hcol

theorem Ok.eraseToEol : ∃ g', g.eraseToEol = some g' ∧ Next cols rows g g' := by
  have hpred := pred16_eq hdims.cols_pos hdims.cols_lt
  have hcol := h.col
  have hstart : g.idx g.curCol g.curRow = g.curRow * cols + g.curCol := by rw [idx, h.cols_eq]
  have hend := h.row_end h.row
  have hlen : g.curRow * cols + g.curCol + (replicate (cols - g.curCol) g.blank).length ≤ g.cells.length := by
    rw [length_replicate]
    omega
  have hkeep : ∀ c < cols, ∀ r, (r = g.curRow → ∃ d : Nat × Nat, d.2 < cols ∧
      ¬ (min d.1 g.curCol ≤ c ∧ c ≤ pred16 cols)) →
      (splice g.cells (g.curRow * cols + g.curCol) (replicate (cols - g.curCol) g.blank))[r * cols + c]? =
        g.cells[r * cols + c]? := by
    intro c hc r hr
    rw [getElem?_splice (by omega), if_neg]
    rintro ⟨hlo, hhi⟩
    rw [length_replicate] at hhi
    by_cases heq : r = g.curRow
    · obtain ⟨d, -, hout⟩ := hr heq
      subst heq
      exact hout ⟨(min_le_right _ _).trans (by omega), by rw [hpred]; omega⟩
    · have hrow := mul_apart r g.curRow cols
      omega
  obtain ⟨g', hg', hnext, -⟩ := @Ok.change cols rows g h _ _ (fun d => (min d.1 g.curCol, pred16 cols)) h.row
    ((length_splice hlen).trans h.cells) (fun d _ => by simp only [hpred]; omega)
    (fun d c hlo hhi hd => ⟨(min_le_left _ _).trans hlo, by simp only [hpred]; omega⟩) hkeep
  refine ⟨g', ?_, hnext⟩
  unfold Grid.eraseToEol
  rw [hstart, h.cols_eq, if_pos fun _ => by rw [idx, h.cols_eq]; exact hend]
  exact hg'

omit hdims in
theorem Ok.cells_of_scrollUp (hup : g.scrollUp = some g') : g'.cells.length = g.cells.length ∧
      ∀ c < cols, ∀ r, ¬ (g.scrollTop ≤ r ∧ r ≤ g.scrollBot) → g'.cell c r = g.cell c r := by
  have hend := h.row_end h.bot
  have hsrc : (g.scrollTop + 1) * cols = g.scrollTop * cols + cols := succ_mul _ _
  have hstop : (g.scrollBot + 1) * cols = g.scrollBot * cols + cols := succ_mul _ _
  have hle : g.scrollTop * cols ≤ g.scrollBot * cols := mul_le_mul_right _ h.top
  have hmoved : (slice g.cells ((g.scrollTop + 1) * cols) ((g.scrollBot + 1) * cols - (g.scrollTop + 1) * cols)).length =
      g.scrollBot * cols - g.scrollTop * cols := by
    rw [length_slice (by omega)]
    omega
  have hlen : (splice g.cells (g.scrollTop * cols)
      (slice g.cells ((g.scrollTop + 1) * cols) ((g.scrollBot + 1) * cols - (g.scrollTop + 1) * cols))).length =
      g.cells.length := length_splice (by rw [hmoved]; omega)
  obtain ⟨-, hup⟩ := Option.ite_none_right_eq_some.mp hup
  cases hup
  simp only [h.cols_eq, cell, idx]
  refine ⟨?_, fun c hc r hout => ?_⟩
  · rw [length_splice (by rw [length_replicate, hlen]; exact hend), hlen]
  · have hrow : r * cols + cols ≤ g.scrollTop * cols ∨ g.scrollBot * cols + cols ≤ r * cols := by
      rcases lt_or_ge r g.scrollTop with hr | hr
      · exact .inl (mul_add_le_mul cols hr)
      · exact .inr (mul_add_le_mul cols (by omega))
    rw [getElem?_splice (by rw [hlen]; omega), if_neg (by rw [length_replicate]; omega), getElem?_splice (by omega),
      if_neg (by rw [hmoved]; omega)]

theorem Ok.scrollUp : ∃ g', g.scrollUp = some g' ∧ Next cols rows g g' ∧ g'.curCol = g.curCol := by
  have hpred := pred16_eq hdims.cols_pos hdims.cols_lt
  have hpos := hdims.cols_pos
  have hguard : (g.scrollTop + 1) * g.cols ≤ (g.scrollBot + 1) * g.cols ∧ (g.scrollBot + 1) * g.cols ≤ g.cells.length ∧
      g.scrollBot < g.dirty.length := by
    rw [h.cols_eq, h.dirty]
    exact ⟨mul_le_mul_right _ (succ_le_succ h.top), succ_mul _ cols ▸ h.row_end h.bot, h.bot⟩
  obtain ⟨hlen, hrest⟩ := h.cells_of_scrollUp (if_pos hguard)
  refine ⟨_, if_pos hguard, ⟨⟨h.cols_eq, h.rows_eq, hlen.trans h.cells, length_mapIdx.trans h.dirty, h.col, h.bot, h.top, h.bot,
    fun d hd => ?_⟩, ?_⟩, rfl⟩
  · obtain ⟨r, hr, rfl⟩ := mem_mapIdx.mp hd
    split_ifs
    · simp only [h.cols_eq, hpred]
      omega
    · exact h.span _ (getElem_mem hr)
  · rintro ⟨c, r⟩ hp
    have hout : ¬ (g.scrollTop ≤ r.val ∧ r.val ≤ g.scrollBot) := by
      intro hin
      refine hp ⟨(0, pred16 cols), ?_, zero_le _, by simp only [hpred]; have := c.isLt; omega⟩
      have hget : g.dirty[r.val]? = some g.dirty[r.val] := getElem?_eq_getElem (h.dirty.symm ▸ r.isLt)
      simp [getElem?_mapIdx, hget, hin, h.cols_eq]
    refine ⟨fun hdirty => hp ?_, hrest c c.isLt r hout⟩
    obtain ⟨d, hd, hin⟩ := hdirty
    refine ⟨d, ?_, hin⟩
    simp [Option.mem_def.mp hd, if_neg hout]

theorem Ok.newline : ∃ g', g.newline = some g' ∧ Next cols rows g g' ∧ g'.curCol = 0 := by
  have hcr := h.setCursor (zero_le cols) h.row
  unfold Grid.newline
  rw [h.rows_eq]
  split_ifs with hbot hnext
  · obtain ⟨g', hg', hscroll, hcol⟩ := hcr.ok.scrollUp hdims
    exact ⟨g', hg', hcr.trans hscroll, hcol⟩
  · exact ⟨_, rfl, h.setCursor (zero_le cols) hnext, rfl⟩
  · exact ⟨_, rfl, hcr, rfl⟩

theorem Ok.put (ch : Char) : ∃ g', g.put ch = some g' ∧ Next cols rows g g' := by
  have hpos := hdims.cols_pos
  unfold Grid.put
  rw [h.cols_eq]
  split_ifs with hwrap
  · obtain ⟨g₁, hg₁, hnext₁, hcol⟩ := h.newline hdims
    obtain ⟨g₂, hg₂, hnext₂⟩ := hnext₁.ok.write hdims (by rw [hcol]; exact hpos) ch
    exact ⟨g₂, by rw [hg₁]; exact hg₂, hnext₁.trans hnext₂⟩
  · exact h.write hdims (lt_of_not_ge hwrap) ch

end

theorem Ok.bs (h : g.Ok cols rows) : Next cols rows g g.bs := by
  unfold Grid.bs
  split_ifs
  · exact h.setCursor ((sub_le _ _).trans h.col) h.row
  · exact .refl h

section

variable (hdims : Dims cols rows) (h : g.Ok cols rows)
include hdims h

theorem Ok.tab : ∃ g', g.tab = some g' ∧ Next cols rows g g' := by
  unfold Grid.tab
  generalize u16 (g.curCol + 8) / 8 * 8 = col
  have hcond : (g.setCursor col g.curRow).curCol ≥ (g.setCursor col g.curRow).cols ↔ col ≥ cols := h.cols_eq ▸ Iff.rfl
  by_cases hwrap : col ≥ cols
  · obtain ⟨g', hg', hnext, -⟩ := h.newline hdims
    exact ⟨g', (if_pos (hcond.mpr hwrap)).trans hg', hnext⟩
  · exact ⟨_, if_neg (mt hcond.mp hwrap), h.setCursor (le_of_not_ge hwrap) h.row⟩

theorem dirtyAt_of_full (hdirty : g'.dirty = g.dirty.map fun _ => (0, pred16 cols)) (p : Fin cols × Fin rows) :
    g'.IsDirty cols rows p := by
  have hr : p.2.val < g.dirty.length := h.dirty.symm ▸ p.2.isLt
  refine ⟨(0, pred16 cols), ?_, zero_le _, ?_⟩
  · rw [hdirty, getElem?_map, getElem?_eq_getElem hr]
    rfl
  · rw [pred16_eq hdims.cols_pos hdims.cols_lt]
    omega

theorem Ok.markAllDirty : g.markAllDirty.Ok cols rows ∧ ∀ p, g.markAllDirty.IsDirty cols rows p := by
  have hpred := pred16_eq hdims.cols_pos hdims.cols_lt
  have hpos := hdims.cols_pos
  have hdirty : g.markAllDirty.dirty = g.dirty.map fun _ => (0, pred16 cols) := by rw [Grid.markAllDirty, h.cols_eq]
  refine ⟨{ h with dirty := ?_, span := fun d hd => ?_ },
    dirtyAt_of_full hdims h hdirty⟩
  · rw [hdirty, length_map, h.dirty]
  · rw [hdirty] at hd
    obtain ⟨-, -, rfl⟩ := mem_map.mp hd
    omega

theorem Ok.clear : Next cols rows g g.clear := by
  have hpred := pred16_eq hdims.cols_pos hdims.cols_lt
  have hpredRows := pred16_eq hdims.rows_pos hdims.rows_lt
  have hpos := hdims.cols_pos
  have hrows := hdims.rows_pos
  have hdirty : g.clear.dirty = g.dirty.map fun _ => (0, pred16 cols) := by rw [Grid.clear, h.cols_eq]
  refine ⟨⟨h.cols_eq, h.rows_eq, (length_map _).trans h.cells, ?_, zero_le _, hrows, zero_le _, ?_,
    fun d hd => ?_⟩, covers_of_all (dirtyAt_of_full hdims h hdirty)⟩
  · rw [hdirty, length_map, h.dirty]
  · simp only [Grid.clear, h.rows_eq, hpredRows]
    omega
  · rw [hdirty] at hd
    obtain ⟨-, -, rfl⟩ := mem_map.mp hd
    omega

end

theorem Ok.moveUp (h : g.Ok cols rows) (n : Nat) : Next cols rows g (g.moveUp n) :=
  h.setCursor h.col ((sub_le _ _).trans_lt h.row)

theorem Ok.moveLeft (h : g.Ok cols rows) (n : Nat) : Next cols rows g (g.moveLeft n) :=
  h.setCursor ((sub_le _ _).trans h.col) h.row

theorem min_pred16_lt {k n : Nat} (hpos : 0 < n) (h : n < 2 ^ 16) : min k (pred16 n) < n := by
  rw [pred16_eq hpos h]
  omega

section

variable (hdims : Dims cols rows)
include hdims

theorem Ok.moveDown (h : g.Ok cols rows) (n : Nat) : Next cols rows g (g.moveDown n) :=
  h.setCursor h.col (h.rows_eq.symm ▸ min_pred16_lt hdims.rows_pos hdims.rows_lt)

theorem Ok.moveRight (h : g.Ok cols rows) (n : Nat) : Next cols rows g (g.moveRight n) :=
  h.setCursor (h.cols_eq.symm ▸ (min_pred16_lt hdims.cols_pos hdims.cols_lt).le) h.row

theorem Ok.goto (h : g.Ok cols rows) (col row : Nat) : Next cols rows g (g.goto col row) :=
  h.setCursor (h.cols_eq.symm ▸ (min_pred16_lt hdims.cols_pos hdims.cols_lt).le)
    (h.rows_eq.symm ▸ min_pred16_lt hdims.rows_pos hdims.rows_lt)

theorem ok_new (fg bg : Rgb) : (new cols rows fg bg).Ok cols rows := by
  have hpred := pred16_eq hdims.rows_pos hdims.rows_lt
  have hpos := hdims.rows_pos
  refine ⟨rfl, rfl, length_replicate, length_replicate, zero_le _, hpos, zero_le _, ?_, fun d hd => ?_⟩
  · simp only [new, hpred]
    omega
  · rw [eq_of_mem_replicate hd]
    exact hdims.cols_pos

theorem Ok.clearDirty (h : g.Ok cols rows) : g.clearDirty.Ok cols rows ∧ ∀ p, ¬ g.clearDirty.IsDirty cols rows p := by
  refine ⟨{ h with dirty := (length_map _).trans h.dirty, span := fun d hd => ?_ }, ?_⟩
  · obtain ⟨-, -, rfl⟩ := mem_map.mp hd
    exact hdims.cols_pos
  · rintro p ⟨d, hd, hlo, hhi⟩
    obtain ⟨-, -, rfl⟩ := mem_map.mp (mem_of_getElem? hd)
    exact absurd (hlo.trans hhi) (by decide)

end

end Grid
end Ruos.Console
