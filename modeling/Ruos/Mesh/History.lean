import Ruos.Lib.Run
import Ruos.Mesh.Raster

/-! Histories of one raster: frames, texture updates and clear colours. As long as the primitives that two frames share
keep their order and every texture update reaches the primitives it shows on, the canvas is that of a fresh raster. -/
namespace Ruos.Mesh

open Lib List Option

variable {Px : Type}

inductive Event (Px : Type) where
  | frame (fr : Frame)
  | setTexture (id : UInt64) (pos : Option (Nat × Nat)) (w h : Nat) (px : List UInt8)
  | setClear (c : Px)

/-- A raster with the last frame it drew and the textures it had then. -/
structure History (Px : Type) where
  r : Raster Px
  last : Frame
  drawn : Textures

def History.start (clear : Px) : History Px := ⟨.new clear, ⟨[], [], [], 0, 0⟩, fun _ => none⟩

def History.step (shade : Shade Px) (blank : Px) (s : History Px) : Event Px → Option (History Px)
  | .frame fr => some ⟨render shade blank s.r fr, fr, s.r.textures⟩
  | .setTexture id pos w h px => some { s with r := setTexture s.r id pos w h px }
  | .setClear c => some { s with r := setClear s.r c }

/-- A raster with the same textures and clear colour that has drawn nothing. -/
def fresh (r : Raster Px) : Raster Px := { Raster.new r.clear with textures := r.textures }

def framesOf (es : List (Event Px)) : List Frame :=
  es.filterMap fun
    | .frame fr => some fr
    | _ => none

def Fits (fr : Frame) : Prop := max fr.width 1 * max fr.height 1 * 4 < 2 ^ 31

/-- Primitives with the same hash have the same clip, texture and vertices. -/
def CollisionFree (frs : List Frame) : Prop :=
  ∀ fr ∈ frs, ∀ fr' ∈ frs, ∀ p ∈ fr.prims, ∀ p' ∈ fr'.prims, primHash fr p = primHash fr' p' →
    p.clip = p'.clip ∧ p.texId = p'.texId ∧ corners fr p = corners fr' p'

/-- The primitives of `ms` at a pixel that are among `others` too. -/
def sharedAt (ms others : List PrimMeta) (x y : Int) : List UInt64 :=
  (ms.filter fun m => m.bbox.has x y && (others.map (·.hash)).contains m.hash).map (·.hash)

/-- What the difference of two frames on the same canvas takes for granted: at every pixel the primitives of both come
in the same order and equally often, and a texture update shows on no primitive but those whose box of texture
coordinates meets the changed part. -/
structure Faithful (shade : Shade Px) (s : History Px) (fr : Frame) : Prop where
  order : ∀ x y, sharedAt (metas fr) s.r.prev x y = sharedAt s.r.prev (metas fr) x y
  textures : ∀ p ∈ fr.prims,
    (∀ d ∈ s.r.texDirty, samples s.r.textures d
      (primMeta fr p (toI32 (max fr.width 1)) (toI32 (max fr.height 1))) = false) →
    ∀ t ∈ triangles (corners fr p), ∀ c pos,
      shade c t (s.r.textures p.texId) pos = shade c t (s.drawn p.texId) pos

def Condition (shade : Shade Px) (s : History Px) : Event Px → Prop
  | .frame fr => s.r.reallocs fr = false → Faithful shade s fr
  | _ => True

def full (shade : Shade Px) (textures : Textures) (fr : Frame) (clear : Px) : List Px :=
  (List.range (max fr.width 1 * max fr.height 1)).map fun i =>
    pixel shade textures fr clear (i % max fr.width 1, i / max fr.width 1)

section

variable {shade : Shade Px} {blank : Px} {r : Raster Px} {fr : Frame} {s : History Px} {i : Nat}

theorem render_canvas (shade : Shade Px) (blank : Px) (r : Raster Px) (fr : Frame) :
    (render shade blank r fr).canvas = inside (max fr.width 1) (damageOf r fr)
      (fun pos _ => pixel shade r.textures fr r.clear pos) (planDamage blank r fr).2.canvas := by
  unfold render
  cases hempty : (damageOf r fr).isEmpty with
  | true =>
    simp only [planDamage, hempty, if_true]
    apply (mapIdx_eq_self _).symm
    intro i c
    rw [not_has_of_isEmpty hempty]
    rfl
  | false =>
    simp only [planDamage, hempty, Bool.false_eq_true, if_false]
    rw [rasterBand_eq]

theorem Fits.toI32 (h : Fits fr) :
    Mesh.toI32 (max fr.width 1) = max fr.width 1 ∧ Mesh.toI32 (max fr.height 1) = max fr.height 1 := by
  unfold Fits at h
  have hw : max fr.width 1 ≤ max fr.width 1 * max fr.height 1 := Nat.le_mul_of_pos_right _ (by omega)
  have hh : max fr.height 1 ≤ max fr.width 1 * max fr.height 1 := Nat.le_mul_of_pos_left _ (by omega)
  constructor <;> exact Int.bmod_eq_of_le (by omega) (by omega)

theorem pos_lt (hi : i < max fr.width 1 * max fr.height 1) :
    (0 ≤ ((i % max fr.width 1 : Nat) : Int) ∧ ((i % max fr.width 1 : Nat) : Int) < (max fr.width 1 : Nat)) ∧
      (0 ≤ ((i / max fr.width 1 : Nat) : Int) ∧ ((i / max fr.width 1 : Nat) : Int) < (max fr.height 1 : Nat)) :=
  ⟨⟨Int.natCast_nonneg _, Int.ofNat_lt.mpr (Nat.mod_lt _ (by omega))⟩,
    ⟨Int.natCast_nonneg _, Int.ofNat_lt.mpr (Nat.div_lt_of_lt_mul hi)⟩⟩

theorem render_of_reallocs (hfits : Fits fr) (h : r.reallocs fr = true) :
    (render shade blank r fr).canvas = full shade r.textures fr r.clear := by
  have hlen : max fr.width 1 * max fr.height 1 * 4 % 2 ^ 32 / 4 = max fr.width 1 * max fr.height 1 := by
    unfold Fits at hfits
    omega
  obtain ⟨hw, hh⟩ := hfits.toI32
  rw [render_canvas, planDamage]
  simp only [h, if_true, hlen]
  apply ext_getElem?
  intro i
  rw [inside, full, getElem?_mapIdx, getElem?_map, getElem?_replicate]
  by_cases hi : i < max fr.width 1 * max fr.height 1
  · obtain ⟨hx, hy⟩ := pos_lt hi
    have hin : (damageOf r fr).has (i % max fr.width 1 : Nat) (i / max fr.width 1 : Nat) = true := by
      simp only [damageOf, h, if_true, hw, hh]
      exact has_margin (IRect.has_iff.mpr ⟨hx.1, hx.2, hy.1, hy.2⟩) hx hy
    rw [if_pos hi, getElem?_range hi, map_some, map_some, if_pos hin]
  · rw [if_neg hi, getElem?_eq_none (by simpa using hi)]
    rfl

structure Drawn (shade : Shade Px) (s : History Px) : Prop where
  prev : s.r.prev = metas s.last
  cw : s.r.cw = max s.last.width 1
  ch : s.r.ch = max s.last.height 1
  canvas : s.r.canvas = full shade s.drawn s.last s.r.clear

theorem has_damageOf (h : r.reallocs fr = false) (hfits : Fits fr) {m : PrimMeta}
    (hm : m ∈ changed r.textures r.texDirty r.prev (metas fr)) {x y : Int} (hbox : m.bbox.has x y = true)
    (hx : 0 ≤ x ∧ x < (max fr.width 1 : Nat)) (hy : 0 ≤ y ∧ y < (max fr.height 1 : Nat)) :
    (damageOf r fr).has x y = true := by
  obtain ⟨hw, hh⟩ := hfits.toI32
  simp only [damageOf, h, Bool.false_eq_true, if_false, hw, hh]
  exact has_margin (has_foldl_union (.inr ⟨m, hm, hbox⟩)) hx hy

theorem hash_primMeta (fr : Frame) (p : Prim) (iw ih : Int) : (primMeta fr p iw ih).hash = primHash fr p := by
  simp only [primMeta]

theorem sharedAt_metas (fr : Frame) (others : List PrimMeta) (x y : Int) : sharedAt (metas fr) others x y =
      (fr.prims.filter fun p => (primMeta fr p (toI32 (max fr.width 1)) (toI32 (max fr.height 1))).bbox.has x y &&
          (others.map (·.hash)).contains (primHash fr p)).map (primHash fr) := by
  rw [sharedAt, metas, List.filter_map, List.map_map]
  simp only [Function.comp_def, hash_primMeta]

theorem pixel_eq_filter {textures : Textures} {others : List PrimMeta} {clear : Px} (hfits : Fits fr)
    (hi : i < max fr.width 1 * max fr.height 1)
    (hkept : ∀ m ∈ metas fr, m.bbox.has (i % max fr.width 1 : Nat) (i / max fr.width 1 : Nat) = true →
      m.hash ∈ others.map (·.hash)) : pixel shade textures fr clear (i % max fr.width 1, i / max fr.width 1) =
      paint (primMark shade textures fr) (fr.prims.filter fun p =>
        (primMeta fr p (toI32 (max fr.width 1)) (toI32 (max fr.height 1))).bbox.has
          (i % max fr.width 1 : Nat) (i / max fr.width 1 : Nat) && (others.map (·.hash)).contains (primHash fr p))
        (i % max fr.width 1, i / max fr.width 1) clear := by
  obtain ⟨hx, hy⟩ := pos_lt hi
  obtain ⟨hw, hh⟩ := hfits.toI32
  symm
  apply paint_filter
  intro p hp hq c
  cases hbox : (primMeta fr p (toI32 (max fr.width 1)) (toI32 (max fr.height 1))).bbox.has
      (i % max fr.width 1 : Nat) (i / max fr.width 1 : Nat) with
  | false =>
    apply primMark_of_not_has _ _ hbox
    · rw [hw]
      exact hx.2
    · rw [hh]
      exact hy.2
  | true =>
    have hmem := hkept _ (mem_map_of_mem hp) hbox
    rw [hash_primMeta, ← contains_iff_mem] at hmem
    rw [hbox, hmem] at hq
    cases hq

theorem primMark_congr {fr' : Frame} {p p' : Prim} {textures textures' : Textures} {pos : Nat × Nat}
    (hclip : p.clip = p'.clip) (htex : p.texId = p'.texId) (hcorners : corners fr p = corners fr' p')
    (hshade : ∀ t ∈ triangles (corners fr p), ∀ c pos,
      shade c t (textures p.texId) pos = shade c t (textures' p.texId) pos) (c : Px) :
    primMark shade textures fr p pos c = primMark shade textures' fr' p' pos c := by
  unfold primMark
  rw [← hcorners]
  apply @paint_congr _ _ _ _ _ _ _ _ _ id id rfl
  rintro t ht _ _ rfl c
  rw [triMark, triMark, ← hclip, ← htex, hshade t ht]
  rfl

section

variable (hdrawn : Drawn shade s) (hlast : Fits s.last) (hfits : Fits fr) (hre : s.r.reallocs fr = false)
  (hfree : ∀ p ∈ fr.prims, ∀ p' ∈ s.last.prims, primHash fr p = primHash s.last p' →
    p.clip = p'.clip ∧ p.texId = p'.texId ∧ corners fr p = corners s.last p') (hok : Faithful shade s fr)
include hdrawn hlast hfits hre hfree hok

theorem pixel_kept (hw : max s.last.width 1 = max fr.width 1) (hh : max s.last.height 1 = max fr.height 1)
    (hi : i < max fr.width 1 * max fr.height 1)
    (hout : (damageOf s.r fr).has (i % max fr.width 1 : Nat) (i / max fr.width 1 : Nat) = false) :
    pixel shade s.r.textures fr s.r.clear (i % max fr.width 1, i / max fr.width 1) =
      pixel shade s.drawn s.last s.r.clear (i % max fr.width 1, i / max fr.width 1) := by
  obtain ⟨hx, hy⟩ := pos_lt hi
  have hunchanged : ∀ m ∈ changed s.r.textures s.r.texDirty s.r.prev (metas fr),
      m.bbox.has (i % max fr.width 1 : Nat) (i / max fr.width 1 : Nat) = true → False := by
    intro m hm hbox
    rw [has_damageOf hre hfits hm hbox hx hy] at hout
    cases hout
  have hnew := @pixel_eq_filter _ shade fr i s.r.textures s.r.prev s.r.clear hfits hi fun m hm hbox => by
    by_contra hnot
    exact hunchanged m (mem_changed.mpr (.inr (.inl ⟨hm, hnot⟩))) hbox
  have hold := @pixel_eq_filter _ shade s.last i s.drawn (metas fr) s.r.clear hlast (hw ▸ hh ▸ hi) fun m hm hbox => by
    by_contra hnot
    exact hunchanged m (mem_changed.mpr (.inl ⟨hdrawn.prev ▸ hm, hnot⟩)) (hw ▸ hbox)
  have horder := hok.order (i % max fr.width 1 : Nat) (i / max fr.width 1)
  rw [sharedAt_metas, hdrawn.prev, sharedAt_metas, hw, hh] at horder
  rw [hw, hh] at hold
  rw [hnew, hold, hdrawn.prev]
  apply paint_congr horder
  intro p hp p' hp' hhash c
  obtain ⟨hp, hq⟩ := mem_filter.mp hp
  obtain ⟨hclip, htex, hcorners⟩ := hfree p hp p' (mem_filter.mp hp').1 hhash
  apply primMark_congr hclip htex hcorners
  apply hok.textures p hp
  intro d hd
  rw [← Bool.not_eq_true]
  intro hsample
  exact hunchanged _ (mem_changed.mpr (.inr (.inr ⟨d, hd, mem_map_of_mem hp, hsample⟩)))
    (Bool.and_eq_true_iff.mp hq).1

theorem render_of_faithful :
    (render shade blank s.r fr).canvas = full shade s.r.textures fr s.r.clear := by
  have hsame : s.r.cw = max fr.width 1 ∧ s.r.ch = max fr.height 1 := by
    simp only [Raster.reallocs, decide_eq_false_iff_not, not_or, not_not] at hre
    exact ⟨hre.1, hre.2.1⟩
  have hw := hdrawn.cw.symm.trans hsame.1
  have hh := hdrawn.ch.symm.trans hsame.2
  rw [render_canvas, planDamage]
  simp only [hre, Bool.false_eq_true, if_false]
  rw [hdrawn.canvas, full, full, hw, hh]
  apply ext_getElem?
  intro i
  rw [inside, getElem?_mapIdx, getElem?_map, getElem?_map, Option.map_map]
  by_cases hi : i < max fr.width 1 * max fr.height 1
  · rw [getElem?_range hi, map_some, map_some, Function.comp_apply]
    split_ifs with hin
    · rfl
    · rw [pixel_kept hdrawn hlast hfits hre hfree hok hw hh hi (Bool.eq_false_iff.mpr hin)]
  · rw [getElem?_eq_none (by simpa using hi)]
    rfl
end
end

variable {shade : Shade Px} {blank : Px} {s s' : History Px} {frs : List Frame}

/-- Nothing is on the canvas, or the last frame is as it should be. -/
def UpToDate (shade : Shade Px) (frs : List Frame) (s : History Px) : Prop :=
  s.r.canvas = [] ∨ (Drawn shade s ∧ s.last ∈ frs)

theorem reallocs_of_canvas {r : Raster Px} (h : r.canvas = []) (fr : Frame) : r.reallocs fr = true := by
  simp [Raster.reallocs, h]

theorem render_fields (shade : Shade Px) (blank : Px) (r : Raster Px) (fr : Frame) :
    (render shade blank r fr).prev = metas fr ∧ (render shade blank r fr).cw = max fr.width 1 ∧
      (render shade blank r fr).ch = max fr.height 1 ∧ (render shade blank r fr).clear = r.clear := by
  unfold render
  cases hempty : (damageOf r fr).isEmpty with
  | true | false => simp [planDamage, hempty]

theorem setTexture_fields (r : Raster Px) (id : UInt64) (pos : Option (Nat × Nat)) (w h : Nat) (px : List UInt8) :
    (setTexture r id pos w h px).prev = r.prev ∧ (setTexture r id pos w h px).cw = r.cw ∧
      (setTexture r id pos w h px).ch = r.ch ∧ (setTexture r id pos w h px).clear = r.clear ∧
      (setTexture r id pos w h px).canvas = r.canvas := by
  unfold setTexture
  simp only
  split
  · exact ⟨rfl, rfl, rfl, rfl, rfl⟩
  · split
    · split
      · exact ⟨rfl, rfl, rfl, rfl, rfl⟩
      · split <;> exact ⟨rfl, rfl, rfl, rfl, rfl⟩
    · exact ⟨rfl, rfl, rfl, rfl, rfl⟩

theorem render_eq_full (h : UpToDate shade frs s) (hfits : ∀ fr ∈ frs, Fits fr) (hfree : CollisionFree frs)
    {fr : Frame} (hfr : fr ∈ frs) (hok : Condition shade s (.frame fr)) :
    (render shade blank s.r fr).canvas = full shade s.r.textures fr s.r.clear := by
  cases hre : s.r.reallocs fr with
  | true => exact render_of_reallocs (hfits fr hfr) hre
  | false =>
    rcases h with hnil | ⟨hdrawn, hlast⟩
    · rw [reallocs_of_canvas hnil] at hre
      cases hre
    · exact render_of_faithful hdrawn (hfits _ hlast) (hfits fr hfr) hre
        (fun p hp p' hp' => hfree fr hfr s.last hlast p hp p' hp') (hok hre)

theorem UpToDate.step (h : UpToDate shade frs s) (hfits : ∀ fr ∈ frs, Fits fr) (hfree : CollisionFree frs)
    {e : Event Px} (hok : Condition shade s e) (he : ∀ fr, e = .frame fr → fr ∈ frs)
    (hstep : s.step shade blank e = some s') : UpToDate shade frs s' := by
  cases e with
  | frame fr =>
    cases hstep
    obtain ⟨hprev, hcw, hch, hclear⟩ := render_fields shade blank s.r fr
    have hcanvas : (render shade blank s.r fr).canvas = full shade s.r.textures fr s.r.clear :=
      render_eq_full h hfits hfree (he fr rfl) hok
    exact .inr ⟨⟨hprev, hcw, hch, hcanvas.trans (by rw [hclear])⟩, he fr rfl⟩
  | setTexture id pos w ht px =>
    cases hstep
    obtain ⟨hprev, hcw, hch, hclear, hcanvas⟩ := setTexture_fields s.r id pos w ht px
    rcases h with hnil | ⟨hdrawn, hlast⟩
    · exact .inl (hcanvas.trans hnil)
    · refine .inr ⟨⟨hprev.trans hdrawn.prev, hcw.trans hdrawn.cw, hch.trans hdrawn.ch, ?_⟩, hlast⟩
      rw [hclear]
      exact hcanvas.trans hdrawn.canvas
  | setClear c =>
    cases hstep
    exact .inl rfl

/-- After every frame of a history whose frames all meet the condition, the canvas is the one that a fresh raster with
the same textures and clear colour draws. -/
theorem render_eq_fresh (shade : Shade Px) (blank clear : Px) (es : List (Event Px)) (fr : Frame) (s : History Px)
    (hfits : ∀ f ∈ framesOf (es ++ [.frame fr]), Fits f) (hfree : CollisionFree (framesOf (es ++ [.frame fr])))
    (hok : Guarded (History.step shade blank) (Condition shade) (.start clear) es)
    (hrun : exec (History.step shade blank) (.start clear) es = some s) (hlast : Condition shade s (.frame fr)) :
    (render shade blank s.r fr).canvas = (render shade blank (fresh s.r) fr).canvas := by
  have hmem : ∀ f, Event.frame f ∈ es ++ [.frame fr] → f ∈ framesOf (es ++ [.frame fr]) := fun f hf =>
    mem_filterMap.mpr ⟨_, hf, rfl⟩
  have hfr := hmem fr (by simp)
  have hup : UpToDate shade (framesOf (es ++ [.frame fr])) s := by
    have hframes : Guarded (History.step shade blank)
        (fun _ e => ∀ f, e = .frame f → f ∈ framesOf (es ++ [.frame fr])) (.start clear) es := by
      apply guarded_of_forall
      intro e he _ f hf
      exact hmem f (mem_append_left _ (hf ▸ he))
    apply exec_invariant _ (.inl rfl) (hok.and hframes) hrun
    intro s e s' hs hg hstep
    exact hs.step hfits hfree hg.1 hg.2 hstep
  rw [render_eq_full hup hfits hfree hfr hlast]
  exact (render_of_reallocs (hfits fr hfr) (@reallocs_of_canvas _ (fresh s.r) rfl fr)).symm

def sheet (color : UInt32) : List Vertex :=
  [⟨0, 0, 0, 0, color⟩, ⟨0x40800000, 0, 0, 0, color⟩, ⟨0, 0x40800000, 0, 0, color⟩]

def page (order : List UInt32) : Frame where
  verts := sheet 1 ++ sheet 2
  idx := [0, 1, 2, 3, 4, 5]
  prims := order.map fun k => ⟨⟨0, 0, 0x40000000, 0x40000000⟩, 0, 3 * k, 3 * k + 3⟩
  width := 2
  height := 2

def opaqueShade : Shade UInt32 := fun _ t _ _ => t.1.color

def darkShade : Shade UInt32 := fun c t _ _ => c + t.1.color

def texelShade : Shade UInt32 := fun c _ tex _ => (tex.bind (·.px[0]?)).elim c (·.toUInt32)

theorem fresh_after_adding : (render opaqueShade 0 (render opaqueShade 0 (.new 0) (page [0])) (page [0, 1])).canvas =
      (render opaqueShade 0 (fresh (render opaqueShade 0 (.new 0) (page [0]))) (page [0, 1])).canvas := by
  apply render_eq_fresh opaqueShade 0 0 [.frame (page [0])] (page [0, 1])
    ⟨render opaqueShade 0 (.new 0) (page [0]), page [0], fun _ => none⟩
  case hfits =>
    unfold Fits
    decide +kernel
  case hfree =>
    unfold CollisionFree
    decide +kernel
  case hok =>
    refine ⟨fun hre => ?_, fun _ _ => trivial⟩
    cases hre
  case hrun => rfl
  case hlast =>
    intro _
    constructor
    · obtain ⟨m, hm⟩ : ∃ m, metas (page [0]) = [m] := ⟨_, rfl⟩
      obtain ⟨n, hn⟩ : ∃ n, metas (page [0, 1]) = metas (page [0]) ++ [n] := ⟨_, rfl⟩
      have hhash : ∀ a ∈ (metas (page [0, 1]))[0]?, ∀ b ∈ (metas (page [0, 1]))[1]?, b.hash ≠ a.hash := by decide +kernel
      rw [(render_fields opaqueShade 0 (.new 0) (page [0])).1]
      rw [hn, hm] at hhash ⊢
      have hne := hhash m rfl n rfl
      simp [sharedAt, filter_cons, hne]
    · intro p _ _ t _ c pos
      rfl

/-- With the order of two sheets changed, with one drawn twice, or with a texture replaced that is sampled at its
corner, the canvas stays as it was. -/
theorem stale_canvas : (∃ s, exec (History.step opaqueShade 0) (.start 0) [.frame (page [0, 1])] = some s ∧
      (render opaqueShade 0 s.r (page [1, 0])).canvas ≠ (render opaqueShade 0 (fresh s.r) (page [1, 0])).canvas) ∧
    (∃ s, exec (History.step darkShade 0) (.start 0) [.frame (page [0])] = some s ∧
      (render darkShade 0 s.r (page [0, 0])).canvas ≠ (render darkShade 0 (fresh s.r) (page [0, 0])).canvas) ∧
    (∃ s, exec (History.step texelShade 0) (.start 0) [.setTexture 0 none 1 1 [5, 5, 5, 5], .frame (page [0]),
        .setTexture 0 none 1 1 [7, 7, 7, 7]] = some s ∧
      (render texelShade 0 s.r (page [0])).canvas ≠ (render texelShade 0 (fresh s.r) (page [0])).canvas) ∧
    CollisionFree [page [0, 1], page [1, 0], page [0], page [0, 0]] ∧
    ∀ fr ∈ [page [0, 1], page [1, 0], page [0], page [0, 0]], Fits fr := by
  refine ⟨⟨_, rfl, by decide +kernel⟩, ⟨_, rfl, by decide +kernel⟩, ⟨_, rfl, by decide +kernel⟩, ?_, ?_⟩
  · unfold CollisionFree
    decide +kernel
  · unfold Fits
    decide +kernel

end Ruos.Mesh
