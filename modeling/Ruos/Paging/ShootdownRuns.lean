import Ruos.Paging.Shootdown

/-! Whole runs of the mapper calls with the fills of the TLBs and the interrupts of a shootdown: they are sent, delivered
and handled once at every other core before the call goes on. -/
namespace Ruos.Paging.Machine

open Lib Function Option Finset

variable {cores : Nat} {m : Machine} {a : Active} {c : Nat} {hd : Handler}

namespace Coherent

section

variable (h : m.Coherent cores)
include h

theorem send (ha : m.active = some a) (hphase : a.phase = .send) :
    Coherent cores ({ m with ipi := fun c => m.ipi c || (decide (c < cores) && decide (c ≠ a.core)) }.setActive
      { a with phase := .wait }) := by
  have hquiet := h.quiet_of_phase ha (by rw [hphase]; exact Phase.noConfusion)
  have hsane := h.sane a ha
  have hipi : ∀ c, (m.ipi c || (decide (c < cores) && decide (c ≠ a.core))) = true ↔ c < cores ∧ c ≠ a.core := by
    intro c
    rw [(hquiet c).1]
    simp
  have hpub := h.published a ha
  rw [Published, hphase] at hpub
  obtain ⟨haddr, hlen, hack⟩ := hpub
  constructor
  case fresh =>
    intro c hc
    refine (h.fresh c hc).mono fun p hp => ⟨_, rfl, ?_⟩
    rw [stale_iff ha, Active.Stale, hphase] at hp
    exact ⟨hp.1, hp.2, .inl ((hipi c).mpr ⟨hc, hp.1⟩)⟩
  case quiet => exact fun hwait => absurd rfl (hwait _ rfl)
  case sane => exact of_setActive { hsane with }
  case published =>
    refine of_setActive ⟨haddr, hlen, ?_, fun c hc => (hipi c).mp hc, fun c x hx => ?_⟩
    · show m.shootAck = card _
      rw [hack, eq_comm, card_eq_zero, answered, filter_eq_empty_iff]
      rintro c hc ⟨hne, hfalse, -⟩
      have htrue := (hipi c).mpr ⟨mem_range.mp hc, hne⟩
      exact Bool.false_ne_true (hfalse.symm.trans htrue)
    · have hx' : x ∈ m.handler c := hx
      rw [(hquiet c).2] at hx'
      cases hx'
  case table_nonGlobal => exact h.table_nonGlobal
  case tlb_nonGlobal => exact h.tlb_nonGlobal

theorem all_answered (ha : m.active = some a) (hphase : a.phase = .wait) (hack : ¬ m.shootAck < cores - 1) (c : Nat) :
    m.ipi c = false ∧ m.handler c = none := by
  have hpub := h.published a ha
  rw [Published, hphase] at hpub
  obtain ⟨-, -, hcount, hipi, hhandler⟩ := hpub
  have hsub : m.answered cores a.core ⊆ (range cores).erase a.core := by
    intro d hd
    obtain ⟨hrange, hne, -⟩ := mem_filter.mp hd
    exact mem_erase.mpr ⟨hne, hrange⟩
  have hcard : ((range cores).erase a.core).card = cores - 1 := by
    rw [card_erase_of_mem (mem_range.mpr (h.sane a ha).core_lt), card_range]
  have heq := eq_of_subset_of_card_le hsub (by omega)
  by_cases hother : c < cores ∧ c ≠ a.core
  · have hmem : c ∈ m.answered cores a.core := by
      rw [heq]
      exact mem_erase.mpr ⟨hother.2, mem_range.mpr hother.1⟩
    exact (mem_filter.mp hmem).2.2
  · constructor
    · by_contra hne
      exact hother (hipi c (Bool.not_eq_false _ ▸ hne))
    · cases hx : m.handler c with
      | none => rfl
      | some x =>
        obtain ⟨hlt, hne, -⟩ := hhandler c x hx
        exact absurd ⟨hlt, hne⟩ hother

theorem acknowledged (ha : m.active = some a) (hphase : a.phase = .wait) (hack : ¬ m.shootAck < cores - 1) :
    Coherent cores (m.setActive { a with phase := .ret }) := by
  have hquiet := h.all_answered ha hphase hack
  have hsane := h.sane a ha
  constructor
  case fresh =>
    intro c hc
    refine (h.fresh c hc).mono fun p hp => ?_
    rw [stale_iff ha, Active.Stale, hphase, (hquiet c).1, (hquiet c).2] at hp
    obtain ⟨-, -, hipi | ⟨x, hx, -⟩⟩ := hp
    · cases hipi
    · cases hx
  case quiet => exact fun _ => hquiet
  case sane => exact of_setActive { hsane with }
  case published => exact of_setActive trivial
  case table_nonGlobal => exact h.table_nonGlobal
  case tlb_nonGlobal => exact h.tlb_nonGlobal

theorem waits (hc : m.ipi c = true ∨ m.handler c ≠ none) : ∃ a, m.active = some a ∧ a.phase = .wait := by
  by_contra hnone
  obtain ⟨hipi, hhandler⟩ := h.quiet (fun a ha hphase => hnone ⟨a, ha, hphase⟩) c
  rcases hc with hc | hc
  · rw [hipi] at hc
    cases hc
  · exact hc hhandler

/-- A step of one core's handler: it may drop entries of its TLB, and counts as an answer at its end. -/
theorem interrupt (ha : m.active = some a) (hphase : a.phase = .wait) (hcore : c < cores ∧ c ≠ a.core)
    (hbusy : ¬ (m.ipi c = false ∧ m.handler c = none)) {next : Option Handler} {t : Nat → Option Entry}
    (hfresh : FreshOff (a.Stale false next c) t fun p => (m.table p).translate)
    (hglobal : ∀ p, ∀ e ∈ t p, e.isGlobal = false) (hreads : ∀ x ∈ next, x.Reads a.call.op) : Coherent cores { m with
      tlb := update m.tlb c t, ipi := update m.ipi c false, handler := update m.handler c next
      shootAck := if next = none then m.shootAck + 1 else m.shootAck } := by
  have hpub := h.published a ha
  rw [Published, hphase] at hpub
  obtain ⟨haddr, hlen, hcount, hipi, hhandler⟩ := hpub
  constructor
  case fresh =>
    intro d hd
    by_cases hdc : d = c
    · rw [hdc]
      show FreshOff _ (update m.tlb c t c) _
      rw [update_self]
      refine hfresh.mono fun p hp => ⟨a, ha, ?_⟩
      show a.Stale (update m.ipi c false c) (update m.handler c next c) c p
      rw [update_self, update_self]
      exact hp
    · show FreshOff _ (update m.tlb c t d) _
      rw [update_of_ne hdc]
      refine (h.fresh d hd).mono fun p hp => ⟨a, ha, ?_⟩
      show a.Stale (update m.ipi c false d) (update m.handler c next d) d p
      rw [update_of_ne hdc, update_of_ne hdc]
      exact (stale_iff ha).mp hp
  case quiet => exact fun hwait => absurd hphase (hwait a ha)
  case sane => exact h.sane
  case published =>
    intro x hx
    obtain rfl := some.inj (ha.symm.trans hx)
    rw [Published, hphase]
    refine ⟨haddr, hlen, ?_, ?_, ?_⟩
    · by_cases hnext : next = none
      · rw [if_pos hnext, hcount, eq_comm]
        apply card_filter_succ (mem_range.mpr hcore.1)
        · exact fun hc => hbusy hc.2
        · intro d _
          show d ≠ a.core ∧ update m.ipi c false d = false ∧ update m.handler c next d = none ↔ _
          by_cases hdc : d = c
          · rw [hdc, update_self, update_self]
            exact ⟨fun _ => .inl rfl, fun _ => ⟨hcore.2, rfl, hnext⟩⟩
          · rw [update_of_ne hdc, update_of_ne hdc]
            exact ⟨.inr, fun hd => hd.resolve_left hdc⟩
      · rw [if_neg hnext, hcount]
        congr 1
        apply filter_congr
        intro d _
        show _ ↔ d ≠ a.core ∧ update m.ipi c false d = false ∧ update m.handler c next d = none
        by_cases hdc : d = c
        · rw [hdc, update_self, update_self]
          exact ⟨fun hd => absurd hd.2 hbusy, fun hd => absurd hd.2.2 hnext⟩
        · rw [update_of_ne hdc, update_of_ne hdc]
    · intro d hd
      by_cases hdc : d = c
      · rw [hdc]
        exact hcore
      · have hd' : update m.ipi c false d = true := hd
        rw [update_of_ne hdc] at hd'
        exact hipi d hd'
    · intro d x hx
      have hx' : x ∈ update m.handler c next d := hx
      show d < cores ∧ d ≠ a.core ∧ update m.ipi c false d = false ∧ _
      by_cases hdc : d = c
      · rw [hdc, update_self] at hx' ⊢
        exact ⟨hcore.1, hcore.2, rfl, hreads x hx'⟩
      · rw [update_of_ne hdc] at hx' ⊢
        exact hhandler d x hx'
  case table_nonGlobal => exact h.table_nonGlobal
  case tlb_nonGlobal =>
    intro d hd p e he
    have he' : e ∈ update m.tlb c t d p := he
    by_cases hdc : d = c
    · rw [hdc, update_self] at he'
      exact hglobal p e he'
    · rw [update_of_ne hdc] at he'
      exact h.tlb_nonGlobal d hd p e he'

end

theorem setHandler_eq (hipi : m.ipi c = false) {h : Handler} (t : Nat → Option Entry) :
    (m.setTlb c t).setHandler c (some h) = { m with
      tlb := update m.tlb c t, ipi := update m.ipi c false
      handler := update m.handler c (some h), shootAck := if some h = none then m.shootAck + 1 else m.shootAck } := by
  have hsame : update m.ipi c false = m.ipi := by
    rw [← hipi]
    exact update_eq_self c m.ipi
  rw [hsame]
  rfl

theorem setHandler_same (m : Machine) (c : Nat) (h : Option Handler) :
    m.setHandler c h = (m.setTlb c (m.tlb c)).setHandler c h := by
  unfold Machine.setTlb
  rw [update_eq_self]

theorem deliver (h : m.Coherent cores) (hipi : m.ipi c = true) :
    Coherent cores ({ m with ipi := update m.ipi c false }.setHandler c (some .loadAddr)) := by
  obtain ⟨a, ha, hphase⟩ := h.waits (.inl hipi)
  have hpub := h.published a ha
  rw [Published, hphase] at hpub
  obtain ⟨-, -, -, hother, -⟩ := hpub
  have hcore := hother c hipi
  have hfresh : FreshOff (a.Stale false (some .loadAddr) c) (m.tlb c) fun p => (m.table p).translate := by
    refine (h.fresh c hcore.1).mono fun p hp => ?_
    rw [stale_iff ha, Active.Stale, hphase] at hp
    rw [Active.Stale, hphase]
    exact ⟨hp.1, hp.2.1, .inr ⟨_, rfl, trivial⟩⟩
  have hstep := h.interrupt ha hphase hcore (fun hc => Bool.false_ne_true (hc.1.symm.trans hipi)) hfresh
    (h.tlb_nonGlobal c hcore.1) fun x hx => by
      obtain rfl := mem_some_iff.mp hx
      trivial
  rw [update_eq_self] at hstep
  exact hstep

theorem page_eq {addr first i : Nat} (hfirst : pageOf addr = first) (hlt : first + i < 2 ^ 52) :
    pageOf ((addr + i * 4096) % 2 ^ 64) = first + i := by
  unfold pageOf at *
  omega

theorem handle (h : m.Coherent cores) (hc : m.handler c = some hd) : Coherent cores (m.handle c hd) := by
  obtain ⟨a, ha, hphase⟩ := h.waits (.inr (by rw [hc]; exact some_ne_none hd))
  have hpub := h.published a ha
  rw [Published, hphase] at hpub
  obtain ⟨haddr, hlen, -, -, hhandler⟩ := hpub
  obtain ⟨hlt, hne, hipi, hreads⟩ := hhandler c hd hc
  have hsane := h.sane a ha
  have hbusy : ¬ (m.ipi c = false ∧ m.handler c = none) := by
    rintro ⟨-, hnone⟩
    rw [hc] at hnone
    cases hnone
  have hstale : ∀ {next : Option Handler} {p : Nat}, (hd.Remains a.call.op.first p → a.Touched p →
      ∃ x ∈ next, x.Remains a.call.op.first p) → m.Stale c p → a.Stale false next c p := by
    intro next p himp hp
    rw [stale_iff ha, Active.Stale, hphase, hipi, hc] at hp
    rw [Active.Stale, hphase]
    obtain ⟨hcore, ht, hfalse | ⟨x, hx, hrem⟩⟩ := hp
    · cases hfalse
    · obtain rfl := mem_some_iff.mp hx
      exact ⟨hcore, ht, .inr (himp hrem ht)⟩
  have hkeep : ∀ {next : Handler}, next.Reads a.call.op → (∀ p, hd.Remains a.call.op.first p → a.Touched p →
      next.Remains a.call.op.first p) → Coherent cores (m.setHandler c (some next)) := by
    intro next hnext himp
    rw [setHandler_same, setHandler_eq hipi]
    refine h.interrupt ha hphase ⟨hlt, hne⟩ hbusy ?_ (h.tlb_nonGlobal c hlt) fun x hx => ?_
    · exact (h.fresh c hlt).mono fun p => hstale fun hr ht => ⟨next, rfl, himp p hr ht⟩
    · obtain rfl := mem_some_iff.mp hx
      exact hnext
  cases hd with
  | loadAddr => exact hkeep haddr fun _ _ _ => trivial
  | loadLen addr =>
    apply hkeep
    · split_ifs
      · exact ⟨hreads, hlen⟩
      · trivial
    · intro p _ ht
      split_ifs
      · exact ht.1
      · trivial
  | invlpg addr len i =>
    obtain ⟨rfl, rfl⟩ := hreads
    rw [Machine.handle]
    split_ifs with hi
    · rw [Machine.invlpg, setHandler_eq hipi]
      refine h.interrupt ha hphase ⟨hlt, hne⟩ hbusy ?_ (h.nonGlobal_drop hlt _) fun x hx => ?_
      · refine (h.fresh c hlt).drop fun p hp hs => hstale (fun hr ht => ⟨_, rfl, ?_⟩) hs
        -- The page with this index is the one that was just invalidated.
        have hle : a.call.op.first + i ≤ p := hr
        refine Nat.lt_of_le_of_ne hle fun heq => hp ?_
        have hsmall := hsane.touched_lt p ht
        rw [page_eq a.call.addr_page (by omega)]
        exact heq.symm
      · obtain rfl := mem_some_iff.mp hx
        exact ⟨rfl, rfl⟩
    · refine hkeep trivial fun p hr ht => ?_
      have hle : a.call.op.first + i ≤ p := hr
      have hhi := ht.2
      have hpages := hsane.i_le
      exact absurd hhi (by omega)
  | reload =>
    have hnone : ∀ p, (m.tlb c p).filter (·.isGlobal) = none := by
      intro p
      cases he : m.tlb c p with
      | none => rfl
      | some e => rw [Option.filter, h.tlb_nonGlobal c hlt p e he, if_neg Bool.false_ne_true]
    rw [Machine.handle, setHandler_eq hipi]
    refine h.interrupt ha hphase ⟨hlt, hne⟩ hbusy ?_ ?_ fun x hx => ?_
    · intro p _ b hb
      cases (hnone p).symm.trans hb
    · intro p e he
      cases (hnone p).symm.trans he
    · obtain rfl := mem_some_iff.mp hx
      trivial
  | ack =>
    have hfresh : FreshOff (a.Stale false none c) (m.tlb c) fun p => (m.table p).translate :=
      (h.fresh c hlt).mono fun p => hstale fun hr _ => absurd hr id
    have hstep := h.interrupt ha hphase ⟨hlt, hne⟩ hbusy hfresh (h.tlb_nonGlobal c hlt) (by rintro x ⟨⟩)
    have hsame : update m.ipi c false = m.ipi := by
      rw [← hipi]
      exact update_eq_self c m.ipi
    rw [update_eq_self, hsame] at hstep
    exact hstep
end Coherent
end Ruos.Paging.Machine

namespace Ruos.Paging

open Lib Function Option

def Event.NonGlobal : Event → Prop
  | .begin _ call => call.NonGlobal
  | .mapPage _ _ _ flags => flags.testBit 8 = false
  | _ => True

instance (e : Event) : Decidable e.NonGlobal :=
  match e with
  | .begin _ call => inferInstanceAs (Decidable call.NonGlobal)
  | .mapPage _ _ _ flags => inferInstanceAs (Decidable (flags.testBit 8 = false))
  | .work | .ret | .free _ | .fill _ _ | .evict _ _ | .deliver _ | .handle _ => isTrue trivial

namespace Machine

variable {cores : Nat} {m m' : Machine} {a : Active} {e : Event}

namespace Coherent

section

variable (h : m.Coherent cores)
include h

theorem begin (hidle : m.active = none) {core : Nat} (hcore : core < cores) {call : Call} (hcall : call.NonGlobal) :
    Coherent cores
      (m.setActive { core, call, i := 0, changed := 0, freed := [], error := none, phase := .page }) where
  fresh c hc := (h.fresh c hc).mono fun p hp => absurd hp (not_stale hidle)
  quiet _ := h.quiet fun x hx => by rw [hidle] at hx; cases hx
  sane := of_setActive ⟨hcore, hcall, Nat.zero_le _, fun p hp => absurd hp.2 (Nat.not_lt.mpr hp.1)⟩
  published := of_setActive trivial
  __ := h

theorem map (hidle : m.active = none) {page frame flags : Nat} {slot : Slot}
    (hmap : (m.table page).mapTo frame flags = .ok slot) (hflags : flags.testBit 8 = false) :
    Coherent cores { m with table := update m.table page slot } where
  fresh c hc := by
    refine (h.fresh c hc).change (fun p hp => absurd hp (not_stale hidle)) fun p _ b hb => ?_
    have hne : p ≠ page := by
      rintro rfl
      cases (Slot.mapTo_ok hmap).1.symm.trans hb
    show (update m.table page slot p).translate = some b
    rw [update_of_ne hne]
    exact hb
  __ := h
  table_nonGlobal p := by
    show (update m.table page slot p).entry.isGlobal = false
    by_cases hp : p = page
    · rw [hp, update_self, (Slot.mapTo_ok hmap).2]
      exact hflags
    · rw [update_of_ne hp]
      exact h.table_nonGlobal p

theorem onPage (ha : m.active = some a) (hphase : a.phase = .page) (hstep : m.onPage a = some m') :
    Coherent cores m' := by
  have hne : a.phase ≠ .wait := by
    rw [hphase]
    exact Phase.noConfusion
  have hsane := h.sane a ha
  -- After the loop the call goes on only if a page was changed.
  have hafter : ∀ {a' : Active}, a'.phase = afterLoop a → a'.core = a.core → a'.call = a.call → a'.i = a.i →
      Coherent cores (m.setActive a') := by
    intro a' hphase' hcore hcall hi
    have htouched : ∀ p, a'.Touched p ↔ a.Touched p := by
      intro p
      rw [Active.Touched, Active.Touched, hcall, hi]
    refine h.move ha hne (fun c _ p hp => ?_) ?_ ?_
    · rw [Active.Stale, hphase] at hp
      rw [Active.Stale, hphase', afterLoop, if_neg hp.2.1, hcore, htouched]
      exact ⟨hp.1, hp.2.2⟩
    · refine ⟨hcore ▸ hsane.core_lt, hcall ▸ hsane.nonGlobal, by rw [hi, hcall]; exact hsane.i_le, fun p hp => ?_⟩
      exact hsane.touched_lt p ((htouched p).mp hp)
    · rw [Published, hphase', afterLoop]
      split_ifs <;> trivial
  unfold Machine.onPage at hstep
  by_cases hi : a.i < a.call.op.pages
  · rw [if_pos hi] at hstep
    by_cases hlt : a.call.op.first + a.i < 2 ^ 52
    · rw [if_pos hlt] at hstep
      cases happly : a.call.op.apply (m.table (a.call.op.first + a.i)) with
      | ok x =>
        rw [happly] at hstep
        cases hstep
        exact h.change ha hphase hi hlt happly
      | error e =>
        rw [happly] at hstep
        cases hstep
        by_cases hstops : a.call.op.stops e = true
        · rw [if_pos hstops]
          exact hafter rfl rfl rfl rfl
        · rw [if_neg hstops]
          refine h.move ha hne (fun c _ p hp => ?_) ?_ ?_
          · rw [Active.Stale, hphase] at hp
            rw [hphase]
            exact ⟨hp.1, hp.2.1, hp.2.2.1, Nat.lt_succ_of_lt hp.2.2.2⟩
          · refine ⟨hsane.core_lt, hsane.nonGlobal, hi, fun p hp => ?_⟩
            have hhi : p < a.call.op.first + (a.i + 1) := hp.2
            omega
          · rw [hphase]
            trivial
    · rw [if_neg hlt] at hstep
      cases hstep
  · rw [if_neg hi] at hstep
    cases hstep
    exact hafter rfl rfl rfl rfl

theorem work (ha : m.active = some a) (hstep : m.work cores a = some m') : Coherent cores m' := by
  have hsane := h.sane a ha
  have hpub := h.published a ha
  -- The stores before the interrupt leave everything stale that was.
  have hstore : ∀ {phase : Phase} {addr len ack need : Nat}, a.phase ≠ .wait →
      (∀ c p, a.Stale false none c p → Active.Stale { a with phase } false none c p) →
      Published cores { m with shootAddr := addr, shootLen := len, shootAck := ack, shootNeed := need }
        { a with phase } →
      Coherent cores ({ m with shootAddr := addr, shootLen := len, shootAck := ack, shootNeed := need }.setActive
        { a with phase }) :=
    fun hne hstale hpub => h.move ha hne (fun c _ p => hstale c p)
      { hsane with } hpub
  cases hphase : a.phase <;> rw [Machine.work, hphase] at hstep
  case page =>
    exact h.onPage ha hphase hstep
  case flush page =>
    cases hstep
    exact h.flush ha hphase
  case storeAddr =>
    have hne : a.phase ≠ .wait := by rw [hphase]; exact Phase.noConfusion
    by_cases hcores : cores < 2
    · simp only [if_pos hcores] at hstep
      cases hstep
      refine h.move ha hne (fun c hc p hp => ?_) { hsane with } trivial
      -- The core of the call is the only one.
      rw [Active.Stale, hphase] at hp
      have hcore := hsane.core_lt
      exact absurd (by omega) hp.1
    · simp only [if_neg hcores] at hstep
      cases hstep
      refine hstore hne (fun c p hp => ?_) rfl
      rw [Active.Stale, hphase] at hp
      exact hp
  case storeLen | storeAck | storeNeed =>
    rw [Published, hphase] at hpub
    cases hstep
    refine hstore (by rw [hphase]; exact Phase.noConfusion) (fun c p hp => ?_) (by simp [Published, hpub])
    rw [Active.Stale, hphase] at hp
    exact hp
  case send =>
    cases hstep
    exact h.send ha hphase
  case wait =>
    by_cases hack : m.shootAck < cores - 1
    · simp only [if_pos hack] at hstep
      cases hstep
    · simp only [if_neg hack] at hstep
      cases hstep
      exact h.acknowledged ha hphase hack
  case ret =>
    cases hstep

theorem finish (ha : m.active = some a) (hphase : a.phase = .ret) (held : List Nat) :
    Coherent cores { m with active := none, held := held } where
  fresh c hc := by
    refine (h.fresh c hc).mono fun p hp => ?_
    rw [stale_iff ha, Active.Stale, hphase] at hp
    exact hp.elim
  quiet _ := h.quiet_of_phase ha (by rw [hphase]; exact Phase.noConfusion)
  sane x hx := by cases hx
  published x hx := by cases hx
  __ := h

end

end Coherent

end Machine
end Ruos.Paging
