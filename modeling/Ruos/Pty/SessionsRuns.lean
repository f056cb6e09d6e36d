import Ruos.Pty.Sessions

/-! Sessions stay isolated from each other in every run in which pairs are claimed only when nothing is left on them. -/
namespace Ruos.Pty

open Lib List Option Function

namespace Sessions

/-- Whoever has to do with a pair, and every byte on it, belongs to the session that claimed it last. -/
structure Inv (s : Sessions) : Prop where
  phases : ∀ session idx, (s.phase session).pair = some idx → s.owner idx = some session
  shells : ∀ sh ∈ s.queue ++ s.shells ++ s.leaving ++ s.resetting, s.owner sh.idx = some sh.session
  unique : ((s.queue ++ s.shells).map Shell.idx).Nodup
  unqueued : ∀ session idx, s.phase session = .claimed idx ∨ s.phase session = .marked idx →
    ∀ sh ∈ s.queue ++ s.shells, sh.idx ≠ idx
  watchdog : ∀ w ∈ s.watchdog, s.owner w.1 = w.2
  tags : ∀ idx, (s.tty idx).Tagged fun t => s.owner idx = some t
  shutdown : ∀ idx, (s.tty idx).shutdown → s.shutdownBy idx = s.owner idx
  received : ∀ x ∈ s.received, x.1 = x.2
  consumed : ∀ x ∈ s.consumed, x.1 = x.2
  freed : ∀ x ∈ s.freed, x.2 = some x.1

theorem Inv.boot : Sessions.boot.Inv where
  phases := by simp [Sessions.boot, Phase.pair]
  shells := by simp [Sessions.boot]
  unique := by simp [Sessions.boot]
  unqueued := by simp [Sessions.boot]
  watchdog := by simp [Sessions.boot]
  tags := fun idx => ⟨by simp [Sessions.boot, Tty.boot, PtyPair.new], by simp [Sessions.boot, Tty.boot, PtyPair.new],
    by simp [Sessions.boot, Tty.boot]⟩
  shutdown := by simp [Sessions.boot, Tty.boot]
  received := by simp [Sessions.boot]
  consumed := by simp [Sessions.boot]
  freed := by simp [Sessions.boot]

theorem Inv.isolated {s : Sessions} (h : s.Inv) : s.Isolated where
  oneShell := by
    have hu := h.unique
    rw [map_append] at hu
    exact (nodup_append.mp hu).2.1
  output := h.received
  input := h.consumed
  freed := h.freed
  shutdown := fun idx _ hs => h.shutdown idx hs

variable {s s' : Sessions}

section

variable (h : s.Inv)
include h

theorem Inv.setTty {idx : Nat} {t : Tty Nat} (htags : t.Tagged fun x => s.owner idx = some x)
    (hshut : t.shutdown → s.shutdownBy idx = s.owner idx) : (s.setTty idx t).Inv where
  __ := h
  tags := by
    intro i
    by_cases hi : i = idx
    · subst hi
      simpa [Sessions.setTty] using htags
    · simpa [Sessions.setTty, hi] using h.tags i
  shutdown := by
    intro i
    by_cases hi : i = idx
    · subst hi
      simpa [Sessions.setTty] using hshut
    · simpa [Sessions.setTty, hi] using h.shutdown i

theorem Inv.setPhase {session : Nat} {p : Phase} (hp : ∀ idx, p.pair = some idx → s.owner idx = some session)
    (hq : ∀ idx, p = .claimed idx ∨ p = .marked idx → ∀ sh ∈ s.queue ++ s.shells, sh.idx ≠ idx) :
    (s.setPhase session p).Inv where
  phases := by
    intro t i hi
    by_cases ht : t = session
    · subst ht
      exact hp i (by simpa [Sessions.setPhase] using hi)
    · exact h.phases t i (by simpa [Sessions.setPhase, ht] using hi)
  __ := h
  unqueued := by
    intro t i hi
    by_cases ht : t = session
    · subst ht
      exact hq i (by simpa [Sessions.setPhase] using hi)
    · exact h.unqueued t i (by simpa [Sessions.setPhase, ht] using hi)

theorem Inv.setLate {session : Nat} {p : Phase}
    (hp : p = .ended ∨ ∃ idx, s.owner idx = some session ∧ (p = .attached idx ∨ p = .closing idx)) :
    (s.setPhase session p).Inv := by
  rcases hp with rfl | ⟨idx, hown, rfl | rfl⟩
  all_goals
    refine h.setPhase (fun i hi => ?_) fun i hi => ?_
    · cases hi <;> exact hown
    · rcases hi with hi | hi <;> cases hi

variable {session idx : Nat}

theorem Inv.owner_of_phase {p : Phase} (hphase : s.phase session = p) (hp : p.pair = some idx) :
    s.owner idx = some session := h.phases session idx (hphase ▸ hp)

theorem Inv.requestShutdown {idx : Nat} {account : Option Nat} (hown : s.owner idx = account) :
    (s.requestShutdown idx account).Inv where
  __ := h
  tags := by
    intro i
    by_cases hi : i = idx
    · subst hi
      have ht := h.tags i
      simpa [Sessions.requestShutdown, Sessions.setTty] using ({ ht with })
    · simpa [Sessions.requestShutdown, Sessions.setTty, hi] using h.tags i
  shutdown := by
    intro i
    by_cases hi : i = idx
    · subst hi
      exact fun _ => by simp [Sessions.requestShutdown, Sessions.setTty, hown]
    · simpa [Sessions.requestShutdown, Sessions.setTty, hi] using h.shutdown i

theorem Inv.setShells {q l r m : List Shell} (hown : ∀ sh ∈ q ++ l ++ r ++ m, s.owner sh.idx = some sh.session)
    (hunique : ((q ++ l).map Shell.idx).Nodup) (hsub : ∀ sh ∈ q ++ l, sh ∈ s.queue ++ s.shells) :
    Inv { s with queue := q, shells := l, leaving := r, resetting := m } where
  __ := h
  shells := hown
  unique := hunique
  unqueued := fun t i hi sh hsh => h.unqueued t i hi sh (hsub sh hsh)

theorem Inv.setOrigin (o : Nat → PtyOrigin) : Inv { s with origin := o } :=
  { h with }

theorem Inv.setWatchdog {w : Option (Nat × Option Nat)} (hw : ∀ x ∈ w, s.owner x.1 = x.2) :
    Inv { s with watchdog := w } :=
  { h with watchdog := hw }

theorem Inv.setHistory {received consumed : List (Nat × Nat)} {freed : List (Nat × Option Nat)}
    (hr : ∀ x ∈ received, x.1 = x.2) (hc : ∀ x ∈ consumed, x.1 = x.2) (hf : ∀ x ∈ freed, x.2 = some x.1) :
    Inv { s with received := received, consumed := consumed, freed := freed } :=
  { h with received := hr, consumed := hc, freed := hf }

theorem Inv.claim (hquiet : s.Quiet (.tryClaim session idx)) :
    Inv { (s.setTty idx { s.tty idx with claimed := true }).setPhase session (.claimed idx) with
          owner := update s.owner idx (some session) } := by
  obtain ⟨hsh, hph, hw, hshut, hout, hline, hring⟩ := hquiet
  have hne : ∀ {i}, i ≠ idx → update s.owner idx (some session) i = s.owner i :=
    fun hi => update_of_ne hi _ _
  refine ⟨?_, ?_, h.unique, ?_, ?_, ?_, ?_, h.received, h.consumed, h.freed⟩
  · intro t i hi
    by_cases ht : t = session
    · subst ht
      obtain rfl : idx = i := by simpa [Sessions.setPhase, Phase.pair] using hi
      simp
    · have hi' : (s.phase t).pair = some i := by simpa [Sessions.setPhase, Sessions.setTty, ht] using hi
      have : i ≠ idx := fun heq => hph t (heq ▸ hi')
      exact (hne this).trans (h.phases t i hi')
  · intro sh hmem
    exact (hne (hsh sh hmem)).trans (h.shells sh hmem)
  · intro t i hi sh hmem
    by_cases ht : t = session
    · subst ht
      obtain rfl : idx = i := by simpa [Sessions.setPhase] using hi
      exact hsh sh (mem_append_left _ (mem_append_left _ hmem))
    · exact h.unqueued t i (by simpa [Sessions.setPhase, Sessions.setTty, ht] using hi) sh hmem
  · intro w hmem
    exact (hne (hw w hmem)).trans (h.watchdog w hmem)
  · intro i
    by_cases hi : i = idx
    · subst hi
      exact ⟨by simp [Sessions.setPhase, Sessions.setTty, hout], by simp [Sessions.setPhase, Sessions.setTty, hline],
        by simp [Sessions.setPhase, Sessions.setTty, hring]⟩
    · simpa [Sessions.setPhase, Sessions.setTty, hi] using h.tags i
  · intro i
    by_cases hi : i = idx
    · subst hi
      simp [Sessions.setPhase, Sessions.setTty, hshut]
    · simpa [Sessions.setPhase, Sessions.setTty, hi] using h.shutdown i

theorem Inv.enqueue (hphase : s.phase session = .marked idx) :
    Inv { s.setPhase session (.attached idx) with queue := s.queue ++ [⟨idx, session⟩] } := by
  have hown := h.owner_of_phase hphase rfl
  have hfree := h.unqueued session idx (.inr hphase)
  have hset : (s.setPhase session (.attached idx)).Inv := h.setLate (.inr ⟨idx, hown, .inl rfl⟩)
  refine { h with phases := hset.phases, shells := ?_, unique := ?_, unqueued := ?_ }
  · intro sh hmem
    simp only [mem_append, mem_singleton, Sessions.setPhase] at hmem
    rcases hmem with (((hmem | rfl) | hmem) | hmem) | hmem
    case inl.inl.inl.inr => exact hown
    all_goals exact h.shells sh (by simp [hmem])
  · have hperm : ((s.queue ++ [(⟨idx, session⟩ : Shell)] ++ s.shells).map Shell.idx).Perm
        (idx :: (s.queue ++ s.shells).map Shell.idx) := by
      simp only [append_assoc, map_append, map_cons, singleton_append]
      exact perm_middle
    refine hperm.nodup_iff.mpr (nodup_cons.mpr ⟨?_, h.unique⟩)
    intro hmem
    obtain ⟨sh, hsh, heq⟩ := mem_map.mp hmem
    exact hfree sh hsh heq
  · intro t i hi sh hmem
    have hi' : s.phase t = .claimed i ∨ s.phase t = .marked i := by
      by_cases ht : t = session
      · subst ht
        simp [Sessions.setPhase] at hi
      · simpa [Sessions.setPhase, ht] using hi
    have hsplit : sh ∈ s.queue ++ s.shells ∨ sh = ⟨idx, session⟩ := by
      simp only [Sessions.setPhase, mem_append, mem_singleton] at hmem ⊢
      rcases hmem with (hm | hm) | hm
      · exact .inl (.inl hm)
      · exact .inr hm
      · exact .inl (.inr hm)
    rcases hsplit with hm | rfl
    · exact h.unqueued t i hi' sh hm
    · -- Only the owner can be about to queue a shell.
      intro heq
      have ht : t = session := by
        have := h.phases t i (by rcases hi' with hp | hp <;> rw [hp] <;> rfl)
        rw [← heq] at this
        exact some.inj (this.symm.trans hown)
      subst ht
      simp [Sessions.setPhase] at hi

end

variable {sh : Shell}

section

variable (h : s.Inv)
include h

theorem Inv.spawn {rest : List Shell} (hq : s.queue = sh :: rest) :
    Inv { s with queue := rest, shells := s.shells ++ [sh] } := by
  have hmove : ∀ x ∈ rest ++ (s.shells ++ [sh]), x ∈ s.queue ++ s.shells := by
    intro x hx
    rw [hq]
    simp only [mem_append, mem_cons, not_mem_nil] at hx ⊢
    tauto
  refine h.setShells ?_ ?_ hmove
  · intro x hx
    apply h.shells
    simp only [mem_append] at hx ⊢ hmove
    rcases hx with (hx | hx) | hx
    · exact .inl (.inl (hmove x hx))
    · exact .inl (.inr hx)
    · exact .inr hx
  · have hperm : (rest ++ (s.shells ++ [sh])).Perm (s.queue ++ s.shells) := by
      rw [hq, ← append_assoc]
      exact perm_append_singleton sh (rest ++ s.shells)
    exact (hperm.map Shell.idx).nodup_iff.mpr h.unique

theorem Inv.drop {rest : List Shell} (hq : s.queue = sh :: rest) :
    Inv { s with queue := rest, leaving := s.leaving ++ [sh] } := by
  have hunique := h.unique
  rw [hq] at hunique
  refine h.setShells ?_ (nodup_cons.mp hunique).2 ?_
  · intro x hx
    apply h.shells
    rw [hq]
    simp only [mem_append, mem_cons, not_mem_nil] at hx ⊢
    tauto
  · intro x hx
    rw [hq]
    exact mem_cons_of_mem sh hx

theorem Inv.exit (hsh : sh ∈ s.shells) :
    Inv { s with shells := s.shells.erase sh, leaving := s.leaving ++ [sh] } := by
  have hsub : ∀ x ∈ s.queue ++ s.shells.erase sh, x ∈ s.queue ++ s.shells := by
    intro x hx
    rcases mem_append.mp hx with hx | hx
    · exact mem_append_left _ hx
    · exact mem_append_right _ (mem_of_mem_erase hx)
  refine h.setShells ?_ ?_ hsub
  · intro x hx
    apply h.shells
    simp only [mem_append, mem_singleton] at hx ⊢ hsub
    rcases hx with (hx | hx | rfl) | hx
    · exact .inl (.inl (hsub x hx))
    · exact .inl (.inr hx)
    · exact .inl (.inl (.inr hsh))
    · exact .inr hx
  · have hle : (s.queue ++ s.shells.erase sh).Sublist (s.queue ++ s.shells) :=
      (List.Sublist.refl _).append erase_sublist
    exact (hle.map Shell.idx).nodup h.unique

theorem Inv.releaseClaim (hsh : sh ∈ s.leaving) : Inv { s.setTty sh.idx { s.tty sh.idx with claimed := false } with
          leaving := s.leaving.erase sh, resetting := s.resetting ++ [sh]
          freed := if (s.tty sh.idx).claimed then s.freed ++ [(sh.session, s.owner sh.idx)] else s.freed } := by
  have hown : s.owner sh.idx = some sh.session := h.shells sh (by simp [hsh])
  have htags := h.tags sh.idx
  have hset : (s.setTty sh.idx { s.tty sh.idx with claimed := false }).Inv := h.setTty
    { htags with } (h.shutdown sh.idx)
  have hfreed : ∀ x ∈ (if (s.tty sh.idx).claimed then s.freed ++ [(sh.session, s.owner sh.idx)] else s.freed),
      x.2 = some x.1 := by
    intro x hx
    split at hx
    · rcases mem_append.mp hx with hx | hx
      · exact h.freed x hx
      · rw [mem_singleton.mp hx]
        exact hown
    · exact h.freed x hx
  refine (hset.setHistory h.received h.consumed hfreed).setShells ?_ h.unique (fun _ hx => hx)
  intro x hx
  apply h.shells
  simp only [mem_append, mem_singleton] at hx ⊢
  rcases hx with (hx | hx) | hx | rfl
  · exact .inl (.inl hx)
  · exact .inl (.inr (mem_of_mem_erase hx))
  · exact .inr hx
  · exact .inl (.inr hsh)

theorem Inv.releaseRest (sh : Shell) : Inv { s.setTty sh.idx { s.tty sh.idx with shutdown := false } with
          resetting := s.resetting.erase sh, origin := update s.origin sh.idx .free } := by
  have htags := h.tags sh.idx
  have hset : (s.setTty sh.idx { s.tty sh.idx with shutdown := false }).Inv := h.setTty
    { htags with } (fun hs => by cases hs)
  have hown : ∀ x ∈ s.queue ++ s.shells ++ s.leaving ++ s.resetting.erase sh, s.owner x.idx = some x.session := by
    intro x hx
    apply h.shells
    rcases mem_append.mp hx with hx | hx
    · exact mem_append_left _ hx
    · exact mem_append_right _ (mem_of_mem_erase hx)
  exact (hset.setShells hown h.unique (fun _ hx => hx)).setOrigin _

theorem Inv.step {e : SessionEvent} (hquiet : s.Quiet e) (hs : s.step e = some s') : s'.Inv := by
  cases e <;> simp only [Sessions.step] at hs
  case setOrigin session o =>
    split at hs <;> cases hs
    rename_i idx hphase
    refine (h.setPhase (fun i hi => ?_) fun i hi => ?_).setOrigin _
    · cases hi
      exact h.owner_of_phase hphase rfl
    · rcases hi with hi | hi <;> cases hi
      exact h.unqueued session idx (.inl hphase)
  case enqueue session =>
    split at hs <;> cases hs
    rename_i idx hphase
    exact h.enqueue hphase
  case input session byte =>
    split at hs <;> cases hs
    rename_i idx hphase
    exact h.setTty ((h.tags idx).masterInputPush (h.owner_of_phase hphase rfl)) (h.shutdown idx)
  case output session =>
    split at hs <;> cases hs
    rename_i idx hphase
    have hown := h.owner_of_phase hphase rfl
    obtain ⟨htags, hcells⟩ := (h.tags idx).masterOutputTry
    refine (h.setTty htags (h.shutdown idx)).setHistory (fun x hx => ?_) h.consumed h.freed
    rcases mem_append.mp hx with hx | hx
    · exact h.received x hx
    · obtain ⟨c, hc, rfl⟩ := mem_map.mp hx
      exact some.inj (hown.symm.trans (hcells c hc))
  case close session =>
    split at hs <;> cases hs
    rename_i idx hphase
    have hown := h.owner_of_phase hphase rfl
    exact (h.requestShutdown hown).setLate (.inr ⟨idx, hown, .inr rfl⟩)
  case closeRelease session =>
    split at hs <;> cases hs
    rename_i idx hphase
    have hown := h.owner_of_phase hphase rfl
    have hset : (s.setPhase session (.attached idx)).Inv := h.setLate (.inr ⟨idx, hown, .inl rfl⟩)
    refine hset.setShells ?_ h.unique (fun _ hx => hx)
    intro x hx
    simp only [mem_append, mem_singleton] at hx
    rcases hx with (hx | hx | rfl) | hx
    · exact h.shells x (mem_append_left _ (mem_append_left _ (mem_append.mpr hx)))
    · exact h.shells x (by simp [hx])
    · exact hown
    · exact h.shells x (mem_append_right _ hx)
  case hangup session =>
    split at hs <;> cases hs
    rename_i idx hphase
    have hown := h.owner_of_phase hphase rfl
    exact (h.requestShutdown hown).setLate (.inl rfl)
  case finish session =>
    split at hs <;> cases hs
    exact h.setLate (.inl rfl)
  case spawn =>
    split at hs <;> cases hs
    rename_i sh rest hq
    exact h.spawn hq
  case drop =>
    split at hs <;> cases hs
    rename_i sh rest hq
    exact h.drop hq
  case watchShutdown =>
    obtain ⟨w, hw, rfl⟩ := map_eq_some_iff.mp hs
    refine (h.requestShutdown (h.watchdog w hw)).setWatchdog fun x hx => ?_
    cases hx
  all_goals split at hs <;> cases hs
  case tryClaim => exact h.claim hquiet
  case shellRead sh len hsh =>
    have hown : s.owner sh.idx = some sh.session := h.shells sh (by simp [hsh])
    obtain ⟨htags, hcells⟩ := (h.tags sh.idx).slaveRead len
    refine (h.setTty htags (h.shutdown sh.idx)).setHistory h.received (fun x hx => ?_) h.freed
    rcases mem_append.mp hx with hx | hx
    · exact h.consumed x hx
    · obtain ⟨c, hc, rfl⟩ := mem_map.mp hx
      exact some.inj (hown.symm.trans (hcells c hc))
  case shellWrite sh bytes hsh =>
    refine h.setTty ((h.tags sh.idx).slaveWrite fun c hc => ?_) (h.shutdown sh.idx)
    obtain ⟨b, -, rfl⟩ := mem_map.mp hc
    exact h.shells sh (by simp [hsh])
  case shellSet sh t pid _ =>
    have htags := h.tags sh.idx
    exact h.setTty { htags with } (h.shutdown sh.idx)
  case exit sh hsh => exact h.exit hsh
  case releaseClaim sh hsh => exact h.releaseClaim hsh
  case releaseRest sh _ => exact h.releaseRest sh
  case watch =>
    refine h.setWatchdog fun x hx => ?_
    cases hx
    rfl

end

/-- Over every interleaving in which a pair is claimed only when nothing of the session before is left on it, sessions
are isolated from each other. -/
theorem sessions_isolated {es : List SessionEvent} (hg : Guarded step Quiet boot es)
    (he : exec step boot es = some s) : s.Isolated :=
  (exec_invariant (fun _ _ _ h hq hs => h.step hq hs) Inv.boot hg he).isolated

theorem quiet_boot (session idx : Nat) : boot.Quiet (.tryClaim session idx) :=
  ⟨by simp [boot], by simp [boot, Phase.pair], by simp [boot], rfl, rfl, rfl, SpscRing.contents_new 0⟩

theorem sessions_isolated_one : ∃ s : Sessions,
    exec step boot [.tryClaim 0 1, .setOrigin 0 .ssh, .enqueue 0, .spawn, .shellWrite ⟨1, 0⟩ [120], .output 0] =
      some s ∧ s.received = [(0, 0)] ∧ s.Isolated := by
  refine exists_end ⟨_, rfl, rfl⟩ fun s hrun => sessions_isolated ?_ hrun
  refine ⟨quiet_boot 0 1, fun _ _ => guarded_of_forall (fun e he s => ?_) _⟩
  simp only [mem_cons, not_mem_nil, or_false] at he
  rcases he with rfl | rfl | rfl | rfl | rfl <;> trivial

/-- A terminal window is closed while its shell runs, and the next one gets the same pair: two shells run on it. An SSH
session whose shell has ended hangs up, and the session that claims the pair next finds the shutdown request. -/
theorem sessions_interfere :
    (∃ s, exec step boot [.tryClaim 0 1, .setOrigin 0 .localGui, .enqueue 0, .spawn, .close 0, .closeRelease 0,
        .releaseClaim ⟨1, 0⟩, .releaseRest ⟨1, 0⟩, .tryClaim 1 1, .setOrigin 1 .localGui, .enqueue 1, .spawn] =
          some s ∧ s.shells = [⟨1, 0⟩, ⟨1, 1⟩] ∧ ¬ s.Isolated) ∧
    ∃ s, exec step boot [.tryClaim 0 1, .setOrigin 0 .ssh, .enqueue 0, .spawn, .exit ⟨1, 0⟩, .releaseClaim ⟨1, 0⟩,
        .releaseRest ⟨1, 0⟩, .hangup 0, .tryClaim 1 1] =
          some s ∧ (s.tty 1).shutdown = true ∧ s.owner 1 = some 1 ∧ s.shutdownBy 1 = some 0 ∧ ¬ s.Isolated := by
  refine ⟨⟨_, rfl, rfl, fun h => ?_⟩, ⟨_, rfl, rfl, rfl, rfl, fun h => ?_⟩⟩
  · exact absurd h.oneShell (by decide)
  · exact absurd (h.shutdown 1 rfl rfl) (by decide)

end Sessions

end Ruos.Pty
