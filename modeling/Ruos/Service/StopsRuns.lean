import Ruos.Service.Stops

/-! Starts, stops and steps of the dispatcher keep stop requests heeded, and so does every run. -/
namespace Ruos.Service

open Lib Function List Guarded Service.Units

namespace Supervisor

variable {s s' : Supervisor}

theorem Heeding.requeue (h : s.Heeding) {starting : List (String × Nat)} {q : List UnitReq} {d : Dispatcher}
    (hpend : ∀ name since, PendingAt { s with starting := starting, queue := q, dispatcher := d } name since →
      s.PendingAt name since) (hreload : .reload ∉ q ∧ d ≠ .taken .reload)
    (hinline : ∀ name, d.inline = some name → ∃ u ∈ s.units, u.name = name ∧ supervised u = false) :
    Heeding { s with starting := starting, queue := q, dispatcher := d } :=
  ⟨h.distinct, h.unique, hreload, h.known, hinline, h.stoppedKnown, h.flag,
    fun u hu hsup hst => ⟨fun t ht => (h.halted u hu hsup hst).1 t (hpend _ _ ht), (h.halted u hu hsup hst).2⟩,
    fun name since ht => h.early name since (hpend _ _ ht), h.runnersEarly, h.revived, h.prevented⟩

variable {f : UnitEntry → UnitEntry}

section

variable (h : s.Heeding)
include h

theorem Heeding.modify (name : String) (hf : ∀ u, (f u).toUnitConfig = u.toUnitConfig)
    (hflag : ∀ u ∈ s.units, u.name = name → supervised u → (f u).stopRequested = u.stopRequested) :
    Heeding { s with units := s.units.modify name f } := by
  have hfrom : ∀ v ∈ s.units.modify name f, ∃ u ∈ s.units, v.toUnitConfig = u.toUnitConfig ∧
      (supervised u → v.stopRequested = u.stopRequested) := by
    intro v hv
    rcases mem_modify h.distinct hv with ⟨hmem, -⟩ | ⟨u, hu, hname, rfl⟩
    · exact ⟨v, hmem, rfl, fun _ => rfl⟩
    · exact ⟨u, hu, hf u, hflag u hu hname⟩
  refine ⟨h.distinct.modify fun u => name_congr (hf u), h.unique, h.noReload,
    fun k r hk => known_modify name hf (h.known k r hk), fun n hd => known_modify name hf (h.inline n hd),
    fun n hst => named_modify name hf (h.stoppedKnown n hst), ?_, ?_, h.early, h.runnersEarly, h.revived, h.prevented⟩
  · intro v hv hsup hfl
    obtain ⟨u, hu, heq, hsame⟩ := hfrom v hv
    rw [supervised_congr heq] at hsup
    rw [hsame hsup] at hfl
    rw [name_congr heq]
    exact h.flag u hu hsup hfl
  · intro v hv hsup hst
    obtain ⟨u, hu, heq, hsame⟩ := hfrom v hv
    rw [supervised_congr heq] at hsup
    rw [name_congr heq] at hst ⊢
    rw [hsame hsup]
    exact h.halted u hu hsup hst

theorem Heeding.register (c : UnitConfig) : Heeding { s with units := s.units.register c } := by
  by_cases hfree : (s.units.lookup c.name).isSome
  · have hsame : s.units.register c = s.units := if_pos hfree
    rw [hsame]
    exact h
  · have hnew := Units.lookup_eq_none.mp (Option.not_isSome_iff_eq_none.mp hfree)
    have hkeep {p : UnitEntry → Prop} : (∃ u ∈ s.units, p u) → ∃ u ∈ s.units.register c, p u := by
      rintro ⟨u, hu, hp⟩
      rw [Units.register, if_neg hfree]
      exact ⟨u, mem_append_left _ hu, hp⟩
    refine ⟨h.distinct.register c, h.unique, h.noReload, fun k r hk => hkeep (h.known k r hk),
      fun n hd => hkeep (h.inline n hd), fun n hst => hkeep (h.stoppedKnown n hst), ?_, ?_, h.early, h.runnersEarly,
      h.revived, h.prevented⟩
    · intro u hu hsup hfl
      rcases Units.mem_register hu with hu | rfl
      · exact h.flag u hu hsup hfl
      · cases hfl
    · intro u hu hsup hst
      rcases Units.mem_register hu with hu | rfl
      · exact h.halted u hu hsup hst
      · obtain ⟨u, hu, hname⟩ := h.stoppedKnown c.name hst
        exact absurd hname (hnew u hu)

theorem Heeding.start (name : String) : Heeding { s with
      starting := s.starting ++ [(name, s.clock)]
      clock := s.clock + 1, stopped := update s.stopped name false } := by
  have hpend : ∀ {n t}, PendingAt { s with
      starting := s.starting ++ [(name, s.clock)], clock := s.clock + 1,
      stopped := update s.stopped name false } n t → s.PendingAt n t ∨ n = name ∧ t = s.clock := by
    rintro n t (ht | ht | ht)
    · rcases mem_append.mp ht with ht | ht
      · exact .inl (.inl ht)
      · exact .inr (by simpa using ht)
    · exact .inl (.inr (.inl ht))
    · exact .inl (.inr (.inr ht))
  have hstopped : ∀ {n}, update s.stopped name false n = true → n ≠ name ∧ s.stopped n = true := by
    intro n hn
    by_cases heq : n = name
    · subst heq
      simp at hn
    · exact ⟨heq, by simpa [heq] using hn⟩
  refine ⟨h.distinct, h.unique, h.noReload, h.known, h.inline, fun n hn => h.stoppedKnown n (hstopped hn).2, h.flag,
    ?_, ?_, fun k r hk => Nat.lt_succ_of_lt (h.runnersEarly k r hk), h.revived, h.prevented⟩
  · intro u hu hsup hst
    obtain ⟨hne, hst⟩ := hstopped hst
    obtain ⟨hp, hrun⟩ := h.halted u hu hsup hst
    refine ⟨fun t ht => ?_, hrun⟩
    rcases hpend ht with ht | ⟨heq, -⟩
    · exact hp t ht
    · exact hne heq
  · intro n t ht
    rcases hpend ht with ht | ⟨-, rfl⟩
    · exact Nat.lt_succ_of_lt (h.early n t ht)
    · exact Nat.lt_succ_self _

theorem Heeding.stop {name : String} {units : Units} (htimely : s.Timely (.stop name))
    (hstop : s.units.stop name = .ok units) : Heeding { s with
      units := units, clock := s.clock + 1
      stopped := update s.stopped name true, stopTime := update s.stopTime name s.clock } := by
  obtain ⟨u₀, hlook, hpath, rfl⟩ := stop_eq_ok hstop
  obtain ⟨hu₀, hname₀⟩ := lookup_eq_some hlook
  have hsame : ∀ u ∈ s.units, u.name = name → u₀ = u :=
    fun u hu hname => inj_on_of_nodup_map h.distinct hu₀ hu (hname₀.trans hname.symm)
  have hf : ∀ u : UnitEntry, ({ u with stopRequested := true } : UnitEntry).toUnitConfig = u.toUnitConfig :=
    fun _ => rfl
  have hstopped : ∀ {n}, n ≠ name → update s.stopped name true n = s.stopped n :=
    fun hn => update_of_ne hn _ _
  have htime : ∀ {n}, n ≠ name → update s.stopTime name s.clock n = s.stopTime n :=
    fun hn => update_of_ne hn _ _
  refine ⟨h.distinct.modify fun u => rfl, h.unique, h.noReload, fun k r hk => known_modify name hf (h.known k r hk),
    fun n hd => known_modify name hf (h.inline n hd), fun n hst => named_modify name hf ?_, ?_, ?_,
    fun n t ht => Nat.lt_succ_of_lt (h.early n t ht), fun k r hk => Nat.lt_succ_of_lt (h.runnersEarly k r hk),
    h.revived, h.prevented⟩
  · by_cases heq : n = name
    · exact ⟨u₀, hu₀, hname₀.trans heq.symm⟩
    · exact h.stoppedKnown n ((hstopped heq).symm.trans hst)
  · intro v hv hsup hfl
    rcases mem_modify h.distinct hv with ⟨hmem, hne⟩ | ⟨u, hu, hname, rfl⟩
    · obtain ⟨k, r, hk, hr, hl, ht⟩ := h.flag v hmem hsup hfl
      exact ⟨k, r, hk, hr, hl, Nat.le_trans ht (Nat.le_of_eq (htime hne).symm)⟩
    · obtain ⟨⟨k, r, hk, hr, policy, path, pid, hphase⟩, -⟩ := htimely u hu hname hsup (hsame u hu hname ▸ hpath)
      refine ⟨k, r, hk, hr.trans hname.symm, by rw [hphase]; rfl, ?_⟩
      have hearly := h.runnersEarly k r hk
      change r.since ≤ update s.stopTime name s.clock u.name
      rw [hname, update_self]
      omega
  · intro v hv hsup hst
    rcases mem_modify h.distinct hv with ⟨hmem, hne⟩ | ⟨u, hu, hname, rfl⟩
    · exact h.halted v hmem hsup ((hstopped hne).symm.trans hst)
    · obtain ⟨⟨k, r, hk, hr, policy, path, pid, hphase⟩, hpend⟩ := htimely u hu hname hsup (hsame u hu hname ▸ hpath)
      refine ⟨fun t ht => hpend t (by rw [← hname]; exact ht), fun k' r' hk' hr' => .inl ⟨?_, rfl⟩⟩
      obtain rfl := h.unique k k' r r' hk hk' (hr.trans (hname.symm.trans hr'.symm))
      rw [hk] at hk'
      cases hk'
      rw [hphase]
      rfl

theorem Heeding.spawn {k : Nat} {name : String} {since : Nat} {u : UnitEntry} (hfree : s.runners k = none)
    (hsingle : ∀ k' r', s.runners k' = some r' → r'.name ≠ name) (hlook : s.units.lookup name = some u)
    (hsup : supervised u) (hpend : s.PendingAt name since) :
    (s.setRunner k (some ⟨name, .starting, since⟩)).Heeding := by
  obtain ⟨hu, hname⟩ := lookup_eq_some hlook
  refine ⟨h.distinct, unique_setRunner h.unique hsingle, h.noReload, ?_, h.inline, h.stoppedKnown, ?_, ?_, h.early, ?_,
    h.revived, h.prevented⟩
  · intro k' r' hr'
    rcases runners_setRunner hr' with ⟨-, ⟨⟩⟩ | ⟨-, hold⟩
    · exact ⟨u, hu, hname, hsup⟩
    · exact h.known k' r' hold
  · intro v hv hsv hfl
    obtain ⟨k', r', hk', hr', hl, ht⟩ := h.flag v hv hsv hfl
    exact ⟨k', r', runners_setRunner_other hfree (by simp) hk' _, hr', hl, ht⟩
  · intro v hv hsv hst
    obtain ⟨hp, hrun⟩ := h.halted v hv hsv hst
    refine ⟨hp, fun k' r' hr' hn => ?_⟩
    rcases runners_setRunner hr' with ⟨-, ⟨⟩⟩ | ⟨-, hold⟩
    · have hn' : name = v.name := hn
      exact absurd (hn' ▸ hpend) (hp since)
    · exact hrun k' r' hold hn
  · intro k' r' hr'
    rcases runners_setRunner hr' with ⟨-, ⟨⟩⟩ | ⟨-, hold⟩
    · exact h.early name since hpend
    · exact h.runnersEarly k' r' hold

theorem Heeding.redirect {d : Dispatcher} (hd : ∀ req, d ≠ .taken req)
    (hinline : ∀ name, d.inline = some name → ∃ u ∈ s.units, u.name = name ∧ supervised u = false) :
    Heeding { s with dispatcher := d } := by
  refine h.requeue ?_ ⟨h.noReload.1, hd _⟩ hinline
  rintro n t (ht | ht | ht)
  · exact .inl ht
  · exact .inr (.inl ht)
  · exact absurd ht (hd _)

theorem Heeding.dispatch (hsingle : s.Single .dispatch) (hs : s.step .dispatch = some s') : s'.Heeding := by
  simp only [Supervisor.step] at hs
  split at hs
  · rename_i name since hreq
    split at hs
    · cases hs
      exact h.redirect (fun _ hd => by cases hd) fun _ hd => by cases hd
    · rename_i u hlook
      split at hs
      · rename_i hsup
        split at hs
        · cases hs
          exact h.redirect (fun _ hd => by cases hd) fun _ hd => by cases hd
        · rename_i k hslot
          cases hs
          have hk : s.runners k = none := by simpa using find?_some hslot
          have hspawn := h.spawn hk (hsingle name since hreq) hlook hsup (.inr (.inr hreq))
          exact hspawn.redirect (fun _ hd => by cases hd) fun _ hd => by cases hd
      · rename_i hsup
        cases hs
        obtain ⟨hu, hname⟩ := lookup_eq_some hlook
        refine h.redirect (fun _ hd => by cases hd) fun n hd => ?_
        cases hd
        exact ⟨u, hu, hname, Bool.eq_false_iff.mpr hsup⟩
  · cases hs
    exact h.redirect (fun _ hd => by cases hd) fun _ hd => by cases hd
  · rename_i hreq
    exact absurd hreq h.noReload.2
  · cases hs

/-- The dispatcher goes on, with an entry changed in a way that touches no stop flag of a supervised unit. -/
theorem Heeding.serve {d : Dispatcher} (name : String) (hf : ∀ u, (f u).toUnitConfig = u.toUnitConfig)
    (hflag : ∀ u ∈ s.units, u.name = name → supervised u → (f u).stopRequested = u.stopRequested)
    (hd : ∀ req, d ≠ .taken req) (hinl : ∀ n, d.inline = some n → s.dispatcher.inline = some n) :
    Heeding { s with units := s.units.modify name f, dispatcher := d } := by
  have hmod := h.modify name hf hflag
  exact hmod.redirect hd fun n hn => hmod.inline n (hinl n hn)

theorem Heeding.step {e : ServiceEvent} (hno : s.NoReload e) (htimely : s.Timely e) (hs : s.step e = some s') :
    s'.Heeding := by
  cases e <;> simp only [Supervisor.step] at hs
  case register c =>
    cases hs
    exact h.register c
  case start name =>
    split at hs <;> cases hs
    · exact h
    · exact h.start name
  case push x =>
    split at hs <;> cases hs
    rename_i hx
    refine h.requeue ?_ ⟨?_, h.noReload.2⟩ h.inline
    · rintro n t (ht | ht | ht)
      · exact .inl (mem_of_mem_erase ht)
      · rcases mem_append.mp ht with ht | ht
        · exact .inr (.inl ht)
        · obtain ⟨rfl, rfl⟩ : n = x.1 ∧ t = x.2 := by simpa using ht
          exact .inl hx
      · exact .inr (.inr ht)
    · intro hmem
      rcases mem_append.mp hmem with hmem | hmem
      · exact h.noReload.1 hmem
      · simp at hmem
  case stop name =>
    split at hs <;> cases hs
    · exact h
    · rename_i units hstop
      exact h.stop htimely hstop
  case request req =>
    cases req with
    | start name since => cases hs
    | reload => exact absurd hno id
    | persist name =>
      cases hs
      refine h.requeue ?_ ⟨?_, h.noReload.2⟩ h.inline
      · rintro n t (ht | ht | ht)
        · exact .inl ht
        · exact .inr (.inl (by simpa using ht))
        · exact .inr (.inr ht)
      · intro hmem
        exact h.noReload.1 (by simpa using hmem)
  case take =>
    split at hs <;> cases hs
    rename_i req rest hidle hq
    have hrel := h.noReload.1
    rw [hq] at hrel
    refine h.requeue ?_ ⟨fun hm => hrel (mem_cons_of_mem _ hm), fun hd => ?_⟩ fun _ hd => by cases hd
    · rintro n t (ht | ht | ht)
      · exact .inl ht
      · exact .inr (.inl (by rw [hq]; exact mem_cons_of_mem _ ht))
      · cases ht
        exact .inr (.inl (by rw [hq]; exact mem_cons_self))
    · cases hd
      exact hrel mem_cons_self
  case dispatch => exact h.dispatch htimely hs
  case markNoSlot | inlineFails =>
    split at hs <;> cases hs
    exact h.serve _ (fun _ => rfl) (fun _ _ _ _ => rfl) (fun _ hd => by cases hd) fun _ hd => by cases hd
  case inlineRegister =>
    split at hs <;> cases hs
    rename_i name hd
    have hturn := h.redirect (d := .registered name s.nextPid) (fun _ hd => by cases hd) fun n hn =>
      h.inline n (by rw [hd]; exact hn)
    exact hturn.setNextPid _
  case inlineMark =>
    split at hs <;> cases hs
    rename_i name pid hd
    exact h.serve _ (fun _ => rfl) (fun _ _ _ _ => rfl) (fun _ hd => by cases hd) fun n hn => by rw [hd]; exact hn
  case inlineExits code =>
    split at hs <;> cases hs
    rename_i name pid hd
    exact h.redirect (fun _ hd => by cases hd) fun n hn => h.inline n (by rw [hd]; exact hn)
  case inlineDone =>
    split at hs <;> cases hs
    rename_i name pid code hd
    obtain ⟨u₀, hu₀, hname₀, hsup₀⟩ := h.inline name (by rw [hd]; rfl)
    refine h.serve _ (fun _ => rfl) (fun u hu hname hsup => ?_) (fun _ hd => by cases hd) fun _ hd => by cases hd
    -- A unit that the dispatcher executes itself is not supervised.
    have hsame : u = u₀ := inj_on_of_nodup_map h.distinct hu hu₀ (hname.trans hname₀.symm)
    rw [hsame, hsup₀] at hsup
    cases hsup
  case reloadDone =>
    split at hs <;> cases hs
    exact h.redirect (fun _ hd => by cases hd) fun _ hd => by cases hd
  case runner k e =>
    split at hs
    · cases hs
    · rename_i r hk
      exact h.stepRunner hk htimely hs

end

/-- Over every interleaving of starts, stops and steps of the dispatcher and the runners in which the stops are timely,
stops are heeded until the next start, and no longer. -/
theorem stops_heeded {es : List ServiceEvent} (hg : Guarded step (fun s e => s.NoReload e ∧ s.Timely e) boot es)
    (he : exec step boot es = some s) : s.StopsHeeded := by
  have h := exec_invariant (fun _ _ _ h hg hs => h.step hg.1 hg.2 hs) Heeding.boot hg he
  exact ⟨h.revived, h.prevented⟩

/-- A daemon is started, stopped while it runs, and exits for good. -/
theorem stops_heeded_daemon : ∃ s : Supervisor,
    exec step boot [.register sampleDaemon, .start "d", .push ("d", 0), .take, .dispatch, .runner 0 .info,
      .runner 0 .readDone, .runner 0 .markRunning, .stop "d", .runner 0 (.childExits 1), .runner 0 .takeStop,
      .runner 0 .markExited] = some s ∧ s.runners 0 = none ∧ s.StopsHeeded := by
  refine exists_end ⟨_, rfl, rfl⟩ fun s hrun => stops_heeded ?_ hrun
  have hok : True ∧ True := ⟨trivial, trivial⟩
  refine cons hok rfl (cons hok rfl (cons hok rfl (cons hok rfl (cons ?_ rfl
    (cons hok rfl (cons hok rfl (cons hok rfl (cons ?_ rfl (cons hok rfl
    (cons hok rfl (cons hok rfl trivial)))))))))))
  · refine ⟨trivial, fun name since _ k r hr => ?_⟩
    cases hr
  · refine ⟨trivial, fun u _ _ _ _ => ⟨⟨0, _, rfl, rfl, _, _, _, rfl⟩, ?_⟩⟩
    rintro since (h | h | h) <;> cases h

/-- A daemon that is stopped while it waits to be restarted runs again; and one that is stopped when idle, started and
fails is not restarted. -/
theorem stops_missed :
    (∃ s : Supervisor, exec step boot [.register sampleDaemon, .start "d", .push ("d", 0), .take, .dispatch,
      .runner 0 .info, .runner 0 .readDone, .runner 0 .markRunning, .runner 0 (.childExits 1), .runner 0 .takeStop,
      .runner 0 .markRestarting, .stop "d", .runner 0 .wake, .runner 0 .info, .runner 0 .readDone,
      .runner 0 .markRunning] = some s ∧ s.revived = ["d"] ∧ ¬ s.StopsHeeded) ∧
    ∃ s : Supervisor, exec step boot [.register sampleDaemon, .stop "d", .start "d", .push ("d", 1), .take, .dispatch,
      .runner 0 .info, .runner 0 .readDone, .runner 0 .markRunning, .runner 0 (.childExits 1), .runner 0 .takeStop] =
      some s ∧ s.prevented = ["d"] ∧ ¬ s.StopsHeeded := by
  refine ⟨⟨_, rfl, rfl, fun h => ?_⟩, ⟨_, rfl, rfl, fun h => ?_⟩⟩
  · exact absurd h.revived (by decide)
  · exact absurd h.prevented (by decide)

end Supervisor

end Ruos.Service
