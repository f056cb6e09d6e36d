import Ruos.Wifi.Handshake

/-! Both sides end with the same keys, in whatever order frames are sent, heard and polled for. -/
namespace Ruos.Wifi

open Lib List Option Stage World

variable {c : Crypto} {net : Network}

def Network.result (net : Network) (ptk : Ptk) : Option (Ptk × UInt8 × List UInt8) :=
  some (ptk, UInt8.ofNat net.keyId.val, net.gtk.1)

/-- How far the two sides have come, with what is on its way to the access point. -/
inductive Sync (c : Crypto) (net : Network) : Stage → Authenticator → List (List UInt8) → Prop
  | start {ap : Authenticator} (deadline : Nat) (hphase : ap.phase = .awaitM2) : Sync c net (.awaitM1 deadline) ap []
  | answered {ap : Authenticator} (deadline : Nat) (snonce : Octets 32) (m1 : KeyFrame) (seq : Nat)
      (hphase : ap.phase = .awaitM2) (hreplay : m1.replayCounter ∈ ap.sent1) :
      Sync c net (.awaitM3 deadline (net.ptk c snonce)) ap
        [buildEapolData net.spa net.aa (message2 c (net.ptk c snonce) m1 snonce) seq]
  | derived {ap : Authenticator} {ptk : Ptk} (deadline : Nat) (hphase : ap.phase = .awaitM4 ptk) :
      Sync c net (.awaitM3 deadline ptk) ap []
  | confirmed {ap : Authenticator} {ptk : Ptk} (m3 : KeyFrame) (seq : Nat) (hphase : ap.phase = .awaitM4 ptk)
      (hreplay : m3.replayCounter ∈ ap.sent3) :
      Sync c net (.returned (net.result ptk)) ap [buildEapolData net.spa net.aa (message4 c ptk m3) seq]
  | complete {ap : Authenticator} {ptk : Ptk} (hphase : ap.phase = .complete ptk) :
      Sync c net (.returned (net.result ptk)) ap []

/-- The frame is a message 1 or 3 that the access point has sent. -/
def OfAp (c : Crypto) (net : Network) (ap : Authenticator) (frame : List UInt8) : Prop :=
  (∃ t : Transmission, t.replay ∈ ap.sent1 ∧ frame = net.frame t (net.message1 t) ++ t.trailer) ∨
    ∃ (ptk : Ptk) (t : Transmission), (ap.phase = .awaitM4 ptk ∨ ap.phase = .complete ptk) ∧ t.replay ∈ ap.sent3 ∧
      (net.frame t (net.message3 c ptk t)).length ≤ 600 ∧ frame = net.frame t (net.message3 c ptk t) ++ t.trailer

def Stage.Owed (ap : Authenticator) : Stage → Prop
  | .awaitM1 _ => ap.sent1 ≠ []
  | .awaitM3 _ _ => ap.sent3 ≠ []
  | .returned _ => False

structure Inv (c : Crypto) (net : Network) (w : World) : Prop where
  sync : Sync c net w.sta.stage w.ap w.up
  air : ∀ frame, .fromAp frame ∈ w.down → OfAp c net w.ap frame
  unsent : w.ap.phase = .awaitM2 → w.ap.sent3 = []
  mic : w.ap.badMic = false
  pending : w.sta.stage.Owed w.ap → ∃ frame, .fromAp frame ∈ w.down ∧ w.sta.stage.takes frame = true

variable {up : List (List UInt8)}

theorem Sync.mono {stage : Stage} {ap ap' : Authenticator} (h : Sync c net stage ap up)
    (hphase : ap'.phase = ap.phase) (h₁ : ∀ r ∈ ap.sent1, r ∈ ap'.sent1) (h₃ : ∀ r ∈ ap.sent3, r ∈ ap'.sent3) :
    Sync c net stage ap' up := by
  cases h with
  | start deadline h => exact .start deadline (hphase.trans h)
  | answered deadline snonce m1 seq h hr => exact .answered deadline snonce m1 seq (hphase.trans h) (h₁ _ hr)
  | derived deadline h => exact .derived deadline (hphase.trans h)
  | confirmed m3 seq h hr => exact .confirmed m3 seq (hphase.trans h) (h₃ _ hr)
  | complete h => exact .complete (hphase.trans h)

theorem Sync.awaitM1 {deadline : Nat} {ap : Authenticator} (h : Sync c net (.awaitM1 deadline) ap up) :
    ap.phase = .awaitM2 ∧ up = [] := by
  cases h with
  | start _ hphase => exact ⟨hphase, rfl⟩

theorem Sync.awaitM3 {deadline : Nat} {ptk : Ptk} {ap : Authenticator}
    (h : Sync c net (.awaitM3 deadline ptk) ap up) (hp : ap.phase ≠ .awaitM2) :
    ap.phase = .awaitM4 ptk ∧ up = [] := by
  cases h with
  | answered _ _ _ _ hphase => exact absurd hphase hp
  | derived _ hphase => exact ⟨hphase, rfl⟩

variable {frame : List UInt8}

theorem OfAp.mono {ap ap' : Authenticator} (h : OfAp c net ap frame) (hphase : ap'.phase = ap.phase)
    (h₁ : ∀ r ∈ ap.sent1, r ∈ ap'.sent1) (h₃ : ∀ r ∈ ap.sent3, r ∈ ap'.sent3) : OfAp c net ap' frame := by
  rcases h with ⟨t, hr, hf⟩ | ⟨ptk, t, hp, hr, hfits, hf⟩
  · exact .inl ⟨t, h₁ _ hr, hf⟩
  · exact .inr ⟨ptk, t, hphase ▸ hp, h₃ _ hr, hfits, hf⟩

namespace Inv

variable {w w' : World}

theorem init (start txSeq : Nat) : Inv c net (.init start txSeq) where
  sync := .start _ rfl
  air := fun _ h => nomatch h
  unsent := fun _ => rfl
  mic := rfl
  pending := fun h => absurd rfl h

theorem transmit (h : Inv c net w) {t : Transmission} (hfits : w.ap.phase.Fits c net t)
    (hstep : w.step c net (.transmit t) = some w') : Inv c net w' := by
  obtain ⟨r, hr, rfl⟩ := map_eq_some_iff.mp hstep
  unfold Authenticator.transmit at hr
  cases hphase : w.ap.phase with
  | awaitM2 =>
    rw [hphase] at hr
    cases hr
    have hmore : ∀ r ∈ w.ap.sent1, r ∈ t.replay :: w.ap.sent1 := fun r hr => mem_cons_of_mem _ hr
    refine ⟨h.sync.mono hphase.symm hmore fun _ hr => hr, fun frame hf => ?_, fun _ => h.unsent hphase, h.mic,
      fun howed => ?_⟩
    · rcases mem_append.mp hf with hf | hf
      · exact (h.air frame hf).mono hphase.symm hmore fun _ hr => hr
      · obtain rfl := Air.fromAp.inj (mem_singleton.mp hf)
        exact .inl ⟨t, mem_cons_self, rfl⟩
    · obtain ⟨m1, hm1, -⟩ := @recvM1_message1 net t
      cases hstage : w.sta.stage with
      | awaitM1 deadline =>
        simp [takes, hm1]
      | awaitM3 deadline ptk =>
        simp only [hstage, Stage.Owed] at howed
        exact absurd (h.unsent hphase) howed
      | returned r =>
        simp only [hstage, Stage.Owed] at howed
  | awaitM4 ptk =>
    rw [hphase] at hr hfits
    cases hr
    have hmore : ∀ r ∈ w.ap.sent3, r ∈ t.replay :: w.ap.sent3 := fun r hr => mem_cons_of_mem _ hr
    refine ⟨h.sync.mono hphase.symm (fun _ hr => hr) hmore, fun frame hf => ?_, (by rintro ⟨⟩), h.mic,
      fun howed => ?_⟩
    · rcases mem_append.mp hf with hf | hf
      · exact (h.air frame hf).mono hphase.symm (fun _ hr => hr) hmore
      · obtain rfl := Air.fromAp.inj (mem_singleton.mp hf)
        exact .inr ⟨ptk, t, .inl rfl, mem_cons_self, hfits, rfl⟩
    · have hm3 := recvM3_message3 ptk t hfits
      have hsync := h.sync
      cases hstage : w.sta.stage with
      | awaitM1 deadline =>
        rw [hstage] at hsync
        exact absurd (hphase.symm.trans hsync.awaitM1.1) (by simp)
      | awaitM3 deadline ptk =>
        simp [takes, hm3]
      | returned r =>
        simp only [hstage, Stage.Owed] at howed
  | complete ptk =>
    rw [hphase] at hr
    cases hr

theorem other (h : Inv c net w) (frame : List UInt8) : Inv c net { w with down := w.down ++ [.other frame] } := by
  refine { h with air := fun f hf => ?_, pending := fun howed => ?_ }
  · rcases mem_append.mp hf with hf | hf
    · exact h.air f hf
    · cases mem_singleton.mp hf
  · obtain ⟨f, hf, htakes⟩ := h.pending howed
    exact ⟨f, mem_append_left _ hf, htakes⟩

theorem hear (h : Inv c net w) (hup : w.up = frame :: up) :
    Inv c net { w with ap := w.ap.hear c net frame, up := up } := by
  have hsync := h.sync
  rw [hup] at hsync
  generalize hstage : w.sta.stage = stage at hsync
  cases hsync with
  | answered deadline snonce m1 seq hphase hreplay =>
    rw [hear_message2 snonce hphase hreplay]
    refine ⟨hstage ▸ .derived deadline rfl, fun f hf => ?_, (by rintro ⟨⟩), h.mic, fun howed => ?_⟩
    · rcases h.air f hf with hm1 | ⟨ptk, t, hp | hp, -⟩
      · exact .inl hm1
      · exact absurd (hphase.symm.trans hp) (by simp)
      · exact absurd (hphase.symm.trans hp) (by simp)
    · simp only [hstage, Stage.Owed] at howed
      exact absurd (h.unsent hphase) howed
  | confirmed m3 seq hphase hreplay =>
    rw [hear_message4 hphase hreplay]
    refine ⟨hstage ▸ .complete rfl, fun f hf => ?_, (by rintro ⟨⟩), h.mic, fun howed => ?_⟩
    · rcases h.air f hf with hm1 | ⟨ptk, t, hp | hp, hrest⟩
      · exact .inl hm1
      · obtain rfl := Phase.awaitM4.inj (hphase.symm.trans hp)
        exact .inr ⟨_, t, .inr rfl, hrest⟩
      · exact absurd (hphase.symm.trans hp) (by simp)
    · simp only [hstage, Stage.Owed] at howed

theorem poll_of_not_taken {d : Driver} {st : Station} {now after : Nat} {snonce : Octets 32}
    {frame : Option (List UInt8)} (hin : d.stage.InTime now) (hframe : ∀ f ∈ frame, d.stage.takes f = false) :
    d.poll c st now after snonce frame = (d, []) := by
  have hnone : ∀ {β : Type} {recv : List UInt8 → Option β}, (∀ f ∈ frame, (recv f).isSome = false) →
      frame.bind recv = none := by
    intro β recv h
    cases frame with
    | none => rfl
    | some f => simpa using h f rfl
  unfold Driver.poll
  cases hstage : d.stage with
  | awaitM1 deadline =>
    rw [hstage] at hin hframe
    simp only [if_pos (show now < deadline from hin), hnone hframe]
  | awaitM3 deadline ptk =>
    rw [hstage] at hin hframe
    simp only [if_pos (show now < deadline from hin), hnone hframe]
  | returned r => rfl

variable {down : List Air}

theorem skip (h : Inv c net w) {x : Air} (hdown : w.down = x :: down) (hskip : w.sta.stage.takes x.frame = false) :
    Inv c net { w with down := down } := by
  refine { h with air := fun f hf => h.air f (hdown ▸ mem_cons_of_mem x hf), pending := fun howed => ?_ }
  obtain ⟨f, hf, htakes⟩ := h.pending howed
  rw [hdown] at hf
  rcases mem_cons.mp hf with rfl | hf
  · exact absurd (hskip.symm.trans htakes) (by decide)
  · exact ⟨f, hf, htakes⟩

theorem takeM1 (h : Inv c net w) (hdown : w.down = .fromAp frame :: down) {deadline now : Nat}
    (hstage : w.sta.stage = .awaitM1 deadline) (hin : now < deadline) (after : Nat) (snonce : Octets 32) :
    let r := w.sta.poll c net.station now after snonce (some frame)
    Inv c net { w with sta := r.1, up := w.up ++ r.2, down := down } := by
  have hsync := h.sync
  rw [hstage] at hsync
  obtain ⟨hphase, hup⟩ := hsync.awaitM1
  have hframe : ∃ m1, recvM1 frame = some m1 ∧ m1.replayCounter ∈ w.ap.sent1 ∧ m1.nonce = net.anonce := by
    rcases h.air frame (hdown ▸ mem_cons_self) with ⟨t, hr, rfl⟩ | ⟨ptk, t, hp | hp, -⟩
    · obtain ⟨m1, hm1, hreplay, hnonce⟩ := @recvM1_message1 net t
      exact ⟨m1, hm1, hreplay ▸ hr, hnonce⟩
    · exact absurd (hphase.symm.trans hp) (by simp)
    · exact absurd (hphase.symm.trans hp) (by simp)
  obtain ⟨m1, hm1, hreplay, hnonce⟩ := hframe
  have hptk : derivePtk c net.station.pmk net.station.bssid net.station.mac m1.nonce snonce = net.ptk c snonce := by
    rw [hnonce]
    exact derivePtk_eq snonce
  have hpoll : w.sta.poll c net.station now after snonce (some frame) =
      w.sta.send net.station (.awaitM3 (after + 3000) (net.ptk c snonce))
        (message2 c (net.ptk c snonce) m1 snonce) := by
    simp [Driver.poll, hstage, if_pos hin, hm1, hptk]
  simp only [hpoll, hup]
  refine ⟨.answered _ snonce m1 _ hphase hreplay, fun f hf => h.air f (hdown ▸ mem_cons_of_mem _ hf), h.unsent,
    h.mic, fun howed => absurd (h.unsent hphase) howed⟩

section

variable (hid : ∀ e ∈ net.before, e.id ≠ 0)
include hid

theorem takeM3 (h : Inv c net w) (hdown : w.down = .fromAp frame :: down) {deadline now : Nat} {ptk : Ptk}
    (hstage : w.sta.stage = .awaitM3 deadline ptk) (hin : now < deadline) (htakes : w.sta.stage.takes frame = true)
    (after : Nat) (snonce : Octets 32) : let r := w.sta.poll c net.station now after snonce (some frame)
    Inv c net { w with sta := r.1, up := w.up ++ r.2, down := down } := by
  have hsync := h.sync
  rw [hstage] at hsync htakes
  obtain ⟨t, hp, hup, hr, hfits, rfl⟩ : ∃ t : Transmission, w.ap.phase = .awaitM4 ptk ∧ w.up = [] ∧ t.replay ∈ w.ap.sent3 ∧
      (net.frame t (net.message3 c ptk t)).length ≤ 600 ∧
      frame = net.frame t (net.message3 c ptk t) ++ t.trailer := by
    rcases h.air frame (hdown ▸ mem_cons_self) with ⟨t, -, rfl⟩ | ⟨ptk', t, hp, hr, hfits, hf⟩
    · simp [takes, recvM3_message1] at htakes
    · have hne : w.ap.phase ≠ .awaitM2 := by rcases hp with hp | hp <;> simp [hp]
      obtain ⟨hphase, hup⟩ := hsync.awaitM3 hne
      rcases hp with hp | hp
      · obtain rfl := Phase.awaitM4.inj (hphase.symm.trans hp)
        exact ⟨t, hphase, hup, hr, hfits, hf⟩
      · exact absurd (hphase.symm.trans hp) (by simp)
  have hpoll : w.sta.poll c net.station now after snonce (some (net.frame t (net.message3 c ptk t) ++ t.trailer)) =
      w.sta.send net.station (.returned (net.result ptk)) (message4 c ptk ⟨0x13CA, t.replay, net.anonce,
        (net.message3 c ptk t).mic, net.wrapped c ptk.kek, (net.message3 c ptk t).encode⟩) := by
    simp only [Driver.poll, hstage, if_pos hin, bind_some, recvM3_message3 ptk t hfits, openM3_message3 hid ptk t]
    rfl
  simp only [hpoll, hup]
  exact ⟨.confirmed _ _ hp hr, fun f hf => h.air f (hdown ▸ mem_cons_of_mem _ hf), h.unsent, h.mic,
    fun howed => howed.elim⟩

theorem poll (h : Inv c net w) {x : Air} (hdown : w.down = x :: down) {now : Nat} (after : Nat) (snonce : Octets 32)
    (hfair : w.Fair c net (.poll now after snonce)) :
    let r := w.sta.poll c net.station now after snonce (some x.frame)
    Inv c net { w with sta := r.1, up := w.up ++ r.2, down := down } := by
  obtain ⟨hin, hother⟩ := hfair
  cases htakes : w.sta.stage.takes x.frame with
  | false =>
    have hpoll := @poll_of_not_taken c w.sta net.station now after snonce (some x.frame) hin fun f hf =>
      some.inj hf ▸ htakes
    simp only [hpoll, append_nil]
    exact h.skip hdown htakes
  | true =>
    cases x with
    | other f =>
      have := hother (.other f) (by rw [hdown]; rfl) rfl
      exact absurd (this.symm.trans htakes) (by decide)
    | fromAp f =>
      cases hstage : w.sta.stage with
      | awaitM1 deadline =>
        rw [hstage] at hin
        exact h.takeM1 hdown hstage hin after snonce
      | awaitM3 deadline ptk =>
        rw [hstage] at hin
        exact h.takeM3 hid hdown hstage hin htakes after snonce
      | returned r =>
        rw [hstage] at htakes
        cases htakes

theorem step (h : Inv c net w) {e : Event} (hfair : w.Fair c net e) (hstep : w.step c net e = some w') :
    Inv c net w' := by
  cases e with
  | transmit t => exact h.transmit hfair hstep
  | other frame =>
    cases hstep
    exact h.other frame
  | hear =>
    cases hup : w.up with
    | nil => simp [World.step, hup] at hstep
    | cons frame up =>
      simp only [World.step, hup] at hstep
      cases hstep
      exact h.hear hup
  | poll now after snonce =>
    cases hdown : w.down with
    | nil => simp [World.step, hdown] at hstep
    | cons x down =>
      simp only [World.step, hdown] at hstep
      cases hstep
      exact h.poll hid hdown after snonce hfair
  | idle now =>
    cases hstep
    have hpoll := @poll_of_not_taken c w.sta net.station now now (.zero 32) none hfair fun f hf => nomatch hf
    simp only [hpoll, append_nil]
    exact h

end

end Inv

def Authenticator.HasSent (ap : Authenticator) : Prop :=
  match ap.phase with
  | .awaitM2 => ap.sent1 ≠ []
  | .awaitM4 _ => ap.sent3 ≠ []
  | .complete _ => True

/-- No integrity check of the access point fails; the station returns nothing but the keys of the access point; and once
all that was sent has arrived, the handshake is complete. -/
theorem handshake_agrees (c : Crypto) (net : Network) (start txSeq : Nat) (hid : ∀ e ∈ net.before, e.id ≠ 0)
    {es : List Event} {w : World} (hfair : Guarded (World.step c net) (World.Fair c net) (.init start txSeq) es)
    (hrun : exec (World.step c net) (.init start txSeq) es = some w) : w.ap.badMic = false ∧
      (∀ r, w.sta.stage = .returned r → ∃ ptk, r = net.result ptk ∧
        (w.ap.phase = .awaitM4 ptk ∨ w.ap.phase = .complete ptk)) ∧ (w.up = [] → w.down = [] → w.ap.HasSent →
        ∃ ptk, w.sta.stage = .returned (net.result ptk) ∧ w.ap.phase = .complete ptk) := by
  have hinv : Inv c net w := exec_invariant (fun _ _ _ h hg hs => h.step hid hg hs) (.init start txSeq) hfair hrun
  have hsync := hinv.sync
  have hpending := hinv.pending
  generalize hstage : w.sta.stage = stage at hsync hpending
  generalize hup : w.up = up at hsync
  refine ⟨hinv.mic, fun r hr => ?_, fun hempty hdown hsent => ?_⟩
  · subst hr
    generalize hres : returned r = stage at hsync
    cases hsync with
    | start | answered | derived => cases hres
    | confirmed m3 seq hphase _ => exact ⟨_, returned.inj hres, .inl hphase⟩
    | complete hphase => exact ⟨_, returned.inj hres, .inr hphase⟩
  · have hnone : ¬ stage.Owed w.ap := by
      intro howed
      obtain ⟨f, hf, -⟩ := hpending howed
      rw [hdown] at hf
      cases hf
    cases hsync with
    | start deadline hphase | derived deadline hphase =>
      simp only [Authenticator.HasSent, hphase] at hsent
      exact absurd hsent hnone
    | answered | confirmed => cases hempty
    | complete hphase => exact ⟨_, rfl, hphase⟩

/-- Sums instead of HMAC-SHA1, and a cipher that does nothing. -/
def sumCrypto : Crypto where
  hmacSha1 := fun key m => ⟨List.replicate 20 ((key ++ m).foldl (· + ·) 0), List.length_replicate⟩
  encryptBlock := fun _ b => b
  decryptBlock := fun _ b => b
  decrypt_encrypt := fun _ _ => rfl

def homeNet : Network where
  pmk := .zero 32
  aa := ⟨[2, 0, 0, 0, 0, 1], rfl⟩
  spa := ⟨[2, 0, 0, 0, 0, 2], rfl⟩
  anonce := .zero 32
  gtk := .zero 16
  keyId := 1
  tx := false
  before := [⟨48, [1, 0], by decide⟩]
  after := []
  before_not_gtk := by simp [Element.IsGtk]

def plainData (replay : Octets 8) : Transmission where
  qos := none
  flags := 0x02
  duration := .zero 2
  source := homeNet.aa
  seqControl := .zero 2
  version := 2
  replay := replay
  iv := .zero 16
  rsc := .zero 8
  reserved := .zero 8
  keyData1 := []
  trailer := []

/-- Message 1 is sent twice, a beacon comes in between, and everything is heard. -/
def quietRun : List Event :=
  [.transmit (plainData (beBytes 8 1)), .other [0x80], .transmit (plainData (beBytes 8 2)), .poll 10 20 (.zero 32), .hear,
    .poll 30 30 (.zero 32), .poll 40 40 (.zero 32), .transmit (plainData (beBytes 8 3)), .poll 50 50 (.zero 32), .hear]

theorem handshake_agrees_quietRun :
    ∃ w, exec (World.step sumCrypto homeNet) (.init 0 0) quietRun = some w ∧ w.ap.badMic = false ∧
      ∃ ptk, w.sta.stage = .returned (homeNet.result ptk) ∧ w.ap.phase = .complete ptk := by
  have hdone : ((exec (step sumCrypto homeNet) (.init 0 0) quietRun).map fun w =>
      (w.up, w.down, w.ap.phase matches .complete _)) = some ([], [], true) := by decide +kernel
  obtain ⟨w, hrun, hw⟩ := map_eq_some_iff.mp hdone
  have hfair : Guarded (step sumCrypto homeNet) (World.Fair sumCrypto homeNet) (.init 0 0) quietRun := by
    decide +kernel
  obtain ⟨hmic, -, hcomplete⟩ := handshake_agrees sumCrypto homeNet 0 0 (by decide) hfair hrun
  have hsent : w.ap.HasSent := by
    have hphase := congrArg (fun x => x.2.2) hw
    unfold Authenticator.HasSent
    cases hp : w.ap.phase with
    | complete => trivial
    | awaitM2 | awaitM4 => simp [hp] at hphase
  exact ⟨w, hrun, hmic, hcomplete (congrArg (fun x => x.1) hw) (congrArg (fun x => x.2.1) hw) hsent⟩

/-- Message 1 of another network on the channel, with the nonce of its own access point. -/
def foreignM1 : List UInt8 :=
  Network.frame { homeNet with aa := ⟨[2, 0, 0, 0, 0, 7], rfl⟩, spa := ⟨[2, 0, 0, 0, 0, 8], rfl⟩ } (plainData (.zero 8))
    { homeNet.message1 (plainData (.zero 8)) with nonce := ⟨1 :: List.replicate 31 0, rfl⟩ }

/-- The station takes message 1 of the other network, and its access point rejects the answer. -/
theorem foreign_message1_breaks_handshake : ∃ w, exec (World.step sumCrypto homeNet) (.init 0 0)
        [.other foreignM1, .transmit (plainData (beBytes 8 0)), .poll 10 20 (.zero 32), .hear] = some w ∧
      w.ap.badMic = true := by
  have hbad : ((exec (step sumCrypto homeNet) (.init 0 0)
      [.other foreignM1, .transmit (plainData (beBytes 8 0)), .poll 10 20 (.zero 32), .hear]).map fun w => w.ap.badMic) =
      some true := by decide +kernel
  exact map_eq_some_iff.mp hbad

end Ruos.Wifi
