/-
  Locks: how long a channel is locked.

  A channel that is locked takes no word but another lock, and is not switched off.  Its
  lock counts down at the beginning of each of its ticks, and holds for one tick more after
  the count has come below zero; in the tick after that it is gone.

  * `Replay.Event`: what is done to a replay, a move of its own or a call from outside;
    `Replay.relocks`: it gives a channel another lock, a sound effect, or a new song;
  * `Channel.LockedFor`: a channel is locked for so many ticks yet; `lockedFor_apply`: an
    event that counts the lock takes one off, and no other one does;
  * `Machine.HoldsOff`, `Machine.TakesNotes`: what it is for a channel to be locked, and
    no longer to be;
  * `Replay.lock_holds_exactly`: after a lock the one holds for just as many ticks as the
    word says, and then the other.
-/
import PaulaReplay.Proofs.Reservations
import PaulaReplay.Proofs.Volume

namespace PaulaReplay

variable {score : Score} {rate : UInt32}

/-! ## Channels -/

namespace Channel

variable {c : Channel} {left : Nat}

/-- A channel is locked, and so many more ticks may count its lock; no sound effect waits to
    break it. -/
structure LockedFor (left : Nat) (c : Channel) : Prop where
  lock : c.reservation.lock ≠ 0
  time : c.reservation.time.toInt + 1 = left
  code : c.reservation.code = 0

theorem LockedFor.congr {d : Channel} (h : c.LockedFor left)
    (he : d.reservation = c.reservation) : d.LockedFor left :=
  ⟨by rw [he]; exact h.lock, by rw [he]; exact h.time, by rw [he]; exact h.code⟩

/-- A lock is for one tick more than its word says. -/
theorem lockedFor_lockFor {w : Word} (hw : w.byte1 ≠ 0) (hcode : c.reservation.code = 0) :
    (c.lockFor w).LockedFor (w.byte3.toNat + 1) where
  lock := hw
  time := by
    show w.byte3.toUInt16.toInt16.toInt + 1 = _
    rw [toInt_byte]
    rfl
  code := hcode

/-- A tick takes one off. -/
theorem LockedFor.countLock (h : c.LockedFor (left + 1)) : c.countLock.LockedFor left := by
  have htime := h.time
  have hle : 0 ≤ c.reservation.time := by
    rw [Int16.le_iff_toInt_le, Int16.toInt_zero]
    omega
  unfold Channel.countLock
  rw [if_pos hle]
  refine ⟨h.lock, ?_, h.code⟩
  show (c.reservation.time - 1).toInt + 1 = left
  rw [toInt_sub_one (by omega)]
  omega

/-- As there are none left the lock is gone, and the priority with it. -/
theorem LockedFor.countLock_zero (h : c.LockedFor 0) :
    c.countLock = { c with reservation.lock := 0, reservation.priority := 0 } := by
  have htime := h.time
  have hlt : ¬ 0 ≤ c.reservation.time := by
    rw [Int16.le_iff_toInt_le, Int16.toInt_zero]
    omega
  unfold Channel.countLock
  rw [if_neg hlt]

/-- Of all words a locked channel takes another lock alone. -/
theorem receive_of_locked {w : Word} (hlock : c.reservation.lock ≠ 0) (hw : w.byte0 ≠ 0xfc) :
    c.receive score w = c := by
  rw [receive, if_neg hw, if_pos hlock]

end Channel

/-! ## Machines -/

namespace Machine

variable {m : Machine} {i : Slot} {left : Nat}

/-- A channel takes no word but a lock, is not switched off, and no macro is started on it,
    not even by its own. -/
structure HoldsOff (score : Score) (i : Slot) (m : Machine) : Prop where
  words : ∀ w, w.byte0 ≠ 0xfc → m.channelOf w.byte2 = i → m.dispatch score w = m
  calls : ∀ n, n % 16 = i.val → m.channelOff n = m
  starts : ∀ j l w, (m.lane j).turn score = .starts l w → m.channelOf w.byte2 = i →
    m.runWord score j = m.setLane j l

/-- A channel is not locked, and a note starts its macro. -/
structure TakesNotes (score : Score) (i : Slot) (m : Machine) : Prop where
  lock : m.channels[i].reservation.lock = 0
  priority : m.channels[i].reservation.priority = 0
  notes : ∀ w base, w.byte0 < 0xc0 → m.channelOf w.byte2 = i →
    score.macroStart? w.byte1 = some base →
      (m.dispatch score w).channels[i] = m.channels[i].begin score.dialect w base

theorem dispatch_of_locked {w : Word} (hlock : m.channels[i].reservation.lock ≠ 0)
    (hw : w.byte0 ≠ 0xfc) (hi : m.channelOf w.byte2 = i) : m.dispatch score w = m := by
  rw [dispatch]
  simp only [hi]
  rw [Channel.receive_of_locked hlock hw]
  exact congrArg (fun channels => { m with channels }) (Octet.set_getElem_self _ _)

theorem channelOff_of_locked (hlock : m.channels[i].reservation.lock ≠ 0) {n : Nat}
    (hn : n % 16 = i.val) : m.channelOff n = m := by
  have hlt : n % 16 < 8 := hn ▸ i.isLt
  have hi : (⟨n % 16, hlt⟩ : Slot) = i := Fin.ext hn
  rw [channelOff, dif_pos hlt]
  simp only [hi]
  rw [if_neg hlock]

/-- A move of the channels leaves a lock, unless it counts it or dispatches another one. -/
theorem lockedFor_apply {mv : Move} (h : m.channels[i].LockedFor left) (hmv : mv ≠ .countLock i)
    (hword : ∀ m' w, m.dispatched score mv = some (m', w) → m'.channelOf w.byte2 = i →
      w.byte0 ≠ 0xfc) :
    (mv.apply score rate m).channels[i].LockedFor left := by
  by_cases hslot : mv.slot = i
  · have hself : ∀ f : Channel → Channel, (∀ c, (f c).reservation = c.reservation) →
        (m.onChannel i f).channels[i].LockedFor left := by
      intro f hf
      have hset : (m.onChannel i f).channels[i] = f m.channels[i] := Octet.getElem_set_self _ _ _
      rw [hset]
      exact h.congr (hf _)
    cases mv with
    | countLock k => exact absurd (congrArg Move.countLock hslot) hmv
    | takeEffect k =>
      obtain rfl : k = i := hslot
      rw [Move.apply, takeEffect]
      simp only [h.code, if_true]
      exact h
    | countWait k =>
      obtain rfl : k = i := hslot
      refine hself _ fun c => ?_
      unfold Channel.countWait
      split <;> rfl
    | wake k | halt k =>
      obtain rfl : k = i := hslot
      exact hself _ fun c => rfl
    | word k =>
      obtain rfl : k = i := hslot
      have hlane := h.congr (m.reservation_setLane_turn score k k)
      rw [Move.apply, runWord]
      cases hturn : (m.lane k).turn score with
      | starts l w =>
        rw [hturn] at hlane
        change (m.setLane k l).channels[k].LockedFor left at hlane
        show ((m.setLane k l).dispatch score w).channels[k].LockedFor left
        by_cases hw : (m.setLane k l).channelOf w.byte2 = k
        · have hd : m.dispatched score (.word k) = some (m.setLane k l, w) := by
            rw [dispatched, hturn]
          rw [dispatch_of_locked hlane.lock (hword _ _ hd hw) hw]
          exact hlane
        · rw [channels_dispatch, if_neg hw]
          exact hlane
      | goesOn l | rests l | cues l =>
        rw [hturn] at hlane
        exact hlane
    | bend k =>
      obtain rfl : k = i := hslot
      rw [Move.apply, channels_bend, Octet.getElem_set_self]
      exact h.congr (congrArg Prod.snd (Channel.duty_bendOn _))
    | load k => exact h
  · rcases (m.channel_cases mv hslot : (mv.apply score rate m).channels[i] = _ ∨ _) with
      he | ⟨m', w, hd, hw, he⟩
    · rw [he]
      exact h
    · rw [he, Channel.receive_of_locked h.lock (hword m' w hd hw)]
      exact h

/-- What a macro dispatches is no lock, as it carries a note. -/
theorem ne_lock_of_starts {j : Slot} {l : Lane} {w : Word} (hranged : m.channels[j].Ranged)
    (hturn : (m.lane j).turn score = .starts l w) : w.byte0 ≠ 0xfc := by
  intro hw
  have hlt : (m.lane j).channel.pitch.note < 0xc0 := hranged.note
  rw [← Lane.byte0_of_starts hturn, hw] at hlt
  exact absurd hlt (by decide)

theorem HoldsOff.of_lockedFor (hranged : m.Every Channel.Ranged)
    (h : m.channels[i].LockedFor left) : m.HoldsOff score i where
  words w hw hi := dispatch_of_locked h.lock hw hi
  calls n hn := channelOff_of_locked h.lock hn
  starts j l w hturn hi := by
    have hlane := h.congr (m.reservation_setLane_turn score i j)
    rw [runWord, hturn]
    rw [hturn] at hlane
    exact dispatch_of_locked hlane.lock (ne_lock_of_starts (hranged j) hturn) hi

/-- The tick after the last one begins with a channel that is not locked any more. -/
theorem TakesNotes.of_lockedFor (h : m.channels[i].LockedFor 0) :
    (m.onChannel i Channel.countLock).TakesNotes score i := by
  have hset : (m.onChannel i Channel.countLock).channels[i] =
      { m.channels[i] with reservation.lock := 0, reservation.priority := 0 } :=
    (Octet.getElem_set_self _ _ _).trans h.countLock_zero
  refine ⟨by rw [hset], by rw [hset], fun w base hw hi hstart => ?_⟩
  rw [channels_dispatch, if_pos hi, Channel.receive_of_note hw, Channel.startMacro,
    if_neg (by rw [hset]; exact fun hne => hne rfl), hstart]

end Machine

/-! ## Replays -/

namespace Replay

variable {r : Replay} {i : Slot} {left : Nat}

/-- What is done to a replay: it makes a move, a word comes to the channels, or a channel
    is switched off. -/
inductive Event where
  | move (mv : Move)
  | send (w : Word)
  | switchOff (n : Nat)

/-- What an event does. -/
def Event.apply (score : Score) (rate : UInt32) (r : Replay) : Event → Replay
  | .move mv => mv.apply score rate r
  | .send w => r.onMachine (·.dispatch score w)
  | .switchOff n => r.onMachine (·.channelOff n)

/-- The replay after some events. -/
def after (score : Score) (rate : UInt32) (es : List Event) (r : Replay) : Replay :=
  es.foldl (Event.apply score rate) r

/-- An event is the beginning of the tick of a channel, where its lock counts down. -/
def Event.countsLock (i : Slot) : Event → Bool
  | .move (.machine (.countLock j)) => j == i
  | _ => false

/-- A move dispatches a lock to a channel. -/
def sendsLock (score : Score) (i : Slot) (r : Replay) (mv : Move) : Bool :=
  (r.dispatched score mv).any fun (m, w) => m.channelOf w.byte2 == i && w.byte0 == 0xfc

/-- An event gives a channel another lock or a sound effect, or puts all back for a
    sub-song.  No word of a macro does. -/
def relocks (score : Score) (i : Slot) (r : Replay) : Event → Bool
  | .move (.reserve j _ _) => j == i
  | .move (.reset _) => true
  | .move (.machine (.word _)) => false
  | .move mv => r.sendsLock score i mv
  | .send w => r.machine.channelOf w.byte2 == i && w.byte0 == 0xfc
  | .switchOff _ => false

/-- None of some events does so to a channel. -/
def LeftLocked (score : Score) (rate : UInt32) (i : Slot) : List Event → Replay → Prop
  | [], _ => True
  | e :: es, r => r.relocks score i e = false ∧ LeftLocked score rate i es (e.apply score rate r)

instance decidableLeftLocked : ∀ (es : List Event) (r : Replay),
    Decidable (LeftLocked score rate i es r)
  | [], _ => inferInstanceAs (Decidable True)
  | e :: es, r =>
    have := decidableLeftLocked es (e.apply score rate r)
    inferInstanceAs (Decidable (_ ∧ _))

theorem Ranged.event (h : r.Ranged) (e : Event) : (e.apply score rate r).Ranged := by
  cases e with
  | move mv => exact h.apply mv
  | send w => exact Machine.Every.dispatch h w fun j => (h j).receive w
  | switchOff n => exact Machine.Every.channelOff h (fun _ hc => hc.congr rfl) n

/-- What an event dispatches that does not lock a channel again is no lock. -/
theorem ne_lock_of_dispatched (hr : r.Ranged) {mv : Move} {m : Machine} {w : Word}
    (hmv : r.relocks score i (.move mv) = false) (hd : r.dispatched score mv = some (m, w))
    (hi : m.channelOf w.byte2 = i) : w.byte0 ≠ 0xfc := by
  have hsends : r.sendsLock score i mv = false → w.byte0 ≠ 0xfc := by
    simp only [sendsLock, hd, Option.any_some, hi, BEq.rfl, Bool.true_and, beq_eq_false_iff_ne]
    exact id
  cases mv with
  | machine mv =>
    cases mv with
    | word j =>
      simp only [dispatched, Machine.dispatched] at hd
      split at hd
      · next l w' hturn =>
        cases hd
        exact Machine.ne_lock_of_starts (hr j) hturn
      · cases hd
    | _ => exact hsends hmv
  | reserve | reset => cases hd
  | _ => exact hsends hmv

/-- A channel that is locked is not switched off, but as all is put back. -/
theorem silences_of_locked (hlock : r.machine.channels[i].reservation.lock ≠ 0) {mv : Move}
    (hmv : r.relocks score i (.move mv) = false) : r.silences i mv = false := by
  cases mv with
  | enter j =>
    rw [silences, beq_eq_false_iff_ne.2 hlock, Bool.and_false]
  | reset => cases hmv
  | _ => rfl

/-- An event that does not count the lock of a channel leaves it. -/
theorem lockedFor_event (hr : r.Ranged) {e : Event} (he : r.relocks score i e = false)
    (hcount : e.countsLock i = false) (h : r.machine.channels[i].LockedFor left) :
    (e.apply score rate r).machine.channels[i].LockedFor left := by
  cases e with
  | switchOff n =>
    show (r.machine.channelOff n).channels[i].LockedFor left
    rcases r.machine.channel_channelOff n i with hsame | ⟨-, hlock, -⟩
    · rw [hsame]
      exact h
    · exact absurd hlock h.lock
  | send w =>
    show (r.machine.dispatch score w).channels[i].LockedFor left
    rw [Machine.channels_dispatch]
    split
    · next hi =>
      rw [relocks, hi, BEq.rfl, Bool.true_and] at he
      rw [Channel.receive_of_locked h.lock (beq_eq_false_iff_ne.1 he)]
      exact h
    · exact h
  | move mv =>
    have hafter := channelAfter_apply score rate r mv i
    have hsilences := silences_of_locked h.lock he
    rw [Event.apply]
    generalize hc : (mv.apply score rate r).machine.channels[i] = c at hafter
    cases hafter with
    | same => exact h
    | @own mv' _ hmv hslot =>
      subst hmv
      rw [← hc]
      refine Machine.lockedFor_apply h ?_ fun m w hd hi => ne_lock_of_dispatched hr he hd hi
      rintro rfl
      rw [Event.countsLock, BEq.rfl] at hcount
      cases hcount
    | received hd hi =>
      rw [Channel.receive_of_locked h.lock (ne_lock_of_dispatched hr he hd hi)]
      exact h
    | silenced hoff | reset hoff =>
      rw [hsilences] at hoff
      cases hoff
    | resumed => exact h.congr rfl
    | reserved hmv =>
      subst hmv
      rw [relocks, BEq.rfl] at he
      cases he

/-- One that does takes one off. -/
theorem lockedFor_countLock {e : Event} (hcount : e.countsLock i = true)
    (h : r.machine.channels[i].LockedFor (left + 1)) :
    (e.apply score rate r).machine.channels[i].LockedFor left := by
  have hcounted : (r.machine.onChannel i Channel.countLock).channels[i].LockedFor left := by
    have hset : (r.machine.onChannel i Channel.countLock).channels[i] =
        r.machine.channels[i].countLock := Octet.getElem_set_self _ _ _
    rw [hset]
    exact h.countLock
  unfold Event.countsLock at hcount
  split at hcount
  · obtain rfl := beq_iff_eq.1 hcount
    exact hcounted
  · cases hcount

/-- So after some events as many are taken off as there were ticks of the channel. -/
theorem lockedFor_after : ∀ (es : List Event) {r : Replay}, r.Ranged →
    LeftLocked score rate i es r →
    r.machine.channels[i].LockedFor (left + es.countP (·.countsLock i)) →
      (after score rate es r).Ranged ∧
        (after score rate es r).machine.channels[i].LockedFor left
  | [], _, hr, _, h => ⟨hr, h⟩
  | e :: es, r, hr, ⟨he, hes⟩, h => by
    refine lockedFor_after es (hr.event e) hes ?_
    rw [List.countP_cons] at h
    cases hcount : e.countsLock i with
    | true =>
      rw [hcount, if_pos rfl, ← Nat.add_assoc] at h
      exact lockedFor_countLock hcount h
    | false =>
      rw [hcount, if_neg Bool.false_ne_true] at h
      exact lockedFor_event hr he hcount h

/-- The lock of a channel holds for just the time that its word says: whatever happens that
    does not lock the channel again, gives it a sound effect or starts a sub-song, the
    channel takes nothing until it has had two ticks more than that; as the last of them
    begins, its lock and its priority are gone, and it takes notes again.  Notes are in
    their ranges in all replays that a host comes to. -/
theorem lock_holds_exactly (score : Score) (rate : UInt32) (i : Slot) (r : Replay) (w : Word)
    (es : List Event) (hranged : r.Ranged) (hfree : r.machine.code i = 0) (hw : w.byte0 = 0xfc)
    (hlock : w.byte1 ≠ 0) (hi : r.machine.channelOf w.byte2 = i)
    (hes : LeftLocked score rate i es (Event.apply score rate r (.send w))) :
    let s := after score rate (.send w :: es) r
    let ticks := es.countP (·.countsLock i)
    (ticks ≤ w.byte3.toNat + 1 → s.machine.HoldsOff score i) ∧
      (ticks = w.byte3.toNat + 1 →
        (Move.apply score rate s (.machine (.countLock i))).machine.TakesNotes score i) := by
  intro s ticks
  have hlocked : (Event.apply score rate r (.send w)).machine.channels[i].LockedFor
      (w.byte3.toNat + 1) := by
    show (r.machine.dispatch score w).channels[i].LockedFor _
    rw [Machine.channels_dispatch, if_pos hi, Channel.receive, if_pos hw]
    exact Channel.lockedFor_lockFor hlock hfree
  have hleft : ∀ left, left + ticks = w.byte3.toNat + 1 →
      s.Ranged ∧ s.machine.channels[i].LockedFor left := fun left hleft =>
    lockedFor_after es (hranged.event _) hes (hleft ▸ hlocked)
  constructor
  · intro hticks
    obtain ⟨hs, hlocked⟩ := hleft (w.byte3.toNat + 1 - ticks) (Nat.sub_add_cancel hticks)
    exact .of_lockedFor hs hlocked
  · intro hticks
    exact .of_lockedFor (hleft 0 ((Nat.zero_add _).trans hticks)).2

/-- A note, a tick, a word of a macro that starts another one, and a call to be switched
    off, all for channel 2. -/
def lockedEvents : List Event :=
  [.send ⟨0x10010200⟩, .move (.machine (.countLock (Slot.ofNat 2))),
    .move (.machine (.word (Slot.ofNat 1))), .switchOff 2]

/-- After a lock without a time the channel takes none of them, and its next tick begins
    with the lock gone. -/
theorem lock_returningTune : ∃ tune p, load returningTune (some ⟨#[]⟩) = .ok tune ∧
    Player.new tune minRate = .ok p ∧
    let s := after tune.score p.rate (.send ⟨0xfc010200⟩ :: lockedEvents) p.tick.replay
    s.machine.HoldsOff tune.score 2 ∧
      (Move.apply tune.score p.rate s (.machine (.countLock 2))).machine.TakesNotes
        tune.score 2 := by
  have h : ((load returningTune (some ⟨#[]⟩)).toOption.bind fun tune =>
      (Player.new tune minRate).toOption.map fun p =>
        (p.tick.replay.machine.code 2, p.tick.replay.machine.channelOf 2,
          decide (LeftLocked p.tune.score p.rate 2 lockedEvents
            (Event.apply p.tune.score p.rate p.tick.replay (.send ⟨0xfc010200⟩))))) =
        some (0, 2, true) := by decide +kernel
  obtain ⟨tune, p, hload, hnew, h⟩ := Player.exists_new h
  obtain rfl := Player.new_tune hnew
  simp only [Prod.mk.injEq, decide_eq_true_eq] at h
  obtain ⟨hfree, hi, hes⟩ := h
  have hp : Player.Reachable Player.AtWill p := .new hnew
  have hranged : p.tick.replay.Ranged := (hp.perform .tick trivial).ranged
  obtain ⟨hholds, htakes⟩ := lock_holds_exactly p.tune.score p.rate 2 p.tick.replay ⟨0xfc010200⟩
    lockedEvents hranged hfree rfl (by decide) hi hes
  exact ⟨p.tune, p, hload, hnew, hholds (by decide), htakes (by decide)⟩

end Replay

end PaulaReplay
