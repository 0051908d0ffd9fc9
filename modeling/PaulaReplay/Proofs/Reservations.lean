/-
  Reservations: which sound effect of the host a channel plays.

  Of the effects that a host gives to a channel between two ticks the most important
  one waits for the next tick, and comes to the channel there.  It waits as a number
  beside its priority, and the number zero stands for none: so an effect whose word is
  zero with its channel in it is accepted, and forgotten.

  * `Machine.code`: the number that waits; `Machine.code_apply`, `Player.free_tick`: only
    the channel's own tick takes it, and after a tick there is none;
  * `Player.Leads`: the last effect whose priority is at least that of all before it;
  * `Player.Holds`: it is the one that waits; `Holds.answers_iff`, `answersAll_iff`: so it
    is as long as the calls are answered as they should be;
  * `Machine.PlaysFirst`, `Player.NextPlays`: a word comes to a channel in its tick, before
    its macro has its turn;
  * `Player.Audible`: no zero word is the cause of a loss; `Reachable.effects_law`: the
    effect that leads is played if, and only if, it is so.
-/
import Mathlib.Data.List.Induction
import Mathlib.Tactic.IntervalCases
import PaulaReplay.Proofs.Channels
import PaulaReplay.Proofs.Inert
import PaulaReplay.Proofs.Tidings

namespace PaulaReplay

/-! ## Channels -/

namespace Lane

variable {score : Score}

theorem reservation_yield (l : Lane) :
    l.yield.lane.channel.reservation = l.channel.reservation := by
  unfold yield
  split <;> rfl

theorem reservation_switchOff (l : Lane) (w : Word) :
    (l.switchOff w).lane.channel.reservation = l.channel.reservation := by
  unfold switchOff
  simp only
  split <;> rfl

theorem reservation_loop (l : Lane) (w : Word) :
    (l.loop w).channel.reservation = l.channel.reservation := by
  unfold loop
  simp only
  split <;> rfl

theorem reservation_jump (l : Lane) (score : Score) (w : Word) :
    (l.jump score w).lane.channel.reservation = l.channel.reservation := by
  unfold jump
  split <;> rfl

/-- No word of a macro changes what its own channel is reserved for. -/
theorem reservation_execute (score : Score) (op : Operation) (w : Word) (l : Lane) :
    (execute score op w l).lane.channel.reservation = l.channel.reservation := by
  cases op with
  | off => exact reservation_switchOff l w
  | offReset =>
    refine (reservation_switchOff _ w).trans ?_
    unfold reset
    simp only
    split <;> rfl
  | on =>
    rw [execute, switchOn]
    simp only
    split <;> rfl
  | wait =>
    rw [execute, wait]
    simp only
    split
    · split
      · rfl
      · exact reservation_yield _
    · exact reservation_yield _
  | waitVoice | previousNote | addNote | setNote => exact reservation_yield _
  | loop => exact reservation_loop l w
  | loopKeyDown =>
    rw [execute]
    split
    · exact reservation_loop l w
    · rfl
  | waitKeyUp =>
    rw [execute, waitKeyUp]
    simp only
    split_ifs <;> rfl
  | call => exact reservation_jump _ score w
  | jump => exact reservation_jump l score w
  | splitNote | splitVolume | addVolume | setVolume =>
    rw [execute]
    split <;> rfl
  | _ => rfl

theorem reservation_turn (score : Score) (l : Lane) :
    (l.turn score).lane.channel.reservation = l.channel.reservation := by
  unfold turn
  simp only
  split
  · rfl
  · exact reservation_execute score _ _ _

end Lane

namespace Channel

/-- A word that comes to a channel leaves the effect that waits for it. -/
theorem code_receive (score : Score) (w : Word) (c : Channel) :
    (c.receive score w).reservation.code = c.reservation.code := by
  unfold receive setEffect
  split_ifs <;> first | rfl | (split <;> rfl)

end Channel

namespace Machine

variable {m : Machine} {score : Score} {rate : UInt32} {i : Slot}

/-- The number of the effect that waits for a channel, or zero. -/
def code (m : Machine) (i : Slot) : UInt32 := m.channels[i].reservation.code

theorem code_dispatch (w : Word) (i : Slot) : (m.dispatch score w).code i = m.code i := by
  rw [code, channels_dispatch]
  split
  · exact Channel.code_receive ..
  · rfl

/-- So what a channel is reserved for stays as the word of any macro is run. -/
theorem reservation_setLane_turn (m : Machine) (score : Score) (i j : Slot) :
    (m.setLane j ((m.lane j).turn score).lane).channels[i].reservation =
      m.channels[i].reservation := by
  by_cases hj : j = i
  · subst hj
    have hself : (m.setLane j ((m.lane j).turn score).lane).channels[j] =
        ((m.lane j).turn score).lane.channel := Octet.getElem_set_self _ _ _
    rw [hself, Lane.reservation_turn]
    rfl
  · rw [channels_setLane_ne hj]

theorem code_runWord (j : Slot) : (m.runWord score j).code i = m.code i := by
  have hlane : (m.setLane j ((m.lane j).turn score).lane).code i = m.code i :=
    congrArg Reservation.code (m.reservation_setLane_turn score i j)
  unfold runWord
  cases hturn : (m.lane j).turn score with
  | starts l w =>
    rw [hturn] at hlane
    exact (code_dispatch w i).trans hlane
  | goesOn l | rests l | cues l => rw [hturn] at hlane; exact hlane

theorem code_onChannel {f : Channel → Channel} (j : Slot)
    (hf : ∀ c, (f c).reservation.code = c.reservation.code) :
    (m.onChannel j f).code i = m.code i := by
  show (m.channels.set j (f m.channels[j]))[i].reservation.code = _
  rw [Octet.getElem_set]
  split
  · next hj =>
    rw [hf, hj]
    rfl
  · rfl

/-- The effect that waits for a channel is forgotten as it is taken. -/
theorem code_takeEffect_self (m : Machine) (i : Slot) : (m.takeEffect score i).code i = 0 := by
  unfold takeEffect
  simp only
  split
  · assumption
  · rw [code_dispatch]
    show (m.channels.set i m.channels[i].takeCode)[i].reservation.code = 0
    rw [Octet.getElem_set_self]
    rfl

/-- Until then no move of a channel changes it. -/
theorem code_apply {mv : Move} (hmv : mv ≠ .takeEffect i) :
    (mv.apply score rate m).code i = m.code i := by
  cases mv with
  | takeEffect j =>
    have hj : j ≠ i := fun he => hmv (congrArg Move.takeEffect he)
    rw [Move.apply, takeEffect]
    split
    · rfl
    · rw [code_dispatch, code]
      exact congrArg (·.reservation.code) (channels_setChannel_ne hj _)
  | word j => exact code_runWord j
  | countLock j => exact code_onChannel j Channel.code_countLock
  | countWait j =>
    refine code_onChannel j fun c => ?_
    unfold Channel.countWait
    split <;> rfl
  | wake j | halt j => exact code_onChannel j fun _ => rfl
  | bend j =>
    rw [Move.apply, code, channels_bend, Octet.getElem_set]
    split
    · next hj =>
      rw [← hj]
      exact congrArg (fun d => d.2.code) (Channel.duty_bendOn _)
    · rfl
  | load j => rfl

/-- A channel leaves what waits for another one in its tick. -/
theorem code_tickChannel_ne {j : Slot} (hj : j ≠ i) :
    (m.tickChannel score rate j).code i = m.code i := by
  refine tickChannel_leaves (f := fun m => m.code i) (fun m mv hmv => code_apply ?_) m
  rintro rfl
  exact hj hmv.symm

theorem code_foldl_tickChannel (score : Score) (rate : UInt32) {js : List Slot} (hjs : i ∉ js)
    (m : Machine) :
    (js.foldl (fun m j => m.tickChannel score rate j) m).code i = m.code i := by
  induction js generalizing m with
  | nil => rfl
  | cons j js ih =>
    rw [List.mem_cons, not_or] at hjs
    rw [List.foldl_cons, ih hjs.2, code_tickChannel_ne (Ne.symm hjs.1)]

end Machine

namespace Replay

variable {score : Score} {rate : UInt32} {r : Replay} {i : Slot}

/-- Whether a move reserves a channel for an effect. -/
def Move.reserves : Move → Bool
  | .reserve .. => true
  | _ => false

/-- Where no effect waits none does after a move, but for one that gives it. -/
theorem code_apply_eq_zero {mv : Move} (hmv : mv.reserves = false)
    (h : r.machine.code i = 0) : (mv.apply score rate r).machine.code i = 0 := by
  have hafter := channelAfter_apply score rate r mv i
  rw [Machine.code] at h ⊢
  cases mv with
  | machine mv =>
    show (mv.apply score rate r.machine).code i = 0
    by_cases htake : mv = .takeEffect i
    · rw [htake]
      exact Machine.code_takeEffect_self _ i
    · exact (Machine.code_apply htake).trans h
  | reserve => cases hmv
  | _ =>
    generalize (Move.apply score rate r _).machine.channels[i] = c at hafter ⊢
    cases hafter with
    | own _ he => cases he
    | received => exact (Channel.code_receive ..).trans h
    | reserved he => cases he
    | reset => rfl
    | same | silenced | resumed => exact h

theorem code_run_eq_zero : ∀ (ms : List Move) {r : Replay}, ms.all (!·.reserves) = true →
    r.machine.code i = 0 → (run score rate ms r).machine.code i = 0
  | [], _, _, h => h
  | mv :: ms, r, hms, h => by
    rw [List.all_cons, Bool.and_eq_true, Bool.not_eq_true'] at hms
    exact code_run_eq_zero ms hms.2 (code_apply_eq_zero hms.1 h)

theorem all_not_reserves_tickMoves (r : Replay) :
    (tickMoves score rate r).all (!·.reserves) = true :=
  all_tickMoves rfl (fun _ => rfl) (fun mv hmv => by cases mv <;> first | rfl | cases hmv) rfl r

theorem mem_channelsMoves : ∀ {is : List Slot} (m : Machine), i ∈ is →
    .takeEffect i ∈ Machine.channelsMoves score rate is m
  | j :: is, m, hi => by
    rw [Machine.channelsMoves, List.mem_append]
    rcases List.mem_cons.1 hi with rfl | hi
    · exact .inl (List.mem_append_left _ (List.mem_append_left _ (by simp)))
    · exact .inr (mem_channelsMoves _ hi)

/-- In a tick each channel that has ticks takes the effect that waits for it. -/
theorem takeEffect_mem_tickMoves (henabled : r.machine.master.enabled = true)
    (hi : i ∈ Machine.channelOrder r.machine.multi) :
    .machine (.takeEffect i) ∈ tickMoves score rate r := by
  have hbegin : r.begin.machine.master.enabled = true := henabled
  rw [tickMoves, advanceMoves, if_pos hbegin]
  refine List.mem_append_left _ (List.mem_cons_of_mem _ (List.mem_append_left _ ?_))
  exact List.mem_map_of_mem (mem_channelsMoves r.begin.machine hi)

end Replay

namespace Player

variable {p q : Player} {i : Slot} {allowed : Player → Action → Prop}

/-- No effect waits for a channel. -/
def Free (p : Player) (i : Slot) : Prop := p.replay.machine.code i = 0

/-- After a tick no effect waits for any channel. -/
theorem free_tick (h : p.replay.Playing) (hinert : p.replay.machine.Inert) (i : Slot) :
    p.tick.Free i := by
  have hreserves : p.tickMoves.all (!·.reserves) = true := Replay.all_not_reserves_tickMoves _
  rw [Free, ← p.run_tickMoves]
  by_cases hi : i ∈ Machine.channelOrder p.replay.machine.multi
  · have hmem : .machine (.takeEffect i) ∈ p.tickMoves :=
      Replay.takeEffect_mem_tickMoves h.enabled hi
    obtain ⟨before, after, hmoves⟩ := List.append_of_mem hmem
    rw [hmoves, List.all_append, List.all_cons, Bool.and_eq_true, Bool.and_eq_true] at hreserves
    rw [run, hmoves, Replay.run_append, Replay.run_cons]
    exact Replay.code_run_eq_zero after hreserves.2.2 (Machine.code_takeEffect_self _ i)
  · have hunheard : ∀ i : Slot, (Lane.unheard i).channel.reservation.code = 0 := by
      decide +kernel
    have hcode : p.replay.machine.code i = (Lane.unheard i).channel.reservation.code :=
      congrArg (fun l => l.channel.reservation.code) (hinert.lane_eq hi)
    exact Replay.code_run_eq_zero _ hreserves (hcode.trans (hunheard i))

theorem inert_tick (h : p.replay.machine.Inert) : p.tick.replay.machine.Inert := by
  rw [← p.run_tickMoves]
  exact Replay.Along.run (P := fun r => r.machine.Inert)
    (fun _ _ hr hmv => Replay.inert_apply hr hmv) _ (Replay.along_heard_tickMoves p.replay) h

/-- So it is after a buffer for which ticks were rendered. -/
theorem Fills.free {loops n : Nat} {out : Array Int16} (h : Fills loops n p out q)
    (hplaying : p.replay.Playing) (hinert : p.replay.machine.Inert) :
    q.replay = p.replay ∨ ∀ i, q.Free i := by
  have hkeeps : q.replay.Playing ∧ q.replay.machine.Inert ∧
      (q.replay = p.replay ∨ ∀ i, q.Free i) := by
    refine h.preserves (P := fun s => s.replay.Playing ∧ s.replay.machine.Inert ∧
      (s.replay = p.replay ∨ ∀ i, s.Free i)) (fun s hs => ?_) (fun _ _ hs => hs)
      ⟨hplaying, hinert, .inl rfl⟩
    obtain ⟨hs, hsinert, -⟩ := hs
    have hfree : ∀ i, s.tick.Free i := free_tick hs hsinert
    rcases refill_cases s loops with ⟨-, he⟩ | ⟨-, he⟩ <;> rw [he] <;>
      exact ⟨playing_tick hs, inert_tick hsinert, .inr hfree⟩
  exact hkeeps.2.2

/-! ## Effects -/

/-- A sound effect of a host: its word and its priority. -/
structure Effect where
  word : UInt32
  priority : UInt32

/-- The word of an effect with the channel that it is given to. -/
def Effect.wordFor (i : Slot) (e : Effect) : Word :=
  let w : Word := ⟨e.word⟩
  w.withByte2 ((w.byte2 &&& 0xf0) ||| UInt8.ofNat i.val)

/-- The priority of an effect is at least that of all others. -/
def Tops (es : List Effect) (e : Effect) : Prop := ∀ d ∈ es, d.priority ≤ e.priority

/-- The effect is the last one whose priority is at least that of all before it. -/
def Leads (es : List Effect) (e : Effect) : Prop :=
  ∃ k, es[k]? = some e ∧ Tops (es.take k) e ∧
    ∀ j d, k < j → es[j]? = some d → ¬Tops (es.take j) d

/-- Something holds of each member of a list, with those before it. -/
def AtEach {α : Type} (P : List α → α → Prop) (l : List α) : Prop :=
  ∀ k a, l[k]? = some a → P (l.take k) a

section Lists

variable {α : Type} {l : List α} {a b : α} {k : Nat}

theorem getElem?_concat_of (a : α) (h : l[k]? = some b) :
    (l ++ [a])[k]? = some b ∧ (l ++ [a]).take k = l.take k := by
  obtain ⟨hk, -⟩ := List.getElem?_eq_some_iff.1 h
  exact ⟨(List.getElem?_append_left hk).trans h, List.take_append_of_le_length hk.le⟩

/-- A member of a list that is one longer is one of the list, or the new one behind it. -/
theorem getElem?_concat_cases (h : (l ++ [a])[k]? = some b) :
    l[k]? = some b ∧ (l ++ [a]).take k = l.take k ∨
      k = l.length ∧ b = a ∧ (l ++ [a]).take k = l := by
  rcases Nat.lt_trichotomy k l.length with hk | rfl | hk
  · rw [List.getElem?_append_left hk] at h
    exact .inl ⟨h, List.take_append_of_le_length hk.le⟩
  · rw [List.getElem?_concat_length] at h
    exact .inr ⟨rfl, (Option.some.inj h).symm, List.take_left⟩
  · rw [List.getElem?_eq_none (by rw [List.length_append, List.length_singleton]; omega)] at h
    cases h

theorem atEach_nil (P : List α → α → Prop) : AtEach P [] := nofun

theorem atEach_concat {P : List α → α → Prop} : AtEach P (l ++ [a]) ↔ AtEach P l ∧ P l a := by
  constructor
  · intro h
    refine ⟨fun k b hb => ?_, ?_⟩
    · obtain ⟨hb', htake⟩ := getElem?_concat_of a hb
      exact htake ▸ h k b hb'
    · have hat := h l.length a List.getElem?_concat_length
      rwa [List.take_left] at hat
  · rintro ⟨hl, ha⟩ k b hb
    rcases getElem?_concat_cases hb with ⟨hb, htake⟩ | ⟨-, rfl, htake⟩ <;> rw [htake]
    · exact hl k b hb
    · exact ha

end Lists

section Leads

variable {es : List Effect} {d e : Effect}

/-- A new effect leads if it tops all before it, and else the same as before leads. -/
theorem leads_concat : Leads (es ++ [e]) d ↔ Tops es e ∧ d = e ∨ ¬Tops es e ∧ Leads es d := by
  constructor
  · rintro ⟨k, hk, htops, hlast⟩
    rcases getElem?_concat_cases hk with ⟨hd, htake⟩ | ⟨-, rfl, htake⟩ <;> rw [htake] at htops
    · obtain ⟨hlt, -⟩ := List.getElem?_eq_some_iff.1 hd
      have hend := hlast es.length e hlt List.getElem?_concat_length
      rw [List.take_left] at hend
      refine .inr ⟨hend, k, hd, htops, fun j x hj hx => ?_⟩
      obtain ⟨hx', htake⟩ := getElem?_concat_of e hx
      exact htake ▸ hlast j x hj hx'
    · exact .inl ⟨htops, rfl⟩
  · rintro (⟨htops, rfl⟩ | ⟨hend, k, hk, htops, hlast⟩)
    · refine ⟨es.length, List.getElem?_concat_length, by rwa [List.take_left], fun j x hj hx => ?_⟩
      rcases getElem?_concat_cases hx with ⟨hx, -⟩ | ⟨rfl, -, -⟩
      · obtain ⟨hlt, -⟩ := List.getElem?_eq_some_iff.1 hx
        omega
      · omega
    · obtain ⟨hk', htake⟩ := getElem?_concat_of e hk
      refine ⟨k, hk', by rwa [htake], fun j x hj hx => ?_⟩
      rcases getElem?_concat_cases hx with ⟨hx, htake⟩ | ⟨rfl, rfl, htake⟩ <;> rw [htake]
      · exact hlast j x hj hx
      · exact hend

theorem not_leads_nil (d : Effect) : ¬Leads [] d := by
  rintro ⟨k, hk, -⟩
  cases hk

theorem exists_leads (hes : es ≠ []) : ∃ d, Leads es d := by
  induction es using List.reverseRecOn with
  | nil => exact absurd rfl hes
  | append_singleton es e ih =>
    by_cases htops : Tops es e
    · exact ⟨e, leads_concat.2 (.inl ⟨htops, rfl⟩)⟩
    · have hne : es ≠ [] := by
        rintro rfl
        exact htops nofun
      obtain ⟨d, hd⟩ := ih hne
      exact ⟨d, leads_concat.2 (.inr ⟨htops, hd⟩)⟩

theorem Leads.unique (hd : Leads es d) (he : Leads es e) : d = e := by
  induction es using List.reverseRecOn with
  | nil => exact absurd hd (not_leads_nil d)
  | append_singleton es x ih =>
    rcases leads_concat.1 hd with ⟨hx, rfl⟩ | ⟨hx, hd⟩ <;>
      rcases leads_concat.1 he with ⟨hx', rfl⟩ | ⟨hx', he⟩
    · rfl
    · exact absurd hx hx'
    · exact absurd hx' hx
    · exact ih hd he

/-- What leads has the highest priority of all. -/
theorem Leads.tops (h : Leads es d) : Tops es d := by
  induction es using List.reverseRecOn with
  | nil => exact nofun
  | append_singleton es e ih =>
    intro x hx
    rw [List.mem_append, List.mem_singleton] at hx
    rcases leads_concat.1 h with ⟨htops, rfl⟩ | ⟨hnot, hd⟩
    · rcases hx with hx | rfl
      · exact htops x hx
      · exact UInt32.le_refl _
    · have hd := ih hd
      rcases hx with hx | rfl
      · exact hd x hx
      · -- it does not top one that does not top `d`
        simp only [Tops, not_forall] at hnot
        obtain ⟨y, hy, hlt⟩ := hnot
        exact UInt32.le_trans (UInt32.le_of_lt (UInt32.not_le.1 hlt)) (hd y hy)

theorem Leads.tops_iff (h : Leads es d) : Tops es e ↔ d.priority ≤ e.priority := by
  refine ⟨fun he => ?_, fun hle x hx => UInt32.le_trans (h.tops x hx) hle⟩
  obtain ⟨k, hk, -⟩ := h
  exact he d (List.mem_of_getElem? hk)

end Leads

/-! ## Calls -/

/-- An effect is accepted, unless one of higher priority waits for its channel. -/
theorem playEffect_on (e : Effect) (hi : i.val ≤ p.replay.machine.channelMask.toNat) :
    p.playEffect i.val e.word e.priority =
      if p.replay.machine.code i ≠ 0 ∧
          e.priority < p.replay.machine.channels[i].reservation.priority then (false, p)
      else (true, { p with replay := p.replay.reserve i (e.wordFor i).bits e.priority }) := by
  rw [playEffect, dif_pos ⟨hi, i.isLt⟩]
  rfl

theorem channel_reserve (r : Replay) (i : Slot) (code priority : UInt32) :
    (r.reserve i code priority).machine.channels[i] = { r.machine.channels[i] with
      reservation.code := code, reservation.priority := priority } :=
  Octet.getElem_set_self _ _ _

/-- What waits for a channel is the effect that leads, if there are any. -/
structure Holds (p : Player) (i : Slot) (es : List Effect) : Prop where
  free : es = [] → p.Free i
  leads : ∀ d, Leads es d → p.replay.machine.code i = (d.wordFor i).bits ∧
    p.replay.machine.channels[i].reservation.priority = d.priority

/-- A call is answered as it should be: it is refused if, and only if, the effect that
    leads has a higher priority. -/
def Answers (p : Player) (i : Slot) (es : List Effect) (e : Effect) : Prop :=
  (p.playEffect i.val e.word e.priority).1 = false ↔ ∃ d, Leads es d ∧ e.priority < d.priority

/-- An effect comes behind none that leads, has a zero word and a higher priority: such
    a one would not be there to refuse it. -/
def Undisturbed (i : Slot) (es : List Effect) (e : Effect) : Prop :=
  ∀ d, Leads es d → (d.wordFor i).bits = 0 → d.priority ≤ e.priority

section Holds

variable {es : List Effect} {e : Effect}

/-- An effect that is accepted waits, and leads. -/
theorem holds_of_tops (htops : Tops es e)
    (hq : q.replay = p.replay.reserve i (e.wordFor i).bits e.priority) : q.Holds i (es ++ [e]) := by
  refine ⟨fun hnil => absurd hnil (List.concat_ne_nil e es), fun d hd => ?_⟩
  obtain rfl : d = e := (leads_concat.1 hd).elim (·.2) fun hnot => absurd htops hnot.1
  rw [Machine.code, hq, channel_reserve]
  exact ⟨rfl, rfl⟩

/-- One that does not lead changes nothing. -/
theorem Holds.of_not_tops (h : p.Holds i es) (hnot : ¬Tops es e) : p.Holds i (es ++ [e]) :=
  ⟨fun hnil => absurd hnil (List.concat_ne_nil e es), fun d hd =>
    h.leads d ((leads_concat.1 hd).elim (fun htops => absurd htops.1 hnot) (·.2))⟩

/-- A call that comes undisturbed is answered as it should be, and no other one is; then
    what waits is what leads again. -/
theorem Holds.answers_iff (h : p.Holds i es)
    (hi : i.val ≤ p.replay.machine.channelMask.toNat) :
    (p.Answers i es e ↔ Undisturbed i es e) ∧
      (p.Answers i es e → (p.playEffect i.val e.word e.priority).2.Holds i (es ++ [e])) := by
  rw [Answers, playEffect_on e hi]
  rcases eq_or_ne es [] with rfl | hne
  · rw [if_neg fun hrefused => hrefused.1 (h.free rfl)]
    have hnone : ¬∃ d, Leads [] d ∧ e.priority < d.priority := fun ⟨d, hd, _⟩ => not_leads_nil d hd
    exact ⟨iff_of_true (iff_of_false Bool.noConfusion hnone)
      fun d hd => absurd hd (not_leads_nil d), fun _ => holds_of_tops nofun rfl⟩
  · obtain ⟨d, hd⟩ := exists_leads hne
    obtain ⟨hcode, hpriority⟩ := h.leads d hd
    have hhigher : (∃ d', Leads es d' ∧ e.priority < d'.priority) ↔ e.priority < d.priority :=
      ⟨fun ⟨d', hd', hlt⟩ => hd.unique hd' ▸ hlt, fun hlt => ⟨d, hd, hlt⟩⟩
    have hundisturbed : Undisturbed i es e ↔ ((d.wordFor i).bits = 0 → d.priority ≤ e.priority) :=
      ⟨fun hu => hu d hd, fun hu d' hd' => hd.unique hd' ▸ hu⟩
    rw [hhigher, hundisturbed, hcode, hpriority]
    by_cases hlt : e.priority < d.priority
    · have hnot : ¬Tops es e := fun htops => UInt32.not_lt.2 (hd.tops_iff.1 htops) hlt
      by_cases hzero : (d.wordFor i).bits = 0
      · -- it is accepted, and should not be
        rw [if_neg fun hrefused => hrefused.1 hzero]
        have hwrong : ¬(true = false ↔ e.priority < d.priority) := fun ha =>
          Bool.noConfusion (ha.2 hlt)
        exact ⟨iff_of_false hwrong fun hu => UInt32.not_lt.2 (hu hzero) hlt,
          fun ha => absurd ha hwrong⟩
      · rw [if_pos ⟨hzero, hlt⟩]
        exact ⟨iff_of_true (iff_of_true rfl hlt) fun hz => absurd hz hzero,
          fun _ => h.of_not_tops hnot⟩
    · have hle := UInt32.not_lt.1 hlt
      rw [if_neg fun hrefused => hlt hrefused.2]
      exact ⟨iff_of_true (iff_of_false Bool.noConfusion hlt) fun _ => hle,
        fun _ => holds_of_tops (hd.tops_iff.2 hle) rfl⟩

end Holds

/-! ## Between two ticks -/

/-- Whether an action renders no tick and begins no sub-song. -/
def Action.between : Action → Bool
  | .seek .. | .playEffect .. | .drain => true
  | .start _ | .tick | .fill .. => false

/-- The effect that an action gives to a channel, if it does. -/
def Action.effectOn (i : Slot) : Action → List Effect
  | .playEffect channel word priority => if channel = i.val then [⟨word, priority⟩] else []
  | _ => []

/-- The effects that some actions give to a channel. -/
def effectsOn (i : Slot) (as : List Action) : List Effect := as.flatMap (·.effectOn i)

/-- The player after some actions. -/
def performs (p : Player) (as : List Action) : Player := as.foldl perform p

theorem effectsOn_concat (i : Slot) (as : List Action) (a : Action) :
    effectsOn i (as ++ [a]) = effectsOn i as ++ a.effectOn i := by
  rw [effectsOn, effectsOn, List.flatMap_append, List.flatMap_singleton]

theorem performs_concat (p : Player) (as : List Action) (a : Action) :
    p.performs (as ++ [a]) = (p.performs as).perform a := by
  rw [performs, performs, List.foldl_append]
  rfl

theorem effectOn_cases (a : Action) (i : Slot) :
    a.effectOn i = [] ∧ (∀ e : Effect, a ≠ .playEffect i.val e.word e.priority) ∨
      ∃ e : Effect, a = .playEffect i.val e.word e.priority ∧ a.effectOn i = [e] := by
  cases a with
  | playEffect channel word priority =>
    by_cases hc : channel = i.val
    · subst hc
      exact .inr ⟨⟨word, priority⟩, rfl, if_pos rfl⟩
    · exact .inl ⟨if_neg hc, fun e he => hc (by injection he)⟩
  | _ => exact .inl ⟨rfl, nofun⟩

theorem channels_readSteps (score : Score) : ∀ (n : Nat) (r : Replay),
    (Replay.readSteps score n r).machine.channels = r.machine.channels
  | 0, r => Machine.channels_of_sounding (Replay.sounding_reachEnd r.machine)
  | n + 1, r => by
    rw [Replay.readSteps_succ]
    split
    · rw [channels_readSteps score n, Replay.channels_readStep]
    · exact Replay.channels_readStep r score

theorem channels_seek (p : Player) (position : Nat) (e : Timeline.Entry) :
    (p.seek position e).replay.machine.channels = p.replay.machine.channels := by
  have haim := Machine.channels_of_sounding (Replay.sounding_aim p.replay position e)
  rw [seek_replay]
  exact (channels_readSteps p.tune.score _ _).trans haim

theorem multi_seek (h : p.replay.machine.multi = true) (position : Nat) (e : Timeline.Entry) :
    (p.seek position e).replay.machine.multi = true := by
  rw [← p.run_aimMoves]
  exact Replay.multi_run (fun _ => rfl) (p.all_not_begins_aimMoves position e) h

/-- Between two ticks only an effect that is given to a channel changes it. -/
theorem channel_perform {a : Action} (hbetween : a.between = true) (heffect : a.effectOn i = []) :
    (p.perform a).replay.machine.channels[i] = p.replay.machine.channels[i] := by
  cases a with
  | start | tick | fill => cases hbetween
  | drain => rfl
  | seek position e =>
    rw [perform, channels_seek]
  | playEffect channel word priority =>
    have hne : channel ≠ i.val := by
      rintro rfl
      rw [Action.effectOn, if_pos rfl] at heffect
      cases heffect
    rw [perform, playEffect]
    simp only
    split
    · next hc =>
      split
      · rfl
      · exact Machine.channels_setChannel_ne (fun he => hne (congrArg Fin.val he)) _
    · rfl

theorem multi_perform {a : Action} (hbetween : a.between = true)
    (h : p.replay.machine.multi = true) : (p.perform a).replay.machine.multi = true := by
  cases a with
  | start | tick | fill => cases hbetween
  | drain => exact h
  | seek position e => exact multi_seek h position e
  | playEffect channel word priority =>
    rw [perform]
    rcases p.playEffect_eq channel word priority with he | ⟨j, code, -, he⟩ <;> rw [he] <;> exact h

/-- The channels that have ticks go on having them. -/
theorem le_channelMask_performs (hi : i.val ≤ p.replay.machine.channelMask.toNat)
    {as : List Action} (has : as.all Action.between = true) :
    i.val ≤ (p.performs as).replay.machine.channelMask.toNat := by
  have hmulti (h : p.replay.machine.multi = true) :
      (p.performs as).replay.machine.multi = true := by
    induction as using List.reverseRecOn with
    | nil => exact h
    | append_singleton as a ih =>
      rw [List.all_append, List.all_cons, Bool.and_eq_true, Bool.and_eq_true] at has
      rw [performs_concat]
      exact multi_perform has.2.1 (ih has.1)
  rw [Machine.channelMask] at hi ⊢
  cases hm : p.replay.machine.multi with
  | true =>
    rw [hmulti hm]
    rwa [hm] at hi
  | false =>
    rw [hm] at hi
    refine Nat.le_trans hi ?_
    cases (p.performs as).replay.machine.multi <;> decide

/-- Each effect that actions give to a channel is answered as it should be. -/
def AnswersAll (p : Player) (i : Slot) (as : List Action) : Prop :=
  AtEach (fun as a => ∀ e : Effect, a = .playEffect i.val e.word e.priority →
    (p.performs as).Answers i (effectsOn i as) e) as

/-- So they are if, and only if, none comes behind one with a zero word and a higher
    priority, and then the one that leads waits for the tick. -/
theorem answersAll_iff (hfree : p.Free i) (hi : i.val ≤ p.replay.machine.channelMask.toNat)
    {as : List Action} (has : as.all Action.between = true) :
    (p.AnswersAll i as ↔ AtEach (Undisturbed i) (effectsOn i as)) ∧
      (p.AnswersAll i as → (p.performs as).Holds i (effectsOn i as)) := by
  induction as using List.reverseRecOn with
  | nil =>
    exact ⟨iff_of_true (atEach_nil _) (atEach_nil _),
      fun _ => ⟨fun _ => hfree, fun d hd => absurd hd (not_leads_nil d)⟩⟩
  | append_singleton as a ih =>
    rw [List.all_append, List.all_cons, Bool.and_eq_true, Bool.and_eq_true] at has
    obtain ⟨hiff, hholds⟩ := ih has.1
    rw [AnswersAll, atEach_concat, ← AnswersAll, effectsOn_concat, performs_concat]
    rcases effectOn_cases a i with ⟨hnone, hne⟩ | ⟨e, rfl, he⟩
    · have hchannel := channel_perform (p := p.performs as) has.2.1 hnone
      rw [hnone, List.append_nil, and_iff_left fun e he => absurd he (hne e)]
      refine ⟨hiff, fun hanswers => ?_⟩
      obtain ⟨hfree, hleads⟩ := hholds hanswers
      have hcode : ((p.performs as).perform a).replay.machine.code i =
          (p.performs as).replay.machine.code i := congrArg (·.reservation.code) hchannel
      refine ⟨fun hnil => hcode.trans (hfree hnil), fun d hd => ?_⟩
      rw [hcode, hchannel]
      exact hleads d hd
    · have hsingle : (∀ e' : Effect, Action.playEffect i.val e.word e.priority =
          .playEffect i.val e'.word e'.priority → (p.performs as).Answers i (effectsOn i as) e') ↔
          (p.performs as).Answers i (effectsOn i as) e := by
        refine ⟨fun h => h e rfl, fun h e' he' => ?_⟩
        injection he' with _ hword hpriority
        rw [show e' = e from congrArg₂ Effect.mk hword.symm hpriority.symm]
        exact h
      rw [hsingle, he, atEach_concat]
      have hcall (h : p.AnswersAll i as) :=
        (hholds h).answers_iff (e := e) (le_channelMask_performs hi has.1)
      refine ⟨?_, fun ⟨hall, hanswer⟩ => (hcall hall).2 hanswer⟩
      rw [hiff]
      exact and_congr_right fun hall => (hcall (hiff.2 hall)).1

end Player

/-! ## The next tick -/

/-- The word of an effect names the channel that it is given to. -/
theorem Word.byte2_withByte2 (w : Word) (v : UInt8) : (w.withByte2 v).byte2 = v := by
  rw [← UInt8.toBitVec_inj]
  ext k hk
  simp only [byte2, withByte2]
  interval_cases k <;> simp

namespace Machine

variable {m : Machine} {score : Score} {rate : UInt32} {i : Slot}

theorem channelOf_wordFor (e : Player.Effect) (hi : i.val ≤ m.channelMask.toNat) :
    m.channelOf (e.wordFor i).byte2 = i := by
  have hmask : m.channelMask = 3 ∨ m.channelMask = 7 := by
    rw [channelMask]
    cases m.multi
    · exact .inl rfl
    · exact .inr rfl
  have hlow : (0xf0 : UInt8) &&& m.channelMask = 0 := by
    rcases hmask with h | h <;> rw [h] <;> rfl
  have hthree : ∀ i : Slot, i.val ≤ 3 → Slot.ofNat (UInt8.ofNat i.val &&& 3).toNat = i := by
    decide +kernel
  have hseven : ∀ i : Slot, Slot.ofNat (UInt8.ofNat i.val &&& 7).toNat = i := by
    decide +kernel
  have hand : ∀ b c mask : UInt8, (b ||| c) &&& mask = b &&& mask ||| c &&& mask := fun b c mask =>
    UInt8.toNat_inj.1 (by
      simp only [UInt8.toNat_and, UInt8.toNat_or, Nat.and_or_distrib_right])
  rw [channelOf, Player.Effect.wordFor, Word.byte2_withByte2, hand, UInt8.and_assoc, hlow,
    UInt8.and_zero, UInt8.zero_or]
  rcases hmask with h | h <;> rw [h] at hi ⊢
  · exact hthree i hi
  · exact hseven i

/-- The channel as it has taken its effect: its lock has counted down, and is gone. -/
def effectTaken (i : Slot) (m : Machine) : Machine :=
  (m.onChannel i Channel.countLock).onChannel i Channel.takeCode

/-- In its tick a channel is unlocked and a word comes to it, before its macro has its
    turn. -/
structure PlaysFirst (score : Score) (rate : UInt32) (i : Slot) (w : Word) (m : Machine) :
    Prop where
  takes : (m.onChannel i Channel.countLock).dispatched score (.takeEffect i) =
    some (m.effectTaken i, w)
  unlocked : (m.effectTaken i).channels[i].reservation.lock = 0
  names : (m.effectTaken i).channelOf w.byte2 = i
  tick : m.tickChannel score rate i =
    ((((m.effectTaken i).dispatch score w).takeTurn score i).bend i).loadVoice i rate

/-- It is so if, and only if, the word waits for it and is not zero. -/
theorem playsFirst_iff {w : Word} (hname : m.channelOf w.byte2 = i) :
    m.PlaysFirst score rate i w ↔ m.code i = w.bits ∧ w.bits ≠ 0 := by
  have hcode : (m.onChannel i Channel.countLock).channels[i].reservation.code = m.code i :=
    code_onChannel i Channel.code_countLock
  constructor
  · rintro ⟨htakes, -, -, -⟩
    rw [dispatched] at htakes
    simp only [hcode] at htakes
    split at htakes
    · cases htakes
    · next hne =>
      simp only [Option.some.injEq, Prod.mk.injEq] at htakes
      rw [← htakes.2]
      exact ⟨rfl, hne⟩
  · rintro ⟨hw, hne⟩
    rw [← hw] at hne
    have hword : (⟨m.code i⟩ : Word) = w := congrArg Word.mk hw
    have htaken : (m.effectTaken i).channels[i] =
        (m.onChannel i Channel.countLock).channels[i].takeCode := Octet.getElem_set_self _ _ _
    refine ⟨?_, by rw [htaken]; rfl, hname, ?_⟩
    · rw [dispatched]
      simp only [hcode]
      rw [if_neg hne, hword]
      rfl
    · have htake : (m.onChannel i Channel.countLock).takeEffect score i =
          (m.effectTaken i).dispatch score w := by
        rw [takeEffect]
        simp only [hcode]
        rw [if_neg hne, hword]
        rfl
      rw [tickChannel]
      simp only [htake]

end Machine

namespace Player

variable {p : Player} {i : Slot} {allowed : Player → Action → Prop}

/-- In the next tick the replay is enabled, and as the turn of a channel has come a word
    comes to it first. -/
def NextPlays (p : Player) (i : Slot) (w : Word) : Prop :=
  p.replay.machine.master.enabled = true ∧ ∃ before after,
    Machine.channelOrder p.replay.machine.multi = before ++ i :: after ∧
      Machine.PlaysFirst p.tune.score p.rate i w
        (before.foldl (fun m j => m.tickChannel p.tune.score p.rate j) p.replay.begin.machine)

/-- Whatever the channels before it do in the tick. -/
theorem playsFirst_foldl_iff {m : Machine} (score : Score) (rate : UInt32) {w : Word}
    {before : List Slot} (hbefore : i ∉ before) (hname : m.channelOf w.byte2 = i) :
    Machine.PlaysFirst score rate i w (before.foldl (fun m j => m.tickChannel score rate j) m) ↔
      m.code i = w.bits ∧ w.bits ≠ 0 := by
  have hboard := Machine.board_foldl_tickChannel score rate before m
  have hcode := Machine.code_foldl_tickChannel score rate hbefore m
  generalize before.foldl (fun m j => m.tickChannel score rate j) m = m' at hboard hcode
  have hmulti : m'.multi = m.multi := congrArg (fun b => b.2.1) hboard
  have hname' : m'.channelOf w.byte2 = i := by
    rw [← hname, Machine.channelOf, Machine.channelOf, Machine.channelMask, Machine.channelMask,
      hmulti]
  rw [Machine.playsFirst_iff hname', hcode]

theorem nextPlays_iff {w : Word} (henabled : p.replay.machine.master.enabled = true)
    (hi : i.val ≤ p.replay.machine.channelMask.toNat)
    (hname : p.replay.machine.channelOf w.byte2 = i) :
    p.NextPlays i w ↔ p.replay.machine.code i = w.bits ∧ w.bits ≠ 0 := by
  have hplays {before after : List Slot}
      (h : Machine.channelOrder p.replay.machine.multi = before ++ i :: after) :=
    have hnodup := h ▸ Machine.nodup_channelOrder p.replay.machine.multi
    playsFirst_foldl_iff (m := p.replay.begin.machine) p.tune.score p.rate
      (fun hmem => (List.nodup_append.1 hnodup).2.2 i hmem i List.mem_cons_self rfl) hname
  constructor
  · rintro ⟨-, before, after, h, hfirst⟩
    exact (hplays h).1 hfirst
  · intro hw
    obtain ⟨before, after, h⟩ := List.append_of_mem (Machine.mem_channelOrder_of_le hi)
    exact ⟨henabled, before, after, h, (hplays h).2 hw⟩

/-- Of some effects none with a zero word is leading as one of lower priority comes, or
    at the end. -/
def Audible (i : Slot) (es : List Effect) : Prop :=
  AtEach (Undisturbed i) es ∧ ∀ d, Leads es d → (d.wordFor i).bits ≠ 0

/-- Only on the first channel, and by a word that is zero but for its channel, can an
    effect be inaudible. -/
theorem wordFor_eq_zero_iff {e : Effect} : (e.wordFor i).bits = 0 ↔
    i = 0 ∧ e.word &&& 0xffff00ff = 0 ∧ (⟨e.word⟩ : Word).byte2 &&& 0xf0 = 0 := by
  have hslot : ∀ i : Slot, UInt8.ofNat i.val = 0 → i = 0 := by decide
  constructor
  · intro h
    have hbyte : (e.wordFor i).byte2 = 0 := by
      rw [Word.byte2, h]
      rfl
    rw [Effect.wordFor, Word.byte2_withByte2, UInt8.or_eq_zero_iff] at hbyte
    rw [Effect.wordFor, Word.withByte2, UInt32.or_eq_zero_iff] at h
    exact ⟨hslot i hbyte.2, h.1, hbyte.1⟩
  · rintro ⟨rfl, hword, hbyte⟩
    rw [Effect.wordFor, hbyte, Word.withByte2, hword]
    rfl

/-- On all other channels every effect is audible. -/
theorem audible_of_ne_zero (hi : i ≠ 0) (es : List Effect) : Audible i es :=
  ⟨fun _ _ _ _ _ hzero => absurd (wordFor_eq_zero_iff.1 hzero).1 hi,
    fun _ _ hzero => hi (wordFor_eq_zero_iff.1 hzero).1⟩

theorem Reachable.performs (h : Reachable AtWill p) : ∀ as : List Action,
    Reachable AtWill (p.performs as) := by
  intro as
  induction as using List.reverseRecOn with
  | nil => exact h
  | append_singleton as a ih =>
    rw [performs_concat]
    exact ih.perform a trivial

/-- Between two ticks each effect that is given to a channel is answered as it should
    be, and in the next tick the one that leads comes to the channel first, with its
    number in the word: so it is if, and only if, the effects are audible, as they always
    are on the channels behind the first one.  No effect waits after a tick, be it
    rendered alone or for a buffer. -/
theorem Reachable.effects_law (h : Reachable AtWill p) :
    (∀ i, p.tick.Free i) ∧
      (∀ n loops out q, p.fill n loops = some (.ok (out, q)) →
        q.replay = p.replay ∨ ∀ i, q.Free i) ∧
      ∀ (i : Slot) (as : List Action), p.Free i →
        i.val ≤ p.replay.machine.channelMask.toNat → as.all Action.between = true →
        effectsOn i as ≠ [] →
          ((p.AnswersAll i as ∧
              ∃ e, Leads (effectsOn i as) e ∧ (p.performs as).NextPlays i (e.wordFor i)) ↔
            Audible i (effectsOn i as)) ∧
          (i ≠ 0 → Audible i (effectsOn i as)) := by
  refine ⟨free_tick h.playing h.inert.1, fun n loops out q hf =>
    (fill_eq_ok_iff.1 hf).free h.playing h.inert.1, fun i as hfree hi has hne =>
      ⟨?_, fun hzero => audible_of_ne_zero hzero _⟩⟩
  obtain ⟨hiff, hholds⟩ := answersAll_iff hfree hi has
  have hmask := le_channelMask_performs hi has
  have hplays (e : Effect) : (p.performs as).NextPlays i (e.wordFor i) ↔
      (p.performs as).replay.machine.code i = (e.wordFor i).bits ∧ (e.wordFor i).bits ≠ 0 :=
    nextPlays_iff (h.performs as).playing.enabled hmask (Machine.channelOf_wordFor e hmask)
  constructor
  · rintro ⟨hanswers, e, he, hnext⟩
    refine ⟨hiff.1 hanswers, fun d hd => ?_⟩
    rw [hd.unique he]
    exact ((hplays e).1 hnext).2
  · rintro ⟨hundisturbed, hlast⟩
    have hanswers := hiff.2 hundisturbed
    obtain ⟨e, he⟩ := exists_leads hne
    exact ⟨hanswers, e, he, (hplays e).2 ⟨((hholds hanswers).leads e he).1, hlast e he⟩⟩

theorem three_le_channelMask (m : Machine) : 3 ≤ m.channelMask.toNat := by
  unfold Machine.channelMask
  split <;> decide

/-- An effect that tops all others leads, if it comes first. -/
theorem leads_cons {e : Effect} {es : List Effect} (h : ∀ d ∈ es, d.priority < e.priority) :
    Leads (e :: es) e := by
  refine ⟨0, rfl, nofun, fun j d hj hd htops => ?_⟩
  obtain ⟨j, rfl⟩ := Nat.exists_eq_succ_of_ne_zero (Nat.pos_iff_ne_zero.1 hj)
  rw [List.getElem?_cons_succ] at hd
  have hlt := h d (List.mem_of_getElem? hd)
  exact UInt32.not_lt.2 (htops e List.mem_cons_self) hlt

/-- Of two effects that are given to channel 1 after a tick the more important one is
    played, though it came first. -/
theorem effects_shortTune : ∃ tune p, load shortTune (some ⟨#[]⟩) = .ok tune ∧
    Player.new tune minRate = .ok p ∧
    ∃ as : List Action, as = [.playEffect 1 0x20000000 5, .drain, .playEffect 1 0x21000000 2] ∧
      Reachable AtWill p.tick ∧ p.tick.Free 1 ∧ effectsOn 1 as ≠ [] ∧ p.tick.AnswersAll 1 as ∧
      (p.tick.performs as).NextPlays 1 ⟨0x20000100⟩ := by
  obtain ⟨tune, p, hload, hnew, -, -⟩ := exists_shortTune
  have hp : Reachable AtWill p := .new hnew
  have ht : Reachable AtWill p.tick := hp.perform .tick trivial
  obtain ⟨hfree, -, -⟩ := Reachable.effects_law hp
  obtain ⟨-, -, hlaw⟩ := Reachable.effects_law ht
  have hmask : (1 : Slot).val ≤ p.tick.replay.machine.channelMask.toNat :=
    Nat.le_trans (by decide) (three_le_channelMask _)
  have hne : effectsOn 1 [.playEffect 1 0x20000000 5, .drain, .playEffect 1 0x21000000 2] ≠ [] :=
    List.cons_ne_nil _ _
  obtain ⟨hiff, haudible⟩ := hlaw 1 _ (hfree 1) hmask rfl hne
  obtain ⟨hanswers, e, he, hnext⟩ := hiff.2 (haudible (by decide))
  have hleads : Leads [⟨0x20000000, 5⟩, ⟨0x21000000, 2⟩] ⟨0x20000000, 5⟩ :=
    leads_cons fun d hd => by
      obtain rfl := List.mem_singleton.1 hd
      decide
  obtain rfl := hleads.unique he
  exact ⟨tune, p, hload, hnew, _, rfl, ht, hfree 1, hne, hanswers, hnext⟩

/-- An effect with a zero word is accepted on the first channel, but it is not played
    there, and one of lower priority is accepted behind it. -/
theorem forgets_shortTune : ∃ tune p, load shortTune (some ⟨#[]⟩) = .ok tune ∧
    Player.new tune minRate = .ok p ∧ Reachable AtWill p.tick ∧ p.tick.Free 0 ∧
    (p.tick.playEffect 0 0 10).1 = true ∧
    ((p.tick.perform (.playEffect 0 0 10)).playEffect 0 0x01000000 1).1 = true ∧
    Leads [⟨0, 10⟩] ⟨0, 10⟩ ∧
    ¬p.tick.AnswersAll 0 [.playEffect 0 0 10, .playEffect 0 0x01000000 1] ∧
    ¬(p.tick.performs [.playEffect 0 0 10]).NextPlays 0 ((⟨0, 10⟩ : Effect).wordFor 0) := by
  obtain ⟨tune, p, hload, hnew, -, -⟩ := exists_shortTune
  have hp : Reachable AtWill p := .new hnew
  have ht : Reachable AtWill p.tick := hp.perform .tick trivial
  have hfree : p.tick.Free 0 := free_tick hp.playing hp.inert.1 0
  have hmask (q : Player) : (0 : Slot).val ≤ q.replay.machine.channelMask.toNat := Nat.zero_le _
  have hzero : ((⟨0, 10⟩ : Effect).wordFor 0).bits = 0 := by decide
  have hfirst := playEffect_on ⟨0, 10⟩ (hmask p.tick)
  rw [if_neg fun hrefused => hrefused.1 hfree] at hfirst
  have hcode : (p.tick.perform (.playEffect 0 0 10)).replay.machine.code 0 = 0 := by
    have hperform : p.tick.perform (.playEffect 0 0 10) = _ := congrArg Prod.snd hfirst
    rw [hperform, Machine.code, channel_reserve]
    exact hzero
  have hsecond := playEffect_on ⟨0x01000000, 1⟩ (hmask (p.tick.perform (.playEffect 0 0 10)))
  rw [if_neg fun hrefused => hrefused.1 hcode] at hsecond
  have hleads : Leads [⟨0, 10⟩] ⟨0, 10⟩ := leads_cons nofun
  have haccepted := congrArg Prod.fst hsecond
  refine ⟨tune, p, hload, hnew, ht, hfree, congrArg Prod.fst hfirst, haccepted, hleads,
    fun hanswers => ?_, fun hnext => ?_⟩
  · have hrefused := (hanswers 1 _ rfl ⟨0x01000000, 1⟩ rfl).2 ⟨_, hleads, by decide⟩
    exact Bool.noConfusion (haccepted.symm.trans hrefused)
  · have henabled := (ht.performs [.playEffect 0 0 10]).playing.enabled
    have hname := Machine.channelOf_wordFor ⟨0, 10⟩ (hmask (p.tick.performs [.playEffect 0 0 10]))
    exact ((nextPlays_iff henabled (hmask _) hname).1 hnext).2 hzero

end Player

end PaulaReplay
