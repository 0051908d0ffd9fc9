/-
  Backlog: which notices a host gets that takes them now and then.

  Beside the queue, in which the oldest notice makes room for the newest, goes the list of
  all that was told since the host took some: it has no limit, and the queue is its end.

  * `Machine.Act`: what is done to the notices of a machine; between any two acts all else
    about it may change; `Act.told`: what an act tells the host, `Machine.after` the
    machine after some acts;
  * `Machine.untaken`: what they tell the host that it does not take in them;
  * `enqueue_rtake`, `notices_apply`, `notices_after`: the queue is the end of that list;
    `Machine.backlog_law`: so a host loses nothing but the oldest notices;
  * `Replay.exists_acts_apply`, `Player.Reachable.exists_acts`: the notices of all players
    that a host comes to are those of such acts; `Player.Reachable.length_drain_le`: so
    they never are too many.
-/
import Mathlib.Data.List.DropRight
import PaulaReplay.Proofs.Announcements

namespace PaulaReplay

/-! ## The end of a list -/

section Rtake

variable {α : Type}

theorem length_rtake (xs : List α) (n : Nat) : (xs.rtake n).length = min n xs.length := by
  rw [List.rtake, List.length_drop]
  omega

theorem rtake_of_length_le {xs : List α} {n : Nat} (h : xs.length ≤ n) : xs.rtake n = xs := by
  rw [List.rtake, Nat.sub_eq_zero_of_le h, List.drop_zero]

/-- What is longer than its end begins with one thing more. -/
theorem tail_rtake {xs : List α} {n : Nat} (h : n < xs.length) :
    (xs.rtake (n + 1)).tail = xs.rtake n := by
  rw [List.rtake, List.rtake, List.tail_drop]
  congr 1
  omega

end Rtake

/-- The end of a list with one more notice is the queue of its end with it. -/
theorem enqueue_rtake (ns : List Notice) (n : Notice) :
    enqueue (ns.rtake noticeLimit) n = (ns ++ [n]).rtake noticeLimit := by
  have hlimit : noticeLimit = 63 + 1 := rfl
  rw [enqueue, length_rtake, hlimit, List.rtake_concat_succ]
  congr 1
  split
  · next hfull => exact tail_rtake (by omega)
  · next hroom => rw [rtake_of_length_le (by omega), rtake_of_length_le (by omega)]

/-! ## Acts -/

/-- What is done to the notices of a machine. -/
inductive Machine.Act where
  /-- The host is told something. -/
  | notify (n : Notice)
  /-- The song has come to its end. -/
  | reachEnd
  /-- The host takes the notices. -/
  | drain
  /-- Nothing: all else becomes that of another machine. -/
  | become (m : Machine)
deriving DecidableEq

namespace Machine

/-- What an act does. -/
def Act.apply (m : Machine) : Act → Machine
  | .notify n => m.notify n
  | .reachEnd => m.reachEnd
  | .drain => m.drain.2
  | .become m' => { m' with notices := m.notices }

/-- What an act tells the host; of the end of the song only the first one in a tick does. -/
def Act.told (m : Machine) : Act → List Notice
  | .notify n => [n]
  | .reachEnd => if m.master.ended then [] else [.ended]
  | .drain | .become _ => []

/-- The machine after some acts. -/
def after (acts : List Act) (m : Machine) : Machine := acts.foldl Act.apply m

/-- What some acts tell the host, the oldest first, that it does not take in them. -/
def untaken : List Act → Machine → List Notice
  | [], _ => []
  | act :: acts, m => (if .drain ∈ acts then [] else act.told m) ++ untaken acts (act.apply m)

variable {m : Machine} {ns : List Notice}

theorem after_append (acts acts' : List Act) (m : Machine) :
    m.after (acts ++ acts') = (m.after acts).after acts' := List.foldl_append

/-- An act brings the queue on as the list that has no limit. -/
theorem notices_apply (h : m.notices = ns.rtake noticeLimit) (act : Act) :
    (act.apply m).notices =
      ((if act = .drain then [] else ns) ++ act.told m).rtake noticeLimit := by
  cases act with
  | notify n =>
    show enqueue m.notices n = _
    rw [h, enqueue_rtake]
    rfl
  | reachEnd =>
    show m.reachEnd.notices = _
    rw [reachEnd, Act.told]
    split
    · rw [List.append_nil]
      exact h
    · show enqueue m.notices .ended = _
      rw [h, enqueue_rtake]
      rfl
  | drain => exact (List.rtake_nil _).symm
  | become m' =>
    rw [Act.told, List.append_nil]
    exact h

/-- So do some of them: what came before is in it until the host takes it. -/
theorem notices_after : ∀ (acts : List Act) {m : Machine} {ns : List Notice},
    m.notices = ns.rtake noticeLimit → (m.after acts).notices =
      ((if .drain ∈ acts then [] else ns) ++ untaken acts m).rtake noticeLimit
  | [], m, ns, h => by
    rw [untaken, List.append_nil]
    exact h
  | act :: acts, m, ns, h => by
    refine (notices_after acts (notices_apply h act)).trans ?_
    rw [untaken, ← List.append_assoc]
    congr 2
    by_cases hlater : Act.drain ∈ acts
    · rw [if_pos hlater, if_pos hlater, if_pos (List.mem_cons_of_mem _ hlater)]
      rfl
    · rw [if_neg hlater, if_neg hlater]
      by_cases hact : act = .drain
      · rw [if_pos hact, if_pos (by rw [hact]; exact List.mem_cons_self)]
      · have hnone : Act.drain ∉ act :: acts := fun hmem =>
          (List.mem_cons.1 hmem).elim (fun he => hact he.symm) hlater
        rw [if_neg hact, if_neg hnone]

/-- The queue of a new machine is the end of what the host has not taken. -/
theorem notices_after_new (multi : Bool) (acts : List Act) :
    (after acts { multi }).notices = (untaken acts { multi }).rtake noticeLimit := by
  have hnew : ({ multi } : Machine).notices = [].rtake noticeLimit := (List.rtake_nil _).symm
  have h := notices_after acts hnew
  rwa [ite_self, List.nil_append] at h

/-- Whatever is done to the notices of a machine from its beginning on, there is a limit to
    how many of them wait.  A host that takes them gets the last ones that were told since
    it took some before, as many as the limit if there are so many, each of them once and in
    their order; what it has lost came before them, and none is left. -/
theorem backlog_law (multi : Bool) (acts : List Act) :
    let m := after acts { multi }
    m.notices.length ≤ noticeLimit ∧
      (∃ lost, untaken acts { multi } = lost ++ m.drain.1) ∧
      m.drain.1.length = min noticeLimit (untaken acts { multi }).length ∧
      m.drain.2 = { m with notices := [] } := by
  intro m
  have hnotices : m.notices = (untaken acts { multi }).rtake noticeLimit :=
    notices_after_new multi acts
  have hlength : m.notices.length = min noticeLimit (untaken acts { multi }).length := by
    rw [hnotices, length_rtake]
  refine ⟨?_, ⟨(untaken acts { multi }).rdrop noticeLimit, ?_⟩, hlength, rfl⟩
  · rw [hlength]
    exact Nat.min_le_left _ _
  · show _ = _ ++ m.notices
    rw [hnotices]
    exact (List.take_append_drop _ _).symm

/-- A host that takes the notices after a hundred of them has lost the first ones. -/
example : (after ((List.range 100).map fun k => .notify (.position (UInt16.ofNat k)))
    {}).drain.1.head? = some (.position 36) := by decide +kernel

/-! ## Players -/

/-- Where nothing happens to the notices but that some come, there are such acts. -/
theorem exists_acts_of_enqueue {m m' : Machine} (ns : List Notice)
    (h : m'.notices = ns.foldl enqueue m.notices) : ∃ acts, m' = m.after acts := by
  have hnotify : ∀ (ns : List Notice) (m : Machine),
      (m.after (ns.map .notify)).notices = ns.foldl enqueue m.notices := by
    intro ns
    induction ns with
    | nil => exact fun _ => rfl
    | cons n ns ih => exact fun m => ih (m.notify n)
  refine ⟨ns.map .notify ++ [.become m'], ?_⟩
  rw [after_append]
  show m' = { m' with notices := _ }
  rw [hnotify, ← h]

theorem exists_acts_of_nil {m' : Machine} (h : m'.notices = []) (m : Machine) :
    ∃ acts, m' = m.after acts := by
  refine ⟨[.drain, .become m'], ?_⟩
  show m' = { m' with notices := [] }
  rw [← h]

end Machine

namespace Replay

theorem notices_foldl_hear (ns : List Notice) : ∀ t : Tidings,
    (ns.foldl Tidings.hear t).notices = ns.foldl enqueue t.notices := by
  induction ns with
  | nil => exact fun _ => rfl
  | cons n ns ih =>
    intro t
    refine (ih (t.hear n)).trans (congrArg (ns.foldl enqueue) ?_)
    cases n <;> rfl

/-- No move does anything else to the notices. -/
theorem exists_acts_apply (score : Score) (rate : UInt32) (r : Replay) (mv : Move) :
    ∃ acts, (mv.apply score rate r).machine = r.machine.after acts := by
  cases hmv : mv.seeks with
  | false =>
    rcases news_apply score rate r hmv with hnil | ⟨ns, hns⟩
    · exact Machine.exists_acts_of_nil hnil _
    · refine Machine.exists_acts_of_enqueue ns ?_
      refine (congrArg (fun t => t.2.2) hns).trans ?_
      exact notices_foldl_hear ns r.tidings
  | true =>
    cases mv with
    | aim position e =>
      refine Machine.exists_acts_of_enqueue [] ?_
      rw [Move.apply, aim]
      simp only
      split <;> rfl
    | announce speed => exact Machine.exists_acts_of_enqueue [.speed speed, _] rfl
    | _ => cases hmv

end Replay

namespace Player

variable {allowed : Player → Action → Prop} {p : Player}

/-- The machine of a player comes from a new one by such acts. -/
theorem Reachable.exists_acts (h : Reachable allowed p) :
    ∃ (multi : Bool) (acts : List Machine.Act),
      p.replay.machine = Machine.after acts { multi } := by
  refine h.replay_keeps
    (P := fun r => ∃ (multi : Bool) (acts : List Machine.Act),
      r.machine = Machine.after acts { multi })
    (fun multi => ⟨multi, [], rfl⟩) ?_
  rintro score rate r mv ⟨multi, acts, hr⟩
  obtain ⟨acts', hacts'⟩ := r.exists_acts_apply score rate mv
  exact ⟨multi, acts ++ acts', by rw [hacts', hr, Machine.after_append]⟩

/-- So a host never gets more than so many notices at once. -/
theorem Reachable.length_drain_le (h : Reachable allowed p) : p.drain.1.length ≤ noticeLimit := by
  obtain ⟨multi, acts, hacts⟩ := h.exists_acts
  show p.replay.machine.notices.length ≤ noticeLimit
  rw [hacts, Machine.notices_after_new, length_rtake]
  exact Nat.min_le_left _ _

end Player

end PaulaReplay
