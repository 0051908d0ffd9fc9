/-
  Rounds: how often a loop command is obeyed before the song goes on behind it.

  Playback and a survey count a loop each in their own way through the song: the
  one over many searches for a track step that plays patterns, the other in one
  pass.  What they have in common is a tour: a walk from position to position
  with a counter of jumps.

  * `Tour`: the steps of a walk; `Tour.turns`: where the visits at a position
    lead, and the jumps that they leave;
  * `Tour.Loops`: the laws of a tour on its way to a loop command and at it;
    `Tour.Leg`: some steps that do not go past that command;
  * `Tour.Loops.stride`, `Tour.Loops.exists_leg`: on to the command, and round
    and round until it lets the tour pass;
  * `Score.OneLoop`: the only loop command of a sub-song, which jumps back;
  * `Survey.loops_tour` and `Replay.loops_tour`: both keep the laws;
  * `Score.OneLoop.repeats`: so both jump back as often, once more than the command
    counts.
-/
import Mathlib.Data.List.Iterate
import PaulaReplay.Proofs.Itinerary
import PaulaReplay.Proofs.Ranges
import PaulaReplay.Proofs.Settling
import PaulaReplay.Proofs.Store

namespace PaulaReplay

/-! ## Tours -/

/-- A walk from position to position, with the jumps that a loop still makes. -/
structure Tour (σ : Type) where
  step : σ → σ
  position : σ → Nat
  jumps : σ → Int16

/-- What a loop command does `n` times and then once: it jumps to its target, and
    goes on behind it. -/
def Tour.laps (target beyond n : Nat) : List (Nat × Int) :=
  (List.range n).reverse.map (fun j => (target, (j : Int))) ++ [(beyond, -1)]

theorem toNat_add_one {a : UInt16} (h : a.toNat < 0xffff) : (a + 1).toNat = a.toNat + 1 := by
  rw [UInt16.toNat_add]
  exact Nat.mod_eq_of_lt (by show a.toNat + 1 < 65536; omega)

theorem toInt_toInt16 {a : UInt16} (h : a.toNat < 0x8000) : a.toInt16.toInt = a.toNat := by
  show (BitVec.toInt a.toBitVec) = _
  rw [BitVec.toInt_eq_toNat_of_lt (by show 2 * a.toNat < _; omega)]
  rfl

/-- A loop command jumps as often as the counter says, or once more than it counts
    itself where the counter is unset. -/
theorem StepCommand.jumpsLeft_loop {jumps : Int16} (target : UInt16) {count : UInt16} {n : Nat}
    (hcount : count ≤ 1000)
    (h : jumps.toInt = n + 1 ∨ jumps.toInt = -1 ∧ n = count.toNat) :
    jumps ≠ 0 ∧ ((StepCommand.loop target count).jumpsLeft jumps).toInt = n := by
  have hcount : count.toNat ≤ 1000 := UInt16.le_iff_toNat_le.1 hcount
  have hne : jumps ≠ 0 := by
    rintro rfl
    have hzero : (0 : Int16).toInt = 0 := rfl
    omega
  have hsub : (jumps - 1).toInt = jumps.toInt - 1 := toInt_sub_one (by omega)
  have hzero : (0 : Int16).toInt = 0 := rfl
  refine ⟨hne, ?_⟩
  rw [jumpsLeft, if_neg hne]
  split
  · next hfresh =>
    rw [Int16.lt_iff_toInt_lt, hsub, hzero] at hfresh
    have htoInt : count.toInt16.toInt = count.toNat := toInt_toInt16 (by omega)
    omega
  · next hfresh =>
    rw [Int16.lt_iff_toInt_lt, hsub, hzero] at hfresh
    omega

/-- A counter that is not used up is unset, or counts some jumps. -/
theorem exists_jumps {jumps : Int16} (count : Nat) (h : -1 ≤ jumps.toInt) (hne : jumps ≠ 0) :
    ∃ n : Nat, jumps.toInt = n + 1 ∨ jumps.toInt = -1 ∧ n = count := by
  have hne : jumps.toInt ≠ 0 := fun hzero => hne (Int16.toInt_inj.1 hzero)
  by_cases hunset : jumps.toInt = -1
  · exact ⟨_, .inr ⟨hunset, rfl⟩⟩
  · exact ⟨(jumps.toInt - 1).toNat, .inl (by omega)⟩

theorem StepCommand.le_jumpsLeft_loop {jumps : Int16} (target : UInt16) {count : UInt16}
    (hcount : count ≤ 1000) (h : -1 ≤ jumps.toInt) :
    -1 ≤ ((StepCommand.loop target count).jumpsLeft jumps).toInt := by
  by_cases hzero : jumps = 0
  · rw [jumpsLeft, if_pos hzero]
    exact jumps_none.1
  · obtain ⟨n, hn⟩ := exists_jumps count.toNat h hzero
    rw [(jumpsLeft_loop target hcount hn).2]
    omega

namespace Tour

variable {σ : Type} {C : Tour σ} {inv : σ → Prop} {x y : σ} {m n loopAt beyond : Nat}
  {target count : UInt16} {out : List (Nat × Int)}

/-- Where the visits at a position lead, with the jumps that are left then. -/
def turns (C : Tour σ) (loopAt : Nat) (xs : List σ) : List (Nat × Int) :=
  (xs.filter fun x => C.position x = loopAt).map fun x =>
    (C.position (C.step x), (C.jumps (C.step x)).toInt)

/-- The laws of a tour up to a loop command: it goes on from position to position,
    and the command counts the jumps to its target. -/
structure Loops (C : Tour σ) (inv : σ → Prop) (target count : UInt16) (loopAt beyond : Nat) :
    Prop where
  back : target.toNat ≤ loopAt
  counts : count ≤ 1000
  walks : ∀ x, inv x → C.position x < loopAt → inv (C.step x) ∧
    C.position (C.step x) = C.position x + 1 ∧ C.jumps (C.step x) = C.jumps x
  obeys : ∀ x, inv x → C.position x = loopAt →
    C.jumps (C.step x) = (StepCommand.loop target count).jumpsLeft (C.jumps x) ∧
      (C.jumps x = 0 → C.position (C.step x) = beyond) ∧
      (C.jumps x ≠ 0 → inv (C.step x) ∧ C.position (C.step x) = target.toNat)

/-- From `x` on `n` steps are made that do not begin behind the loop command, and
    lead to `y`; `out` are the turns at the command. -/
structure Leg (C : Tour σ) (inv : σ → Prop) (loopAt n : Nat) (x : σ) (out : List (Nat × Int))
    (y : σ) : Prop where
  ends : C.step^[n] x = y
  within : ∀ z ∈ List.iterate C.step x n, inv z ∧ C.position z ≤ loopAt
  turns : C.turns loopAt (List.iterate C.step x n) = out

/-- The steps of a tour that is to make `n` jumps at the loop command, from `d`
    positions before it. -/
def steps (target loopAt d n : Nat) : Nat := d + 1 + n * (loopAt - target + 1)

theorem turns_append (xs ys : List σ) :
    C.turns loopAt (xs ++ ys) = C.turns loopAt xs ++ C.turns loopAt ys := by
  rw [Tour.turns, List.filter_append, List.map_append]
  rfl

theorem laps_succ (target beyond n : Nat) :
    laps target beyond (n + 1) = (target, (n : Int)) :: laps target beyond n := by
  unfold laps
  rw [List.range_succ, List.reverse_append]
  rfl

theorem Leg.nil (C : Tour σ) (inv : σ → Prop) (loopAt : Nat) (x : σ) :
    C.Leg inv loopAt 0 x [] x := ⟨rfl, nofun, rfl⟩

/-- Legs in a row are a leg. -/
theorem Leg.append {z : σ} {out' : List (Nat × Int)} (h : C.Leg inv loopAt m x out y)
    (h' : C.Leg inv loopAt n y out' z) : C.Leg inv loopAt (m + n) x (out ++ out') z := by
  have hsplit : List.iterate C.step x (m + n) =
      List.iterate C.step x m ++ List.iterate C.step y n := by
    rw [List.iterate_add, h.ends]
  refine ⟨?_, ?_, ?_⟩
  · rw [Nat.add_comm, Function.iterate_add_apply, h.ends, h'.ends]
  · rw [hsplit]
    exact fun z hz => (List.mem_append.1 hz).elim (h.within z) (h'.within z)
  · rw [hsplit, turns_append, h.turns, h'.turns]

/-- One step is a leg. -/
theorem Leg.one (hinv : inv x) (hle : C.position x ≤ loopAt) :
    C.Leg inv loopAt 1 x (C.turns loopAt [x]) (C.step x) := by
  refine ⟨rfl, fun z hz => ?_, rfl⟩
  rw [List.mem_singleton.1 hz]
  exact ⟨hinv, hle⟩

theorem turns_of_ne {xs : List σ} (h : ∀ x ∈ xs, C.position x ≠ loopAt) :
    C.turns loopAt xs = [] := by
  rw [turns, List.filter_eq_nil_iff.2 fun x hx => by simpa using h x hx]
  rfl

theorem turns_of_eq (h : C.position x = loopAt) :
    C.turns loopAt [x] = [(C.position (C.step x), (C.jumps (C.step x)).toInt)] := by
  rw [turns, List.filter_cons_of_pos (by simpa using h)]
  rfl

namespace Loops

/-- From a position before the loop command the tour comes to it. -/
theorem stride (h : C.Loops inv target count loopAt beyond) : ∀ (d : Nat) (x : σ), inv x →
    C.position x + d = loopAt → ∃ y, C.Leg inv loopAt d x [] y ∧ inv y ∧
      C.position y = loopAt ∧ C.jumps y = C.jumps x
  | 0, x, hinv, hd => ⟨x, .nil C inv loopAt x, hinv, hd, rfl⟩
  | d + 1, x, hinv, hd => by
    have hlt : C.position x < loopAt := by omega
    obtain ⟨hinv', hposition, hjumps⟩ := h.walks x hinv hlt
    obtain ⟨y, hleg, hy, hat, hleft⟩ := h.stride d (C.step x) hinv' (by omega)
    have hone := Leg.one hinv hlt.le
    rw [turns_of_ne fun z hz => List.mem_singleton.1 hz ▸ hlt.ne] at hone
    exact ⟨y, Nat.add_comm 1 d ▸ hone.append hleg, hy, hat, hleft.trans hjumps⟩

/-- A tour comes to the loop command, jumps back as often as the counter says, or
    once more than the command counts where it is unset, and then goes on behind
    it, with the counter unset. -/
theorem exists_leg (h : C.Loops inv target count loopAt beyond) : ∀ (n d : Nat) (x : σ), inv x →
    C.position x + d = loopAt →
    ((C.jumps x).toInt = n ∨ (C.jumps x).toInt = -1 ∧ n = count.toNat + 1) →
    ∃ y, C.Leg inv loopAt (steps target.toNat loopAt d n) x (laps target.toNat beyond n) y ∧
      C.position y = beyond ∧ (C.jumps y).toInt = -1 := by
  intro n
  induction n with
  | zero =>
    intro d x hinv hd hleft
    obtain ⟨y, hleg, hy, hat, hjumps⟩ := h.stride d x hinv hd
    have hzero : C.jumps y = 0 :=
      Int16.toInt_inj.1 (by rw [hjumps]; exact hleft.resolve_right (by omega))
    obtain ⟨hnone, hpasses, -⟩ := h.obeys y hy hat
    have hposition := hpasses hzero
    have hnone : (C.jumps (C.step y)).toInt = -1 := by
      rw [hnone, hzero]
      rfl
    have hone := Leg.one hy hat.le
    rw [turns_of_eq hat, hposition, hnone] at hone
    have hsteps : steps target.toNat loopAt d 0 = d + 1 := by simp [steps]
    exact ⟨C.step y, hsteps ▸ hleg.append hone, hposition, hnone⟩
  | succ n ih =>
    intro d x hinv hd hleft
    obtain ⟨y, hleg, hy, hat, hjumps⟩ := h.stride d x hinv hd
    obtain ⟨hleft', -, hback⟩ := h.obeys y hy hat
    have hturns : (C.jumps y).toInt = n + 1 ∨ (C.jumps y).toInt = -1 ∧ n = count.toNat := by
      rw [hjumps]
      omega
    obtain ⟨hne, hcount⟩ := StepCommand.jumpsLeft_loop target h.counts hturns
    obtain ⟨hinv', hposition⟩ := hback hne
    rw [← hleft'] at hcount
    have hle := h.back
    obtain ⟨z, hrest, hz, hend⟩ := ih (loopAt - target.toNat) (C.step y) hinv' (by omega)
      (.inl hcount)
    have hone := Leg.one hy hat.le
    rw [turns_of_eq hat, hposition, hcount] at hone
    have hsteps : steps target.toNat loopAt d (n + 1) =
        d + 1 + steps target.toNat loopAt (loopAt - target.toNat) n := by
      unfold steps
      rw [Nat.succ_mul]
      omega
    refine ⟨z, ?_, hz, hend⟩
    rw [hsteps, laps_succ]
    exact (hleg.append hone).append hrest

end Loops

end Tour

/-! ## The only loop -/

namespace Score

variable {score : Score} {song : SubSong} {position target count : UInt16}

/-- A sub-song has one loop command, which jumps back, and ends after some jumps. -/
structure OneLoop (score : Score) (song : SubSong) (position target count : UInt16) : Prop where
  command : score.command? position = some (.loop target count)
  first_le : song.first ≤ target
  target_lt : target < position
  le_last : position ≤ song.last
  only : ∀ q, song.first ≤ q → q ≤ song.last → q ≠ position →
    ∀ target' count', score.command? q ≠ some (.loop target' count')
  counts : 1 ≤ count ∧ count ≤ 1000

/-- Before a track step there are others. -/
theorem trackStep?_of_le {q : UInt16} (h : (score.trackStep? position).isSome)
    (hle : q ≤ position) : (score.trackStep? q).isSome := by
  have hle : q.toNat ≤ position.toNat := UInt16.le_iff_toNat_le.1 hle
  unfold trackStep? at h ⊢
  split
  · rfl
  · next hq =>
    rw [Array.getElem?_eq_none_iff] at hq
    rw [Array.getElem?_eq_none (by omega)] at h
    rw [Option.isSome_iff_ne_none, ne_eq, trackStepAt?_eq_none_iff] at h ⊢
    omega

/-- At the other positions up to the loop command a command that is no stop goes on
    to the next one. -/
theorem OneLoop.goesOn (h : score.OneLoop song position target count) {q : UInt16}
    {c : StepCommand} (hfirst : song.first ≤ q) (hlt : q < position)
    (hc : score.command? q = some c) (hstop : c ≠ .stop) (jumps : Int16) :
    c.goesOn jumps = true ∧ c.jumpsLeft jumps = jumps := by
  cases c with
  | stop => exact absurd rfl hstop
  | loop target' count' =>
    exact absurd hc (h.only q hfirst (UInt16.le_trans (UInt16.le_of_lt hlt) h.le_last)
      (UInt16.ne_of_lt hlt) _ _)
  | speed | timeShare | fade | idle => exact ⟨rfl, rfl⟩

end Score

/-! ### Surveys -/

namespace Survey

variable {score : Score} {song : SubSong} {position target count : UInt16} {s s' : Survey}

/-- The tour of a survey of a sub-song that begins at `first`. -/
def tour (score : Score) (first : Nat) : Tour Survey where
  step s := (s.step score first).1
  position := Survey.position
  jumps := trackLoop

/-- A survey comes to all positions of its way, for as long as it goes on. -/
theorem trail_add (score : Score) (song : SubSong) (m : Nat) : ∀ (n : Nat) (s : Survey),
    (∀ z ∈ List.iterate (tour score song.first.toNat).step s n,
      z.position ≤ song.last.toNat ∧ (z.step score song.first.toNat).2 = true) →
    trail score song (n + m) s = List.iterate (tour score song.first.toNat).step s n ++
      trail score song m ((tour score song.first.toNat).step^[n] s)
  | 0, s, _ => by rw [Nat.zero_add]; rfl
  | n + 1, s, h => by
    obtain ⟨hle, hgoes⟩ := h s (List.mem_cons_self ..)
    have hrest := trail_add score song m n _ fun z hz => h z (List.mem_cons_of_mem _ hz)
    rw [Nat.add_right_comm, trail_succ hle, if_pos hgoes]
    exact congrArg (s :: ·) hrest

/-- A loop command is obeyed that ends after some jumps. -/
theorem exists_obey_loop (target : UInt16) (hcount : 1 ≤ count ∧ count ≤ 1000)
    (hjumps : -1 ≤ s.trackLoop.toInt) :
    ∃ s', s.obey (.loop target count) = some s' := by
  rw [obey, loop]
  extract_lets fresh left
  by_cases hzero : s.trackLoop = 0
  · exact ⟨_, if_pos hzero⟩
  · rw [if_neg hzero]
    have hcount' : 1 ≤ count.toNat ∧ count.toNat ≤ 1000 :=
      hcount.imp UInt16.le_iff_toNat_le.1 UInt16.le_iff_toNat_le.1
    obtain ⟨n, hn⟩ := exists_jumps count.toNat hjumps hzero
    have hleft : left.toInt = n := by
      have h := (StepCommand.jumpsLeft_loop target hcount.2 hn).2
      rwa [StepCommand.jumpsLeft, if_neg hzero] at h
    have hfresh : fresh → n = count.toNat := fun h => by
      have h : (s.trackLoop - 1).toInt < 0 := Int16.lt_iff_toInt_lt.1 h
      rw [toInt_sub_one (by omega)] at h
      omega
    have hsome : ¬(fresh ∧ (left = 0 ∨ 1000 < left)) := by
      rintro ⟨hf, h | h⟩
      · have h : left.toInt = 0 := congrArg Int16.toInt h
        have := hfresh hf
        omega
      · have h : 1000 < left.toInt := Int16.lt_iff_toInt_lt.1 h
        have := hfresh hf
        omega
    have hback : ¬(target.toNat < s.position ∧ left < 0) := by
      rintro ⟨-, h⟩
      have h : left.toInt < 0 := Int16.lt_iff_toInt_lt.1 h
      omega
    exact ⟨_, by rw [if_neg hsome, if_neg hback]⟩

/-- A command that goes on to the next position does not end the song. -/
theorem exists_obey_of_goesOn {c : StepCommand} (h : c.goesOn s.trackLoop = true) :
    ∃ s', s.obey c = some s' ∧ s'.position = s.position + 1 := by
  cases c with
  | stop => cases h
  | loop target count => exact ⟨_, if_pos (eq_of_beq h), rfl⟩
  | speed | timeShare | fade | idle => exact ⟨_, rfl, rfl⟩

/-- Up to the loop command a survey goes on, and that command it obeys. -/
theorem loops_step (h : score.OneLoop song position target count)
    (hstop : ∀ q, song.first ≤ q → q < position → score.command? q ≠ some .stop)
    (hfirst : song.first.toNat ≤ s.position) (hjumps : -1 ≤ s.trackLoop.toInt)
    (hle : s.position ≤ position.toNat) :
    ∃ s', s.step score song.first.toNat = (s', true) ∧ -1 ≤ s'.trackLoop.toInt ∧
      (s.position < position.toNat → s'.position = s.position + 1 ∧
        s'.trackLoop = s.trackLoop) ∧
      (s.position = position.toNat →
        s'.trackLoop = (StepCommand.loop target count).jumpsLeft s.trackLoop ∧
        (s.trackLoop = 0 → s'.position = position.toNat + 1) ∧
        (s.trackLoop ≠ 0 → s'.position = target.toNat)) := by
  have hbound := position.toNat_lt
  have hq : (UInt16.ofNat s.position).toNat = s.position :=
    UInt16.toNat_ofNat_of_lt' (by show s.position < 65536; omega)
  rcases Nat.lt_or_eq_of_le hle with hlt | heq
  · have hlt' : UInt16.ofNat s.position < position := UInt16.lt_iff_toNat_lt.2 (by omega)
    have hfirst' : song.first ≤ UInt16.ofNat s.position := UInt16.le_iff_toNat_le.2 (by omega)
    rcases score.step_cases (UInt16.ofNat s.position) with ⟨hnone, -⟩ | ⟨c, hc, -⟩ | ⟨-, ha⟩
    · obtain ⟨t, ht, -⟩ := Option.bind_eq_some_iff.1 h.command
      have hsome := Score.trackStep?_of_le (by rw [ht]; rfl) (UInt16.le_of_lt hlt')
      rw [hnone] at hsome
      cases hsome
    · obtain ⟨hgoes, hleft⟩ := h.goesOn hfirst' hlt' hc (fun he => hstop _ hfirst' hlt' (he ▸ hc))
        s.trackLoop
      obtain ⟨s', hobey, hposition⟩ :=
        exists_obey_of_goesOn (s := s.record song.first.toNat) hgoes
      have hloop : s'.trackLoop = s.trackLoop := (obey_eq_some hobey).2.1.trans hleft
      exact ⟨s', by rw [step_of_command hc, hobey], hloop ▸ hjumps, fun _ => ⟨hposition, hloop⟩,
        fun he => absurd he hlt.ne⟩
    · obtain ⟨s', hstep, hposition, hloop⟩ := step_of_assigns ha song.first.toNat
      exact ⟨s', hstep, hloop ▸ hjumps, fun _ => ⟨hposition, hloop⟩, fun he => absurd he hlt.ne⟩
  · have hat : UInt16.ofNat s.position = position := UInt16.toNat_inj.1 (hq.trans heq)
    obtain ⟨s', hobey⟩ := exists_obey_loop (s := s.record song.first.toNat) target
      h.counts hjumps
    obtain ⟨-, hloop, hposition⟩ := obey_eq_some hobey
    have hstep : s.step score song.first.toNat = (s', true) := by
      rw [step_of_command (hat ▸ h.command), hobey]
    refine ⟨s', hstep, ?_, fun hlt => absurd heq hlt.ne, fun _ => ⟨hloop, fun hzero => ?_,
      fun hne => ?_⟩⟩
    · rw [hloop]
      exact StepCommand.le_jumpsLeft_loop target h.counts.2 hjumps
    · rcases hposition with ⟨hnext, -⟩ | ⟨_, _, -, hne, -⟩
      · exact hnext.trans (congrArg (· + 1) heq)
      · exact absurd hzero hne
    · rcases hposition with ⟨-, hgoes⟩ | ⟨_, _, hc, -, hposition⟩
      · exact absurd (eq_of_beq hgoes) hne
      · cases hc
        exact hposition

/-- A survey that finds no stop before the loop command keeps the laws. -/
theorem loops_tour (h : score.OneLoop song position target count)
    (hstop : ∀ q, song.first ≤ q → q < position → score.command? q ≠ some .stop) :
    (tour score song.first.toNat).Loops
      (fun s => song.first.toNat ≤ s.position ∧ -1 ≤ s.trackLoop.toInt)
      target count position.toNat (position.toNat + 1) := by
  refine ⟨(UInt16.lt_iff_toNat_lt.1 h.target_lt).le, h.counts.2, ?_, ?_⟩
  · rintro s ⟨hfirst, hjumps⟩ hlt
    obtain ⟨s', hstep, hjumps', hwalks, -⟩ := loops_step h hstop hfirst hjumps (Nat.le_of_lt hlt)
    obtain ⟨hposition, hloop⟩ := hwalks hlt
    simp only [tour, hstep]
    exact ⟨⟨hposition ▸ Nat.le_succ_of_le hfirst, hjumps'⟩, hposition, hloop⟩
  · rintro s ⟨hfirst, hjumps⟩ hat
    obtain ⟨s', hstep, hjumps', -, hobeys⟩ := loops_step h hstop hfirst hjumps (Nat.le_of_eq hat)
    obtain ⟨hloop, hpasses, hback⟩ := hobeys hat
    simp only [tour, hstep]
    refine ⟨hloop, hpasses, fun hne => ⟨⟨?_, hjumps'⟩, hback hne⟩⟩
    rw [hback hne]
    exact UInt16.le_iff_toNat_le.1 h.first_le

/-- Behind the loop command a survey goes on from position to position. -/
theorem lt_position_step (h : score.OneLoop song position target count)
    (hlt : position.toNat < s.position) (hle : s.position ≤ song.last.toNat)
    (hgoes : (s.step score song.first.toNat).2 = true) :
    s.position < (s.step score song.first.toNat).1.position := by
  have hbound := song.last.toNat_lt
  have hq : (UInt16.ofNat s.position).toNat = s.position :=
    UInt16.toNat_ofNat_of_lt' (by show s.position < 65536; omega)
  have hfirst : song.first.toNat ≤ target.toNat := UInt16.le_iff_toNat_le.1 h.first_le
  have htarget : target.toNat < position.toNat := UInt16.lt_iff_toNat_lt.1 h.target_lt
  rcases score.step_cases (UInt16.ofNat s.position) with ⟨hnone, -⟩ | ⟨c, hc, -⟩ | ⟨-, ha⟩
  · rw [step_of_none hnone] at hgoes
    cases hgoes
  · rw [step_of_command hc] at hgoes ⊢
    cases hobey : (s.record song.first.toNat).obey c with
    | none =>
      rw [hobey] at hgoes
      cases hgoes
    | some s' =>
      rcases (obey_eq_some hobey).2.2 with ⟨hnext, -⟩ | ⟨target', count', rfl, -⟩
      · exact Nat.lt_of_lt_of_eq (Nat.lt_succ_self _) hnext.symm
      · refine absurd hc (h.only _ ?_ ?_ ?_ target' count')
        · exact UInt16.le_iff_toNat_le.2 (by omega)
        · exact UInt16.le_iff_toNat_le.2 (by omega)
        · intro heq
          rw [heq] at hq
          omega
  · obtain ⟨s', hstep, hnext, -⟩ := step_of_assigns ha song.first.toNat
    rw [hstep]
    exact Nat.lt_of_lt_of_eq (Nat.lt_succ_self _) hnext.symm

/-- Behind the loop command a survey does not come back to it. -/
theorem lt_of_mem_trail (h : score.OneLoop song position target count) : ∀ (n : Nat) {s : Survey},
    position.toNat < s.position → ∀ z ∈ trail score song n s, position.toNat < z.position
  | 0, _, _, z, hz => by cases hz
  | n + 1, s, hlt, z, hz => by
    by_cases hle : s.position ≤ song.last.toNat
    · rw [trail_succ hle] at hz
      rcases List.mem_cons.1 hz with rfl | hz
      · exact hlt
      · split at hz
        · next hgoes =>
          exact lt_of_mem_trail h n (Nat.lt_trans hlt (lt_position_step h hlt hle hgoes)) z hz
        · cases hz
    · rw [trail_of_gt (Nat.lt_of_not_le hle)] at hz
      cases hz

/-- Where a survey is not cut off, it comes to the loop command once more than it
    jumps back, and never again. -/
theorem turns_trail (h : score.OneLoop song position target count)
    (hstop : ∀ q, song.first ≤ q → q < position → score.command? q ≠ some .stop)
    (hends : (trail score song (stepBound + 1) (ofSong song)).length ≤ stepBound) :
    (tour score song.first.toNat).turns position.toNat
        (trail score song stepBound (ofSong song)) =
      Tour.laps target.toNat (position.toNat + 1) (count.toNat + 1) := by
  have hfirst : song.first.toNat ≤ target.toNat := UInt16.le_iff_toNat_le.1 h.first_le
  have htarget : target.toNat < position.toNat := UInt16.lt_iff_toNat_lt.1 h.target_lt
  have hlast : position.toNat ≤ song.last.toNat := UInt16.le_iff_toNat_le.1 h.le_last
  obtain ⟨y, hleg, hy, -⟩ := (loops_tour h hstop).exists_leg (count.toNat + 1)
    (position.toNat - song.first.toNat) (ofSong song) ⟨Nat.le_refl _, jumps_none.1⟩
    (Nat.add_sub_of_le (Nat.le_trans hfirst htarget.le)) (.inr ⟨rfl, rfl⟩)
  have hbehind : position.toNat < y.position := Nat.lt_of_lt_of_eq (Nat.lt_succ_self _) hy.symm
  generalize Tour.steps target.toNat position.toNat (position.toNat - song.first.toNat)
    (count.toNat + 1) = n at hleg
  have hgoes : ∀ z ∈ List.iterate (tour score song.first.toNat).step (ofSong song) n,
      z.position ≤ song.last.toNat ∧ (z.step score song.first.toNat).2 = true := fun z hz => by
    obtain ⟨⟨hge, hjumps⟩, hle⟩ := hleg.within z hz
    obtain ⟨s', hstep, -⟩ := loops_step h hstop hge hjumps hle
    exact ⟨Nat.le_trans hle hlast, by rw [hstep]⟩
  -- a survey that is not over by then would be cut off
  have hn : n ≤ stepBound := by
    by_contra hgt
    obtain ⟨m, rfl⟩ := Nat.exists_eq_add_of_le (Nat.lt_of_not_le hgt)
    have htrail := trail_add score song 0 (stepBound + 1) (ofSong song)
      fun z hz => hgoes z (by rw [List.iterate_add]; exact List.mem_append_left _ hz)
    rw [Nat.add_zero] at htrail
    rw [htrail, List.length_append, List.length_iterate] at hends
    omega
  obtain ⟨m, hm⟩ := Nat.exists_eq_add_of_le hn
  rw [hm, trail_add score song m n _ hgoes, Tour.turns_append, hleg.turns, hleg.ends,
    Tour.turns_of_ne fun z hz => (lt_of_mem_trail h m hbehind z hz).ne', List.append_nil]

end Survey

/-! ### Playback -/

namespace Replay

variable {score : Score} {rate : UInt32} {song : SubSong} {position target count : UInt16}
  {r : Replay}

/-- A track step is read; if it is the last one of a search, the position is left. -/
def pace (score : Score) (r : Replay) : Replay :=
  if (r.readStep score).2 then (r.readStep score).1 else (r.readStep score).1.leave

/-- The tour of playback, from track step to track step. -/
def tour (score : Score) : Tour Replay where
  step := pace score
  position r := r.place.current.toNat
  jumps r := r.machine.master.trackLoop

/-- The moves of some searches for a track step that plays patterns, one for each
    position that comes next. -/
def searchMoves (score : Score) : Nat → Replay → List Move
  | 0, _ => []
  | k + 1, r => seekMoves score r ++ .leave :: searchMoves score k (r.seekStep score).leave

theorem run_searchMoves : ∀ (k : Nat) (r : Replay), run score rate (searchMoves score k r) r =
    (fun r => (r.seekStep score).leave)^[k] r
  | 0, _ => rfl
  | k + 1, r => by
    rw [searchMoves, run_append, run_seekMoves, run_cons, Function.iterate_succ_apply]
    exact run_searchMoves k _

/-- A search that is not given up reads track steps one after the other. -/
theorem readings_stepMoves (rate : UInt32) : ∀ (n : Nat) {r : Replay},
    .giveUp ∉ stepMoves score n r →
    ∃ m, readings score rate (stepMoves score n r) r = List.iterate (pace score) r (m + 1) ∧
      (pace score)^[m + 1] r = (readSteps score n r).leave
  | 0, r, h => absurd (List.mem_singleton_self _) h
  | n + 1, r, h => by
    rw [readings_stepMoves_succ, readSteps_succ]
    rw [stepMoves] at h
    by_cases hreads : (r.readStep score).2 = true
    · rw [if_pos hreads] at h
      obtain ⟨m, hiterate, hend⟩ :=
        readings_stepMoves rate n fun hmem => h (List.mem_cons_of_mem _ hmem)
      have hpace : pace score r = (r.readStep score).1 := if_pos hreads
      refine ⟨m + 1, ?_, ?_⟩
      · rw [if_pos hreads, hiterate, ← hpace]
        rfl
      · rw [if_pos hreads, Function.iterate_succ_apply, hpace, hend]
    · refine ⟨0, ?_, ?_⟩
      · rw [if_neg hreads]
        rfl
      · rw [if_neg hreads]
        exact if_neg hreads

/-- So do some searches, and each of them reads one track step at least. -/
theorem readings_searchMoves (rate : UInt32) : ∀ (k : Nat) {r : Replay},
    .giveUp ∉ searchMoves score k r →
    ∃ m, k ≤ m ∧ readings score rate (searchMoves score k r) r = List.iterate (pace score) r m
  | 0, _, _ => ⟨0, Nat.le_refl 0, rfl⟩
  | k + 1, r, h => by
    rw [searchMoves, List.mem_append, List.mem_cons] at h
    simp only [not_or] at h
    obtain ⟨m, hiterate, hend⟩ := readings_stepMoves rate stepBound h.1
    obtain ⟨m', hle, hrest⟩ := readings_searchMoves rate k h.2.2
    refine ⟨m + 1 + m', by omega, ?_⟩
    rw [searchMoves, readings_append, run_seekMoves, List.iterate_add, hend, ← seekStep]
    exact congrArg₂ (· ++ ·) hiterate hrest

theorem Plays.pace (h : r.Plays song) (score : Score) : (r.pace score).Plays song := by
  unfold Replay.pace
  split
  · exact h.readStep score
  · have hleave : (Move.apply score 0 (r.readStep score).1 .leave).Plays song :=
      (h.readStep score).apply rfl
    exact hleave

/-- A search that rests before the last position is followed by the next one. -/
theorem pace_of_rests (hrests : (r.readStep score).2 = false)
    (hplace : (r.readStep score).1.place = r.place)
    (hloop : (r.readStep score).1.machine.master.trackLoop = r.machine.master.trackLoop)
    (hlast : r.place.current ≠ r.place.last) :
    (r.pace score).place.current = r.place.current + 1 ∧
      (r.pace score).machine.master.trackLoop = r.machine.master.trackLoop := by
  have hpace : r.pace score = (r.readStep score).1.leave :=
    if_neg (by rw [hrests]; exact Bool.false_ne_true)
  have hleave : (r.readStep score).1.leave = (r.readStep score).1.nextPosition :=
    if_neg (by rw [hplace]; exact hlast)
  rw [hpace, hleave, ← hplace, ← hloop]
  exact ⟨rfl, rfl⟩

/-- A command but a stop is obeyed, and the search goes on. -/
theorem pace_of_command {c : StepCommand} (hc : score.command? r.place.current = some c)
    (hstop : c ≠ .stop) :
    (r.pace score).place.current = c.destination r.place r.machine.master.trackLoop ∧
      (r.pace score).machine.master.trackLoop = c.jumpsLeft r.machine.master.trackLoop := by
  have hpace : r.pace score = (r.greeted.obey c).1 := by
    rw [pace, readStep_of_command hc, if_pos (obey_reads hstop _)]
  rw [hpace, current_obey, trackLoop_obey, place_greeted, trackLoop_greeted]
  exact ⟨rfl, rfl⟩

/-- Before the loop command playback comes to the next position, by a command or at
    the end of a search. -/
theorem pace_of_lt (h : score.OneLoop song position target count) (hplays : r.Plays song)
    (hfirst : song.first ≤ r.place.current) (hlt : r.place.current < position) :
    (r.pace score).place.current = r.place.current + 1 ∧
      (r.pace score).machine.master.trackLoop = r.machine.master.trackLoop := by
  have hne : r.place.current ≠ r.place.last := by
    rw [hplays.last]
    exact UInt16.ne_of_lt (UInt16.lt_of_lt_of_le hlt h.le_last)
  cases hc : score.command? r.place.current with
  | none =>
    obtain ⟨hplace, hrests, hloop⟩ := readStep_of_no_command hc
    exact pace_of_rests hrests hplace hloop hne
  | some c =>
    by_cases hstop : c = .stop
    · subst hstop
      have hread := readStep_of_command hc
      refine pace_of_rests ?_ ?_ ?_ hne
      · rw [hread]
        rfl
      · rw [hread]
        exact place_greeted r
      · rw [hread, trackLoop_obey, trackLoop_greeted]
        rfl
    · obtain ⟨hcurrent, hloop⟩ := pace_of_command hc hstop
      obtain ⟨hgoes, hleft⟩ := h.goesOn hfirst hlt hc hstop r.machine.master.trackLoop
      refine ⟨hcurrent.trans ?_, hloop.trans hleft⟩
      cases c with
      | stop => cases hgoes
      | loop => exact if_pos (eq_of_beq hgoes)
      | speed | timeShare | fade | idle => rfl

/-- Playback of the sub-song keeps the laws. -/
theorem loops_tour (h : score.OneLoop song position target count) :
    (tour score).Loops (fun r => r.Plays song ∧ song.first ≤ r.place.current) target count
      position.toNat (position + 1).toNat := by
  refine ⟨(UInt16.lt_iff_toNat_lt.1 h.target_lt).le, h.counts.2, ?_, ?_⟩
  · rintro r ⟨hplays, hfirst⟩ hlt
    obtain ⟨hcurrent, hloop⟩ := pace_of_lt h hplays hfirst (UInt16.lt_iff_toNat_lt.2 hlt)
    have hnat : (r.pace score).place.current.toNat = r.place.current.toNat + 1 := by
      have hlt : r.place.current.toNat < position.toNat := hlt
      have hbound := position.toNat_lt
      rw [hcurrent, toNat_add_one (by omega)]
    refine ⟨⟨hplays.pace score, UInt16.le_iff_toNat_le.2 ?_⟩, hnat, hloop⟩
    exact hnat ▸ Nat.le_succ_of_le (UInt16.le_iff_toNat_le.1 hfirst)
  · rintro r ⟨hplays, -⟩ hat
    have hat : r.place.current = position := UInt16.toNat_inj.1 hat
    obtain ⟨hcurrent, hloop⟩ := pace_of_command (hat ▸ h.command) (by rintro ⟨⟩)
    refine ⟨hloop, fun hzero => ?_, fun hne => ?_⟩
    · have hnext : (r.pace score).place.current = position + 1 :=
        hcurrent.trans ((if_pos hzero).trans (congrArg (· + 1) hat))
      exact congrArg UInt16.toNat hnext
    · have hback : (r.pace score).place.current = target := by
        refine hcurrent.trans ((if_neg hne).trans ?_)
        rw [hplays.first]
        exact max_eq_of_le h.first_le
      exact ⟨⟨hplays.pace score, h.first_le.trans_eq hback.symm⟩, congrArg UInt16.toNat hback⟩

/-- Where no search is given up, playback from the start of the sub-song comes to
    the loop command once more than it jumps back, before it goes on behind it. -/
theorem turns_readings (h : score.OneLoop song position target count) (hplays : r.Plays song)
    (hcurrent : r.place.current = song.first) (hloop : r.machine.master.trackLoop = -1) {k : Nat}
    (hends : .giveUp ∉ searchMoves score k r)
    (hk : Tour.steps target.toNat position.toNat (position.toNat - song.first.toNat)
      (count.toNat + 1) ≤ k) :
    (tour score).turns position.toNat ((readings score rate (searchMoves score k r) r).take
        (Tour.steps target.toNat position.toNat (position.toNat - song.first.toNat)
          (count.toNat + 1))) =
      Tour.laps target.toNat (position + 1).toNat (count.toNat + 1) := by
  have hfirst : song.first.toNat ≤ target.toNat := UInt16.le_iff_toNat_le.1 h.first_le
  have htarget : target.toNat < position.toNat := UInt16.lt_iff_toNat_lt.1 h.target_lt
  obtain ⟨y, hleg, -⟩ := (loops_tour h).exists_leg (count.toNat + 1)
    (position.toNat - song.first.toNat) r ⟨hplays, UInt16.le_of_eq hcurrent.symm⟩
    (by
      show r.place.current.toNat + _ = _
      rw [hcurrent]
      omega)
    (.inr ⟨congrArg Int16.toInt hloop, rfl⟩)
  obtain ⟨m, hle, hread⟩ := readings_searchMoves rate k hends
  obtain ⟨m', rfl⟩ := Nat.exists_eq_add_of_le (Nat.le_trans hk hle)
  rw [hread, List.iterate_add, List.take_left' (List.length_iterate ..)]
  exact hleg.turns

end Replay

/-! ## Both -/

/-- The only loop command of a sub-song, which jumps back, is obeyed alike by a
    survey and by playback: it jumps once more than it counts, with the counter
    going down to zero, and then lets the song go on at the next position with the
    counter unset.  A survey has to find no stop before it, and not to be cut off;
    no search of playback may be given up. -/
theorem Score.OneLoop.repeats {score : Score} {song : SubSong} {position target count : UInt16}
    (h : score.OneLoop song position target count) :
    ((∀ q, song.first ≤ q → q < position → score.command? q ≠ some .stop) →
      (Survey.trail score song (Survey.stepBound + 1) (Survey.ofSong song)).length ≤
        Survey.stepBound →
      (Survey.tour score song.first.toNat).turns position.toNat
          (Survey.trail score song Survey.stepBound (Survey.ofSong song)) =
        Tour.laps target.toNat (position.toNat + 1) (count.toNat + 1)) ∧
    ∀ (r : Replay) (rate : UInt32) (k : Nat), r.Plays song → r.place.current = song.first →
      r.machine.master.trackLoop = -1 →
      Replay.run score rate (Replay.searchMoves score k r) r =
        (fun r => (r.seekStep score).leave)^[k] r ∧
      (.giveUp ∉ Replay.searchMoves score k r →
        Tour.steps target.toNat position.toNat (position.toNat - song.first.toNat)
          (count.toNat + 1) ≤ k →
        (Replay.tour score).turns position.toNat
            ((Replay.readings score rate (Replay.searchMoves score k r) r).take
              (Tour.steps target.toNat position.toNat (position.toNat - song.first.toNat)
                (count.toNat + 1))) =
          Tour.laps target.toNat (position + 1).toNat (count.toNat + 1)) :=
  ⟨fun hstop hends => Survey.turns_trail h hstop hends, fun r _ k hplays hcurrent hloop =>
    ⟨Replay.run_searchMoves k r, fun hends hk =>
      Replay.turns_readings h hplays hcurrent hloop hends hk⟩⟩

/-- Whether a search ends here without patterns. -/
def Replay.Move.isGiveUp : Replay.Move → Bool
  | .giveUp => true
  | _ => false

theorem Replay.not_mem_of_any_isGiveUp {ms : List Replay.Move}
    (h : ms.any Replay.Move.isGiveUp = false) : .giveUp ∉ ms :=
  fun hmem => absurd rfl (List.any_eq_false.1 h _ hmem)

/-- Whether a command is a loop. -/
def StepCommand.isLoop : StepCommand → Bool
  | .loop _ _ => true
  | .stop | .speed _ _ | .timeShare _ | .fade _ _ | .idle => false

namespace Score

variable {score : Score} {song : SubSong} {position target count : UInt16} {n : Nat}
  {cs : List (Option StepCommand)}

theorem command?_of_commands
    (h : (List.range n).map (fun i => score.command? (UInt16.ofNat i)) = cs) {q : UInt16}
    (hq : q.toNat < n) : score.command? q = cs[q.toNat]?.join := by
  rw [← h, List.getElem?_map, List.getElem?_range hq, Option.map_some, UInt16.ofNat_toNat]
  rfl

/-- The commands of the positions are known, and one of them is a loop. -/
theorem oneLoop_of_commands
    (h : (List.range n).map (fun i => score.command? (UInt16.ofNat i)) = cs)
    (hlast : song.last.toNat < n)
    (hcommand : cs[position.toNat]?.join = some (.loop target count))
    (hothers : ∀ i < n, i ≠ position.toNat → (cs[i]?.join.any StepCommand.isLoop) = false)
    (hfirst : song.first ≤ target) (htarget : target < position) (hle : position ≤ song.last)
    (hcounts : 1 ≤ count ∧ count ≤ 1000) : score.OneLoop song position target count := by
  have hlt : ∀ q : UInt16, q ≤ song.last → q.toNat < n := fun q hq =>
    Nat.lt_of_le_of_lt (UInt16.le_iff_toNat_le.1 hq) hlast
  refine ⟨(command?_of_commands h (hlt _ hle)).trans hcommand, hfirst, htarget, hle,
    fun q _ hq hne target' count' hc => ?_, hcounts⟩
  have hnone := hothers q.toNat (hlt q hq) fun he => hne (UInt16.toNat_inj.1 he)
  rw [← command?_of_commands h (hlt q hq), hc] at hnone
  cases hnone

/-- None of the commands before a position is a stop. -/
theorem ne_stop_of_commands
    (h : (List.range n).map (fun i => score.command? (UInt16.ofNat i)) = cs) {a b : Nat}
    (hb : b ≤ n) (hnone : ∀ i < b, a ≤ i → cs[i]?.join ≠ some .stop) {q : UInt16}
    (ha : a ≤ q.toNat) (hq : q.toNat < b) : score.command? q ≠ some .stop := by
  rw [command?_of_commands h (by omega)]
  exact hnone _ hq ha

end Score

namespace Player

/-- A tune of five positions.  The fourth one makes the second and the third play
    two more times; the second sets the speed. -/
def lapTune : ByteArray :=
  let step : List UInt16 := 0 :: List.replicate 7 0xff00
  songTune 4 1 [step, [0xeffe, 2, 3, 0], step, [0xeffe, 1, 1, 1], step]
    [[0xf0000000]] []

/-- Its loop is gone through by a survey and by playback. -/
theorem laps_lapTune : ∃ tune song r, load lapTune (some ⟨#[]⟩) = .ok tune ∧
    tune.score.subSong? 0 = some song ∧ tune.score.OneLoop song 3 1 1 ∧
      (Survey.tour tune.score song.first.toNat).turns 3
        (Survey.trail tune.score song Survey.stepBound (Survey.ofSong song)) =
          [(1, 1), (1, 0), (4, -1)] ∧
      r.Plays song ∧ (Replay.tour tune.score).turns 3 ((Replay.readings tune.score minRate
        (Replay.searchMoves tune.score 10 r) r).take 10) = [(1, 1), (1, 0), (4, -1)] := by
  have h : ((load lapTune (some ⟨#[]⟩)).toOption.map fun tune => (tune.score.subSong? 0,
      (List.range 5).map fun i => tune.score.command? (UInt16.ofNat i),
      (Survey.trail tune.score ⟨0, 4, 1⟩ (Survey.stepBound + 1) (Survey.ofSong ⟨0, 4, 1⟩)).length,
      (Replay.searchMoves tune.score 10 ((Replay.initial false).selectSong tune.score 0)).any
        Replay.Move.isGiveUp)) =
      some (some ⟨0, 4, 1⟩, [none, some (.speed 3 0), none, some (.loop 1 1), none], 11, false) := by
    decide +kernel
  obtain ⟨tune, hload, h⟩ := Option.map_eq_some_iff.1 h
  simp only [Prod.mk.injEq] at h
  obtain ⟨hsong, hcommands, hlength, hmoves⟩ := h
  have hone : tune.score.OneLoop ⟨0, 4, 1⟩ 3 1 1 :=
    Score.oneLoop_of_commands hcommands (by decide) rfl (by decide) (by decide) (by decide)
      (by decide) (by decide)
  obtain ⟨hsurvey, hplayback⟩ := hone.repeats
  obtain ⟨hplays, hcurrent, hloop⟩ :
      ((Replay.initial false).selectSong tune.score 0).Plays ⟨0, 4, 1⟩ ∧
        ((Replay.initial false).selectSong tune.score 0).place.current = 0 ∧
        ((Replay.initial false).selectSong tune.score 0).machine.master.trackLoop = -1 := by
    unfold Replay.selectSong Replay.enterSong
    simp only [hsong]
    exact ⟨⟨rfl, rfl⟩, rfl, rfl⟩
  obtain ⟨-, hturns⟩ := hplayback _ minRate 10 hplays hcurrent hloop
  refine ⟨tune, _, _, eq_ok_of_toOption hload, hsong, hone, hsurvey (fun q hfirst hlt => ?_) ?_,
    hplays, hturns (Replay.not_mem_of_any_isGiveUp hmoves) (by decide)⟩
  · exact Score.ne_stop_of_commands hcommands (by decide) (by decide)
      (UInt16.le_iff_toNat_le.1 hfirst) (UInt16.lt_iff_toNat_lt.1 hlt)
  · rw [hlength]
    decide

/-- A tune of four positions, of which the first one is a stop, and the third one
    makes the second play two more times. -/
def haltTune : ByteArray :=
  let step : List UInt16 := 0 :: List.replicate 7 0xff00
  songTune 3 1 [[0xeffe, 0], step, [0xeffe, 1, 1, 1], step] [[0xf0000000]] []

/-- There is no stop from the target of the loop command on, and the survey is not
    cut off, but it ends at the stop before them. -/
theorem halts_before_loop : ∃ tune song, load haltTune (some ⟨#[]⟩) = .ok tune ∧
    tune.score.subSong? 0 = some song ∧ tune.score.OneLoop song 2 1 1 ∧
      (∀ q : UInt16, 1 ≤ q → q < 2 → tune.score.command? q ≠ some .stop) ∧
      (Survey.trail tune.score song (Survey.stepBound + 1) (Survey.ofSong song)).length ≤
        Survey.stepBound ∧
      (Survey.tour tune.score song.first.toNat).turns 2
        (Survey.trail tune.score song Survey.stepBound (Survey.ofSong song)) = [] := by
  have h : ((load haltTune (some ⟨#[]⟩)).toOption.map fun tune => (tune.score.subSong? 0,
      (List.range 4).map fun i => tune.score.command? (UInt16.ofNat i),
      (Survey.trail tune.score ⟨0, 3, 1⟩ (Survey.stepBound + 1) (Survey.ofSong ⟨0, 3, 1⟩)).length,
      (Survey.tour tune.score 0).turns 2
        (Survey.trail tune.score ⟨0, 3, 1⟩ Survey.stepBound (Survey.ofSong ⟨0, 3, 1⟩)))) =
      some (some ⟨0, 3, 1⟩, [some .stop, none, some (.loop 1 1), none], 1, []) := by
    decide +kernel
  obtain ⟨tune, hload, h⟩ := Option.map_eq_some_iff.1 h
  simp only [Prod.mk.injEq] at h
  obtain ⟨hsong, hcommands, hlength, hturns⟩ := h
  refine ⟨tune, _, eq_ok_of_toOption hload, hsong, ?_, fun q hfirst hlt => ?_, ?_, hturns⟩
  · exact Score.oneLoop_of_commands hcommands (by decide) rfl (by decide) (by decide) (by decide)
      (by decide) (by decide)
  · exact Score.ne_stop_of_commands hcommands (by decide) (by decide)
      (UInt16.le_iff_toNat_le.1 hfirst) (UInt16.lt_iff_toNat_lt.1 hlt)
  · rw [hlength]
    decide

end Player

end PaulaReplay
