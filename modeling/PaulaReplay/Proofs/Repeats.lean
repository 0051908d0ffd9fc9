/-
  Repeats: a loop of a pattern, or of a macro, is read as often as its last word says, and
  once more.

  The counter of a track and that of a macro are loaded where a loop is met first, and say
  outside of loops that there is none.  A pass may go on for many rows or ticks, and other
  things happen in between.

  * `Track.StandsAt`, `Program.StandsAt`: where a track, or a macro, is, and the jumps that
    its loop still makes; `loop_first`, `loop_again`, `loop_last`: what becomes of it at a
    word that jumps back;
  * `Word.staysOn`, `Word.staysInMacro`: a word goes on to the next one and leaves the jumps
    alone; `Tracks.step_of_staysOn`, `Lane.place_execute` say that it does so;
  * `Tracks.reader`, `Replay.reader`: a track, and the macro of a channel, as what reads its
    words;
  * `Tracks.Part`, `Replay.Part`: a row of a track, or a tick of a channel, or what happens
    in between; `Tracks.proceeds_part` and `Replay.proceeds_part`: each of them brings the
    reader on;
  * `loops_exactly`: loops are read so often.
-/
import PaulaReplay.Proofs.Readers
import PaulaReplay.Proofs.Volume
import PaulaReplay.Proofs.Waits

namespace PaulaReplay

open Pattern

variable {score : Score} {rate : UInt32}

/-! ## Tracks -/

/-- The counter of a track whose loop still makes some jumps. -/
def Track.counter : Option Nat → UInt16
  | none => noLoops
  | some n => UInt16.ofNat n

/-- A track plays and stands at a word of a pattern, and its loop still makes so many
    jumps. -/
structure Track.StandsAt (base : UInt32) (step : UInt16) (jumps : Option Nat) (t : Track) :
    Prop where
  base : t.base = base
  step : t.step = step
  loops : t.loops = counter jumps
  runs : t.Runs

/-- A word leaves track `i` on its pattern: it does not jump, does not stop the track, and
    starts no pattern on it. -/
def Word.staysOn (i : Slot) (w : Word) : Bool :=
  match Instruction.ofByte w.byte0 with
  | .note _ => true
  | .command c => match c with
    | .finish | .loop | .jump | .call | .back | .stop | .stopCustom => false
    | .play => Slot.ofNat w.byte2.toNat != i
    | .wait | .keyUp | .vibrato | .envelope | .fade | .lock | .cue | .rest => true

/-- A word of a pattern jumps back. -/
def Word.loopsPattern (w : Word) : Bool := Instruction.ofByte w.byte0 = .command .loop

namespace Track

variable {t : Track} {base : UInt32} {step target : UInt16} {jumps : Option Nat} {count : UInt8}
  {n : Nat}

theorem StandsAt.next (h : t.StandsAt base step jumps) (wait : UInt8) :
    Track.StandsAt base (step + 1) jumps { t with step := t.step + 1, wait } :=
  ⟨h.base, congrArg (· + 1) h.step, h.loops, h.runs.base, h.runs.unstopped⟩

/-- A loop that is not used up is counted. -/
theorem StandsAt.loop_counted (h : t.StandsAt base step jumps) (hn : n < 255)
    (hused : t.loops ≠ 0)
    (hleft : (if t.loops = noLoops then count.toUInt16 else t.loops) - 1 = UInt16.ofNat n) :
    (t.loop count target).1.StandsAt base target (some n) := by
  have hnone : UInt16.ofNat n ≠ noLoops := by
    intro he
    have hnat := congrArg UInt16.toNat he
    rw [UInt16.toNat_ofNat_of_lt' (Nat.lt_trans hn (by decide))] at hnat
    have hmax : noLoops.toNat = 65535 := rfl
    omega
  simp only [loop, if_neg hused, hleft, if_neg hnone]
  exact ⟨h.base, rfl, rfl, h.runs.base, h.runs.unstopped⟩

theorem StandsAt.loop_first (h : t.StandsAt base step none) (hcount : count ≠ 0) :
    (t.loop count target).1.StandsAt base target (some (count.toNat - 1)) := by
  have hloops : t.loops = noLoops := h.loops
  have hlt := count.toNat_lt
  have hpos : 0 < count.toNat := Nat.pos_of_ne_zero fun he => hcount (UInt8.toNat_inj.1 he)
  have hleft : count.toNat - 1 < 255 := by omega
  refine h.loop_counted hleft (by rw [hloops]; decide) ?_
  rw [if_pos hloops]
  apply UInt16.toNat_inj.1
  have hle : (1 : UInt16) ≤ count.toUInt16 := by
    rw [UInt16.le_iff_toNat_le, UInt8.toNat_toUInt16]
    exact hpos
  rw [UInt16.toNat_sub_of_le _ _ hle, UInt8.toNat_toUInt16,
    UInt16.toNat_ofNat_of_lt' (Nat.lt_trans hleft (by decide))]
  rfl

theorem StandsAt.loop_again (h : t.StandsAt base step (some (n + 1))) (hn : n < 255) :
    (t.loop count target).1.StandsAt base target (some n) := by
  have hloops : t.loops.toNat = n + 1 := by
    rw [h.loops]
    exact UInt16.toNat_ofNat_of_lt' (Nat.lt_of_le_of_lt hn (by decide))
  have hnone : t.loops ≠ noLoops := by
    intro he
    have hmax : noLoops.toNat = 65535 := rfl
    rw [he] at hloops
    omega
  refine h.loop_counted hn (fun he => ?_) ?_
  · rw [he] at hloops
    exact absurd hloops (Nat.succ_ne_zero n).symm
  · rw [if_neg hnone, h.loops]
    show UInt16.ofNat (n + 1) - 1 = _
    rw [UInt16.ofNat_add]
    exact UInt16.add_sub_cancel _ _

theorem StandsAt.loop_last (h : t.StandsAt base step (some 0)) :
    (t.loop count target).1.StandsAt base step none := by
  have hloops : t.loops = 0 := h.loops
  rw [loop, if_pos hloops]
  exact ⟨h.base, h.step, rfl, h.runs.base, h.runs.unstopped⟩

end Track

namespace Tracks

variable {ts : Tracks} {i : Slot} {w : Word} {ms : List Move}

/-! ### Words -/

/-- A word that leaves a track on its pattern does nothing to it but that it may wait. -/
theorem step_of_staysOn (hw : score.word? ts[i].base ts[i].step = some w)
    (hstays : w.staysOn i = true) :
    ∃ wait, (Tracks.step score i ts).tracks[i] =
      { ts[i] with step := ts[i].step + 1, wait } := by
  have hself : (ts.modify i fun t => { t with step := t.step + 1 })[i] =
      { ts[i] with step := ts[i].step + 1 } := Octet.getElem_set_self _ _ _
  have hwaits : ∀ wait, ((ts.modify i fun t => { t with step := t.step + 1 }).modify i
      ({ · with wait }))[i] = { ts[i] with step := ts[i].step + 1, wait } := by
    intro wait
    rw [Octet.modify_modify]
    exact Octet.getElem_set_self _ _ _
  rw [Tracks.step, hw]
  unfold Word.staysOn at hstays
  simp only
  unfold execute
  cases hinstruction : Instruction.ofByte w.byte0 with
  | note kind =>
    cases kind with
    | hold => exact ⟨_, hwaits w.byte3⟩
    | plain | slide => exact ⟨_, hself⟩
  | command c =>
    rw [hinstruction] at hstays
    cases c with
    | finish | loop | jump | call | back | stop | stopCustom => cases hstays
    | play => exact ⟨_, (getElem_modify_ne (bne_iff_ne.1 hstays) _).trans hself⟩
    | wait => exact ⟨_, hwaits w.byte1⟩
    | keyUp | vibrato | envelope | fade | lock | cue | rest => exact ⟨_, hself⟩

theorem step_of_loop (hw : score.word? ts[i].base ts[i].step = some w)
    (hloop : w.loopsPattern = true) : (Tracks.step score i ts).tracks[i] =
      (Track.loop { ts[i] with step := ts[i].step + 1 } w.byte1 w.low).1 := by
  have hself : (ts.modify i fun t => { t with step := t.step + 1 })[i] =
      { ts[i] with step := ts[i].step + 1 } := Octet.getElem_set_self _ _ _
  rw [Tracks.step, hw]
  simp only
  unfold execute
  rw [of_decide_eq_true hloop]
  show (Octet.set _ i (Track.loop _ w.byte1 w.low).1)[i] = _
  rw [Octet.getElem_set_self, hself]

/-! ### A track that reads -/

/-- A track as what reads the words of its pattern; its time are the rows. -/
def reader (score : Score) (i : Slot) : Reader Tracks Move where
  apply := Move.apply score
  word? ts
    | .word j => if j = i then score.word? ts[i].base ts[i].step else none
    | _ => none
  Stands base step jumps ts := ts[i].StandsAt base step jumps
  wait ts := ts[i].wait.toNat
  period := 256

theorem word?_reader {mv : Move} (h : (reader score i).word? ts mv = some w) :
    mv = .word i ∧ score.word? ts[i].base ts[i].step = some w := by
  cases mv with
  | word j =>
    rw [reader] at h
    simp only at h
    split at h
    · next hj => exact ⟨congrArg Move.word hj, h⟩
    · cases h
  | _ => cases h

theorem reads_word (score : Score) (i : Slot) :
    (reader score i).Reads score.word? (.word i) := by
  intro base step jumps ts h
  have hself : (reader score i).word? ts (.word i) = score.word? ts[i].base ts[i].step :=
    if_pos rfl
  rw [hself, h.base, h.step]

theorem obeys (score : Score) (i : Slot) :
    (reader score i).Obeys (Word.staysOn i) Word.loopsPattern where
  wait_lt ts := ts[i].wait.toNat_lt
  stays {base step jumps ts mv w} h hword hstays := by
    obtain ⟨rfl, hw⟩ := word?_reader hword
    obtain ⟨wait, he⟩ := step_of_staysOn hw hstays
    show (Tracks.step score i ts).tracks[i].StandsAt base (step + 1) jumps
    rw [he]
    exact h.next wait
  begins {base step ts mv w} h hword hloop hcount := by
    obtain ⟨rfl, hw⟩ := word?_reader hword
    show (Tracks.step score i ts).tracks[i].StandsAt base w.low _
    rw [step_of_loop hw hloop]
    exact (h.next _).loop_first hcount
  again {base step n ts mv w} h hword hloop hn := by
    obtain ⟨rfl, hw⟩ := word?_reader hword
    show (Tracks.step score i ts).tracks[i].StandsAt base w.low _
    rw [step_of_loop hw hloop]
    exact (h.next _).loop_again hn
  ends {base step ts mv w} h hword hloop := by
    obtain ⟨rfl, hw⟩ := word?_reader hword
    show (Tracks.step score i ts).tracks[i].StandsAt base (step + 1) none
    rw [step_of_loop hw hloop]
    exact (h.next _).loop_last

/-! ### Rows -/

/-- Some moves are those of the row of a track, heard or gone through. -/
def IsRow (score : Score) (i : Slot) (ts : Tracks) (ms : List Move) : Prop :=
  ms = rowMoves score i ts ∨
    ∃ rate r, r.tracks = ts ∧ ms = Replay.onTracks score rate (Replay.trackMoves score i r) r

/-- A move stops a track that does not rest. -/
def Move.isStop : Move → Bool
  | .stop _ => true
  | _ => false

/-- A row of track `i` that is not cut off, or what happens in between: it gives the track no
    pattern. -/
inductive Part (score : Score) (i : Slot) : Nat → List Move → Tracks → Prop where
  | row {ms : List Move} {ts : Tracks} : IsRow score i ts ms → ms.any Move.isStop = false →
      Part score i 1 ms ts
  /-- The rest of a row that has begun. -/
  | words {ms : List Move} {ts : Tracks} : (∀ mv ∈ ms, mv = .word i) → Part score i 0 ms ts
  | aside {ms : List Move} {ts : Tracks} : spared score i ms ts = true → Part score i 0 ms ts

theorem mem_simulateMoves (i : Slot) : ∀ (n : Nat) (ts : Tracks),
    ∀ mv ∈ simulateMoves score i n ts, mv = .word i ∨ mv.isStop = true
  | 0, _, mv, h => by
    rw [List.mem_singleton.1 h]
    exact .inr rfl
  | n + 1, ts, mv, h => by
    rw [simulateMoves] at h
    rcases List.mem_cons.1 h with rfl | h
    · exact .inl rfl
    · split at h
      · cases h
      · split at h
        · exact mem_simulateMoves i n _ mv h
        · cases h
        · cases h

theorem mem_onTracks_wordMoves (i : Slot) : ∀ (n : Nat) (r : Replay),
    ∀ mv ∈ Replay.onTracks score rate (Replay.wordMoves score i n r) r,
      mv = .word i ∨ mv.isStop = true
  | 0, _, mv, h => by
    rw [List.mem_singleton.1 h]
    exact .inr rfl
  | n + 1, r, mv, h => by
    rw [Replay.wordMoves] at h
    rcases List.mem_cons.1 h with rfl | h
    · exact .inl rfl
    · split at h
      · exact mem_onTracks_wordMoves i n _ mv h
      · cases h
      · cases h

/-- A row of a track that waits is over at once. -/
theorem IsRow.of_waiting (h : IsRow score i ts ms) (hruns : ts[i].Runs) (hwait : ts[i].wait ≠ 0) :
    ms = [.enter i] := by
  have henter : enter i ts = .idle (ts.countWait i) := (enter_of_runs hruns).trans (if_pos hwait)
  rcases h with rfl | ⟨rate, r, rfl, rfl⟩
  · rw [rowMoves, henter]
  · rw [Replay.trackMoves, henter]
    rfl

/-- In the other ones some words are read, one at least. -/
theorem IsRow.of_due (h : IsRow score i ts ms) (hruns : ts[i].Runs) (hwait : ts[i].wait = 0) :
    ∃ ns, ms = .enter i :: .word i :: ns ∧ ∀ mv ∈ ns, mv = .word i ∨ mv.isStop = true := by
  have henter : enter i ts = .runs (ts.countWait i) :=
    (enter_of_runs hruns).trans (if_neg (not_not.2 hwait))
  obtain ⟨n, hbound⟩ : ∃ n, rowBound = n + 1 := ⟨0x3fff, rfl⟩
  rcases h with rfl | ⟨rate, r, rfl, rfl⟩
  · have hall : ∀ mv ∈ simulateMoves score i rowBound (ts.countWait i),
        mv = .word i ∨ mv.isStop = true := mem_simulateMoves i rowBound _
    rw [rowMoves, henter]
    simp only [hbound, simulateMoves] at hall ⊢
    exact ⟨_, rfl, fun mv hmv => hall mv (List.mem_cons_of_mem _ hmv)⟩
  · have hall : ∀ mv ∈ Replay.onTracks score rate
        (Replay.wordMoves score i rowBound (r.enterTrack i)) (r.enterTrack i),
        mv = .word i ∨ mv.isStop = true := mem_onTracks_wordMoves i rowBound _
    rw [Replay.trackMoves, henter]
    simp only [hbound, Replay.wordMoves] at hall ⊢
    exact ⟨_, rfl, fun mv hmv => hall mv (List.mem_cons_of_mem _ hmv)⟩

/-- What happens in between leaves a track where it is. -/
theorem idles_of_spared : ∀ (ms : List Move) {ts : Tracks}, spared score i ms ts = true →
    (reader score i).Idles ms ts ∧ (run score ms ts)[i].wait = ts[i].wait
  | [], ts, _ => ⟨Reader.idles_nil ts, rfl⟩
  | mv :: ms, ts, h => by
    obtain ⟨hmv, hms⟩ := Bool.and_eq_true_iff.1 h
    obtain ⟨hidles, hwait⟩ := idles_of_spared ms hms
    obtain ⟨number, transpose, he, hplays⟩ := getElem_apply_of_spares hmv
    refine ⟨hidles.cons ?_ fun {base step jumps} hstands => ?_, ?_⟩
    · cases mv with
      | word j => exact if_neg (bne_iff_ne.1 (Bool.and_eq_true_iff.1 hmv).1)
      | _ => rfl
    · show (mv.apply score ts)[i].StandsAt base step jumps
      rw [he]
      exact ⟨hstands.base, hstands.step, hstands.loops, hstands.runs.base,
        hplays hstands.runs.unstopped⟩
    · rw [run_cons, hwait, he]

theorem tracks_enter_of_runs (hruns : ts[i].Runs) : (enter i ts).tracks = ts.countWait i := by
  rw [enter_of_runs hruns]
  split <;> rfl

/-- A track begins its row where it is. -/
theorem idles_enter (hruns : ts[i].Runs) : (reader score i).Idles [.enter i] ts := by
  refine ⟨rfl, fun {base step jumps} h => ?_⟩
  show (enter i ts).tracks[i].StandsAt base step jumps
  rw [tracks_enter_of_runs hruns, getElem_countWait]
  exact ⟨h.base, h.step, h.loops, h.runs.base, h.runs.unstopped⟩

/-- A row brings a track on in its loop, and nothing in between takes it back. -/
theorem proceeds_part {L : WordLoop} {c p k : Nat}
    (hL : L.Fits score.word? (Word.staysOn i) Word.loopsPattern) (hms : Part score i c ms ts)
    (h : (reader score i).At L p k ts) : (reader score i).Proceeds L c p k ms ts := by
  cases hms with
  | words hwords =>
    exact Reader.proceeds_words (obeys score i) hL h ((reads_word score i).of_forall_eq hwords)
  | aside hspared =>
    obtain ⟨hidles, hwait⟩ := idles_of_spared ms hspared
    exact Reader.proceeds_idle h hidles (by
      rw [Nat.zero_add]
      exact (congrArg UInt8.toNat hwait).le)
  | row hrow hstops =>
    have hruns := h.stands.runs
    by_cases hwait : ts[i].wait = 0
    · obtain ⟨ns, rfl, hns⟩ := hrow.of_due hruns hwait
      have hwords : ∀ mv ∈ ns, mv = .word i := fun mv hmv =>
        (hns mv hmv).resolve_right (List.any_eq_false.1 hstops mv (by simp [hmv]))
      exact Reader.proceeds_turn (obeys score i) hL h (idles_enter hruns) (reads_word score i)
        ((reads_word score i).of_forall_eq hwords)
    · obtain rfl := hrow.of_waiting hruns hwait
      refine Reader.proceeds_idle h (idles_enter hruns) ?_
      have hle : (1 : UInt8) ≤ ts[i].wait := by
        rw [UInt8.le_iff_toNat_le]
        exact Nat.pos_of_ne_zero fun he => hwait (UInt8.toNat_inj.1 he)
      show 1 + (enter i ts).tracks[i].wait.toNat ≤ ts[i].wait.toNat
      rw [tracks_enter_of_runs hruns, getElem_countWait]
      show 1 + (ts[i].wait - 1).toNat ≤ ts[i].wait.toNat
      rw [UInt8.toNat_sub_of_le _ _ hle]
      rw [UInt8.le_iff_toNat_le] at hle
      exact (Nat.add_sub_cancel' hle).le

end Tracks

/-! ## Macros -/

/-- The counter of a macro whose loop still makes some jumps. -/
def Program.counter : Option Nat → Int16
  | none => -1
  | some n => Int16.ofNat n

/-- Where a macro stands: its words, the next of them, and its counter. -/
def Program.place (p : Program) : UInt32 × UInt16 × Int16 := (p.base, p.step, p.jumps)

/-- A macro stands at a word, and its loop still makes so many jumps. -/
structure Program.StandsAt (base : UInt32) (step : UInt16) (jumps : Option Nat) (p : Program) :
    Prop where
  base : p.base = base
  step : p.step = step
  jumps : p.jumps = counter jumps

theorem Program.StandsAt.congr {p q : Program} {base : UInt32} {step : UInt16}
    {jumps : Option Nat} (h : p.StandsAt base step jumps) (he : q.place = p.place) :
    q.StandsAt base step jumps := by
  simp only [place, Prod.mk.injEq] at he
  exact ⟨he.1.trans h.base, he.2.1.trans h.step, he.2.2.trans h.jumps⟩

theorem Program.StandsAt.next {p : Program} {base : UInt32} {step : UInt16} {jumps : Option Nat}
    (h : p.StandsAt base step jumps) :
    Program.StandsAt base (step + 1) jumps { p with step := p.step + 1 } :=
  ⟨h.base, congrArg (· + 1) h.step, h.jumps⟩

/-- An operation that goes on to the next word and leaves the counter alone: it does not
    jump, neither always nor above a note or a volume, does not end the macro, does not wait
    for the key, and starts no macro. -/
def Operation.stays : Operation → Bool
  | .loop | .loopKeyDown | .jump | .call | .back | .splitNote | .splitVolume | .stop
  | .waitKeyUp | .start => false
  | _ => true

/-- A word of a macro is one of such an operation. -/
def Word.staysInMacro (w : Word) : Bool := (Operation.ofByte w.byte0).stays

/-- A word of a macro jumps back. -/
def Word.loopsMacro (w : Word) : Bool := Operation.ofByte w.byte0 = .loop

namespace Lane

variable {l : Lane} {w : Word} {base : UInt32} {step : UInt16} {n : Nat}

/-! ### Words -/

theorem step_yield (l : Lane) : l.yield.lane.channel.program.step = l.channel.program.step := by
  unfold yield; split <;> rfl

theorem step_switchOff (l : Lane) (w : Word) :
    (l.switchOff w).lane.channel.program.step = l.channel.program.step := by
  unfold switchOff; simp only; split <;> rfl

theorem step_reset (l : Lane) (dialect : Dialect) (w : Word) :
    (l.reset dialect w).channel.program.step = l.channel.program.step := by
  unfold reset; simp only; split <;> rfl

theorem step_switchOn (l : Lane) (dialect : Dialect) (w : Word) :
    (l.switchOn dialect w).channel.program.step = l.channel.program.step := by
  unfold switchOn; simp only; split <;> rfl

theorem step_wait (l : Lane) (w : Word) :
    (l.wait w).lane.channel.program.step = l.channel.program.step := by
  unfold wait
  simp only
  split
  · split
    · rfl
    · exact step_yield _
  · exact step_yield _

theorem step_execute {op : Operation} (hop : op.stays = true) :
    (execute score op w l).lane.channel.program.step = l.channel.program.step := by
  cases op with
  | loop | loopKeyDown | jump | call | back | splitNote | splitVolume | stop | waitKeyUp
  | start => cases hop
  | offReset => exact (step_switchOff _ w).trans (step_reset l score.dialect w)
  | off => exact step_switchOff l w
  | on => exact step_switchOn l score.dialect w
  | wait => exact step_wait l w
  | waitVoice | previousNote | addNote | setNote => exact step_yield _
  | addVolume | setVolume =>
    rw [execute]
    split <;> rfl
  | _ => rfl

/-- An operation that stays leaves a macro where it is, at the next word. -/
theorem place_execute {op : Operation} (hop : op.stays = true) :
    (execute score op w l).lane.channel.program.place = l.channel.program.place := by
  have hothers : leads op = false ∧ countsJumps op = false := by
    cases op with
    | call | jump | back | loop | loopKeyDown | waitKeyUp => cases hop
    | _ => exact ⟨rfl, rfl⟩
  have hbase : (execute score op w l).lane.channel.program.base = l.channel.program.base :=
    congrArg Prod.fst (places_execute hothers.1)
  have hjumps : (execute score op w l).lane.channel.program.jumps = l.channel.program.jumps :=
    congrArg Prod.fst (registers_execute hothers.2)
  rw [Program.place, hbase, step_execute hop, hjumps]
  rfl

/-- A loop that is not used up is counted. -/
theorem loop_counted {jumps : Option Nat} (h : l.channel.program.StandsAt base step jumps)
    (hused : l.channel.program.jumps ≠ 0)
    (hleft : (if l.channel.program.jumps - 1 < 0 then w.byte1.toUInt16.toInt16 - 1
      else l.channel.program.jumps - 1) = Int16.ofNat n) :
    (l.loop w).channel.program.StandsAt base w.low (some n) := by
  simp only [loop, if_neg hused, hleft]
  exact ⟨h.base, rfl, rfl⟩

theorem loop_first (h : l.channel.program.StandsAt base step none) (hcount : w.byte1 ≠ 0) :
    (l.loop w).channel.program.StandsAt base w.low (some (w.byte1.toNat - 1)) := by
  have hjumps : l.channel.program.jumps = -1 := h.jumps
  have hlt := w.byte1.toNat_lt
  have hpos : 0 < w.byte1.toNat := Nat.pos_of_ne_zero fun he => hcount (UInt8.toNat_inj.1 he)
  refine loop_counted h (by rw [hjumps]; decide) ?_
  rw [hjumps, if_pos (by decide)]
  apply Int16.toInt_inj.1
  rw [toInt_byte_sub_one, Int16.toInt_ofNat_of_lt (by omega)]
  omega

theorem loop_again (h : l.channel.program.StandsAt base step (some (n + 1))) (hn : n < 255) :
    (l.loop w).channel.program.StandsAt base w.low (some n) := by
  have hjumps : l.channel.program.jumps = Int16.ofNat (n + 1) := h.jumps
  have hone : (Int16.ofNat (n + 1)).toInt = n + 1 := Int16.toInt_ofNat_of_lt (by omega)
  have hleft : Int16.ofNat (n + 1) - 1 = Int16.ofNat n := by
    rw [Int16.ofNat_add]
    exact Int16.add_sub_cancel _ _
  refine loop_counted h (fun he => ?_) ?_
  · rw [hjumps] at he
    rw [he] at hone
    exact absurd hone (by show (0 : Int) ≠ n + 1; omega)
  · rw [hjumps, hleft, if_neg]
    rw [Int16.lt_iff_toInt_lt, Int16.toInt_ofNat_of_lt (by omega)]
    exact Int.not_lt.2 (Int.natCast_nonneg n)

theorem loop_last (h : l.channel.program.StandsAt base step (some 0)) :
    (l.loop w).channel.program.StandsAt base step none := by
  have hjumps : l.channel.program.jumps = 0 := h.jumps
  unfold loop
  simp only [hjumps, if_pos]
  exact ⟨h.base, h.step, rfl⟩

end Lane

namespace Channel

variable {c : Channel}

theorem place_countWait (c : Channel) : c.countWait.1.program.place = c.program.place := by
  unfold countWait; split <;> rfl

theorem running_of_turn (h : c.countWait.2 = true) : c.program.running ≠ 0 := by
  intro hstopped
  rw [countWait, if_pos hstopped] at h
  cases h

theorem wait_of_no_turn (h : c.countWait.2 = false) :
    (if c.program.running = 0 then 0 else 1) + c.countWait.1.program.wait.toNat =
      c.program.wait.toNat := by
  unfold countWait at h ⊢
  by_cases hstopped : c.program.running = 0
  · rw [if_pos hstopped, if_pos hstopped]
    exact Nat.zero_add _
  · rw [if_neg hstopped] at h ⊢
    have hwait : c.program.wait ≠ 0 := of_decide_eq_false h
    have hle : (1 : UInt16) ≤ c.program.wait := by
      rw [UInt16.le_iff_toNat_le]
      exact Nat.pos_of_ne_zero fun he => hwait (UInt16.toNat_inj.1 he)
    rw [if_neg hstopped]
    show 1 + (c.program.wait - 1).toNat = _
    rw [UInt16.toNat_sub_of_le _ _ hle]
    exact Nat.add_sub_cancel' (UInt16.le_iff_toNat_le.1 hle)

end Channel

namespace Machine

variable {m : Machine} {i : Slot} {w : Word}

/-- A word of a macro does to it what its operation does behind it. -/
theorem program_runWord
    (hw : score.word? m.channels[i].program.base m.channels[i].program.step = some w)
    (hop : Operation.ofByte w.byte0 ≠ .start) :
    (m.runWord score i).channels[i].program =
      (Lane.execute score (Operation.ofByte w.byte0) (w.withByte0 0)
        ((m.lane i).jumpTo (m.channels[i].program.step + 1))).lane.channel.program := by
  have hturn : (m.lane i).turn score = Lane.execute score (Operation.ofByte w.byte0)
      (w.withByte0 0) ((m.lane i).jumpTo (m.channels[i].program.step + 1)) := by
    unfold Lane.turn lane
    simp only [hw]
  have hnone : ((m.lane i).turn score).word? = none := by
    rw [hturn]
    exact Lane.word?_execute hop
  rw [← hturn]
  unfold runWord
  cases hout : (m.lane i).turn score with
  | starts l w =>
    rw [hout] at hnone
    cases hnone
  | goesOn l | rests l | cues l => exact congrArg Channel.program (Octet.getElem_set_self _ _ _)

theorem program_runWord_of_loop
    (hw : score.word? m.channels[i].program.base m.channels[i].program.step = some w)
    (hloop : w.loopsMacro = true) : (m.runWord score i).channels[i].program =
      (((m.lane i).jumpTo (m.channels[i].program.step + 1)).loop
        (w.withByte0 0)).channel.program := by
  have hop : Operation.ofByte w.byte0 = .loop := of_decide_eq_true hloop
  rw [program_runWord hw (by rw [hop]; decide), hop]
  rfl

/-- A move ends a macro that does not rest. -/
def Move.isHalt : Move → Bool
  | .halt _ => true
  | _ => false

theorem mem_wordMoves (i : Slot) : ∀ (n : Nat) (m : Machine),
    ∀ mv ∈ wordMoves score i n m, mv = .word i ∨ mv.isHalt = true
  | 0, _, mv, h => by
    rw [List.mem_singleton.1 h]
    exact .inr rfl
  | n + 1, m, mv, h => by
    rw [wordMoves] at h
    rcases List.mem_cons.1 h with rfl | h
    · exact .inl rfl
    · split at h
      · cases h
      · exact mem_wordMoves i n _ mv h

/-- The macro of a channel has its turn in a tick. -/
def hasTurn (score : Score) (i : Slot) (m : Machine) : Bool :=
  ((m.onChannel i Channel.countLock).takeEffect score i).channels[i].countWait.2

/-- In such a tick it reads some words, one at least. -/
theorem channelMoves_of_turn (h : m.hasTurn score i = true) :
    ∃ ns, channelMoves score i m = [.countLock i, .takeEffect i, .countWait i, .wake i] ++
        .word i :: ns ++ [.bend i, .load i] ∧
      ∀ mv ∈ ns, mv = .word i ∨ mv.isHalt = true := by
  obtain ⟨n, hbound⟩ : ∃ n, macroBound = n + 1 := ⟨0x7fff, rfl⟩
  unfold hasTurn at h
  unfold channelMoves turnMoves
  rw [if_pos h]
  generalize (((m.onChannel i Channel.countLock).takeEffect score i).onChannel i
    fun c => c.countWait.1).onChannel i (fun c => { c with program.wait := 0 }) = woken
  have hall : ∀ mv ∈ wordMoves score i macroBound woken, mv = .word i ∨ mv.isHalt = true :=
    mem_wordMoves i macroBound woken
  rw [hbound, wordMoves] at hall ⊢
  exact ⟨_, rfl, fun mv hmv => hall mv (List.mem_cons_of_mem _ hmv)⟩

theorem channelMoves_of_no_turn (h : m.hasTurn score i = false) : channelMoves score i m =
    [.countLock i, .takeEffect i, .countWait i] ++ [.bend i, .load i] := by
  unfold hasTurn at h
  unfold channelMoves turnMoves
  rw [h]
  rfl

theorem channel_beforeTurn (score : Score) (i : Slot) (m : Machine) :
    (m.beforeTurn score i).channels[i] =
      ((m.onChannel i Channel.countLock).takeEffect score i).channels[i].countWait.1 :=
  Octet.getElem_set_self _ _ _

theorem place_beforeTurn (hcode : m.NoNoteWaits i) :
    (m.beforeTurn score i).channels[i].program.place = m.channels[i].program.place := by
  obtain ⟨keyDown, heffect⟩ := program_takeEffect score hcode
  rw [channel_beforeTurn, Channel.place_countWait, heffect]
  rfl

theorem place_woken (i : Slot) (m : Machine) :
    (m.onChannel i fun c => { c with program.wait := 0 }).channels[i].program.place =
      m.channels[i].program.place := by
  have hself : (m.onChannel i fun c => { c with program.wait := 0 }).channels[i] =
      { m.channels[i] with program.wait := 0 } := Octet.getElem_set_self _ _ _
  rw [hself]
  rfl

theorem run_beforeTurn (m : Machine) :
    run score rate [.countLock i, .takeEffect i, .countWait i] m = m.beforeTurn score i := rfl

theorem run_woken (m : Machine) :
    run score rate [.countLock i, .takeEffect i, .countWait i, .wake i] m =
      (m.beforeTurn score i).onChannel i fun c => { c with program.wait := 0 } :=
  congrArg (fun m => Move.apply score rate m (.wake i)) (run_beforeTurn m)

theorem running_of_turn (hcode : m.NoNoteWaits i) (h : m.hasTurn score i = true) :
    m.channels[i].program.running ≠ 0 := by
  obtain ⟨keyDown, heffect⟩ := program_takeEffect score hcode
  have hrunning := Channel.running_of_turn h
  rwa [heffect] at hrunning

/-- Without a turn the wait is shorter by one, unless the macro is stopped. -/
theorem wait_of_no_turn (hcode : m.NoNoteWaits i) (h : m.hasTurn score i = false) :
    (if m.channels[i].program.running = 0 then 0 else 1) +
        (m.beforeTurn score i).channels[i].program.wait.toNat =
      m.channels[i].program.wait.toNat := by
  obtain ⟨keyDown, heffect⟩ := program_takeEffect score hcode
  have hwait := Channel.wait_of_no_turn h
  rw [heffect] at hwait
  rw [channel_beforeTurn]
  exact hwait

end Machine

namespace Replay

variable {r : Replay} {i : Slot} {w : Word} {ms : List Move}

/-! ### A macro that reads -/

/-- The macro of a channel as what reads its words; its time are the ticks of the channel in
    which it is not stopped. -/
def reader (score : Score) (rate : UInt32) (i : Slot) : Reader Replay Move where
  apply := Move.apply score rate
  word? r
    | .machine (.word j) =>
      if j = i then
        score.word? r.machine.channels[i].program.base r.machine.channels[i].program.step
      else none
    | _ => none
  Stands base step jumps r := r.machine.channels[i].program.StandsAt base step jumps
  wait r := r.machine.channels[i].program.wait.toNat
  period := 65536

theorem word?_reader {mv : Move} (h : (reader score rate i).word? r mv = some w) :
    mv = .machine (.word i) ∧ score.word? r.machine.channels[i].program.base
      r.machine.channels[i].program.step = some w := by
  unfold reader at h
  simp only at h
  split at h
  · split at h
    · next hj => exact ⟨congrArg (fun j => Move.machine (.word j)) hj, h⟩
    · cases h
  · cases h

theorem reads_word (score : Score) (rate : UInt32) (i : Slot) :
    (reader score rate i).Reads score.word? (.machine (.word i)) := by
  intro base step jumps r h
  have hself : (reader score rate i).word? r (.machine (.word i)) =
      score.word? r.machine.channels[i].program.base r.machine.channels[i].program.step :=
    if_pos rfl
  rw [hself, h.base, h.step]

theorem obeys (score : Score) (rate : UInt32) (i : Slot) :
    (reader score rate i).Obeys Word.staysInMacro Word.loopsMacro where
  wait_lt r := r.machine.channels[i].program.wait.toNat_lt
  stays {base step jumps r mv w} h hword hstays := by
    obtain ⟨rfl, hw⟩ := word?_reader hword
    have hstart : Operation.ofByte w.byte0 ≠ .start := by
      intro he
      rw [Word.staysInMacro, he] at hstays
      cases hstays
    show (r.machine.runWord score i).channels[i].program.StandsAt base (step + 1) jumps
    rw [Machine.program_runWord hw hstart]
    exact Program.StandsAt.congr h.next (Lane.place_execute hstays)
  begins {base step r mv w} h hword hloop hcount := by
    obtain ⟨rfl, hw⟩ := word?_reader hword
    show (r.machine.runWord score i).channels[i].program.StandsAt base w.low _
    rw [← Word.byte1_withByte0 w 0] at hcount ⊢
    rw [Machine.program_runWord_of_loop hw hloop, ← Word.low_withByte0 w 0]
    exact Lane.loop_first h.next hcount
  again {base step n r mv w} h hword hloop hn := by
    obtain ⟨rfl, hw⟩ := word?_reader hword
    show (r.machine.runWord score i).channels[i].program.StandsAt base w.low _
    rw [Machine.program_runWord_of_loop hw hloop, ← Word.low_withByte0 w 0]
    exact Lane.loop_again h.next hn
  ends {base step r mv w} h hword hloop := by
    obtain ⟨rfl, hw⟩ := word?_reader hword
    show (r.machine.runWord score i).channels[i].program.StandsAt base (step + 1) _
    rw [Machine.program_runWord_of_loop hw hloop]
    exact Lane.loop_last h.next

/-! ### Ticks -/

/-- A move that is none of the turn of the macro of a channel, dispatches no note to the
    channel, and does not put all back. -/
def leavesMacro (score : Score) (i : Slot) (r : Replay) : Move → Bool
  | .machine (.bend _) | .machine (.load _) => true
  | .reset _ => false
  | mv => !mv.ofTick i && !r.sendsNote score i mv

/-- A tick of a channel, in which its macro is not ended for reading too much, or what
    happens in between.  No note comes to the channel.  A tick in which the macro is stopped,
    until its voice has played a region or for good, does not count. -/
inductive Part (score : Score) (rate : UInt32) (i : Slot) : Nat → List Move → Replay → Prop where
  | tick {r : Replay} : r.machine.NoNoteWaits i →
      (Machine.channelMoves score i r.machine).any Machine.Move.isHalt = false →
      Part score rate i (if r.machine.channels[i].program.running = 0 then 0 else 1)
        ((Machine.channelMoves score i r.machine).map .machine) r
  /-- The rest of a turn that has begun. -/
  | words {ms : List Move} {r : Replay} : (∀ mv ∈ ms, mv = .machine (.word i)) →
      Part score rate i 0 ms r
  | aside {ms : List Move} {r : Replay} :
      Along score rate (fun r mv => r.leavesMacro score i mv = true) ms r →
      Part score rate i 0 ms r

/-- A channel is switched off as a track begins its row, or nothing happens to it. -/
theorem channel_enterTrack (r : Replay) (i j : Slot) :
    (r.enterTrack j).machine.channels[i] = r.machine.channels[i] ∨
      (r.enterTrack j).machine.channels[i] = r.machine.channels[i].silenced := by
  unfold enterTrack
  split
  · exact .inl rfl
  · exact .inl rfl
  · exact (r.machine.channel_channelOff _ i).imp_right fun h => h.2.2

theorem program_apply_of_leaves (rate : UInt32) {mv : Move}
    (hmv : r.leavesMacro score i mv = true) :
    ∃ keyDown running yields, (mv.apply score rate r).machine.channels[i].program =
      { r.machine.channels[i].program with keyDown, running, yields } := by
  have hspares : r.silences i mv = false → (!mv.ofTick i && !r.sendsNote score i mv) = true →
      ∃ keyDown running yields, (mv.apply score rate r).machine.channels[i].program =
        { r.machine.channels[i].program with keyDown, running, yields } := by
    intro hoff hleaves
    have hall : r.spares score i mv = true := by
      rw [spares, hleaves, hoff]
      rfl
    obtain ⟨keyDown, running, -, he⟩ := program_apply_of_spares rate hall
    exact ⟨keyDown, running, _, he⟩
  cases mv with
  | machine mv =>
    cases mv with
    | bend j =>
      have hbend : (r.machine.bend j).channels[i].program = r.machine.channels[i].program := by
        rw [Machine.channels_bend, Octet.getElem_set]
        split
        · next he =>
          subst he
          exact congrArg Prod.fst (Channel.duty_bendOn _)
        · rfl
      exact ⟨_, _, _, hbend⟩
    | load j => exact ⟨_, _, _, rfl⟩
    | _ => exact hspares rfl hmv
  | enter j =>
    show ∃ keyDown running yields, (r.enterTrack j).machine.channels[i].program = _
    rcases r.channel_enterTrack i j with he | he <;> rw [he]
    · exact ⟨_, _, _, rfl⟩
    · exact ⟨_, 0, 0xff, rfl⟩
  | reset => cases hmv
  | _ => exact hspares rfl hmv

/-- What happens in between leaves a macro where it is. -/
theorem idles_of_leaves : ∀ (ms : List Move) {r : Replay},
    Along score rate (fun r mv => r.leavesMacro score i mv = true) ms r →
      (reader score rate i).Idles ms r ∧
        (run score rate ms r).machine.channels[i].program.wait =
          r.machine.channels[i].program.wait
  | [], r, _ => ⟨Reader.idles_nil r, rfl⟩
  | mv :: ms, r, ⟨hmv, hms⟩ => by
    obtain ⟨hidles, hwait⟩ := idles_of_leaves ms hms
    obtain ⟨keyDown, running, yields, he⟩ := program_apply_of_leaves rate hmv
    refine ⟨hidles.cons ?_ fun {base step jumps} hstands => ?_, ?_⟩
    · cases hword : (reader score rate i).word? r mv with
      | none => rfl
      | some w =>
        obtain ⟨rfl, -⟩ := word?_reader hword
        have hown : r.leavesMacro score i (.machine (.word i)) =
            (!(i == i) && !r.sendsNote score i (.machine (.word i))) := rfl
        rw [hown, BEq.rfl] at hmv
        cases hmv
    · exact hstands.congr ((congrArg Program.place he).trans rfl)
    · rw [run_cons, hwait, he]

theorem run_machine (ns : List Machine.Move) (r : Replay) :
    (reader score rate i).run (ns.map .machine) r = r.onMachine (Machine.run score rate ns) :=
  run_map_machine ns r

theorem idles_machine {ns : List Machine.Move} (hwords : .word i ∉ ns)
    (hplace : (Machine.run score rate ns r.machine).channels[i].program.place =
      r.machine.channels[i].program.place) :
    (reader score rate i).Idles (ns.map .machine) r := by
  refine ⟨Reader.words_eq_nil fun mv hmv s => ?_, fun {base step jumps} hstands => ?_⟩
  · obtain ⟨mv, hmem, rfl⟩ := List.mem_map.1 hmv
    cases hword : (reader score rate i).word? s (.machine mv) with
    | none => rfl
    | some w =>
      obtain rfl := Move.machine.inj (word?_reader hword).1
      exact absurd hmem hwords
  · rw [run_machine]
    exact hstands.congr hplace

theorem proceeds_aside {L : WordLoop} {p k : Nat}
    (hms : Along score rate (fun r mv => r.leavesMacro score i mv = true) ms r)
    (h : (reader score rate i).At L p k r) : (reader score rate i).Proceeds L 0 p k ms r := by
  obtain ⟨hidles, hwait⟩ := idles_of_leaves ms hms
  refine Reader.proceeds_idle h hidles ?_
  rw [Nat.zero_add]
  exact (congrArg UInt16.toNat hwait).le

theorem proceeds_behind {L : WordLoop} {p k : Nat} (h : (reader score rate i).At L p k r) :
    (reader score rate i).Proceeds L 0 p k ([.bend i, .load i].map .machine) r :=
  proceeds_aside ⟨rfl, rfl, trivial⟩ h

theorem proceeds_without_turn {L : WordLoop} {p k : Nat} (hcode : r.machine.NoNoteWaits i)
    (hturn : r.machine.hasTurn score i = false) (h : (reader score rate i).At L p k r) :
    (reader score rate i).Proceeds L (if r.machine.channels[i].program.running = 0 then 0 else 1)
      p k ((Machine.channelMoves score i r.machine).map .machine) r := by
  have hidles : (reader score rate i).Idles
      ([.countLock i, .takeEffect i, .countWait i].map Move.machine) r := by
    refine idles_machine ?_ ?_
    · simp only [List.mem_cons, List.not_mem_nil, reduceCtorEq, or_self, not_false_eq_true]
    · rw [Machine.run_beforeTurn]
      exact Machine.place_beforeTurn hcode
  have htime : (if r.machine.channels[i].program.running = 0 then 0 else 1) +
      (reader score rate i).wait ((reader score rate i).run
        ([.countLock i, .takeEffect i, .countWait i].map Move.machine) r) ≤
          (reader score rate i).wait r := by
    rw [run_machine]
    exact (Machine.wait_of_no_turn hcode hturn).le
  have hall := (Reader.proceeds_idle h hidles htime).append fun _ _ hat => proceeds_behind hat
  rwa [Nat.add_zero, ← List.map_append, ← Machine.channelMoves_of_no_turn hturn] at hall

theorem proceeds_with_turn {L : WordLoop} {p k : Nat}
    (hL : L.Fits score.word? Word.staysInMacro Word.loopsMacro) (hcode : r.machine.NoNoteWaits i)
    (hhalts : (Machine.channelMoves score i r.machine).any Machine.Move.isHalt = false)
    (hturn : r.machine.hasTurn score i = true) (h : (reader score rate i).At L p k r) :
    (reader score rate i).Proceeds L (if r.machine.channels[i].program.running = 0 then 0 else 1)
      p k ((Machine.channelMoves score i r.machine).map .machine) r := by
  obtain ⟨ns, hmoves, hns⟩ := Machine.channelMoves_of_turn hturn
  have hidles : (reader score rate i).Idles
      ([.countLock i, .takeEffect i, .countWait i, .wake i].map Move.machine) r := by
    refine idles_machine ?_ ?_
    · simp only [List.mem_cons, List.not_mem_nil, reduceCtorEq, or_self, not_false_eq_true]
    · rw [Machine.run_woken, Machine.place_woken]
      exact Machine.place_beforeTurn hcode
  have hwords : ∀ mv ∈ ns.map Move.machine, mv = .machine (.word i) := by
    intro mv hmv
    obtain ⟨mv, hmem, rfl⟩ := List.mem_map.1 hmv
    have hhalt := List.any_eq_false.1 hhalts mv (by rw [hmoves]; simp [hmem])
    rw [(hns mv hmem).resolve_right hhalt]
  have hread := Reader.proceeds_turn (obeys score rate i) hL h hidles (reads_word score rate i)
    ((reads_word score rate i).of_forall_eq hwords)
  have hall := hread.append fun _ _ hat => proceeds_behind hat
  rw [if_neg (Machine.running_of_turn hcode hturn), hmoves, List.map_append, List.map_append]
  exact hall

/-- A tick in which its macro is not stopped brings a channel on in its loop, and nothing in
    between takes it back. -/
theorem proceeds_part {L : WordLoop} {c p k : Nat}
    (hL : L.Fits score.word? Word.staysInMacro Word.loopsMacro) (hms : Part score rate i c ms r)
    (h : (reader score rate i).At L p k r) : (reader score rate i).Proceeds L c p k ms r := by
  cases hms with
  | words hwords =>
    exact Reader.proceeds_words (obeys score rate i) hL h
      ((reads_word score rate i).of_forall_eq hwords)
  | aside hleaves => exact proceeds_aside hleaves h
  | tick hcode hhalts =>
    cases hturn : r.machine.hasTurn score i with
    | false => exact proceeds_without_turn hcode hturn h
    | true => exact proceeds_with_turn hL hcode hhalts hturn h

end Replay

/-! ## Both -/

/-- Loops are exact.  A track, and the macro of a channel, that comes to a loop outside of one
    reads its words as often as the last of them says and once more, and stands behind them
    with no loop in hand, unless its rows or ticks are too few for so many words.  A pass may
    wait for any number of rows or ticks, and in between anything may happen that gives the
    track no pattern, or the channel no note. -/
theorem loops_exactly (score : Score) (rate : UInt32) (i : Slot) (L : WordLoop) (time : Nat) :
    (L.Fits score.word? (Word.staysOn i) Word.loopsPattern →
      ∀ (ts : Tracks) (ms : List Tracks.Move), ts[i].StandsAt L.base L.start none →
        (Tracks.reader score i).Parts (Tracks.Part score i) time ms ts →
          (Tracks.reader score i).Repeats L time ms ts) ∧
    (L.Fits score.word? Word.staysInMacro Word.loopsMacro →
      ∀ (r : Replay) (ms : List Replay.Move),
        r.machine.channels[i].program.StandsAt L.base L.start none →
        (Replay.reader score rate i).Parts (Replay.Part score rate i) time ms r →
          (Replay.reader score rate i).Repeats L time ms r) :=
  ⟨fun hL _ _ hstands hms => Reader.repeats_of_parts (Tracks.obeys score i)
      (Tracks.proceeds_part hL) hstands hms,
    fun hL _ _ hstands hms => Reader.repeats_of_parts (Replay.obeys score rate i)
      (Replay.proceeds_part hL) hstands hms⟩

namespace Player

/-- A tune of a note that is played twice in its row; its macro sets the volume twice. -/
def twiceTune : ByteArray :=
  songTune 0 0 [0 :: List.replicate 7 0xff00] [[0x0c002000, 0xf1010000, 0xf4000000]]
    [[0x0e000010, 0x05010000, 0x07000000]]

/-- The loop of the pattern. -/
def twiceNotes : WordLoop := ⟨0x10, 0, [⟨0x0c002000⟩], ⟨0xf1010000⟩⟩

/-- The loop of the macro. -/
def twiceVolumes : WordLoop := ⟨0x1c, 0, [⟨0x0e000010⟩], ⟨0x05010000⟩⟩

/-- The row of the first track and the second tick of the first channel. -/
theorem loops_twiceTune : ∃ tune p, load twiceTune (some ⟨#[]⟩) = .ok tune ∧
    Player.new tune minRate = .ok p ∧
    let row := Replay.onTracks tune.score p.rate
      (Replay.trackMoves tune.score 0 (p.inTick 23)) (p.inTick 23)
    let tick := (Machine.channelMoves tune.score 0 p.tick.replay.begin.machine).map .machine
    (Tracks.reader tune.score 0).Repeats twiceNotes 1 row (p.inTick 23).tracks ∧
      (Replay.reader tune.score p.rate 0).Repeats twiceVolumes 1 tick p.tick.replay.begin := by
  have h : ((load twiceTune (some ⟨#[]⟩)).toOption.bind fun tune =>
      (Player.new tune minRate).toOption.map fun p =>
        [decide ((p.inTick 23).tracks[(0 : Slot)].base = 0x10 ∧
            (p.inTick 23).tracks[(0 : Slot)].step = 0 ∧
            (p.inTick 23).tracks[(0 : Slot)].loops = noLoops ∧
            (p.inTick 23).tracks[(0 : Slot)].isStopped = false),
          decide (p.tune.score.word? 0x10 0 = some ⟨0x0c002000⟩ ∧
            p.tune.score.word? 0x10 (0 + 1) = some ⟨0xf1010000⟩),
          !(Replay.onTracks p.tune.score p.rate
            (Replay.trackMoves p.tune.score 0 (p.inTick 23)) (p.inTick 23)).any Tracks.Move.isStop,
          decide (p.tick.replay.begin.machine.channels[(0 : Slot)].program.base = 0x1c ∧
            p.tick.replay.begin.machine.channels[(0 : Slot)].program.step = 0 ∧
            p.tick.replay.begin.machine.channels[(0 : Slot)].program.jumps = -1 ∧
            p.tick.replay.begin.machine.channels[(0 : Slot)].program.running ≠ 0 ∧
            p.tick.replay.begin.machine.NoNoteWaits 0),
          decide (p.tune.score.word? 0x1c 0 = some ⟨0x0e000010⟩ ∧
            p.tune.score.word? 0x1c (0 + 1) = some ⟨0x05010000⟩),
          !(Machine.channelMoves p.tune.score 0 p.tick.replay.begin.machine).any
            Machine.Move.isHalt]) =
        some [true, true, true, true, true, true] := by decide +kernel
  obtain ⟨tune, p, hload, hnew, h⟩ := exists_new h
  obtain rfl := new_tune hnew
  simp only [List.cons.injEq, decide_eq_true_eq, Bool.not_eq_true', and_true] at h
  obtain ⟨⟨hbase, hstep, hloops, hplays⟩, ⟨hnote, hloop⟩, hstops, ⟨hbase', hstep', hjumps, hruns,
    hquiet⟩, ⟨hvolume, hloop'⟩, hhalts⟩ := h
  have hnotes : twiceNotes.Fits p.tune.score.word? (Word.staysOn 0) Word.loopsPattern :=
    WordLoop.fits_one hnote rfl hloop rfl rfl (by decide)
  have hvolumes : twiceVolumes.Fits p.tune.score.word? Word.staysInMacro Word.loopsMacro :=
    WordLoop.fits_one hvolume rfl hloop' rfl rfl (by decide)
  have htick : Replay.Part p.tune.score p.rate 0 _ _ _ := .tick hquiet hhalts
  rw [if_neg hruns] at htick
  exact ⟨p.tune, p, hload, hnew,
    (loops_exactly p.tune.score p.rate 0 twiceNotes 1).1 hnotes _ _
      ⟨hbase, hstep, hloops, by rw [hbase]; decide, hplays⟩
      (.single (.row (.inr ⟨p.rate, p.inTick 23, rfl, rfl⟩) hstops)),
    (loops_exactly p.tune.score p.rate 0 twiceVolumes 1).2 hvolumes _ _
      ⟨hbase', hstep', hjumps⟩ (.single htick)⟩

end Player

end PaulaReplay
