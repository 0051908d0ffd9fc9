/-
  Exactness: nothing is lost on the way from the voices to the sound.

  * `Voice.sounds` is what a voice plays in silent frames; `Voice.sounds_le`:
    all of it are numbers of 16 bits;
  * `Mix.Exact`: the output channels hold what their voices play, and the
    stereo sound half the sum of each side;
  * `Mix.exact_ofVoices`, `Mixer.exact_play`: so it is for every sound;
  * `Mix.cut16_of_two`: with four voices no sum is cut.
-/
import Mathlib.Tactic.SplitIfs
import PaulaReplay.Proofs.Mix

namespace PaulaReplay

/-! ## Voices -/

namespace Voice

variable {bank : Bank}

/-- What a voice plays in `n` silent frames. -/
def sounds (bank : Bank) (n : Nat) (v : Voice) : Array Int :=
  (v.render bank n).over (Array.replicate n 0)

theorem size_sounds (n : Nat) (v : Voice) : (v.sounds bank n).size = n := by
  rw [sounds, Rendering.size_over, Array.size_replicate]

/-- All frames are as loud as a voice has been. -/
theorem play_le (n : Nat) {r : Rendering} (h : ∀ x ∈ r.frames, -32768 ≤ x ∧ x ≤ 32512) :
    ∀ x ∈ (play bank n r).frames, -32768 ≤ x ∧ x ≤ 32512 := by
  induction n generalizing r with
  | zero => exact h
  | succ n ih =>
    obtain ⟨v, frames, fired⟩ := r
    have hpush : ∀ x ∈ frames.push (v.advance.amplitude bank), -32768 ≤ x ∧ x ≤ 32512 := by
      intro x hx
      rcases Array.mem_push.1 hx with hx | rfl
      · exact h x hx
      · exact amplitude_le bank v.advance
    rw [play, frame]
    cases v.advance.settle with
    | plays w f => exact ih hpush
    | runsOut w => exact hpush

theorem render_le (n : Nat) (v : Voice) :
    ∀ x ∈ (v.render bank n).frames, -32768 ≤ x ∧ x ≤ 32512 := by
  have hnone : ∀ x ∈ (#[] : Array Int), -32768 ≤ x ∧ x ≤ 32512 := fun x hx =>
    absurd hx (Array.not_mem_empty x)
  unfold render
  split
  · exact play_le n hnone
  · exact hnone

theorem sounds_le (n : Nat) (v : Voice) :
    ∀ x ∈ v.sounds bank n, -32768 ≤ x ∧ x ≤ 32512 := by
  intro x hx
  obtain ⟨i, hi⟩ := Array.mem_iff_getElem?.1 hx
  rw [sounds, Rendering.getElem?_over, Array.getElem?_replicate] at hi
  split_ifs at hi
  · exact render_le n v x (Array.mem_of_getElem? hi)
  · cases hi
    decide

end Voice

/-! ## Samples -/

theorem toInt_clamp (x : Int) : (clamp x).toInt = max (-32768) (min 32767 x) := by
  unfold clamp
  split_ifs with hhi hlo
  · rw [Int.min_eq_left (by omega)]
    rfl
  · rw [Int.min_eq_right (by omega), Int.max_eq_left (by omega)]
    rfl
  · rw [Int.min_eq_right (by omega), Int.max_eq_right (by omega)]
    exact Int16.toInt_ofInt_of_le (by omega) (by omega)

namespace Mix

variable {bank : Bank} {multi : Bool} {n : Nat} {voices : Octet Voice}

/-- The samples of an output channel as numbers. -/
def numbers (m : Mix) (c : Nat) : Array Int := (m.channel c).map Int16.toInt

/-- The number in a frame of an output channel. -/
def number (m : Mix) (c i : Nat) : Int := ((m.channel c)[i]?.getD 0).toInt

/-- The left side of a frame. -/
def left? (m : Mix) (i : Nat) : Option Int := m.stereo[2 * i]?.map Int16.toInt

/-- The right side of a frame. -/
def right? (m : Mix) (i : Nat) : Option Int := m.stereo[2 * i + 1]?.map Int16.toInt

/-- A number as far as 16 bits go. -/
def cut16 (x : Int) : Int := max (-32768) (min 32767 x)

/-- The sound of `n` frames of the voices, in which nothing is lost. -/
structure Exact (bank : Bank) (multi : Bool) (n : Nat) (voices : Octet Voice) (m : Mix) :
    Prop where
  /-- What a voice plays are numbers of 16 bits, one for each frame. -/
  size_sounds : ∀ v : Slot, (voices[v].sounds bank n).size = n
  sounds_le : ∀ v : Slot, ∀ x ∈ voices[v].sounds bank n, -32768 ≤ x ∧ x ≤ 32512
  /-- The output channels hold what their voices play, and silence. -/
  heads : m.numbers 0 = voices[(0 : Slot)].sounds bank n ∧
    m.numbers 1 = voices[(1 : Slot)].sounds bank n ∧
    m.numbers 2 = voices[(2 : Slot)].sounds bank n
  four : multi = false → m.numbers 3 = voices[(3 : Slot)].sounds bank n ∧
    m.channel 4 = Array.replicate n 0 ∧ m.channel 5 = Array.replicate n 0 ∧
    m.channel 6 = Array.replicate n 0
  seven : multi = true → m.numbers 3 = voices[(4 : Slot)].sounds bank n ∧
    m.numbers 4 = voices[(5 : Slot)].sounds bank n ∧
    m.numbers 5 = voices[(6 : Slot)].sounds bank n ∧
    m.numbers 6 = voices[(7 : Slot)].sounds bank n
  /-- A frame of stereo is half of what its sides add up to. -/
  size_stereo : m.stereo.size = 2 * n
  stereo_four : multi = false → ∀ i < n,
    m.left? i = some ((m.number 0 i + m.number 3 i) >>> (1 : Nat)) ∧
    m.right? i = some ((m.number 1 i + m.number 2 i) >>> (1 : Nat))
  stereo_seven : multi = true → ∀ i < n,
    m.left? i = some (cut16 ((m.number 0 i + m.number 3 i + m.number 6 i) >>> (1 : Nat))) ∧
    m.right? i = some (cut16
      ((m.number 1 i + m.number 2 i + m.number 4 i + m.number 5 i) >>> (1 : Nat)))

/-! ### Output channels -/

theorem heard_of_source {c : Fin 7} {v : Slot} (h : source? multi c = some v) :
    heard multi v = true := by
  revert h; revert v c multi; decide

/-- The samples of a voice are the numbers that it plays. -/
theorem toInt_channelOf (n : Nat) (v : Voice) :
    (channelOf n (v.render bank n)).map Int16.toInt = v.sounds bank n := by
  have hsame : ∀ x ∈ v.sounds bank n, (Int16.toInt ∘ Int16.ofInt) x = id x := by
    intro x hx
    have hle := Voice.sounds_le n v x hx
    exact Int16.toInt_ofInt_of_le (by omega) (by omega)
  calc (channelOf n (v.render bank n)).map Int16.toInt
      = (v.sounds bank n).map (Int16.toInt ∘ Int16.ofInt) := Array.map_map
    _ = (v.sounds bank n).map id := Array.map_congr_left hsame
    _ = v.sounds bank n := Array.map_id _

theorem channel_of_source {c : Fin 7} {v : Slot} (h : source? multi c = some v) :
    (ofVoices bank multi n voices).1.channel c = channelOf n (voices[v].render bank n) := by
  have hr : (renderings bank multi n voices)[v] = voices[v].render bank n := by
    rw [renderings, Octet.getElem_ofFn, if_pos (heard_of_source h)]
  rw [channel_eq c.isLt]
  simp only [ofVoices, Vector.getElem_ofFn, Fin.eta, h]
  rw [hr]

theorem numbers_of_source {c : Fin 7} {v : Slot} (h : source? multi c = some v) :
    (ofVoices bank multi n voices).1.numbers c = voices[v].sounds bank n := by
  rw [numbers, channel_of_source h, toInt_channelOf]

/-! ### Stereo -/

theorem getElem?_fold_push_push (left right : Nat → Int16) (out : Array Int16) {n i : Nat}
    (h : i < n) : (n.fold (fun i _ out => (out.push (left i)).push (right i)) out)[out.size + 2 * i]?
        = some (left i) ∧
      (n.fold (fun i _ out => (out.push (left i)).push (right i)) out)[out.size + (2 * i + 1)]?
        = some (right i) := by
  induction n with
  | zero => exact absurd h (Nat.not_lt_zero i)
  | succ n ih =>
    simp only [Nat.fold_succ, Array.getElem?_push, Array.size_push,
      size_fold_push_push left right out n]
    by_cases hi : i = n
    · subst hi
      rw [if_neg (by omega), if_pos rfl, if_pos (by omega)]
      exact ⟨rfl, rfl⟩
    · rw [if_neg (by omega), if_neg (by omega), if_neg (by omega), if_neg (by omega)]
      exact ih (by omega)

/-- Each side of a frame is half the sum of its channels, as far as 16 bits
    go. -/
theorem stereo_ofVoices (bank : Bank) (multi : Bool) (voices : Octet Voice) {n i : Nat}
    (h : i < n) :
    let m := (ofVoices bank multi n voices).1
    m.left? i = some (cut16 (sideSum multi m.channels .left i >>> (1 : Nat))) ∧
      m.right? i = some (cut16 (sideSum multi m.channels .right i >>> (1 : Nat))) := by
  intro m
  obtain ⟨hleft, hright⟩ := getElem?_fold_push_push
    (fun i => clamp (sideSum multi m.channels .left i >>> (1 : Nat)))
    (fun i => clamp (sideSum multi m.channels .right i >>> (1 : Nat)))
    (Array.emptyWithCapacity (2 * n)) h
  have hempty : (Array.emptyWithCapacity (2 * n) : Array Int16).size = 0 := rfl
  rw [hempty, Nat.zero_add] at hleft hright
  constructor
  · have hm : m.stereo[2 * i]? = _ := hleft
    rw [left?, hm, Option.map_some, toInt_clamp]
    rfl
  · have hm : m.stereo[2 * i + 1]? = _ := hright
    rw [right?, hm, Option.map_some, toInt_clamp]
    rfl

theorem number_eq (m : Mix) {c : Nat} (h : c < 7) (i : Nat) :
    m.number c i = (m.channels[c][i]?.getD 0).toInt := by
  rw [number, channel_eq h]

theorem sideSum_four (m : Mix) (i : Nat) :
    sideSum false m.channels .left i = m.number 0 i + m.number 3 i ∧
      sideSum false m.channels .right i = m.number 1 i + m.number 2 i := by
  simp [sideSum, Fin.foldl_succ, Side.ofChannel, channelCount, number_eq]

theorem sideSum_seven (m : Mix) (i : Nat) :
    sideSum true m.channels .left i = m.number 0 i + m.number 3 i + m.number 6 i ∧
      sideSum true m.channels .right i =
        m.number 1 i + m.number 2 i + m.number 4 i + m.number 5 i := by
  simp [sideSum, Fin.foldl_succ, Side.ofChannel, channelCount, number_eq]

/-- Two channels together are never too loud. -/
theorem cut16_of_two (m : Mix) (c d i : Nat) :
    cut16 ((m.number c i + m.number d i) >>> (1 : Nat)) =
      (m.number c i + m.number d i) >>> (1 : Nat) := by
  have hc : -32768 ≤ m.number c i ∧ m.number c i < 32768 := ⟨Int16.le_toInt _, Int16.toInt_lt _⟩
  have hd : -32768 ≤ m.number d i ∧ m.number d i < 32768 := ⟨Int16.le_toInt _, Int16.toInt_lt _⟩
  rw [Int.shiftRight_eq_div_pow, cut16]
  omega

theorem exact_ofVoices (bank : Bank) (multi : Bool) (n : Nat) (voices : Octet Voice) :
    (ofVoices bank multi n voices).1.Exact bank multi n voices where
  size_sounds v := voices[v].size_sounds n
  sounds_le v := voices[v].sounds_le n
  heads := by
    refine ⟨numbers_of_source (c := 0) ?_, numbers_of_source (c := 1) ?_,
      numbers_of_source (c := 2) ?_⟩ <;> cases multi <;> rfl
  four h := by
    subst h
    refine ⟨numbers_of_source (c := 3) rfl, ?_, ?_, ?_⟩ <;>
      exact channel_ofVoices_of_le bank n voices (by decide) (by decide)
  seven h := by
    subst h
    exact ⟨numbers_of_source (c := 3) rfl, numbers_of_source (c := 4) rfl,
      numbers_of_source (c := 5) rfl, numbers_of_source (c := 6) rfl⟩
  size_stereo := (wellSized_ofVoices bank multi n voices).stereo
  stereo_four h i hi := by
    subst h
    obtain ⟨hleft, hright⟩ := stereo_ofVoices bank false voices hi
    rw [hleft, hright, (sideSum_four _ i).1, (sideSum_four _ i).2, cut16_of_two, cut16_of_two]
    exact ⟨rfl, rfl⟩
  stereo_seven h i hi := by
    subst h
    obtain ⟨hleft, hright⟩ := stereo_ofVoices bank true voices hi
    rw [hleft, hright, (sideSum_seven _ i).1, (sideSum_seven _ i).2]
    exact ⟨rfl, rfl⟩

end Mix

/-- Whatever a mixer has played before, its sound is what the voices play: an
    output channel for each that is heard, and half their sums in stereo. -/
theorem Mixer.exact_play (bank : Bank) (multi : Bool) (n : Nat) (voices : Octet Voice)
    (m : Mixer) : (m.play bank multi n voices).1.mix.Exact bank multi n voices := by
  rw [play_eq]
  exact Mix.exact_ofVoices bank multi n voices

example :
    let voice : Voice :=
      { mode := 1, nextLength := 4, length := 4, step := 1 <<< phaseShift, volume := 1 }
    let voices : Octet Voice := Octet.ofFn fun v => if v = 3 ∨ v = 4 then voice else {}
    let mix := (Mixer.empty.play ⟨⟨#[1, 2, 3, 4, 5]⟩⟩ false 4 voices).1.mix
    mix.channel 3 = #[8, 12, 16, 20] ∧ mix.stereo = #[4, 0, 6, 0, 8, 0, 10, 0] := by
  decide +kernel

end PaulaReplay
